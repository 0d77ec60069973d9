import Infinity.Catalog.EntryList
import Infinity.Lib.Lists

/-! First committer wins on a catalog name.

The invariant of a version list under transactions is a relation between a version and
every version behind it (`Before`): committed versions stand in commit order; what a
transaction makes is newer than every commit it can see; and a version whose transaction
may still commit has only versions of the same transaction in front of it. Versions of
a transaction that is rolling back are the exception the code allows: others look past
them, so they may end up behind versions that were made, and even committed, later.

`first_committer_wins` draws the consequences for every interleaving. -/
namespace Infinity.Catalog

open Lib List Function Option

/-- The transaction may still commit. -/
def Live (m : Nat → Option TxnRecord) (t : Nat) : Prop :=
  ∃ r, m t = some r ∧ (r.state = .started ∨ r.state = .committing)

/-- What holds between a version `x` and a version `y` behind it. -/
structure Before (m : Nat → Option TxnRecord) (x y : Entry) : Prop where
  committed : ∀ c d, x.commitTs = some c → y.commitTs = some d → d ≤ c
  newer : ∀ d, x.commitTs = none → y.commitTs = some d → d ≤ x.beginTs
  leftover : ∀ c, x.commitTs = some c → y.commitTs = none → y.beginTs < c ∧ ¬ Live m y.txnId
  owner : x.commitTs = none → y.commitTs = none → Live m y.txnId → x.txnId = y.txnId
  overtaken : ∀ r, x.commitTs = none → y.commitTs = none → m x.txnId = some r → r.state = .committing →
    x.txnId ≠ y.txnId → y.beginTs < r.commitTs

/-- A transaction in the map: its timestamps come from the clock. -/
structure Registered (s : System) (t : Nat) (r : TxnRecord) : Prop where
  known : t ≤ s.nextTxnId
  began : r.beginTs ≤ s.currentTs + 1
  state : r.state = .started ∨ r.state = .committing ∨ r.state = .rollbacking ∨ r.state = .rollbacked
  stamped : r.state = .committing → r.beginTs < r.commitTs ∧ r.commitTs ≤ s.currentTs

structure Inv (s : System) : Prop where
  order : s.entries.Pairwise (Before s.txnMap)
  registered : ∀ t r, s.txnMap t = some r → Registered s t r
  owned : ∀ e ∈ s.entries, e.commitTs = none → ∃ r, s.txnMap e.txnId = some r ∧ r.beginTs = e.beginTs ∧
    r.state ≠ .rollbacked
  finished : ∀ e ∈ s.entries, ∀ c, e.commitTs = some c → s.txnMap e.txnId = none ∧ c ≤ s.currentTs
  known : ∀ e ∈ s.entries, e.txnId ≤ s.nextTxnId
  distinct : s.entries.Pairwise (fun x y => x.ptr ≠ y.ptr)
  allocated : ∀ e ∈ s.entries, e.ptr < s.nextPtr
  spans : ∀ h ∈ s.changes, h.beginTs < h.commitTs ∧ h.commitTs ≤ s.currentTs
  serial : s.changes.Pairwise (fun newer older => older.commitTs ≤ newer.beginTs)
  seen : ∀ e ∈ s.entries, e.commitTs = none → Live s.txnMap e.txnId → ∀ h ∈ s.changes, h.commitTs ≤ e.beginTs
  guarded : ∀ h ∈ s.changes, ∀ t r, s.txnMap t = some r → h.commitTs ≤ r.beginTs ∨
    ∃ y ∈ s.entries, ∃ d, y.commitTs = some d ∧ h.commitTs ≤ d

theorem inv_start (startTs : Nat) : Inv (System.start startTs) where
  order := .nil
  registered := fun _ _ h => by cases h
  owned := fun _ h => by cases h
  finished := fun _ h => by cases h
  known := fun _ h => by cases h
  distinct := .nil
  allocated := fun _ h => by cases h
  spans := fun _ h => by cases h
  serial := .nil
  seen := fun _ h => by cases h
  guarded := fun _ h => by cases h

variable {s s' : System} {t : Nat} {r : TxnRecord}

theorem Registered.mono (h : Registered s t r)
    (hts : s.currentTs ≤ s'.currentTs) (hid : s.nextTxnId ≤ s'.nextTxnId) : Registered s' t r :=
  ⟨h.known.trans hid, h.began.trans (Nat.succ_le_succ hts), h.state,
    fun hc => ⟨(h.stamped hc).1, (h.stamped hc).2.trans hts⟩⟩

variable {e : Entry}

theorem Inv.record (h : Inv s) (he : e ∈ s.entries) (hn : e.commitTs = none)
    (hid : e.txnId = t) (hr : s.txnMap t = some r) : r.beginTs = e.beginTs ∧ r.state ≠ .rollbacked := by
  obtain ⟨r', hr', hrest⟩ := h.owned e he hn
  rw [hid, hr] at hr'
  cases hr'
  exact hrest

theorem Inv.uncommitted (h : Inv s) (he : e ∈ s.entries) (hid : e.txnId = t)
    (hr : s.txnMap t = some r) : e.commitTs = none := by
  cases hc : e.commitTs with
  | none => rfl
  | some c =>
    have hnone := (h.finished e he c hc).1
    simp [hid, hr] at hnone

/-! ### What the search finds -/

theorem getTxnState_of (h : s.txnMap t = some r) : s.getTxnState t = r.state := by
  simp only [System.getTxnState, h]

variable {l : List Entry}

theorem find_ok (h : Inv s) (t b : Nat) (hl : ∀ e ∈ l, e ∈ s.entries) :
    ∃ f, findEntryNoLock s.getTxnState t b l = .ok f := by
  induction l with
  | nil => exact ⟨_, rfl⟩
  | cons e rest ih =>
    have ih := ih (fun x hx => hl x (mem_cons_of_mem _ hx))
    cases hc : e.commitTs with
    | some c => simp only [findEntryNoLock, hc]; exact ⟨_, rfl⟩
    | none =>
      obtain ⟨r, hr, -, -⟩ := h.owned e (hl e mem_cons_self) hc
      simp only [findEntryNoLock, hc, getTxnState_of hr]
      rcases (h.registered _ _ hr).state with hs | hs | hs | hs <;> rw [hs]
      · exact ⟨_, rfl⟩
      · exact ⟨_, rfl⟩
      · exact ih
      · exact ih

variable {b : Nat} {f : FindResult}

/-- One round of the search: the version decides, or it is being rolled back and the
search goes on behind it. -/
theorem find_cons {g : Nat → TxnState} {rest : List Entry} (hf : findEntryNoLock g t b (e :: rest) = .ok f) :
    (∃ c, e.commitTs = some c ∧ c ≤ b ∧ f = if e.deleted then .notFound else .found) ∨
      (e.commitTs = none ∧ g e.txnId = .started ∧ e.txnId = t ∧
        f = if e.deleted then .uncommittedDelete else .uncommitted) ∨
      (e.commitTs = none ∧ (g e.txnId = .rollbacking ∨ g e.txnId = .rollbacked) ∧ findEntryNoLock g t b rest = .ok f) ∨
      f = .conflict := by
  cases hc : e.commitTs with
  | some c =>
    simp only [findEntryNoLock, hc, Except.ok.injEq] at hf
    split at hf
    · exact .inl ⟨c, rfl, ‹_›, hf.symm⟩
    · exact .inr (.inr (.inr hf.symm))
  | none =>
    cases hst : g e.txnId <;> simp only [findEntryNoLock, hc, hst, Except.ok.injEq] at hf
    case notStarted | invalid => cases hf
    case started =>
      split at hf
      · exact .inr (.inl ⟨rfl, rfl, ‹_›, hf.symm⟩)
      · exact .inr (.inr (.inr hf.symm))
    case committing | committed => exact .inr (.inr (.inr hf.symm))
    case rollbacking => exact .inr (.inr (.inl ⟨rfl, .inl rfl, hf⟩))
    case rollbacked => exact .inr (.inr (.inl ⟨rfl, .inr rfl, hf⟩))

theorem not_live_of_rollback
    (h : s.getTxnState t = .rollbacking ∨ s.getTxnState t = .rollbacked) : ¬ Live s.txnMap t := by
  rintro ⟨r, hr, hs⟩
  rw [getTxnState_of hr] at h
  rcases h with h | h <;> rw [h] at hs <;> rcases hs with hs | hs <;> cases hs

/-- The way is free only if every commit is visible to the transaction and nobody may
still commit a version. -/
theorem find_free (hl : l.Pairwise (Before s.txnMap)) (hf : findEntryNoLock s.getTxnState t b l = .ok f)
    (hfree : f = .found ∨ f = .notFound) :
    ∀ y ∈ l, (∀ d, y.commitTs = some d → d ≤ b) ∧ (y.commitTs = none → ¬ Live s.txnMap y.txnId) := by
  induction l with
  | nil =>
    intro y hy
    cases hy
  | cons e rest ih =>
    obtain ⟨he, hrest⟩ := pairwise_cons.mp hl
    intro y hy
    rcases find_cons hf with ⟨c, hc, hcb, -⟩ | ⟨-, -, -, rfl⟩ | ⟨hn, hroll, hskip⟩ | rfl
    · rcases mem_cons.mp hy with rfl | hy
      · refine ⟨fun d hd => ?_, fun hn => ?_⟩
        · rw [hc] at hd
          cases hd
          exact hcb
        · simp [hc] at hn
      · exact ⟨fun d hd => le_trans ((he y hy).committed c d hc hd) hcb, fun hn => ((he y hy).leftover c hc hn).2⟩
    · rcases hfree with hfree | hfree <;> split at hfree <;> cases hfree
    · rcases mem_cons.mp hy with rfl | hy
      · refine ⟨fun d hd => ?_, fun _ => not_live_of_rollback hroll⟩
        simp [hn] at hd
      · exact ih hrest hskip y hy
    · rcases hfree with hfree | hfree <;> cases hfree

/-- A version of the transaction's own is found only in front of everything. -/
theorem find_own (hl : l.Pairwise (Before s.txnMap)) (hf : findEntryNoLock s.getTxnState t b l = .ok f)
    (hown : f = .uncommitted ∨ f = .uncommittedDelete) :
    ∃ e rest, l = e :: rest ∧ e.commitTs = none ∧ e.txnId = t ∧ s.getTxnState t = .started := by
  induction l with
  | nil =>
    cases hf
    rcases hown with hown | hown <;> cases hown
  | cons e rest ih =>
    obtain ⟨he, hrest⟩ := pairwise_cons.mp hl
    rcases find_cons hf with ⟨c, -, -, rfl⟩ | ⟨hn, hst, hid, -⟩ | ⟨hn, hroll, hskip⟩ | rfl
    · rcases hown with hown | hown <;> split at hown <;> cases hown
    · exact ⟨e, rest, rfl, hn, hid, by rwa [← hid]⟩
    · -- a version in front of one of a started transaction belongs to that transaction
      obtain ⟨e', rest', rfl, hn', hid', hst'⟩ := ih hrest hskip
      have hlive : Live s.txnMap e'.txnId := by
        rw [hid']
        cases hm : s.txnMap t with
        | none =>
          simp [System.getTxnState, hm] at hst'
        | some r => exact ⟨r, hm, .inl (by rwa [← getTxnState_of hm])⟩
      have hsame := (he e' mem_cons_self).owner hn hn' hlive
      exact absurd hlive (by rw [← hsame]; exact not_live_of_rollback hroll)
    · rcases hown with hown | hown <;> cases hown

/-! ### One step at a time -/

/-- Removing versions keeps the invariant, as long as every past change is still guarded. -/
theorem inv_sublist (h : Inv s) (hl : l.Sublist s.entries) (n : Nat) (hn : s.nextPtr ≤ n)
    (hguard : ∀ c ∈ s.changes, ∀ t r, s.txnMap t = some r → c.commitTs ≤ r.beginTs ∨
      ∃ y ∈ l, ∃ d, y.commitTs = some d ∧ c.commitTs ≤ d) :
    Inv {s with entries := l, nextPtr := n} where
  order := h.order.sublist hl
  registered := fun t r hr => (h.registered t r hr).mono le_rfl le_rfl
  owned := fun e he => h.owned e (hl.subset he)
  finished := fun e he => h.finished e (hl.subset he)
  known := fun e he => h.known e (hl.subset he)
  distinct := h.distinct.sublist hl
  allocated := fun e he => lt_of_lt_of_le (h.allocated e (hl.subset he)) hn
  spans := h.spans
  serial := h.serial
  seen := fun e he => h.seen e (hl.subset he)
  guarded := hguard

/-- Putting a version of a started transaction in front keeps the invariant, when every
commit is visible to it and nobody else may still commit a version. -/
theorem inv_push (h : Inv s) (hr : s.txnMap t = some r) (hst : r.state = .started) (indexType : Nat) (deleted : Bool)
    (hvis : ∀ y ∈ s.entries, ∀ d, y.commitTs = some d → d ≤ r.beginTs)
    (hsole : ∀ y ∈ s.entries, y.commitTs = none → Live s.txnMap y.txnId → y.txnId = t)
    (hseen : ∀ c ∈ s.changes, c.commitTs ≤ r.beginTs) :
    Inv {s with entries := s.newEntry t r indexType deleted :: s.entries, nextPtr := s.nextPtr + 1} where
  order := by
    refine pairwise_cons.mpr ⟨fun y hy => ?_, h.order⟩
    refine ⟨fun c _ hc => (by cases hc), fun d _ hd => hvis y hy d hd, fun c hc => (by cases hc),
      fun _ hn hlive => (hsole y hy hn hlive).symm, fun r' _ _ hr' hcom => ?_⟩
    rw [show s.txnMap t = some r' from hr'] at hr
    cases hr
    simp [hst] at hcom
  registered := fun t r hr => (h.registered t r hr).mono le_rfl le_rfl
  owned := forall_mem_cons.mpr ⟨fun _ => ⟨r, hr, rfl, by rw [hst]; decide⟩, h.owned⟩
  finished := forall_mem_cons.mpr ⟨fun _ hc => (by cases hc), h.finished⟩
  known := forall_mem_cons.mpr ⟨(h.registered t r hr).known, h.known⟩
  distinct := pairwise_cons.mpr ⟨fun y hy => ne_of_gt (h.allocated y hy), h.distinct⟩
  allocated := forall_mem_cons.mpr ⟨Nat.lt_succ_self _, fun e he => Nat.lt_succ_of_lt (h.allocated e he)⟩
  spans := h.spans
  serial := h.serial
  seen := forall_mem_cons.mpr ⟨fun _ _ => hseen, h.seen⟩
  guarded := by
    intro c hc t' r' hr'
    refine (h.guarded c hc t' r' hr').imp id ?_
    rintro ⟨y, hy, hd⟩
    exact ⟨y, mem_cons_of_mem _ hy, hd⟩

/-- When the search leaves the way free, a new version of the transaction may go in front. -/
theorem inv_push_free (h : Inv s) (hr : s.txnMap t = some r)
    (hst : r.state = .started) (indexType : Nat) (deleted : Bool)
    (hf : findEntryNoLock s.getTxnState t r.beginTs s.entries = .ok f) (hfree : f = .found ∨ f = .notFound) :
    Inv {s with entries := s.newEntry t r indexType deleted :: s.entries, nextPtr := s.nextPtr + 1} := by
  have hclear := find_free h.order hf hfree
  refine inv_push h hr hst indexType deleted (fun y hy => (hclear y hy).1)
    (fun y hy hn hlive => absurd hlive ((hclear y hy).2 hn)) (fun c hc => ?_)
  rcases h.guarded c hc t r hr with hle | ⟨y, hy, d, hd, hle⟩
  · exact hle
  · exact le_trans hle ((hclear y hy).1 d hd)

/-- In front of a deletion marker of its own the transaction may put a new version. -/
theorem inv_push_own (h : Inv s) (hr : s.txnMap t = some r)
    (hst : r.state = .started) (indexType : Nat) (deleted : Bool) {rest : List Entry}
    (hl : s.entries = e :: rest) (hn : e.commitTs = none) (hid : e.txnId = t) :
    Inv {s with entries := s.newEntry t r indexType deleted :: s.entries, nextPtr := s.nextPtr + 1} := by
  have hmem : e ∈ s.entries := by rw [hl]; exact mem_cons_self
  have hbegin : e.beginTs = r.beginTs := (h.record hmem hn hid hr).1.symm
  have hbehind : ∀ y ∈ s.entries, y = e ∨ Before s.txnMap e y := by
    have hord := h.order
    rw [hl] at hord ⊢
    intro y hy
    exact (mem_cons.mp hy).imp id ((pairwise_cons.mp hord).1 y)
  have hlive : Live s.txnMap e.txnId := ⟨r, by rwa [hid], .inl hst⟩
  refine inv_push h hr hst indexType deleted ?_ ?_ (fun c hc => ?_)
  · intro y hy d hd
    rcases hbehind y hy with rfl | hb
    · simp [hn] at hd
    rw [← hbegin]
    exact hb.newer d hn hd
  · intro y hy hny hly
    rcases hbehind y hy with rfl | hb
    · exact hid
    · rw [← hb.owner hn hny hly, hid]
  · rw [← hbegin]
    exact h.seen e hmem hn hlive c hc

theorem inv_nextPtr (h : Inv s) : Inv {s with nextPtr := s.nextPtr + 1} :=
  inv_sublist h (Sublist.refl _) _ (Nat.le_succ _) h.guarded

@[simp] theorem newEntry_txnId (s : System) (t : Nat) (r : TxnRecord) (i : Nat) (deleted : Bool) :
    (s.newEntry t r i deleted).txnId = t := rfl

@[simp] theorem newEntry_beginTs (s : System) (t : Nat) (r : TxnRecord) (i : Nat) (deleted : Bool) :
    (s.newEntry t r i deleted).beginTs = r.beginTs := rfl

variable {kind : EntryKind} {indexType : Nat} {conflictType : ConflictType}

theorem inv_addEntry {addIfFound : Bool} (h : Inv s) (ha : Allowed s (.addEntry t indexType conflictType addIfFound))
    (hs : step kind s (.addEntry t indexType conflictType addIfFound) = .ok s') : Inv s' := by
  obtain ⟨r, hr, hst⟩ := ha
  obtain ⟨f, hf⟩ := find_ok h t r.beginTs (fun e he => he)
  simp only [step, hr, addEntry, newEntry_txnId, newEntry_beginTs, hf] at hs
  -- each outcome of the search either pushes the new version or changes nothing
  have hpush : f = .found ∨ f = .notFound ∨ f = .uncommittedDelete →
      Inv {s with entries := s.newEntry t r indexType false :: s.entries, nextPtr := s.nextPtr + 1} := by
    rintro (rfl | rfl | rfl)
    · exact inv_push_free h hr hst indexType false hf (.inl rfl)
    · exact inv_push_free h hr hst indexType false hf (.inr rfl)
    · obtain ⟨e, rest, hl, hn, hid, -⟩ := find_own h.order hf (.inr rfl)
      exact inv_push_own h hr hst indexType false hl hn hid
  cases f with
  | found =>
    cases addIfFound with
    | true =>
      cases hs
      exact hpush (.inl rfl)
    | false => cases conflictType <;> cases hs <;> exact inv_nextPtr h
  | notFound =>
    cases addIfFound <;> cases hs <;> exact hpush (.inr (.inl rfl))
  | uncommitted =>
    cases addIfFound <;> cases conflictType <;> cases hs <;> exact inv_nextPtr h
  | uncommittedDelete =>
    cases addIfFound <;> cases hs <;> exact hpush (.inr (.inr rfl))
  | conflict => cases addIfFound <;> cases hs <;> exact inv_nextPtr h

theorem adoptIndexType_eq (kind : EntryKind) (s : System) (t : Nat) (r : TxnRecord) (indexType : Nat)
    (deleted : Bool) (l : List Entry) :
    ∃ i, adoptIndexType kind (s.newEntry t r indexType deleted) l = s.newEntry t r i deleted := by
  unfold adoptIndexType
  split
  · exact ⟨_, rfl⟩
  · exact ⟨_, rfl⟩

/-- What a drop does to the list: nothing, take out the transaction's own version in
front, or put a deletion marker in front. -/
theorem step_dropEntry (h : Inv s) (hr : s.txnMap t = some r)
    (hs : step kind s (.dropEntry t indexType conflictType) = .ok s') :
    s' = {s with nextPtr := s.nextPtr + 1} ∨
      (∃ e rest, s.entries = e :: rest ∧ e.commitTs = none ∧ e.txnId = t ∧
        s' = {s with entries := rest, nextPtr := s.nextPtr + 1}) ∨
      (∃ i, findEntryNoLock s.getTxnState t r.beginTs s.entries = .ok .found ∧
        s' = {s with entries := s.newEntry t r i true :: s.entries, nextPtr := s.nextPtr + 1}) := by
  obtain ⟨f, hf⟩ := find_ok h t r.beginTs (fun e he => he)
  simp only [step, hr, dropEntry, newEntry_txnId, newEntry_beginTs, hf] at hs
  cases f with
  | found =>
    obtain ⟨i, hi⟩ := adoptIndexType_eq kind s t r indexType true s.entries
    cases hs
    rw [hi]
    exact .inr (.inr ⟨i, hf, rfl⟩)
  | uncommitted =>
    obtain ⟨e, rest, hl, hn, hid, -⟩ := find_own h.order hf (.inl rfl)
    cases hs
    exact .inr (.inl ⟨e, rest, hl, hn, hid, by rw [hl]; rfl⟩)
  | notFound | uncommittedDelete => cases conflictType <;> cases hs <;> exact .inl rfl
  | conflict =>
    cases hs
    exact .inl rfl

theorem inv_dropEntry (h : Inv s) (ha : Allowed s (.dropEntry t indexType conflictType))
    (hs : step kind s (.dropEntry t indexType conflictType) = .ok s') : Inv s' := by
  obtain ⟨r, hr, hst⟩ := ha
  rcases step_dropEntry h hr hs with rfl | ⟨e, rest, hl, hn, -, rfl⟩ | ⟨i, hf, rfl⟩
  · exact inv_nextPtr h
  · refine inv_sublist h (by rw [hl]; exact sublist_cons_self e rest) _ (Nat.le_succ _) ?_
    intro c hc t' r' hr'
    refine (h.guarded c hc t' r' hr').imp id ?_
    rintro ⟨y, hy, d, hd, hle⟩
    rw [hl] at hy
    rcases mem_cons.mp hy with rfl | hy
    · simp [hn] at hd
    · exact ⟨y, hy, d, hd, hle⟩
  · exact inv_push_free h hr hst i true hf (.inl rfl)

variable {x y : Entry}

theorem Before.weaken {m m' : Nat → Option TxnRecord} (h : Before m x y) (hlive : ∀ t, Live m' t → Live m t)
    (hcom : ∀ t r, m' t = some r → r.state = .committing → m t = some r) : Before m' x y where
  committed := h.committed
  newer := h.newer
  leftover := fun c hc hn => ⟨(h.leftover c hc hn).1, fun hl => (h.leftover c hc hn).2 (hlive _ hl)⟩
  owner := fun hx hy hl => h.owner hx hy (hlive _ hl)
  overtaken := fun r hx hy hr hs hne => h.overtaken r hx hy (hcom _ r hr hs) hs hne

variable {m : Nat → Option TxnRecord} {o : Option TxnRecord}

/-- The record of one transaction changes, and some uncommitted versions may go. What its new
record has to keep is what the versions and the changes so far rely on. -/
theorem inv_record (h : Inv s) {ts n : Nat} (hl : l.Sublist s.entries) (hts : s.currentTs ≤ ts) (hn : s.nextTxnId ≤ n)
    (hkeep : ∀ e ∈ s.entries, ∀ c, e.commitTs = some c → e ∈ l ∧ e.txnId ≠ t)
    (hown : ∀ e ∈ l, e.commitTs = none → e.txnId = t →
      ∃ r', o = some r' ∧ r'.beginTs = e.beginTs ∧ r'.state ≠ .rollbacked)
    (hlive : ∀ e ∈ l, e.txnId = t → Live (update s.txnMap t o) t → Live s.txnMap t)
    (hnew : ∀ r', o = some r' → Registered {s with currentTs := ts, nextTxnId := n} t r' ∧
      (r'.state = .committing → ∀ y ∈ l, y.commitTs = none → y.beginTs < r'.commitTs) ∧
      ∀ c ∈ s.changes, c.commitTs ≤ r'.beginTs ∨ ∃ y ∈ s.entries, ∃ d, y.commitTs = some d ∧ c.commitTs ≤ d) :
    Inv {s with entries := l, currentTs := ts, nextTxnId := n, txnMap := update s.txnMap t o} := by
  have hlive : ∀ e ∈ l, Live (update s.txnMap t o) e.txnId → Live s.txnMap e.txnId := by
    intro e he hlv
    by_cases ht : e.txnId = t
    · rw [ht] at hlv ⊢
      exact hlive e he ht hlv
    · obtain ⟨r, hr, hs⟩ := hlv
      rw [update_of_ne ht] at hr
      exact ⟨r, hr, hs⟩
  refine ⟨?_, fun t' r' hr' => ?_, fun e he hne => ?_, fun e he c hc => ?_,
    fun e he => (h.known e (hl.subset he)).trans hn, h.distinct.sublist hl, fun e he => h.allocated e (hl.subset he),
    fun c hc => ⟨(h.spans c hc).1, (h.spans c hc).2.trans hts⟩, h.serial,
    fun e he hne hlv => h.seen e (hl.subset he) hne (hlive e he hlv), fun c hc t' r' hr' => ?_⟩
  · refine (h.order.sublist hl).imp_of_mem (fun {x y} hx hy hb => ?_)
    refine ⟨hb.committed, hb.newer,
      fun c hc hny => ⟨(hb.leftover c hc hny).1, fun hlv => (hb.leftover c hc hny).2 (hlive y hy hlv)⟩,
      fun hnx hny hlv => hb.owner hnx hny (hlive y hy hlv), fun r' hnx hny hr' hs => ?_⟩
    rcases update_cases hr' with ⟨-, hor⟩ | ⟨-, hr'⟩
    · exact fun _ => (hnew r' hor).2.1 hs y hy hny
    · exact hb.overtaken r' hnx hny hr' hs
  · rcases update_cases hr' with ⟨rfl, hor⟩ | ⟨-, hr'⟩
    · exact (hnew r' hor).1.mono le_rfl le_rfl
    · exact (h.registered t' r' hr').mono hts hn
  · by_cases ht : e.txnId = t
    · obtain ⟨r', hor, hrest⟩ := hown e he hne ht
      exact ⟨r', by rw [ht]; exact (update_self ..).trans hor, hrest⟩
    · obtain ⟨r', hr', hrest⟩ := h.owned e (hl.subset he) hne
      exact ⟨r', (update_of_ne ht ..).trans hr', hrest⟩
  · obtain ⟨hnone, hle⟩ := h.finished e (hl.subset he) c hc
    exact ⟨(update_of_ne (hkeep e (hl.subset he) c hc).2 ..).trans hnone, hle.trans hts⟩
  · have hguard : c.commitTs ≤ r'.beginTs ∨ ∃ y ∈ s.entries, ∃ d, y.commitTs = some d ∧ c.commitTs ≤ d := by
      rcases update_cases hr' with ⟨-, hor⟩ | ⟨-, hr'⟩
      · exact (hnew r' hor).2.2 c hc
      · exact h.guarded c hc t' r' hr'
    refine hguard.imp id ?_
    rintro ⟨y, hy, d, hd, hle⟩
    exact ⟨y, (hkeep y hy d hd).1, d, hd, hle⟩

theorem inv_beginTxn (h : Inv s) : Inv {s with
    nextTxnId := s.nextTxnId + 1
    txnMap := update s.txnMap (s.nextTxnId + 1) (some ⟨.started, s.currentTs + 1, 0⟩)} := by
  have hnobody : ∀ e ∈ s.entries, e.txnId ≠ s.nextTxnId + 1 := fun e he => ne_of_lt (Nat.lt_succ_of_le (h.known e he))
  refine inv_record h (Sublist.refl _) le_rfl (Nat.le_succ _) (fun e he _ _ => ⟨he, hnobody e he⟩)
    (fun e he _ ht => absurd ht (hnobody e he)) (fun e he ht => absurd ht (hnobody e he)) ?_
  rintro r' ⟨⟩
  exact ⟨⟨le_rfl, le_rfl, .inl rfl, nofun⟩, nofun, fun c hc => .inl ((h.spans c hc).2.trans (Nat.le_succ _))⟩

theorem inv_getWriteCommitTS (h : Inv s) (hr : s.txnMap t = some r) (hst : r.state = .started) : Inv {s with
      currentTs := s.currentTs + 2
      txnMap := update s.txnMap t (some {r with state := .committing, commitTs := s.currentTs + 2})} := by
  have hbegan : ∀ t r, s.txnMap t = some r → r.beginTs < s.currentTs + 2 := fun t r hr =>
    Nat.lt_succ_of_le (h.registered t r hr).began
  have hb := hbegan t r hr
  refine inv_record h (Sublist.refl _) (Nat.le_add_right _ 2) le_rfl (fun e he c hc => ⟨he, fun ht => ?_⟩)
    (fun e he hn ht => ⟨_, rfl, (h.record he hn ht hr).1, nofun⟩) (fun _ _ _ _ => ⟨r, hr, .inl hst⟩) ?_
  · simp [h.uncommitted he ht hr] at hc
  · rintro r' ⟨⟩
    refine ⟨⟨(h.registered t r hr).known, Nat.le_succ_of_le hb.le, .inr (.inl rfl), fun _ => ⟨hb, le_rfl⟩⟩,
      fun _ y hy hn => ?_, fun c hc => h.guarded c hc t r hr⟩
    -- everybody in the list began before this timestamp was taken
    obtain ⟨r', hr', hb, -⟩ := h.owned y hy hn
    rw [← hb]
    exact hbegan _ r' hr'

/-- A transaction that gives up, at any stage of its rollback: what is left of its
versions belongs to a transaction that is rolling back. -/
theorem inv_retire (h : Inv s) (hr : s.txnMap t = some r) (hl : l.Sublist s.entries)
    (ho : ∀ r', o = some r' → r'.beginTs = r.beginTs ∧ (r'.state = .rollbacking ∨ r'.state = .rollbacked))
    (hleft : ∀ e ∈ l, e.commitTs = none → e.txnId = t → ∃ r', o = some r' ∧ r'.state ≠ .rollbacked)
    (hkeep : ∀ e ∈ s.entries, ∀ c, e.commitTs = some c → e ∈ l) :
    Inv {s with entries := l, txnMap := update s.txnMap t o} := by
  refine inv_record h hl le_rfl le_rfl (fun e he c hc => ⟨hkeep e he c hc, fun ht => ?_⟩) (fun e he hn ht => ?_)
    (fun e he _ hlv => ?_) (fun r' hor => ?_)
  · simp [h.uncommitted he ht hr] at hc
  · obtain ⟨r', hor, hs⟩ := hleft e he hn ht
    exact ⟨r', hor, by rw [(ho r' hor).1]; exact (h.record (hl.subset he) hn ht hr).1, hs⟩
  · obtain ⟨r', hr', hs⟩ := hlv
    rw [update_self] at hr'
    rcases (ho r' hr').2 with h' | h' <;> rw [h'] at hs <;> rcases hs with hs | hs <;> cases hs
  · obtain ⟨hb, hs⟩ := ho r' hor
    have hcommitting : r'.state ≠ .committing := by rcases hs with hs | hs <;> rw [hs] <;> nofun
    have hreg := h.registered t r hr
    exact ⟨⟨hreg.known, by rw [hb]; exact hreg.began, .inr (.inr hs), fun hc => absurd hc hcommitting⟩,
      fun hc => absurd hc hcommitting, fun c hc => by rw [hb]; exact h.guarded c hc t r hr⟩

theorem Inv.live_unique (h : Inv s) (hx : x ∈ s.entries) (hy : y ∈ s.entries)
    (hnx : x.commitTs = none) (hny : y.commitTs = none) (hlx : Live s.txnMap x.txnId)
    (hly : Live s.txnMap y.txnId) : x.txnId = y.txnId := by
  by_cases he : x = y
  · rw [he]
  · rcases Lib.pairwise_or h.order hx hy he with hb | hb
    · exact hb.owner hnx hny hly
    · exact (hb.owner hny hnx hlx).symm

variable {c : Nat}

theorem commitOne_own (hid : e.txnId = t) (hn : e.commitTs = none) : commitOne t c e = {e with commitTs := some c} := by
  rw [commitOne, if_pos ⟨hid, hn⟩]

theorem commitOne_other (h : ¬ (e.txnId = t ∧ e.commitTs = none)) : commitOne t c e = e := by
  rw [commitOne, if_neg h]

@[simp] theorem commitOne_ids (t c : Nat) (e : Entry) :
    (commitOne t c e).txnId = e.txnId ∧ (commitOne t c e).ptr = e.ptr := by
  unfold commitOne
  split <;> exact ⟨rfl, rfl⟩

theorem commitOne_none (hn : (commitOne t c e).commitTs = none) :
    e.commitTs = none ∧ e.txnId ≠ t ∧ commitOne t c e = e := by
  by_cases ho : e.txnId = t ∧ e.commitTs = none
  · simp [commitOne_own ho.1 ho.2] at hn
  rw [commitOne_other ho] at hn
  exact ⟨hn, fun hid => ho ⟨hid, hn⟩, commitOne_other ho⟩

theorem live_erase {t t' : Nat} (h : Live (update m t none) t') : t' ≠ t ∧ Live m t' := by
  obtain ⟨r, hr, hs⟩ := h
  obtain ⟨hne, hr⟩ := update_none_eq_some.mp hr
  exact ⟨hne, r, hr, hs⟩

theorem before_commit (h : Inv s) (hr : s.txnMap t = some r)
    (hst : r.state = .committing) (hx : x ∈ s.entries) (hb : Before s.txnMap x y) :
    Before (update s.txnMap t none) (commitOne t r.commitTs x) (commitOne t r.commitTs y) := by
  have hlt : Live s.txnMap t := ⟨r, hr, .inr hst⟩
  by_cases hoy : y.txnId = t ∧ y.commitTs = none
  · -- in front of a version of the committing transaction stand only versions of the same
    have hox : x.txnId = t ∧ x.commitTs = none := by
      have hly : Live s.txnMap y.txnId := by rwa [hoy.1]
      cases hc : x.commitTs with
      | some c => exact absurd hly (hb.leftover c hc hoy.2).2
      | none => exact ⟨by rw [hb.owner hc hoy.2 hly, hoy.1], rfl⟩
    rw [commitOne_own hox.1 hox.2, commitOne_own hoy.1 hoy.2]
    exact ⟨fun c d hc hd => (by cases hc; cases hd; exact le_rfl), fun d hn => (by cases hn),
      fun c _ hn => (by cases hn), fun hn => (by cases hn), fun r' hn => by cases hn⟩
  · rw [commitOne_other hoy]
    by_cases hox : x.txnId = t ∧ x.commitTs = none
    · have hbeg := (h.record hx hox.2 hox.1 hr).1
      rw [commitOne_own hox.1 hox.2]
      refine ⟨fun c d hc hd => ?_, fun d hn => (by cases hn), fun c hc hn => ?_, fun hn => (by cases hn),
        fun r' hn => by cases hn⟩
      · cases hc
        have h₁ := hb.newer d hox.2 hd
        have h₂ := ((h.registered t r hr).stamped hst).1
        omega
      · cases hc
        have hne : x.txnId ≠ y.txnId := fun he => hoy ⟨by rw [← he, hox.1], hn⟩
        refine ⟨hb.overtaken r hox.2 hn (by rwa [hox.1]) hst hne, fun hl => ?_⟩
        exact hne (hb.owner hox.2 hn (live_erase hl).2)
    · rw [commitOne_other hox]
      exact hb.weaken (fun t' hl => (live_erase hl).2) fun t' r' hr' _ => (update_none_eq_some.mp hr').2

theorem inv_commit (h : Inv s) (hr : s.txnMap t = some r) (hst : r.state = .committing) : Inv {s with
      entries := commitEntries t r.commitTs s.entries
      txnMap := update s.txnMap t none
      changes := if s.entries.any (fun e => e.txnId == t && e.commitTs.isNone)
        then ⟨t, r.beginTs, r.commitTs⟩ :: s.changes else s.changes} := by
  have hreg := h.registered t r hr
  have hany (h : s.entries.any (fun e => e.txnId == t && e.commitTs.isNone) = true) :
      ∃ x ∈ s.entries, x.txnId = t ∧ x.commitTs = none := by
    obtain ⟨x, hx, hp⟩ := any_eq_true.mp h
    exact ⟨x, hx, by simpa using hp⟩
  -- a new change is recorded exactly when the transaction has a version in the list
  have hchange : ∀ c, c ∈ (if s.entries.any (fun e => e.txnId == t && e.commitTs.isNone)
      then ⟨t, r.beginTs, r.commitTs⟩ :: s.changes else s.changes) →
      c ∈ s.changes ∨ (c = ⟨t, r.beginTs, r.commitTs⟩ ∧ ∃ x ∈ s.entries, x.txnId = t ∧ x.commitTs = none) := by
    intro c hc
    split at hc
    · rename_i hsome
      exact (mem_cons.mp hc).symm.imp id fun hc => ⟨hc, hany hsome⟩
    · exact .inl hc
  have hseen : ∀ x ∈ s.entries, x.txnId = t → x.commitTs = none → ∀ c ∈ s.changes, c.commitTs ≤ r.beginTs := by
    intro x hx hid hn c hc
    rw [(h.record hx hn hid hr).1]
    exact h.seen x hx hn ⟨r, by rwa [hid], .inr hst⟩ c hc
  refine ⟨?_, ?_, ?_, ?_, ?_, ?_, ?_, ?_, ?_, ?_, ?_⟩
  · show (s.entries.map (commitOne t r.commitTs)).Pairwise _
    rw [pairwise_map]
    exact h.order.imp_of_mem (fun hx _ hb => before_commit h hr hst hx hb)
  · intro t' r' hr'
    exact (h.registered t' r' (update_none_eq_some.mp hr').2).mono le_rfl le_rfl
  · intro e' he' hn
    obtain ⟨e, he, rfl⟩ := mem_map.mp he'
    obtain ⟨hn, hne, heq⟩ := commitOne_none hn
    rw [heq]
    obtain ⟨r', hr', hrest⟩ := h.owned e he hn
    exact ⟨r', (update_of_ne hne ..).trans hr', hrest⟩
  · intro e' he' c hc
    obtain ⟨e, he, rfl⟩ := mem_map.mp he'
    rw [(commitOne_ids t r.commitTs e).1]
    by_cases ho : e.txnId = t ∧ e.commitTs = none
    · rw [commitOne_own ho.1 ho.2] at hc
      cases hc
      exact ⟨by rw [ho.1]; exact update_self .., (hreg.stamped hst).2⟩
    rw [commitOne_other ho] at hc
    obtain ⟨hnone, hle⟩ := h.finished e he c hc
    refine ⟨?_, hle⟩
    show update s.txnMap t none e.txnId = none
    rw [update_apply, hnone, ite_self]
  · simpa [commitEntries] using h.known
  · show (s.entries.map (commitOne t r.commitTs)).Pairwise _
    simpa [pairwise_map] using h.distinct
  · simpa [commitEntries] using h.allocated
  · intro c hc
    rcases hchange c hc with hc | ⟨rfl, -⟩
    · exact h.spans c hc
    · exact hreg.stamped hst
  · show (if _ then _ else _ : List Change).Pairwise _
    split
    · rename_i hsome
      -- its own version is newer than any change before
      obtain ⟨x, hx, hid, hn⟩ := hany hsome
      exact pairwise_cons.mpr ⟨hseen x hx hid hn, h.serial⟩
    · exact h.serial
  · intro e' he' hn hl c hc
    obtain ⟨e, he, rfl⟩ := mem_map.mp he'
    obtain ⟨hn, hne, heq⟩ := commitOne_none hn
    rw [heq] at hl ⊢
    rcases hchange c hc with hc | ⟨-, x, hx, hid, hnx⟩
    · exact h.seen e he hn (live_erase hl).2 c hc
    · exact absurd (h.live_unique he hx hn hnx (live_erase hl).2 ⟨r, by rwa [hid], .inr hst⟩)
        (by rwa [hid])
  · intro c hc t' r' hr'
    rcases hchange c hc with hc | ⟨rfl, x, hx, hid, hn⟩
    · refine (h.guarded c hc t' r' (update_none_eq_some.mp hr').2).imp id ?_
      rintro ⟨y, hy, d, hd, hle⟩
      refine ⟨y, mem_map.mpr ⟨y, hy, commitOne_other ?_⟩, d, hd, hle⟩
      rintro ⟨-, hn⟩
      rw [hd] at hn
      cases hn
    · exact .inr ⟨_, mem_map_of_mem hx, r.commitTs, by rw [commitOne_own hid hn], le_rfl⟩

/-! ### The cleanup scan -/

theorem pickVisible_cases (v : Nat) (l : List Entry) :
    ((∀ e ∈ l, ∀ c, e.commitTs = some c → v ≤ c) ∧ pickVisible v l = (l, true, [])) ∨
      ∃ front e c behind, l = front ++ e :: behind ∧ e.commitTs = some c ∧ c < v ∧
        (∀ x ∈ front, ∀ c, x.commitTs = some c → v ≤ c) ∧
        pickVisible v l = (front ++ (if e.deleted then [] else [e]), e.deleted, behind) := by
  induction l with
  | nil => exact .inl ⟨fun e he => (by cases he), rfl⟩
  | cons e l ih =>
    by_cases hv : e.commitTs.any (· < v) = true
    · obtain ⟨c, hc, hlt⟩ := (any_eq_true _ _).mp hv
      refine .inr ⟨[], e, c, l, rfl, hc, of_decide_eq_true hlt, fun x hx => (by cases hx), ?_⟩
      simp only [pickVisible, hv]
      cases e.deleted <;> rfl
    · have hnew : ∀ c, e.commitTs = some c → v ≤ c := by
        intro c hc
        by_contra hlt
        exact hv (by rw [hc]; exact decide_eq_true (by omega))
      simp only [pickVisible, hv, if_false, Bool.false_eq_true]
      rcases ih with ⟨hall, hp⟩ | ⟨front, e', c, behind, hl, hc, hlt, hfront, hp⟩
      · exact .inl ⟨forall_mem_cons.mpr ⟨hnew, hall⟩, by rw [hp]⟩
      · exact .inr ⟨e :: front, e', c, behind, by rw [hl]; rfl, hc, hlt, forall_mem_cons.mpr ⟨hnew, hfront⟩,
          by rw [hp]; rfl⟩

theorem pickBehind_eq (dropped : Bool) (l : List Entry) :
    (pickBehind dropped l).1 = l.filter (fun e => e.commitTs.isNone) ∧
      (pickBehind dropped l).2.map Prod.fst = l.filter (fun e => e.commitTs.isSome && !e.deleted) := by
  induction l generalizing dropped with
  | nil => exact ⟨rfl, rfl⟩
  | cons e l ih =>
    cases hc : e.commitTs with
    | none =>
      simp only [pickBehind, hc, isSome_none, Bool.false_eq_true, if_false, filter_cons,
        isNone_none, if_true, Bool.false_and]
      exact ⟨by rw [(ih dropped).1], (ih dropped).2⟩
    | some c =>
      cases hd : e.deleted with
      | true =>
        simp only [pickBehind, hc, hd, isSome_some, if_true, filter_cons, isNone_some,
          Bool.false_eq_true, if_false, Bool.not_true, Bool.and_false]
        exact ih true
      | false =>
        simp only [pickBehind, hc, hd, isSome_some, if_true, filter_cons, isNone_some,
          Bool.false_eq_true, if_false, Bool.not_false, Bool.and_true, map_cons]
        exact ⟨(ih false).1, by rw [(ih false).2]⟩

/-- **What the cleanup scan does.** Either no version is older than `v` and nothing
happens, or there is a first such version: it stays unless it is a deletion marker, the
committed versions behind it go, and those of them that are objects are handed out. -/
theorem pickCleanup_cases (v : Nat) (l : List Entry) : pickCleanup v l = (l, []) ∨
      ∃ front e c behind, l = front ++ e :: behind ∧ e.commitTs = some c ∧ c < v ∧
        (∀ x ∈ front, ∀ c, x.commitTs = some c → v ≤ c) ∧
        (pickCleanup v l).1 = front ++ (if e.deleted then [] else [e]) ++ behind.filter (fun e => e.commitTs.isNone) ∧
        (pickCleanup v l).2.map Prod.fst = behind.filter (fun e => e.commitTs.isSome && !e.deleted) := by
  rcases pickVisible_cases v l with ⟨-, hp⟩ | ⟨front, e, c, behind, hl, hc, hlt, hfront, hp⟩
  · left
    simp only [pickCleanup, hp, pickBehind, append_nil]
  · refine .inr ⟨front, e, c, behind, hl, hc, hlt, hfront, ?_, ?_⟩
    · simp only [pickCleanup, hp, (pickBehind_eq e.deleted behind).1]
    · simp only [pickCleanup, hp, (pickBehind_eq e.deleted behind).2]

theorem pickCleanup_sublist {v : Nat} (hl : l.Pairwise (Before m)) : (pickCleanup v l).1.Sublist l ∧
      ∀ y ∈ l, ∀ d, y.commitTs = some d → v ≤ d → y ∈ (pickCleanup v l).1 := by
  rcases pickCleanup_cases v l with hp | ⟨front, e, c, behind, rfl, hc, hlt, -, hp, -⟩
  · rw [hp]
    exact ⟨Sublist.refl l, fun y hy _ _ _ => hy⟩
  rw [hp, append_assoc]
  constructor
  · refine Sublist.append_left ?_ front
    rw [show e :: behind = [e] ++ behind from rfl]
    refine Sublist.append ?_ filter_sublist
    split
    · exact nil_sublist _
    · exact Sublist.refl _
  · intro y hy d hd hle
    rcases mem_append.mp hy with hy | hy
    · exact mem_append_left _ hy
    -- everything from the first old version on is older still
    have hpair := (pairwise_append.mp hl).2.1
    rcases mem_cons.mp hy with rfl | hy
    · simp [hc] at hd
      omega
    have := ((pairwise_cons.mp hpair).1 y hy).committed c d hc hd
    omega

theorem inv_cleanup (h : Inv s) {v : Nat} (hv : ∀ t r, s.txnMap t = some r → v ≤ r.beginTs) :
    Inv {s with entries := (pickCleanup v s.entries).1} := by
  obtain ⟨hsub, hkept⟩ := pickCleanup_sublist (v := v) h.order
  refine inv_sublist h hsub s.nextPtr le_rfl (fun c hc t r hr => ?_)
  rcases h.guarded c hc t r hr with hle | ⟨y, hy, d, hd, hle⟩
  · exact .inl hle
  by_cases hdv : v ≤ d
  · exact .inr ⟨y, hkept y hy d hd hdv, d, hd, hle⟩
  · have := hv t r hr
    exact .inl (by omega)

/-! ### Every interleaving -/

theorem inv_step (kind : EntryKind) (s : System) (a : Call) (s' : System) (h : Inv s) (ha : Allowed s a)
    (hs : step kind s a = .ok s') : Inv s' := by
  cases a with
  | beginTxn =>
    cases hs
    exact inv_beginTxn h
  | addEntry t indexType conflictType addIfFound => exact inv_addEntry h ha hs
  | dropEntry t indexType conflictType => exact inv_dropEntry h ha hs
  | getWriteCommitTS t =>
    obtain ⟨r, hr, hst⟩ := ha
    simp only [step, hr] at hs
    cases hs
    exact inv_getWriteCommitTS h hr hst
  | commit t =>
    obtain ⟨r, hr, hst⟩ := ha
    simp only [step, hr] at hs
    cases hs
    exact inv_commit h hr hst
  | rollback t =>
    obtain ⟨r, hr, hst⟩ := ha
    simp only [step, hr] at hs
    cases hs
    refine inv_retire h hr (Sublist.refl _) ?_ ?_ (fun e he _ _ => he)
    · rintro r' ⟨⟩
      exact ⟨rfl, .inl rfl⟩
    · exact fun _ _ _ _ => ⟨_, rfl, fun hc => by cases hc⟩
  | deleteEntry t =>
    obtain ⟨r, hr, hst⟩ := ha
    simp only [step, hr] at hs
    cases hs
    refine inv_retire h hr filter_sublist ?_ ?_ ?_
    · rintro r' ⟨⟩
      exact ⟨rfl, .inr rfl⟩
    · intro e he _ hid
      simp [deleteEntry, hid] at he
    · intro e he c hc
      refine mem_filter.mpr ⟨he, ?_⟩
      have hne : e.txnId ≠ t := fun hid => by
        simp [h.uncommitted he hid hr] at hc
      simpa using hne
  | finishRollback t =>
    obtain ⟨r, hr, hst⟩ := ha
    cases hs
    exact inv_retire h hr (Sublist.refl _) nofun
      (fun e he hn hid => absurd hst (h.record he hn hid hr).2) (fun e he _ _ => he)
  | cleanup v =>
    cases hs
    exact inv_cleanup h ha.2

theorem inv_run {startTs : Nat} {calls : List Call}
    (h : (listMachine kind).Run (System.start startTs) calls s) : Inv s :=
  h.invariant (inv_step kind) (inv_start startTs)

theorem Inv.front (h : Inv s) : ∃ t own rest, s.entries = own ++ rest ∧
    (∀ e ∈ own, e.commitTs = none ∧ e.txnId = t ∧ Live s.txnMap t) ∧
    ∀ e ∈ rest, e.commitTs = none → ∃ r, s.txnMap e.txnId = some r ∧ r.state = .rollbacking := by
  have hroll : ∀ e ∈ s.entries, e.commitTs = none → ¬ Live s.txnMap e.txnId →
      ∃ r, s.txnMap e.txnId = some r ∧ r.state = .rollbacking := by
    intro e he hn hdead
    obtain ⟨r, hr, -, hs⟩ := h.owned e he hn
    rcases (h.registered _ r hr).state with hst | hst | hst | hst
    · exact absurd ⟨r, hr, .inl hst⟩ hdead
    · exact absurd ⟨r, hr, .inr hst⟩ hdead
    · exact ⟨r, hr, hst⟩
    · exact absurd hst hs
  -- by induction on the list: a live version has only live versions in front of it
  have key (l : List Entry) (hl : l.Pairwise (Before s.txnMap)) : ∃ own rest, l = own ++ rest ∧
      (∀ e ∈ own, e.commitTs = none ∧ Live s.txnMap e.txnId) ∧
        ∀ e ∈ rest, e.commitTs = none → ¬ Live s.txnMap e.txnId := by
    induction l with
    | nil => exact ⟨[], [], rfl, fun e he => (by cases he), fun e he => by cases he⟩
    | cons e l ih =>
      obtain ⟨hb, hl'⟩ := pairwise_cons.mp hl
      by_cases hlive : e.commitTs = none ∧ Live s.txnMap e.txnId
      · obtain ⟨own, rest, rfl, hown, hrest⟩ := ih hl'
        exact ⟨e :: own, rest, rfl, forall_mem_cons.mpr ⟨hlive, hown⟩, hrest⟩
      refine ⟨[], e :: l, rfl, fun x hx => (by cases hx), fun x hx hn hlx => ?_⟩
      rcases mem_cons.mp hx with rfl | hx
      · exact hlive ⟨hn, hlx⟩
      · cases hc : e.commitTs with
        | some c => exact ((hb x hx).leftover c hc hn).2 hlx
        | none => exact hlive ⟨hc, by rwa [(hb x hx).owner hc hn hlx]⟩
  obtain ⟨own, rest, hl, hown, hrest⟩ := key s.entries h.order
  have hmemo : ∀ e ∈ own, e ∈ s.entries := fun e he => by rw [hl]; exact mem_append_left _ he
  have hmemr : ∀ e ∈ rest, e ∈ s.entries := fun e he => by rw [hl]; exact mem_append_right _ he
  refine ⟨(own.head?.map Entry.txnId).getD 0, own, rest, hl, ?_, fun e he hn => hroll e (hmemr e he) hn (hrest e he hn)⟩
  cases own with
  | nil => exact fun e he => by cases he
  | cons x own =>
    intro e he
    have hx := hown x mem_cons_self
    have hid := h.live_unique (hmemo e he) (hmemo x mem_cons_self) (hown e he).1 hx.1 (hown e he).2 hx.2
    exact ⟨(hown e he).1, hid, hx.2⟩

/-- **First committer wins.** In every state any calls lead to: committed versions stand
in non-increasing commit order; the list is a front part of uncommitted versions of one
transaction that may still commit, followed by committed versions and versions left by
transactions that are rolling back; a drop or a rollback removes only uncommitted
versions of the calling transaction; and no two committed changes were made by
transactions that each began before the other committed. -/
theorem first_committer_wins (kind : EntryKind) (startTs : Nat) (calls : List Call) (s : System)
    (h : (listMachine kind).Run (System.start startTs) calls s) :
    (s.entries.filterMap Entry.commitTs).Pairwise (fun c d => d ≤ c) ∧
      (∃ t own rest, s.entries = own ++ rest ∧
        (∀ e ∈ own, e.commitTs = none ∧ e.txnId = t ∧ Live s.txnMap t) ∧
        ∀ e ∈ rest, e.commitTs = none → ∃ r, s.txnMap e.txnId = some r ∧ r.state = .rollbacking) ∧
      (∀ t s', ((∃ i k, Allowed s (.dropEntry t i k) ∧ step kind s (.dropEntry t i k) = .ok s') ∨
          (Allowed s (.deleteEntry t) ∧ step kind s (.deleteEntry t) = .ok s')) →
        ∀ e ∈ s.entries, e ∉ s'.entries → e.txnId = t ∧ e.commitTs = none) ∧
      ∀ a ∈ s.changes, ∀ b ∈ s.changes, a.txnId ≠ b.txnId →
        ¬ (a.beginTs < b.commitTs ∧ b.beginTs < a.commitTs) := by
  have hinv := inv_run h
  refine ⟨?_, hinv.front, ?_, ?_⟩
  · rw [pairwise_filterMap]
    exact hinv.order.imp (fun hb c hc d hd => hb.committed c d hc hd)
  · rintro t s' (⟨i, k, ⟨r, hr, -⟩, hs⟩ | ⟨⟨r, hr, -⟩, hs⟩) e he hne
    · rcases step_dropEntry hinv hr hs with rfl | ⟨x, rest, hl, hn, hid, rfl⟩ | ⟨j, -, rfl⟩
      · exact absurd he hne
      · rw [hl] at he
        rcases mem_cons.mp he with rfl | he
        · exact ⟨hid, hn⟩
        · exact absurd he hne
      · exact absurd (mem_cons_of_mem _ he) hne
    · simp only [step, hr] at hs
      cases hs
      have hid : e.txnId = t := by
        by_contra hid
        exact hne (mem_filter.mpr ⟨he, by simpa using hid⟩)
      exact ⟨hid, hinv.uncommitted he hid hr⟩
  · intro a ha b hb hne
    rcases Lib.pairwise_or hinv.serial ha hb (fun he => hne (by rw [he])) with hle | hle
    · omega
    · omega

/-- The first transaction adds the object and starts to roll back; before its version is
taken back, the second looks past it, adds the object and commits. -/
def overtaking : List Call :=
  [.beginTxn, .addEntry 1 0 .error false, .rollback 1, .beginTxn, .addEntry 2 0 .error false,
    .getWriteCommitTS 2, .commit 2]

theorem overtaking_run : ∃ s, (listMachine .table).Run (System.start 0) overtaking s ∧
    s.entries = [⟨1, 0, 2, 1, some 2, false⟩, ⟨0, 0, 1, 1, none, false⟩] ∧
    s.txnMap 1 = some ⟨.rollbacking, 1, 0⟩ :=
  ⟨_, .cons trivial rfl <| .cons ⟨_, rfl, rfl⟩ rfl <| .cons ⟨_, rfl, .inl rfl⟩ rfl <| .cons trivial rfl <|
    .cons ⟨_, rfl, rfl⟩ rfl <| .cons ⟨_, rfl, rfl⟩ rfl <| .cons ⟨_, rfl, rfl⟩ rfl <| .nil _, rfl, rfl⟩

/-- Without the exception for transactions that are rolling back the list has neither a
single owner nor its uncommitted versions in front. -/
theorem leftover_behind_commit : ¬ ∀ (kind : EntryKind) (startTs : Nat) (calls : List Call) (s : System),
    (listMachine kind).Run (System.start startTs) calls s →
      (∃ t, ∀ e ∈ s.entries, e.commitTs = none → e.txnId = t ∧ Live s.txnMap t) ∧
      s.entries.Pairwise (fun x y => x.commitTs ≠ none → y.commitTs ≠ none) := by
  intro hall
  obtain ⟨s, hrun, hl, -⟩ := overtaking_run
  have hpair := (hall .table 0 overtaking s hrun).2
  rw [hl] at hpair
  exact (pairwise_cons.mp hpair).1 _ mem_cons_self (by decide) rfl

theorem first_committer_wins_overtaking : ∃ s, (listMachine .table).Run (System.start 0) overtaking s ∧
    s.entries.length = 2 ∧ (s.entries.filterMap Entry.commitTs).Pairwise (fun c d => d ≤ c) := by
  obtain ⟨s, hrun, hl, -⟩ := overtaking_run
  exact ⟨s, hrun, by rw [hl]; rfl, (first_committer_wins .table 0 overtaking s hrun).1⟩

end Infinity.Catalog
