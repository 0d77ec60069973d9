import Infinity.Common
import Infinity.Lib.Machine
import Infinity.Lib.OrderedMap

/-! The order in which write transactions reach the write-ahead log.

A write transaction takes its commit timestamp (`getWriteCommitTS`), checks for
conflicts, and reports back once (`sendToWAL`), with its log entry if it commits and
with none if it rolls back. The manager keeps the timestamps handed out and not yet
passed on in `waitConflictCk`, in timestamp order: with no transaction while the check
is going on, with the transaction once it has reported. Every report passes on the
longest reported front part of that map.

`submission_order` is the contract of the two calls over every interleaving: the log
receives transactions in strictly increasing commit timestamp, each committing one
once and as soon as nothing before it is still checking, rolled-back ones never; and no
report fails. -/
namespace Infinity.Transaction.SubmitOrder

open Lib List

/-- A write transaction as the log manager sees it; no entry means that it rolls back. -/
structure Txn (W : Type) where
  txnId : Nat
  commitTs : Nat
  walEntry : Option W
  deriving DecidableEq, Repr

structure TxnManager (W : Type) where
  isRunning : Bool
  hasWalMgr : Bool
  currentTs : Nat
  waitConflictCk : OrderedMap Nat (Option (Txn W))
  committingTxns : OrderedMap Nat Nat

variable {W : Type}

namespace TxnManager

/-- Hand out the next commit timestamp and hold its place in the submission order. -/
def getWriteCommitTS (m : TxnManager W) (txnId : Nat) : Nat × TxnManager W :=
  let commitTs := m.currentTs + 2
  (commitTs, {m with
    currentTs := commitTs
    waitConflictCk := m.waitConflictCk.emplace commitTs none
    committingTxns := m.committingTxns.emplace commitTs txnId})

/-- Record the outcome of the conflict check in the wait map. -/
def markChecked (m : TxnManager W) (txn : Txn W) : Except Fault (OrderedMap Nat (Option (Txn W))) :=
  match txn.walEntry with
  | some _ =>
    match m.waitConflictCk.find? txn.commitTs with
    | some _ => .ok (m.waitConflictCk.modify txn.commitTs (some txn))
    | none => .error .outOfRange
  | none => .ok (m.waitConflictCk.erase txn.commitTs)

/-- Report a transaction whose check is done. The transactions passed to `SubmitTxn`
are returned with the manager. -/
def sendToWAL (m : TxnManager W) (txn : Txn W) : Except Fault (List (Txn W) × TxnManager W) :=
  if !m.isRunning then
    .error (.unrecoverable "TxnManager is not running, cannot put wal entry")
  else if !m.hasWalMgr then
    .error (.unrecoverable "TxnManager is null")
  else
    match m.waitConflictCk.begin? with
    | none =>
      .error (.unrecoverable
        s!"TxnManager::SendToWAL wait_conflict_ck_ is empty, txn->CommitTS() {txn.commitTs}")
    | some (first, _) =>
      if first > txn.commitTs then
        .error (.unrecoverable
          s!"TxnManager::SendToWAL wait_conflict_ck_.begin()->first {first} > txn->CommitTS() {txn.commitTs}")
      else
        match m.markChecked txn with
        | .error e => .error e
        | .ok checked => .ok (checked.popReady.1.map Prod.snd, {m with waitConflictCk := checked.popReady.2})

end TxnManager

/-! ### The calls of any number of transactions -/

/-- How far a transaction has come. -/
inductive Phase (W : Type) where
  | started
  | committing (commitTs : Nat)
  | sent (commitTs : Nat) (walEntry : Option W)
  deriving DecidableEq

/-- The manager, the transactions and what the log has been given so far. -/
structure System (W : Type) where
  mgr : TxnManager W
  phase : Nat → Phase W
  submitted : List (Txn W)

inductive Call (W : Type) where
  | getWriteCommitTS (t : Nat)
  | sendToWAL (t : Nat) (walEntry : Option W)

/-- A transaction takes one commit timestamp and reports once, afterwards. -/
def Allowed (s : System W) : Call W → Prop
  | .getWriteCommitTS t => s.phase t = .started
  | .sendToWAL t _ => ∃ c, s.phase t = .committing c

def call (s : System W) : Call W → Except Fault (System W)
  | .getWriteCommitTS t =>
    let (commitTs, mgr) := s.mgr.getWriteCommitTS t
    .ok {s with mgr := mgr, phase := Function.update s.phase t (.committing commitTs)}
  | .sendToWAL t walEntry =>
    match s.phase t with
    | .committing commitTs =>
      match s.mgr.sendToWAL ⟨t, commitTs, walEntry⟩ with
      | .error e => .error e
      | .ok (txnArray, mgr) =>
        .ok ⟨mgr, Function.update s.phase t (.sent commitTs walEntry), s.submitted ++ txnArray⟩
    | _ => .ok s

def submission (W : Type) : Machine (System W) (Call W) Fault := ⟨Allowed, call⟩

/-- A running manager before its first transaction. -/
def System.start (startTs : Nat) : System W := ⟨⟨true, true, startTs, .empty, .empty⟩, fun _ => .started, []⟩

/-! ### One call at a time -/

/-- The timestamp a transaction has taken, if any. -/
def Phase.ts : Phase W → Option Nat
  | .started => none
  | .committing c => some c
  | .sent c _ => some c

/-- What holds between any two calls. A place held without a transaction belongs to a
transaction that is still checking; a reported one still waiting stands behind such a
place; everything else that committed has been passed on, before all that waits. -/
structure Inv (s : System W) : Prop where
  running : s.mgr.isRunning = true ∧ s.mgr.hasWalMgr = true
  issued : ∀ t c, (s.phase t).ts = some c → c ≤ s.mgr.currentTs
  unique : ∀ t t' c, (s.phase t).ts = some c → (s.phase t').ts = some c → t = t'
  checking : ∀ c, s.mgr.waitConflictCk.find? c = some none ↔ ∃ t, s.phase t = .committing c
  waiting : ∀ c x, s.mgr.waitConflictCk.find? c = some (some x) → x.commitTs = c ∧
    (∃ w, x.walEntry = some w) ∧ s.phase x.txnId = .sent c x.walEntry ∧
    ∃ c', c' < c ∧ s.mgr.waitConflictCk.find? c' = some none
  passed : ∀ x ∈ s.submitted, (∃ w, x.walEntry = some w) ∧ s.phase x.txnId = .sent x.commitTs x.walEntry
  kept : ∀ t c w, s.phase t = .sent c (some w) →
    s.mgr.waitConflictCk.find? c = some (some ⟨t, c, some w⟩) ∨ ⟨t, c, some w⟩ ∈ s.submitted
  ordered : s.submitted.Pairwise (fun x y => x.commitTs < y.commitTs)
  before : ∀ x ∈ s.submitted, ∀ c o, s.mgr.waitConflictCk.find? c = some o → x.commitTs < c

theorem inv_start (startTs : Nat) : Inv (System.start startTs : System W) where
  running := ⟨rfl, rfl⟩
  issued := fun _ _ h => by cases h
  unique := fun _ _ _ h => by cases h
  checking := by
    intro c
    constructor
    · intro h
      cases h
    · rintro ⟨t, h⟩
      cases h
  waiting := fun _ _ h => by cases h
  passed := fun _ h => by cases h
  kept := fun _ _ _ h => by cases h
  ordered := .nil
  before := fun _ h => by cases h

variable {s : System W} {c : Nat}

theorem Inv.key_issued (h : Inv s) {o : Option (Txn W)}
    (hc : s.mgr.waitConflictCk.find? c = some o) : c ≤ s.mgr.currentTs := by
  cases o with
  | none =>
    obtain ⟨t, ht⟩ := (h.checking c).mp hc
    exact h.issued t c (by rw [ht]; rfl)
  | some x =>
    obtain ⟨-, -, hp, -⟩ := h.waiting c x hc
    exact h.issued x.txnId c (by rw [hp]; rfl)

variable {s' : System W} {t : Nat}

theorem call_getWriteCommitTS (h : Inv s) (hs : call s (.getWriteCommitTS t) = .ok s') :
    s'.mgr.isRunning = s.mgr.isRunning ∧ s'.mgr.hasWalMgr = s.mgr.hasWalMgr ∧
      s'.mgr.currentTs = s.mgr.currentTs + 2 ∧ s'.submitted = s.submitted ∧
      (∀ t', s'.phase t' = if t' = t then .committing (s.mgr.currentTs + 2) else s.phase t') ∧
      ∀ c o, s'.mgr.waitConflictCk.find? c = some o ↔
        (c = s.mgr.currentTs + 2 ∧ o = none) ∨ s.mgr.waitConflictCk.find? c = some o := by
  simp only [call, TxnManager.getWriteCommitTS, Except.ok.injEq] at hs
  subst hs
  refine ⟨rfl, rfl, rfl, rfl, fun t' => Function.update_apply .., fun c o => ?_⟩
  have hfresh : s.mgr.waitConflictCk.find? (s.mgr.currentTs + 2) = none :=
    Option.eq_none_iff_forall_ne_some.mpr fun o hf => absurd (h.key_issued hf) (by omega)
  rw [OrderedMap.find?_emplace]
  by_cases he : c = s.mgr.currentTs + 2
  · subst he
    simp [hfresh, eq_comm]
  · simp [he]

theorem inv_getWriteCommitTS (h : Inv s)
    (ht : s.phase t = .started) (hs : call s (.getWriteCommitTS t) = .ok s') : Inv s' := by
  obtain ⟨hrun, hwal, hnow, hsub, hphase, hfind⟩ := call_getWriteCommitTS h hs
  have hself : s'.phase t = .committing (s.mgr.currentTs + 2) := by rw [hphase, if_pos rfl]
  have hother : ∀ t', t' ≠ t → s'.phase t' = s.phase t' := fun t' hne => by rw [hphase, if_neg hne]
  have hts : ∀ t' c, (s'.phase t').ts = some c → (t' = t ∧ c = s.mgr.currentTs + 2) ∨ (s.phase t').ts = some c := by
    intro t' c hc
    by_cases he : t' = t
    · rw [he, hself] at hc
      exact .inl ⟨he, (Option.some.inj hc).symm⟩
    · rw [hother t' he] at hc
      exact .inr hc
  have hsent : ∀ t' c w, s'.phase t' = .sent c w ↔ s.phase t' = .sent c w := by
    intro t' c w
    by_cases he : t' = t
    · simp [he, hself, ht]
    · rw [hother t' he]
  refine ⟨by rw [hrun, hwal]; exact h.running, ?_, ?_, ?_, ?_, ?_, ?_, by rw [hsub]; exact h.ordered, ?_⟩
  · intro t' c hc
    rcases hts t' c hc with ⟨-, rfl⟩ | hc
    · exact hnow.ge
    · have := h.issued t' c hc
      omega
  · intro t₁ t₂ c h₁ h₂
    rcases hts t₁ c h₁ with ⟨rfl, hc₁⟩ | h₁ <;> rcases hts t₂ c h₂ with ⟨rfl, hc₂⟩ | h₂
    · rfl
    · have := h.issued t₂ c h₂
      omega
    · have := h.issued t₁ c h₁
      omega
    · exact h.unique t₁ t₂ c h₁ h₂
  · intro c
    rw [hfind, h.checking]
    constructor
    · rintro (⟨rfl, -⟩ | ⟨t', ht'⟩)
      · exact ⟨t, hself⟩
      · have hne : t' ≠ t := fun he => by rw [he, ht] at ht'; cases ht'
        exact ⟨t', by rwa [hother t' hne]⟩
    · rintro ⟨t', ht'⟩
      by_cases he : t' = t
      · rw [he, hself] at ht'
        cases ht'
        exact .inl ⟨rfl, rfl⟩
      · rw [hother t' he] at ht'
        exact .inr ⟨t', ht'⟩
  · intro c x hx
    rcases (hfind c _).mp hx with ⟨-, hx⟩ | hx
    · cases hx
    obtain ⟨hc, hw, hp, c', hlt, hc'⟩ := h.waiting c x hx
    exact ⟨hc, hw, (hsent _ _ _).mpr hp, c', hlt, (hfind c' _).mpr (.inr hc')⟩
  · intro x hx
    rw [hsub] at hx
    obtain ⟨hw, hp⟩ := h.passed x hx
    exact ⟨hw, (hsent _ _ _).mpr hp⟩
  · intro t' c w hp
    rw [hsub]
    exact (h.kept t' c w ((hsent _ _ _).mp hp)).imp (fun hk => (hfind c _).mpr (.inr hk)) id
  · intro x hx c o hc
    rw [hsub] at hx
    rcases (hfind c o).mp hc with ⟨rfl, -⟩ | hc
    · have := h.issued x.txnId x.commitTs (by rw [(h.passed x hx).2]; rfl)
      omega
    · exact h.before x hx c o hc

/-- A transaction that is still checking can always report, and what its report does:
its place is filled or given up, and the filled front of the wait map is passed on. -/
theorem call_sendToWAL (h : Inv s) (ht : s.phase t = .committing c) (walEntry : Option W) :
    ∃ (s' : System W) (checked : OrderedMap Nat (Option (Txn W))), call s (.sendToWAL t walEntry) = .ok s' ∧
      s'.mgr = {s.mgr with waitConflictCk := checked.popReady.2} ∧
      s'.submitted = s.submitted ++ checked.popReady.1.map Prod.snd ∧
      (∀ t', s'.phase t' = if t' = t then .sent c walEntry else s.phase t') ∧
      ∀ c', checked.find? c' =
        if c' = c then walEntry.map (fun _ => some ⟨t, c, walEntry⟩) else s.mgr.waitConflictCk.find? c' := by
  have hplace : s.mgr.waitConflictCk.find? c = some none := (h.checking c).mpr ⟨t, ht⟩
  obtain ⟨first, hfirst⟩ : ∃ e, s.mgr.waitConflictCk.begin? = some e := by
    cases hb : s.mgr.waitConflictCk.begin? with
    | none =>
      rw [(OrderedMap.begin?_eq_none _).mp hb] at hplace
      cases hplace
    | some e => exact ⟨e, rfl⟩
  have hle : ¬ first.1 > c := not_lt.mpr (((OrderedMap.begin?_eq_some _ first.1 first.2).mp hfirst).2 c none hplace)
  have hmark : ∃ checked, s.mgr.markChecked ⟨t, c, walEntry⟩ = .ok checked ∧ ∀ c', checked.find? c' =
      if c' = c then walEntry.map (fun _ => some ⟨t, c, walEntry⟩) else s.mgr.waitConflictCk.find? c' := by
    cases walEntry with
    | none =>
      refine ⟨s.mgr.waitConflictCk.erase c, rfl, fun c' => ?_⟩
      rw [OrderedMap.find?_erase, Option.map_none]
    | some w =>
      refine ⟨s.mgr.waitConflictCk.modify c (some ⟨t, c, some w⟩), ?_, fun c' => ?_⟩
      · simp only [TxnManager.markChecked, hplace]
      · rw [OrderedMap.find?_modify, hplace, Option.map_some, Option.map_some]
  obtain ⟨checked, hmark, hfind⟩ := hmark
  refine ⟨⟨{s.mgr with waitConflictCk := checked.popReady.2}, Function.update s.phase t (.sent c walEntry),
    s.submitted ++ checked.popReady.1.map Prod.snd⟩, checked, ?_, rfl, rfl,
    fun t' => Function.update_apply .., hfind⟩
  simp only [call, ht, TxnManager.sendToWAL, h.running.1, h.running.2, hfirst, hmark, if_neg hle,
    Bool.not_true, Bool.false_eq_true, if_false]

theorem inv_sendToWAL {walEntry : Option W} (h : Inv s)
    (ht : s.phase t = .committing c) (hs : call s (.sendToWAL t walEntry) = .ok s') : Inv s' := by
  obtain ⟨s₁, checked, hcall, hmgr, hsub, hphase, hfind⟩ := call_sendToWAL h ht walEntry
  rw [hcall] at hs
  cases hs
  have hself : s'.phase t = .sent c walEntry := by rw [hphase, if_pos rfl]
  have hother : ∀ t', t' ≠ t → s'.phase t' = s.phase t' := fun t' hne => by rw [hphase, if_neg hne]
  have hts : ∀ t', (s'.phase t').ts = (s.phase t').ts := by
    intro t'
    by_cases he : t' = t
    · rw [he, hself, ht]
      rfl
    · rw [hother t' he]
  have hkeep : ∀ t' c' w, s.phase t' = .sent c' w → s'.phase t' = .sent c' w := by
    intro t' c' w hp
    have hne : t' ≠ t := fun he => by rw [he, ht] at hp; cases hp
    rwa [hother t' hne]
  have hwait : s'.mgr.waitConflictCk = checked.popReady.2 := by rw [hmgr]
  -- a place without a transaction is one of the old ones, other than the reported one
  have hnone : ∀ c', checked.find? c' = some none ↔ c' ≠ c ∧ s.mgr.waitConflictCk.find? c' = some none := by
    intro c'
    rw [hfind]
    by_cases he : c' = c
    · cases walEntry <;> simp [he]
    · simp [he]
  -- a place with a transaction is the reported one or an old one
  have hsome : ∀ c' x, checked.find? c' = some (some x) ↔ (c' = c ∧ (∃ w, walEntry = some w) ∧ x = ⟨t, c, walEntry⟩) ∨
        (c' ≠ c ∧ s.mgr.waitConflictCk.find? c' = some (some x)) := by
    intro c' x
    rw [hfind]
    by_cases he : c' = c
    · cases walEntry <;> simp [he, eq_comm]
    · simp [he]
  have hfilled : ∀ c' x, checked.find? c' = some (some x) →
      x.commitTs = c' ∧ (∃ w, x.walEntry = some w) ∧ s'.phase x.txnId = .sent c' x.walEntry := by
    intro c' x hx
    rcases (hsome c' x).mp hx with ⟨rfl, hw, rfl⟩ | ⟨hne, hx⟩
    · exact ⟨rfl, hw, hself⟩
    · obtain ⟨hc, hw, hp, -⟩ := h.waiting c' x hx
      exact ⟨hc, hw, hkeep _ _ _ hp⟩
  have hold : ∀ c' o, checked.find? c' = some o → ∃ o', s.mgr.waitConflictCk.find? c' = some o' := by
    intro c' o ho
    by_cases he : c' = c
    · exact ⟨none, by rw [he]; exact (h.checking c).mpr ⟨t, ht⟩⟩
    · rw [hfind, if_neg he] at ho
      exact ⟨o, ho⟩
  have hleft : ∀ c' o, checked.popReady.2.find? c' = some o → checked.find? c' = some o := by
    intro c' o ho
    cases o with
    | none => exact (OrderedMap.find?_popReady_none ..).mp ho
    | some x => exact (OrderedMap.find?_popReady_some ..).mpr (.inr ho)
  have htaken : ∀ e ∈ checked.popReady.1, checked.find? e.1 = some (some e.2) :=
    fun e he => (OrderedMap.find?_popReady_some ..).mpr (.inl he)
  refine ⟨by rw [hmgr]; exact h.running, ?_, ?_, ?_, ?_, ?_, ?_, ?_, ?_⟩
  · intro t' c' hc'
    rw [hts] at hc'
    rw [hmgr]
    exact h.issued t' c' hc'
  · intro t₁ t₂ c' h₁ h₂
    rw [hts] at h₁ h₂
    exact h.unique t₁ t₂ c' h₁ h₂
  · intro c'
    rw [hwait, OrderedMap.find?_popReady_none, hnone, h.checking]
    constructor
    · rintro ⟨hne, t', ht'⟩
      have htne : t' ≠ t := by
        intro he
        rw [he, ht] at ht'
        exact hne (by cases ht'; rfl)
      exact ⟨t', by rwa [hother t' htne]⟩
    · rintro ⟨t', ht'⟩
      have htne : t' ≠ t := by
        intro he
        rw [he, hself] at ht'
        cases ht'
      rw [hother t' htne] at ht'
      refine ⟨?_, t', ht'⟩
      rintro rfl
      exact htne (h.unique t' t c' (by rw [ht']; rfl) (by rw [ht]; rfl))
  · intro c' x hx
    rw [hwait] at hx ⊢
    obtain ⟨hc, hw, hp⟩ := hfilled c' x (hleft c' _ hx)
    obtain ⟨k, hk, hknone⟩ := OrderedMap.popReady_begin? checked c' _ hx
    have hne : k ≠ c' := by
      rintro rfl
      rw [hx] at hknone
      cases hknone
    exact ⟨hc, hw, hp, k, lt_of_le_of_ne hk hne, hknone⟩
  · intro x hx
    rw [hsub, mem_append, mem_map] at hx
    rcases hx with hx | ⟨e, he, rfl⟩
    · obtain ⟨hw, hp⟩ := h.passed x hx
      exact ⟨hw, hkeep _ _ _ hp⟩
    · obtain ⟨hc, hw, hp⟩ := hfilled e.1 e.2 (htaken e he)
      exact ⟨hw, by rwa [hc]⟩
  · intro t' c' w hp
    have hin : checked.find? c' = some (some ⟨t', c', some w⟩) ∨ ⟨t', c', some w⟩ ∈ s.submitted := by
      by_cases he : t' = t
      · rw [he, hself] at hp
        cases hp
        exact .inl ((hsome _ _).mpr (.inl ⟨rfl, ⟨w, rfl⟩, by rw [he]⟩))
      rw [hother t' he] at hp
      refine (h.kept t' c' w hp).imp (fun hk => (hsome _ _).mpr (.inr ⟨?_, hk⟩)) id
      rintro rfl
      exact he (h.unique t' t c' (by rw [hp]; rfl) (by rw [ht]; rfl))
    rw [hwait, hsub, mem_append, mem_map]
    rcases hin with hin | hin
    · rcases (OrderedMap.find?_popReady_some ..).mp hin with hin | hin
      · exact .inr (.inr ⟨_, hin, rfl⟩)
      · exact .inl hin
    · exact .inr (.inl hin)
  · rw [hsub, pairwise_append, pairwise_map]
    refine ⟨h.ordered, ?_, ?_⟩
    · refine (OrderedMap.popReady_sorted checked).1.imp_of_mem (fun {a b} ha hb hab => ?_)
      rwa [(hfilled _ _ (htaken a ha)).1, (hfilled _ _ (htaken b hb)).1]
    · intro x hx y hy
      obtain ⟨e, he, rfl⟩ := mem_map.mp hy
      obtain ⟨o, ho⟩ := hold _ _ (htaken e he)
      rw [(hfilled _ _ (htaken e he)).1]
      exact h.before x hx e.1 o ho
  · intro x hx c' o hc'
    rw [hwait] at hc'
    rw [hsub, mem_append, mem_map] at hx
    rcases hx with hx | ⟨e, he, rfl⟩
    · obtain ⟨o', ho'⟩ := hold c' o (hleft c' o hc')
      exact h.before x hx c' o' ho'
    · rw [(hfilled _ _ (htaken e he)).1]
      exact (OrderedMap.popReady_sorted checked).2 e he c' o hc'

theorem inv_call (s : System W) (a : Call W) (s' : System W) (h : Inv s) (ha : Allowed s a)
    (hs : call s a = .ok s') : Inv s' := by
  cases a with
  | getWriteCommitTS t => exact inv_getWriteCommitTS h ha hs
  | sendToWAL t walEntry =>
    obtain ⟨c, hc⟩ := ha
    exact inv_sendToWAL h hc hs

theorem Inv.call_ok (h : Inv s) (a : Call W) (ha : Allowed s a) : ∃ s', call s a = .ok s' := by
  cases a with
  | getWriteCommitTS t => exact ⟨_, rfl⟩
  | sendToWAL t walEntry =>
    obtain ⟨c, hc⟩ := ha
    obtain ⟨s', -, hs', -⟩ := call_sendToWAL h hc walEntry
    exact ⟨s', hs'⟩

/-! ### Every interleaving -/

/-- A transaction in the log's list is the only one there with its number. -/
theorem Inv.filter_submitted (h : Inv s) {x : Txn W} (hx : x ∈ s.submitted) :
    s.submitted.filter (fun y => y.txnId = x.txnId) = [x] := by
  have hnodup : s.submitted.Nodup := h.ordered.imp (fun hlt he => by rw [he] at hlt; exact lt_irrefl _ hlt)
  apply perm_singleton.mp
  rw [perm_ext_iff_of_nodup (hnodup.filter _) (nodup_singleton x)]
  intro y
  rw [mem_filter, mem_singleton, decide_eq_true_eq]
  constructor
  · rintro ⟨hy, hid⟩
    obtain ⟨i, c, w⟩ := x
    obtain ⟨j, d, v⟩ := y
    obtain rfl : j = i := hid
    have hp := (h.passed _ hx).2
    rw [(h.passed _ hy).2] at hp
    cases hp
    rfl
  · rintro rfl
    exact ⟨hx, rfl⟩

/-- **The submission order.** After any calls of any transactions: what the log has been
given is strictly increasing in commit timestamp; a transaction that reported an entry
has been given exactly once if no transaction before it is still checking, and at most
once otherwise; only transactions that reported an entry were given, and given with
that entry, so a rolled-back one never was; and whatever call comes next does not fail. -/
theorem submission_order (startTs : Nat) (calls : List (Call W)) (s : System W)
    (h : (submission W).Run (System.start startTs) calls s) :
    s.submitted.Pairwise (fun x y => x.commitTs < y.commitTs) ∧
      (∀ t c w, s.phase t = .sent c (some w) →
        (∀ t' c', s.phase t' = .committing c' → ¬ c' < c) →
        s.submitted.filter (fun x => x.txnId = t) = [⟨t, c, some w⟩]) ∧
      (∀ t, (s.submitted.filter (fun x => x.txnId = t)).length ≤ 1) ∧
      (∀ t c, s.phase t = .sent c none → s.submitted.filter (fun x => x.txnId = t) = []) ∧
      (∀ x ∈ s.submitted, ∃ w, x.walEntry = some w ∧ s.phase x.txnId = .sent x.commitTs (some w)) ∧
      ∀ a, Allowed s a → ∃ s', call s a = .ok s' := by
  have hinv : Inv s := h.invariant inv_call (inv_start startTs)
  refine ⟨hinv.ordered, ?_, ?_, ?_, ?_, hinv.call_ok⟩
  · intro t c w hp hdue
    rcases hinv.kept t c w hp with hk | hk
    · -- a place still waiting stands behind one that is being checked
      obtain ⟨-, -, -, c', hlt, hc'⟩ := hinv.waiting c _ hk
      obtain ⟨t', ht'⟩ := (hinv.checking c').mp hc'
      exact absurd hlt (hdue t' c' ht')
    · exact hinv.filter_submitted hk
  · intro t
    cases hf : s.submitted.filter (fun x => x.txnId = t) with
    | nil => exact Nat.zero_le _
    | cons x l =>
      have hx : x ∈ s.submitted.filter (fun x => x.txnId = t) := by rw [hf]; exact mem_cons_self
      obtain ⟨hmem, hid⟩ := mem_filter.mp hx
      rw [← hf, ← of_decide_eq_true hid, hinv.filter_submitted hmem]
      exact le_rfl
  · intro t c hp
    rw [filter_eq_nil_iff]
    intro x hx hid
    obtain ⟨⟨w, hw⟩, hp'⟩ := hinv.passed x hx
    rw [of_decide_eq_true hid, hp, hw] at hp'
    cases hp'
  · intro x hx
    obtain ⟨⟨w, hw⟩, hp⟩ := hinv.passed x hx
    exact ⟨w, hw, by rw [hp, hw]⟩

instance (s : System W) (a : Call W) : Decidable ((submission W).enabled s a) :=
  match a with
  | .getWriteCommitTS t =>
    match h : s.phase t with
    | .started => .isTrue h
    | .committing _ => .isFalse (fun h' => by rw [show s.phase t = _ from h'] at h; cases h)
    | .sent _ _ => .isFalse (fun h' => by rw [show s.phase t = _ from h'] at h; cases h)
  | .sendToWAL t _ =>
    match h : s.phase t with
    | .committing c => .isTrue ⟨c, h⟩
    | .started => .isFalse (fun ⟨_, h'⟩ => by rw [h] at h'; cases h')
    | .sent _ _ => .isFalse (fun ⟨_, h'⟩ => by rw [h] at h'; cases h')

/-- Three transactions take their timestamps in turn; the last reports first, the second
rolls back, and the first lets both places go. -/
def threeCalls : List (Call Unit) :=
  [.getWriteCommitTS 1, .getWriteCommitTS 2, .getWriteCommitTS 3, .sendToWAL 3 (some ()),
    .sendToWAL 2 none, .sendToWAL 1 (some ())]

theorem submission_order_three : ∃ s, (submission Unit).Run (System.start 0) threeCalls s ∧
    s.submitted = [⟨1, 2, some ()⟩, ⟨3, 6, some ()⟩] ∧
    s.submitted.Pairwise (fun x y => x.commitTs < y.commitTs) := by
  obtain ⟨s, hs, hsub⟩ : ∃ s, (submission Unit).exec (System.start 0) threeCalls = some s ∧
      s.submitted = [⟨1, 2, some ()⟩, ⟨3, 6, some ()⟩] := ⟨_, rfl, rfl⟩
  have hrun := Machine.run_of_exec hs
  exact ⟨s, hrun, hsub, (submission_order 0 threeCalls s hrun).1⟩

end Infinity.Transaction.SubmitOrder
