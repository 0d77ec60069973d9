import Infinity.Transaction.Lifecycle

/-! What the transaction manager's records promise in every state.

`Inv` ties the records together: the committing map holds exactly the writing
transactions that are not cleaned up, the timestamps handed out are known, and the list
of begun transactions is in begin order and still has every live one. Each call keeps
it (`inv_call`), so every run does (`inv_run`). -/
namespace Infinity.Transaction.Lifecycle

open Lib List Function

/-! ### What holds between any two calls -/

/-- The manager's records agree with each other. The write transactions that are not
cleaned up are the committing ones; the commit timestamps handed out are `startTs + 2`,
`startTs + 4` and so on; and every live transaction is still in the list of begun ones,
which is in begin order. -/
structure Inv (startTs : Nat) (m : TxnManager) : Prop where
  running : m.isRunning = true
  unborn : ∀ t, m.nextTxnId < t → (m.txns t).isWriteTransaction = false ∧ t ∉ m.txnMap ∧ t ∉ m.beginnedTxns
  notStarted : ∀ t, (m.txns t).isWriteTransaction = true → (m.txns t).state ≠ .started
  ending : ∀ t ∈ m.txnMap, (m.txns t).isWriteTransaction = true →
    (m.txns t).state = .committing ∨ (m.txns t).state = .rollbacking
  current : ∃ k, m.currentTs = startTs + 2 * k
  issued : ∀ c, (∃ t, (m.txns t).isWriteTransaction = true ∧ (m.txns t).commitTs = c) ↔
    ∃ k, c = startTs + 2 * (k + 1) ∧ c ≤ m.currentTs
  committing : ∀ c t, m.committingTxns.find? c = some t ↔
    t ∈ m.txnMap ∧ (m.txns t).isWriteTransaction = true ∧ (m.txns t).commitTs = c
  below : ∀ c t, m.committingTxns.find? c = some t → m.maxCommittedTs < c
  reached : m.maxCommittedTs ≤ m.currentTs
  kept : ∀ t, m.alive t = true → t ∈ m.beginnedTxns
  ordered : m.beginnedTxns.Pairwise (fun t t' => (m.txns t).beginTs ≤ (m.txns t').beginTs)
  begun : ∀ t ∈ m.beginnedTxns, (m.txns t).beginTs ≤ m.currentTs + 1

theorem inv_start (nextTxnId startTs : Nat) : Inv startTs (.start nextTxnId startTs) where
  running := rfl
  unborn := fun _ _ => ⟨rfl, not_mem_nil, not_mem_nil⟩
  notStarted := fun _ h => by cases h
  ending := fun _ h => by cases h
  current := ⟨0, rfl⟩
  issued := by
    intro c
    constructor
    · rintro ⟨t, h, -⟩
      cases h
    · rintro ⟨k, rfl, h⟩
      simp only [TxnManager.start] at h
      omega
  committing := by
    intro c t
    constructor
    · intro h
      cases h
    · rintro ⟨h, -⟩
      cases h
  below := fun _ _ h => by cases h
  reached := le_refl _
  kept := fun _ h => by cases h
  ordered := .nil
  begun := fun _ h => by cases h

variable {startTs : Nat} {m : TxnManager} {t : Nat}

theorem TxnManager.alive_iff (m : TxnManager) (t : Nat) :
    m.alive t = true ↔ t ∈ m.txnMap ∨ ∃ k check, m.checks.find? k = some check ∧ t ∈ check.candidateTxns := by
  simp only [alive, Bool.or_eq_true, decide_eq_true_eq, any_eq_true, Prod.exists, ← OrderedMap.mem_entries]

/-- Changing a transaction object without touching its begin timestamp, or the commit
timestamp it took as a writing one, keeps the records. -/
theorem Inv.touch (h : Inv startTs m) (c : TxnContext) (hbegin : c.beginTs = (m.txns t).beginTs)
    (hwrite : c.isWriteTransaction = (m.txns t).isWriteTransaction)
    (hcommit : c.isWriteTransaction = true →
      c.commitTs = (m.txns t).commitTs ∧ (c.state = .committing ∨ c.state = .rollbacking)) :
    Inv startTs {m with txns := update m.txns t c} := by
  have hb : ∀ t', (update m.txns t c t').beginTs = (m.txns t').beginTs := by
    intro t'
    by_cases he : t' = t <;> simp [he, hbegin]
  have hw : ∀ t', (update m.txns t c t').isWriteTransaction = (m.txns t').isWriteTransaction := by
    intro t'
    by_cases he : t' = t <;> simp [he, hwrite]
  have hc : ∀ t' k, ((m.txns t').isWriteTransaction = true ∧ (update m.txns t c t').commitTs = k) ↔
      ((m.txns t').isWriteTransaction = true ∧ (m.txns t').commitTs = k) := by
    intro t' k
    refine and_congr_right fun hwt => ?_
    by_cases he : t' = t
    · subst he
      rw [update_self, (hcommit (hwrite.trans hwt)).1]
    · rw [update_of_ne he]
  have hs : ∀ t', t' = t → (m.txns t').isWriteTransaction = true →
      ((update m.txns t c t').state = .committing ∨ (update m.txns t c t').state = .rollbacking) := by
    rintro t' rfl hwt
    rw [update_self]
    exact (hcommit (hwrite.trans hwt)).2
  refine ⟨h.running, ?_, ?_, ?_, h.current, ?_, ?_, h.below, h.reached, h.kept, ?_, ?_⟩
  · intro t' ht'
    rw [hw]
    exact h.unborn t' ht'
  · intro t' hwt
    rw [hw] at hwt
    by_cases he : t' = t
    · rcases hs t' he hwt with hst | hst <;> simp [hst]
    · simp only [update_of_ne he]
      exact h.notStarted t' hwt
  · intro t' ht' hwt
    rw [hw] at hwt
    by_cases he : t' = t
    · exact hs t' he hwt
    · simp only [update_of_ne he]
      exact h.ending t' ht' hwt
  · intro k
    simp only [hw, hc]
    exact h.issued k
  · intro k t'
    simp only [hw, hc]
    exact h.committing k t'
  · simp only [hb]
    exact h.ordered
  · simp only [hb]
    exact h.begun

/-! ### One call at a time -/

theorem inv_beginTxn {m' : TxnManager} {txnType : TransactionType} (h : Inv startTs m)
    (hs : call m (.beginTxn txnType) = .ok m') : Inv startTs m' := by
  obtain ⟨hwrite, hmap, hlist⟩ := h.unborn (m.nextTxnId + 1) (Nat.lt_succ_self _)
  have hlater : ∀ t, m.nextTxnId + 1 < t → m.nextTxnId < t := fun t ht => by omega
  simp only [call, TxnManager.beginTxn, h.running, Bool.not_true, Bool.false_eq_true, if_false] at hs
  split at hs
  · -- no transaction is made, only its id is used up
    cases hs
    exact {h with running := rfl, unborn := fun t ht => h.unborn t (hlater t ht), kept := h.kept}
  cases hs
  have hother : ∀ t, t ≠ m.nextTxnId + 1 → ∀ c, update m.txns (m.nextTxnId + 1) c t = m.txns t :=
    fun t ht c => update_of_ne ht c m.txns
  have hw : ∀ t, (update m.txns (m.nextTxnId + 1)
      {beginTs := m.currentTs + 1, txnType := txnType} t).isWriteTransaction = true ↔
      (m.txns t).isWriteTransaction = true ∧ t ≠ m.nextTxnId + 1 := by
    intro t
    by_cases he : t = m.nextTxnId + 1 <;> simp [he]
  have hsame : ∀ t c, ((update m.txns (m.nextTxnId + 1)
      {beginTs := m.currentTs + 1, txnType := txnType} t).isWriteTransaction = true ∧
      (update m.txns (m.nextTxnId + 1) {beginTs := m.currentTs + 1, txnType := txnType} t).commitTs = c) ↔
      (m.txns t).isWriteTransaction = true ∧ (m.txns t).commitTs = c := by
    intro t c
    by_cases he : t = m.nextTxnId + 1 <;> simp [he, hwrite]
  refine ⟨rfl, ?_, ?_, ?_, h.current, ?_, ?_, h.below, h.reached, ?_, ?_, ?_⟩
  · intro t ht
    obtain ⟨h₁, h₂, h₃⟩ := h.unborn t (hlater t ht)
    have hne : t ≠ m.nextTxnId + 1 := ne_of_gt ht
    simp [hne, h₁, h₂, h₃]
  · intro t ht
    obtain ⟨ht, hne⟩ := (hw t).mp ht
    simp only [hother t hne]
    exact h.notStarted t ht
  · intro t hmem ht
    obtain ⟨ht, hne⟩ := (hw t).mp ht
    simp only [hother t hne]
    exact h.ending t ((mem_cons.mp hmem).resolve_left hne) ht
  · intro c
    simp only [hsame]
    exact h.issued c
  · intro c t
    rw [h.committing, hsame, mem_cons]
    refine and_congr_left fun ht => (or_iff_right ?_).symm
    rintro rfl
    cases hwrite.symm.trans ht.1
  · intro t ht
    simp only [TxnManager.alive_iff, mem_cons] at ht
    rw [mem_append, mem_singleton]
    rcases ht with (ht | ht) | ht
    · exact .inr ht
    · exact .inl (h.kept t ((m.alive_iff t).mpr (.inl ht)))
    · exact .inl (h.kept t ((m.alive_iff t).mpr (.inr ht)))
  · have hne : ∀ t ∈ m.beginnedTxns, t ≠ m.nextTxnId + 1 := by
      rintro t ht rfl
      exact hlist ht
    refine pairwise_append.mpr ⟨?_, pairwise_singleton _ _, ?_⟩
    · refine h.ordered.imp_of_mem fun {a b} ha hb hab => ?_
      simpa only [hother a (hne a ha), hother b (hne b hb)] using hab
    · intro a ha b hb
      rw [mem_singleton.mp hb]
      simp only [hother a (hne a ha), update_self]
      exact h.begun a ha
  · intro t ht
    by_cases he : t = m.nextTxnId + 1
    · simp [he]
    · simp only [hother t he]
      exact h.begun t ((mem_append.mp ht).resolve_right fun hm => he (mem_singleton.mp hm))

theorem Inv.read_of_started (h : Inv startTs m) (hstate : (m.txns t).state = .started) :
    (m.txns t).isWriteTransaction = false := by
  cases hw : (m.txns t).isWriteTransaction with
  | false => rfl
  | true => exact absurd hstate (h.notStarted t hw)

theorem call_commitReadOnly (hstate : (m.txns t).state = .started) :
    call m (.commitReadOnly t) = .ok {m with txns := update m.txns t {m.txns t with
      isWriteTransaction := false, state := .committed, commitTs := m.currentTs + 1}} := by
  simp only [call, TxnManager.getReadCommitTS, TxnManager.setTxnCommitting, TxnManager.setTxnCommitted,
    update_self, update_idem, hstate, ne_eq, not_true_eq_false, if_false, Except.bind]

theorem inv_commitReadOnly {m' : TxnManager} (h : Inv startTs m) (hstate : (m.txns t).state = .started)
    (hs : call m (.commitReadOnly t) = .ok m') : Inv startTs m' := by
  rw [call_commitReadOnly hstate] at hs
  cases hs
  exact h.touch _ rfl (h.read_of_started hstate).symm (fun hw => by cases hw)

/-- A transaction that has not started to commit rolls back as a reading one. -/
theorem call_rollback (hstate : (m.txns t).state = .started ∨ (m.txns t).state = .committing) :
    call m (.rollback t) = .ok {m with
      txns := update m.txns t <| if (m.txns t).state = .started then
          {m.txns t with isWriteTransaction := false, state := .rollbacking, commitTs := m.currentTs + 1}
        else {m.txns t with state := .rollbacking}} := by
  rcases hstate with hstate | hstate
  · simp only [call, hstate, TxnManager.getReadCommitTS, TxnManager.setTxnRollbacking, update_self,
      update_idem, ne_eq, not_true_eq_false, and_false, if_false, if_true]
  · simp only [call, hstate, TxnManager.setTxnRollbacking, ne_eq, not_true_eq_false, false_and, if_false, reduceCtorEq]

theorem inv_rollback {m' : TxnManager} (h : Inv startTs m)
    (hstate : (m.txns t).state = .started ∨ (m.txns t).state = .committing)
    (hs : call m (.rollback t) = .ok m') : Inv startTs m' := by
  rw [call_rollback hstate] at hs
  cases hs
  split
  · rename_i hstarted
    exact h.touch _ rfl (h.read_of_started hstarted).symm (fun hw => by cases hw)
  · exact h.touch _ rfl rfl (fun _ => ⟨rfl, .inr rfl⟩)

/-- What a writing transaction changes when it takes its commit timestamp. -/
theorem call_commitWrite (hstate : (m.txns t).state = .started) : call m (.commitWrite t) = .ok {m with
      currentTs := m.currentTs + 2
      committingTxns := m.committingTxns.emplace (m.currentTs + 2) t
      txns := update m.txns t {m.txns t with
        isWriteTransaction := true, state := .committing, commitTs := m.currentTs + 2}} := by
  simp only [call, TxnManager.getWriteCommitTS, TxnManager.setTxnCommitting, update_self,
    update_idem, hstate, ne_eq, not_true_eq_false, if_false]

theorem Inv.key_le (h : Inv startTs m) {c : Nat} (hc : m.committingTxns.find? c = some t) : c ≤ m.currentTs := by
  obtain ⟨-, hw, hk⟩ := (h.committing c t).mp hc
  obtain ⟨k, -, hle⟩ := (h.issued c).mp ⟨t, hw, hk⟩
  exact hle

theorem inv_commitWrite {m' : TxnManager} (h : Inv startTs m) (hmem : t ∈ m.txnMap)
    (hstate : (m.txns t).state = .started) (hs : call m (.commitWrite t) = .ok m') : Inv startTs m' := by
  rw [call_commitWrite hstate] at hs
  cases hs
  have hnew : (m.txns t).isWriteTransaction ≠ true := fun hw => h.notStarted t hw hstate
  have hborn : ¬ m.nextTxnId < t := fun ht => (h.unborn t ht).2.1 hmem
  have hfree : m.committingTxns.find? (m.currentTs + 2) = none :=
    Option.eq_none_iff_forall_ne_some.mpr fun t' hf => absurd (h.key_le hf) (by omega)
  obtain ⟨k, hk⟩ := h.current
  have hreached := h.reached
  refine ⟨h.running, ?_, ?_, ?_, ⟨k + 1, by simp only; omega⟩, ?_, ?_, ?_, ?_, h.kept, ?_, ?_⟩
  · intro t' ht'
    have hne : t' ≠ t := by
      rintro rfl
      exact hborn ht'
    simpa only [update_of_ne hne] using h.unborn t' ht'
  · intro t' ht'
    by_cases he : t' = t
    · simp [he]
    · simp only [update_of_ne he] at ht' ⊢
      exact h.notStarted t' ht'
  · intro t' hm ht'
    by_cases he : t' = t
    · simp [he]
    · simp only [update_of_ne he] at ht' ⊢
      exact h.ending t' hm ht'
  · intro c
    constructor
    · rintro ⟨t', ht', hc⟩
      by_cases he : t' = t
      · subst he
        simp only [update_self] at hc
        exact ⟨k, by omega, hc.ge⟩
      · simp only [update_of_ne he] at ht' hc
        obtain ⟨j, hj, hle⟩ := (h.issued c).mp ⟨t', ht', hc⟩
        exact ⟨j, hj, by simp only; omega⟩
    · rintro ⟨j, hj, hle⟩
      simp only at hle
      by_cases hlast : c = m.currentTs + 2
      · exact ⟨t, by simp, by simp [hlast]⟩
      obtain ⟨t', ht', hc⟩ := (h.issued c).mpr ⟨j, hj, by omega⟩
      have he : t' ≠ t := by
        rintro rfl
        exact hnew ht'
      exact ⟨t', by simpa only [update_of_ne he] using ht', by simpa only [update_of_ne he] using hc⟩
  · intro c t'
    rw [OrderedMap.find?_emplace, hfree, Option.getD_none]
    by_cases he : t' = t
    · subst he
      simp only [update_self, hmem, true_and]
      constructor
      · intro hc
        split at hc
        · rename_i heq
          exact heq.symm
        · exact absurd ((h.committing c t').mp hc).2.1 hnew
      · rintro rfl
        rw [if_pos rfl]
    · simp only [update_of_ne he]
      rw [← h.committing]
      by_cases hc : c = m.currentTs + 2
      · rw [if_pos hc, hc, hfree]
        simp only [Option.some.injEq, reduceCtorEq, iff_false]
        exact fun heq => he heq.symm
      · rw [if_neg hc]
  · intro c t' hc
    rw [OrderedMap.find?_emplace] at hc
    split at hc
    · simp only
      omega
    · exact h.below c t' hc
  · simp only
    omega
  · refine h.ordered.imp fun {a b} hab => ?_
    by_cases ha : a = t <;> by_cases hb : b = t <;> simp_all
  · intro t' ht'
    have hle := h.begun t' ht'
    by_cases he : t' = t
    · subst he
      simp only [update_self]
      omega
    simp only [update_of_ne he]
    omega

/-- The candidates of a check are committing transactions with a smaller timestamp. -/
theorem TxnManager.mem_collect (m : TxnManager) (commitTs : Nat) (l : List (Nat × Nat)) (acc : List Nat)
    (least : Option Nat) (t : Nat) :
    t ∈ (m.collect commitTs l acc least).1 ↔ t ∈ acc ∨ ∃ c, c < commitTs ∧ (c, t) ∈ l := by
  induction l generalizing acc least with
  | nil => simp [collect]
  | cons e l ih =>
    obtain ⟨c, t'⟩ := e
    simp only [collect]
    split
    · rename_i hlt
      rw [ih, mem_append, mem_singleton, or_assoc]
      refine or_congr_right ?_
      constructor
      · rintro (rfl | ⟨c', hc', hmem⟩)
        · exact ⟨c, hlt, mem_cons_self⟩
        · exact ⟨c', hc', mem_cons_of_mem _ hmem⟩
      · rintro ⟨c', hc', hmem⟩
        rcases mem_cons.mp hmem with heq | hmem
        · exact .inl (congrArg Prod.snd heq)
        · exact .inr ⟨c', hc', hmem⟩
    · rename_i hge
      rw [ih]
      refine or_congr_right ⟨?_, ?_⟩
      · rintro ⟨c', hc', hmem⟩
        exact ⟨c', hc', mem_cons_of_mem _ hmem⟩
      · rintro ⟨c', hc', hmem⟩
        rcases mem_cons.mp hmem with heq | hmem
        · exact absurd ((congrArg Prod.fst heq).symm.trans_lt hc') hge
        · exact ⟨c', hc', hmem⟩

/-- Calls that only change pins, checks and the checkpoint mark, and that hold no
transaction that was not held before, keep the records. -/
theorem Inv.hold (h : Inv startTs m) (ckpBeginTs : Option Nat) (checkingTs : OrderedMap Nat Unit)
    (checks : OrderedMap Nat Check)
    (hheld : ∀ k check, checks.find? k = some check → ∀ t ∈ check.candidateTxns, m.alive t = true) :
    Inv startTs {m with ckpBeginTs := ckpBeginTs, checkingTs := checkingTs, checks := checks} := by
  refine {h with kept := fun t ht => h.kept t ?_}
  rcases (TxnManager.alive_iff _ t).mp ht with ht | ⟨k, check, hk, ht⟩
  · exact (m.alive_iff t).mpr (.inl ht)
  · exact hheld k check hk t ht

theorem TxnManager.alive_candidate {k t : Nat} {check : Check} (hk : m.checks.find? k = some check)
    (ht : t ∈ check.candidateTxns) : m.alive t = true :=
  (m.alive_iff t).mpr (.inr ⟨k, check, hk, ht⟩)

theorem inv_startCheck (h : Inv startTs m) : Inv startTs (m.startCheck t) := by
  refine h.hold m.ckpBeginTs _ _ fun k check hk t' ht' => ?_
  rw [OrderedMap.find?_emplace] at hk
  split at hk
  · cases hf : m.checks.find? t with
    | none =>
      rw [hf] at hk
      cases hk
      obtain hnil | ⟨c, -, hmem⟩ := (m.mem_collect _ _ _ _ t').mp ht'
      · cases hnil
      have hc := (m.committingTxns.mem_entries c t').mp hmem
      exact (m.alive_iff t').mpr (.inl ((h.committing c t').mp hc).1)
    | some old =>
      rw [hf] at hk
      cases hk
      exact TxnManager.alive_candidate hf ht'
  · exact TxnManager.alive_candidate hk ht'

theorem inv_finishCheck (h : Inv startTs m) : Inv startTs (m.finishCheck t) := by
  simp only [TxnManager.finishCheck]
  split
  · exact h
  refine h.hold m.ckpBeginTs _ _ fun k check hk t' ht' => ?_
  rw [OrderedMap.find?_erase] at hk
  split at hk
  · cases hk
  · exact TxnManager.alive_candidate hk ht'

/-! ### Cleaning up -/

/-- The watermark moves to `c` when no smaller timestamp is left, and stays otherwise. -/
theorem watermark_cases (committingTxns : OrderedMap Nat Nat) (c old : Nat) :
    ((∀ k t, committingTxns.find? k = some t → c < k) ∧ watermark committingTxns c old = c) ∨
      ((∃ k t, committingTxns.find? k = some t ∧ k ≤ c) ∧ watermark committingTxns c old = old) := by
  cases hb : committingTxns.begin? with
  | none =>
    left
    refine ⟨fun k t hk => ?_, by simp only [watermark, hb]⟩
    rw [(OrderedMap.begin?_eq_none _).mp hb] at hk
    cases hk
  | some e =>
    obtain ⟨first, t⟩ := e
    obtain ⟨hfirst, hmin⟩ := (OrderedMap.begin?_eq_some _ first t).mp hb
    by_cases hlt : first > c
    · left
      exact ⟨fun k t' hk => hlt.trans_le (hmin k t' hk), by simp only [watermark, hb, if_pos hlt]⟩
    · right
      exact ⟨⟨first, t, hfirst, not_lt.mp hlt⟩, by simp only [watermark, hb, if_neg hlt]⟩

theorem call_cleanupTxn (h : Inv startTs m) (hmem : t ∈ m.txnMap) : ∃ ckp, call m (.cleanupTxn t) = .ok
      (if (m.txns t).isWriteTransaction = true then
        {m with
          ckpBeginTs := ckp
          txns := update m.txns t {m.txns t with
            state := if (m.txns t).state = .committing then .committed else .rollbacked}
          committingTxns := m.committingTxns.erase (m.txns t).commitTs
          txnMap := m.txnMap.filter (· ≠ t)
          maxCommittedTs := watermark (m.committingTxns.erase (m.txns t).commitTs) (m.txns t).commitTs m.maxCommittedTs}
      else {m with ckpBeginTs := ckp, txnMap := m.txnMap.filter (· ≠ t)}) := by
  refine ⟨if (m.txns t).txnType = .checkpoint then none else m.ckpBeginTs, ?_⟩
  simp only [call, TxnManager.endTxn]
  cases hw : (m.txns t).isWriteTransaction with
  | false =>
    split <;> simp only [TxnManager.cleanupTxn, hw, Bool.false_eq_true, if_false]
  | true =>
    have hfind := (h.committing (m.txns t).commitTs t).mpr ⟨hmem, hw, rfl⟩
    rcases h.ending t hmem hw with hstate | hstate <;> split <;>
      simp [TxnManager.cleanupTxn, hw, hstate, hfind, hmem]

theorem TxnManager.update_state (m : TxnManager) (t t' : Nat) (s : TxnState) :
    (update m.txns t {m.txns t with state := s} t').isWriteTransaction = (m.txns t').isWriteTransaction ∧
      (update m.txns t {m.txns t with state := s} t').commitTs = (m.txns t').commitTs ∧
      (update m.txns t {m.txns t with state := s} t').beginTs = (m.txns t').beginTs := by
  by_cases he : t' = t <;> simp [he]

theorem inv_cleanupTxn {m' : TxnManager} (h : Inv startTs m) (hmem : t ∈ m.txnMap)
    (hs : call m (.cleanupTxn t) = .ok m') : Inv startTs m' := by
  obtain ⟨ckp, hcall⟩ := call_cleanupTxn h hmem
  rw [hcall] at hs
  have hgone : ∀ t', t' ∈ m.txnMap.filter (· ≠ t) ↔ t' ∈ m.txnMap ∧ t' ≠ t := by simp [mem_filter]
  have hkept : ∀ t', (t' ∈ m.txnMap.filter (· ≠ t) ∨ ∃ k check, m.checks.find? k = some check ∧
      t' ∈ check.candidateTxns) → t' ∈ m.beginnedTxns :=
    fun t' ht' => h.kept t' ((m.alive_iff t').mpr (ht'.imp_left fun hm => ((hgone t').mp hm).1))
  cases hw : (m.txns t).isWriteTransaction with
  | false =>
    rw [hw, if_neg Bool.false_ne_true] at hs
    cases hs
    refine ⟨h.running, ?_, h.notStarted, ?_, h.current, h.issued, ?_, h.below, h.reached, ?_, h.ordered, h.begun⟩
    · intro t' ht'
      obtain ⟨h₁, h₂, h₃⟩ := h.unborn t' ht'
      exact ⟨h₁, fun hm => h₂ (mem_filter.mp hm).1, h₃⟩
    · exact fun t' ht' => h.ending t' (mem_filter.mp ht').1
    · intro c t'
      rw [h.committing, hgone]
      refine and_congr_left fun hwt => (and_iff_left ?_).symm
      rintro rfl
      cases hw.symm.trans hwt.1
    · exact fun t' ht' => hkept t' ((TxnManager.alive_iff _ t').mp ht')
  | true =>
    rw [hw, if_pos rfl] at hs
    cases hs
    have hfind := (h.committing (m.txns t).commitTs t).mpr ⟨hmem, hw, rfl⟩
    have hbelow := h.below _ _ hfind
    have hsame := m.update_state t
    have hmark := watermark_cases (m.committingTxns.erase (m.txns t).commitTs) (m.txns t).commitTs m.maxCommittedTs
    refine ⟨h.running, ?_, ?_, ?_, h.current, ?_, ?_, ?_, ?_, ?_, ?_, ?_⟩
    · intro t' ht'
      obtain ⟨h₁, h₂, h₃⟩ := h.unborn t' ht'
      rw [(hsame t' _).1]
      exact ⟨h₁, fun hm => h₂ (mem_filter.mp hm).1, h₃⟩
    · intro t' hwt
      rw [(hsame t' _).1] at hwt
      by_cases he : t' = t
      · subst he
        split <;> simp
      · simp only [update_of_ne he]
        exact h.notStarted t' hwt
    · intro t' hm hwt
      obtain ⟨hm, hne⟩ := (hgone t').mp hm
      simp only [update_of_ne hne] at hwt ⊢
      exact h.ending t' hm hwt
    · intro c
      simp only [(hsame _ _).1, (hsame _ _).2.1]
      exact h.issued c
    · intro c t'
      rw [OrderedMap.find?_erase]
      simp only [(hsame _ _).1, (hsame _ _).2.1, hgone]
      constructor
      · intro hc
        split at hc
        · cases hc
        rename_i hne
        obtain ⟨hm, hwt, hk⟩ := (h.committing c t').mp hc
        refine ⟨⟨hm, ?_⟩, hwt, hk⟩
        rintro rfl
        exact hne hk.symm
      · rintro ⟨⟨hm, hne⟩, hwt, hk⟩
        have hc := (h.committing c t').mpr ⟨hm, hwt, hk⟩
        rw [if_neg, hc]
        rintro rfl
        rw [hfind] at hc
        exact hne (Option.some.inj hc).symm
    · intro c t' hc
      rcases hmark with ⟨hlow, heq⟩ | ⟨-, heq⟩
      · rw [heq]
        exact hlow c t' hc
      rw [heq]
      rw [OrderedMap.find?_erase] at hc
      split at hc
      · cases hc
      · exact h.below c t' hc
    · have hle := h.key_le hfind
      simp only
      rcases hmark with ⟨-, heq⟩ | ⟨-, heq⟩ <;> omega
    · exact fun t' ht' => hkept t' ((TxnManager.alive_iff _ t').mp ht')
    · simp only [(hsame _ _).2.2]
      exact h.ordered
    · simp only [(hsame _ _).2.2]
      exact h.begun

/-! ### The scan timestamp -/

/-- Popping takes a front part of the list off, all of it expired, up to a live transaction. -/
theorem TxnManager.popExpired_spec (m : TxnManager) (l : List Nat) :
    m.popExpired l <:+ l ∧ (∀ t ∈ l, m.alive t = true → t ∈ m.popExpired l) ∧
      ∀ t rest, m.popExpired l = t :: rest → m.alive t = true := by
  induction l with
  | nil => exact ⟨suffix_refl _, fun _ h => (by cases h), fun _ _ h => (by cases h)⟩
  | cons a l ih =>
    obtain ⟨hsuf, hkept, hhead⟩ := ih
    simp only [popExpired]
    split
    · rename_i ha
      refine ⟨suffix_refl _, fun t ht _ => ht, fun t rest heq => ?_⟩
      cases heq
      exact ha
    · rename_i ha
      refine ⟨hsuf.trans (suffix_cons a l), fun t ht hat => ?_, hhead⟩
      rcases mem_cons.mp ht with rfl | ht
      · exact absurd hat ha
      · exact hkept t ht hat

theorem inv_getCleanupScanTS (h : Inv startTs m) (lastCheckpointTs : Nat) :
    Inv startTs (m.getCleanupScanTS lastCheckpointTs).2 := by
  obtain ⟨hsuf, hkept, -⟩ := m.popExpired_spec m.beginnedTxns
  refine {h with unborn := ?_, kept := ?_, ordered := ?_, begun := ?_}
  · intro t ht
    obtain ⟨h₁, h₂, h₃⟩ := h.unborn t ht
    exact ⟨h₁, h₂, fun hm => h₃ (hsuf.subset hm)⟩
  · exact fun t ht => hkept t (h.kept t ht) ht
  · exact h.ordered.sublist hsuf.sublist
  · exact fun t ht => h.begun t (hsuf.subset ht)

/-! ### Every run -/

theorem inv_call {m' : TxnManager} {c : Call} (h : Inv startTs m) (hc : Allowed m c)
    (hs : call m c = .ok m') : Inv startTs m' := by
  cases c with
  | beginTxn txnType => exact inv_beginTxn h hs
  | commitReadOnly t => exact inv_commitReadOnly h hc.2 hs
  | commitWrite t => exact inv_commitWrite h hc.1 hc.2 hs
  | startCheck t =>
    cases hs
    exact inv_startCheck h
  | finishCheck t =>
    cases hs
    exact inv_finishCheck h
  | rollback t => exact inv_rollback h hc.2.1 hs
  | cleanupTxn t => exact inv_cleanupTxn h hc.1 hs
  | inCheckpointProcess commitTs =>
    cases hs
    have hsame : Inv startTs {m with ckpBeginTs := none} :=
      h.hold none m.checkingTs m.checks fun _ _ hk _ ht => TxnManager.alive_candidate hk ht
    simp only [TxnManager.inCheckpointProcess]
    split
    · split
      · exact hsame
      · exact h
    · exact h
  | getCleanupScanTS lastCheckpointTs =>
    cases hs
    exact inv_getCleanupScanTS h lastCheckpointTs

theorem inv_run {nextTxnId : Nat} {calls : List Call} (h : lifecycle.Run (.start nextTxnId startTs) calls m) :
    Inv startTs m :=
  h.invariant (fun _ _ _ hi hc hs => inv_call hi hc hs) (inv_start nextTxnId startTs)

end Infinity.Transaction.Lifecycle
