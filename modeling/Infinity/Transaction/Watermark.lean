import Infinity.Transaction.LifecycleInv

/-! The two timestamps other components take from the transaction manager.

Full checkpoints take `maxCommittedTs`. It never decreases and stands below everything
that is still committing (`commit_watermark`). It also covers every timestamp up to
which all transactions are cleaned up, but only if whoever cleans up the oldest
committing transaction does so before the next one is cleaned up: otherwise the
watermark stops at the oldest, below what is already done (`watermark_left_behind`).

Version clean-up takes `getCleanupScanTS`. While a conflict check goes on, the objects
of its candidates are held, so they are still in the list of begun transactions and the
timestamp stays at or below the begin of each of them (`cleanupScan_pinned`). -/
namespace Infinity.Transaction.Lifecycle

open Lib

variable {startTs nextTxnId t : Nat} {m m' : TxnManager} {calls : List Call}

/-! ### The commit watermark -/

/-- The watermark covers every handed out timestamp up to which all transactions are cleaned up. -/
def Covering (m : TxnManager) : Prop :=
  ∀ t, (m.txns t).isWriteTransaction = true →
    (∀ t', (m.txns t').isWriteTransaction = true → (m.txns t').commitTs ≤ (m.txns t).commitTs → t' ∉ m.txnMap) →
    (m.txns t).commitTs ≤ m.maxCommittedTs

/-- Whoever cleans up the oldest committing transaction finds the next one, if there is
one, not cleaned up yet. -/
def NextRemains (m : TxnManager) : Call → Prop
  | .cleanupTxn t => (m.txns t).isWriteTransaction = true →
    (∃ k, k < (m.txns t).commitTs ∧ m.committingTxns.find? k ≠ none) ∨
      ∀ t', (m.txns t').isWriteTransaction = true → (m.txns t').commitTs = (m.txns t).commitTs + 2 → t' ∈ m.txnMap
  | _ => True

/-- Everything cleaned up above the watermark stands above something committing. -/
def Tight (m : TxnManager) : Prop :=
  ∀ t, (m.txns t).isWriteTransaction = true → t ∉ m.txnMap → m.maxCommittedTs < (m.txns t).commitTs →
    ∃ k t', m.committingTxns.find? k = some t' ∧ k < (m.txns t).commitTs

theorem Tight.covering (ht : Tight m) (h : Inv startTs m) : Covering m := by
  intro t hw hclean
  by_contra hlt
  obtain ⟨k, t', hk, hlt'⟩ := ht t hw (hclean t hw (le_refl _)) (not_le.mp hlt)
  obtain ⟨hmem, hw', hc⟩ := (h.committing k t').mp hk
  exact hclean t' hw' (hc.trans_le hlt'.le) hmem

/-- Calls that clean up nothing keep the watermark, and every writing transaction that
was cleaned up already as it is; only a committing one may be added. -/
structure Adds (m m' : TxnManager) : Prop where
  watermark : m'.maxCommittedTs = m.maxCommittedTs
  kept : ∀ k t, m.committingTxns.find? k = some t → ∃ t', m'.committingTxns.find? k = some t'
  old : ∀ t, (m'.txns t).isWriteTransaction = true → t ∉ m'.txnMap →
    (m.txns t).isWriteTransaction = true ∧ t ∉ m.txnMap ∧ (m'.txns t).commitTs = (m.txns t).commitTs

theorem Adds.tight (ha : Adds m m') (ht : Tight m) : Tight m' := by
  intro t hw hgone hlt
  obtain ⟨hw', hgone', hc⟩ := ha.old t hw hgone
  rw [hc, ha.watermark] at hlt
  obtain ⟨k, t', hk, hlt'⟩ := ht t hw' hgone' hlt
  obtain ⟨t'', hk'⟩ := ha.kept k t' hk
  exact ⟨k, t'', hk', hlt'.trans_eq hc.symm⟩

theorem adds_touch (hmem : t ∈ m.txnMap) (c : TxnContext) : Adds m {m with txns := Function.update m.txns t c} where
  watermark := rfl
  kept := fun k t' hk => ⟨t', hk⟩
  old := by
    intro t' hw hgone
    have hne : t' ≠ t := by
      rintro rfl
      exact hgone hmem
    simp only [Function.update_of_ne hne] at hw ⊢
    exact ⟨hw, hgone, trivial⟩

theorem adds_call {c : Call} (h : Inv startTs m) (hc : Allowed m c) (hs : call m c = .ok m')
    (hclean : ∀ t, c ≠ .cleanupTxn t) : Adds m m' := by
  have hsame : ∀ ckp checkingTs checks beginnedTxns nextTxnId isRunning, Adds m {m with
      ckpBeginTs := ckp, checkingTs := checkingTs, checks := checks, beginnedTxns := beginnedTxns,
      nextTxnId := nextTxnId, isRunning := isRunning} :=
    fun _ _ _ _ _ _ => ⟨rfl, fun k t hk => ⟨t, hk⟩, fun t hw hgone => ⟨hw, hgone, rfl⟩⟩
  cases c with
  | beginTxn txnType =>
    simp only [call, TxnManager.beginTxn, h.running, Bool.not_true, Bool.false_eq_true, if_false] at hs
    split at hs
    · cases hs
      exact hsame _ _ _ _ _ _
    cases hs
    refine ⟨rfl, fun k t hk => ⟨t, hk⟩, fun t hw hgone => ?_⟩
    have hne : t ≠ m.nextTxnId + 1 := fun he => hgone (he ▸ List.mem_cons_self)
    simp only [Function.update_of_ne hne] at hw ⊢
    exact ⟨hw, fun hm => hgone (List.mem_cons_of_mem _ hm), trivial⟩
  | commitReadOnly t =>
    rw [call_commitReadOnly hc.2] at hs
    cases hs
    exact adds_touch hc.1 _
  | commitWrite t =>
    rw [call_commitWrite hc.2] at hs
    cases hs
    refine ⟨rfl, fun k t' hk => ?_, (adds_touch hc.1 _).old⟩
    rw [OrderedMap.find?_emplace]
    split
    · exact ⟨_, rfl⟩
    · exact ⟨t', hk⟩
  | startCheck t =>
    cases hs
    exact hsame _ _ _ _ _ _
  | finishCheck t =>
    cases hs
    simp only [TxnManager.finishCheck]
    split <;> exact hsame _ _ _ _ _ _
  | rollback t =>
    rw [call_rollback hc.2.1] at hs
    cases hs
    exact adds_touch hc.1 _
  | cleanupTxn t => exact absurd rfl (hclean t)
  | inCheckpointProcess commitTs =>
    cases hs
    simp only [TxnManager.inCheckpointProcess]
    split
    · split <;> exact hsame _ _ _ _ _ _
    · exact hsame _ _ _ _ _ _
  | getCleanupScanTS lastCheckpointTs =>
    cases hs
    exact hsame _ _ _ _ _ _

theorem cleanupTxn_watermark (h : Inv startTs m) (hmem : t ∈ m.txnMap) (hs : call m (.cleanupTxn t) = .ok m') :
    m.maxCommittedTs ≤ m'.maxCommittedTs := by
  obtain ⟨ckp, hcall⟩ := call_cleanupTxn h hmem
  rw [hcall] at hs
  cases hs
  split
  · rename_i hw
    have hlt := h.below _ t ((h.committing _ t).mpr ⟨hmem, hw, rfl⟩)
    rcases watermark_cases (m.committingTxns.erase (m.txns t).commitTs) (m.txns t).commitTs m.maxCommittedTs with
      ⟨-, heq⟩ | ⟨-, heq⟩
    · exact (hlt.trans_eq heq.symm).le
    · exact heq.ge
  · exact le_refl _

theorem call_watermark {c : Call} (h : Inv startTs m) (hc : Allowed m c) (hs : call m c = .ok m') :
    m.maxCommittedTs ≤ m'.maxCommittedTs := by
  by_cases hclean : ∃ t, c = .cleanupTxn t
  · obtain ⟨t, rfl⟩ := hclean
    exact cleanupTxn_watermark h hc.1 hs
  · exact (adds_call h hc hs fun t heq => hclean ⟨t, heq⟩).watermark.ge

theorem run_watermark (hr : lifecycle.Run m calls m') (h : Inv startTs m) : m.maxCommittedTs ≤ m'.maxCommittedTs := by
  refine (hr.invariant (I := fun x => Inv startTs x ∧ m.maxCommittedTs ≤ x.maxCommittedTs) ?_ ⟨h, le_refl _⟩).2
  intro s a s' hi ha hs
  exact ⟨inv_call hi.1 ha hs, hi.2.trans (call_watermark hi.1 ha hs)⟩

/-- Cleaning up under `NextRemains` leaves nothing done above the watermark uncovered. -/
theorem tight_cleanupTxn (h : Inv startTs m) (ht : Tight m) (hmem : t ∈ m.txnMap)
    (hnext : NextRemains m (.cleanupTxn t)) (hs : call m (.cleanupTxn t) = .ok m') : Tight m' := by
  obtain ⟨ckp, hcall⟩ := call_cleanupTxn h hmem
  rw [hcall] at hs
  cases hs
  have hgone : ∀ t', t' ∉ m.txnMap.filter (· ≠ t) ↔ t' ∉ m.txnMap ∨ t' = t := by
    intro t'
    simp only [List.mem_filter, decide_eq_true_eq, not_and_or, not_not]
  cases hw : (m.txns t).isWriteTransaction with
  | false =>
    rw [if_neg Bool.false_ne_true]
    intro t' hw' hg hlt
    rcases (hgone t').mp hg with hg | rfl
    · exact ht t' hw' hg hlt
    · rw [hw] at hw'
      cases hw'
  | true =>
    rw [if_pos rfl]
    set c := (m.txns t).commitTs with hcdef
    have herase : ∀ k t', m.committingTxns.find? k = some t' → k ≠ c →
        (m.committingTxns.erase c).find? k = some t' := by
      intro k t' hk hne
      rw [OrderedMap.find?_erase, if_neg hne, hk]
    intro t' hw' hg hlt
    simp only [(m.update_state t t' _).1, (m.update_state t t' _).2.1] at hw' hlt ⊢
    rcases watermark_cases (m.committingTxns.erase c) c m.maxCommittedTs with ⟨hlow, heq⟩ | ⟨⟨k, tk, hk, hkc⟩, heq⟩
    · -- `c` was the oldest: the next timestamp, if handed out, is still committing
      rw [heq] at hlt
      have hgone' : t' ∉ m.txnMap := by
        rcases (hgone t').mp hg with hg | rfl
        · exact hg
        · exact absurd hlt (lt_irrefl _)
      have hremains : ∀ t'', (m.txns t'').isWriteTransaction = true → (m.txns t'').commitTs = c + 2 →
          t'' ∈ m.txnMap := by
        refine (hnext hw).resolve_left ?_
        rintro ⟨k, hkc, hk⟩
        obtain ⟨tk, hk⟩ := Option.ne_none_iff_exists'.mp hk
        exact absurd (hlow k tk (herase k tk hk hkc.ne)) (not_lt.mpr hkc.le)
      obtain ⟨j, hj, -⟩ := (h.issued c).mp ⟨t, hw, rfl⟩
      obtain ⟨j', hj', hle'⟩ := (h.issued _).mp ⟨t', hw', rfl⟩
      obtain ⟨t₂, hw₂, hc₂⟩ := (h.issued (c + 2)).mpr ⟨j + 1, by omega, by omega⟩
      have hfind₂ := (h.committing _ t₂).mpr ⟨hremains t₂ hw₂ hc₂, hw₂, hc₂⟩
      refine ⟨c + 2, t₂, herase _ _ hfind₂ (by omega), lt_of_le_of_ne (by omega) fun heq₂ => hgone' ?_⟩
      exact hremains t' hw' heq₂.symm
    · -- an older one is left, below everything that needs cover
      rw [heq] at hlt
      rcases (hgone t').mp hg with hg | rfl
      · obtain ⟨k', tk', hk', hlt'⟩ := ht t' hw' hg hlt
        by_cases hkc' : k' = c
        · exact ⟨k, tk, hk, hkc.trans_lt (hkc' ▸ hlt')⟩
        · exact ⟨k', tk', herase k' tk' hk' hkc', hlt'⟩
      · refine ⟨k, tk, hk, lt_of_le_of_ne hkc fun he => ?_⟩
        rw [OrderedMap.find?_erase, if_pos he] at hk
        cases hk

/-- **The commit watermark.** In every state reached, the watermark stands below every
committing transaction and no later call lowers it; and if every clean-up of the run
found the next transaction not cleaned up, it covers whatever is done without a gap. -/
theorem commit_watermark (hr : lifecycle.Run (.start nextTxnId startTs) calls m) :
    (∀ more m', lifecycle.Run m more m' → m.maxCommittedTs ≤ m'.maxCommittedTs) ∧
      (∀ c t, m.committingTxns.find? c = some t → m.maxCommittedTs < c) ∧
      ((lifecycle.restrict NextRemains).Run (.start nextTxnId startTs) calls m → Covering m) := by
  have hinv := inv_run hr
  refine ⟨fun more m' hmore => run_watermark hmore hinv, hinv.below, fun hg => ?_⟩
  have hstart : Tight (.start nextTxnId startTs) := fun t hw => by cases hw
  refine (hg.invariant (I := fun x => Inv startTs x ∧ Tight x) ?_ ⟨inv_start _ _, hstart⟩).2.covering hinv
  rintro s a s' ⟨hi, ht⟩ ⟨ha, hn⟩ hs
  refine ⟨inv_call hi ha hs, ?_⟩
  by_cases hclean : ∃ t, a = .cleanupTxn t
  · obtain ⟨t, rfl⟩ := hclean
    exact tight_cleanupTxn hi ht ha.1 hn hs
  · exact (adds_call hi ha hs fun t heq => hclean ⟨t, heq⟩).tight ht

/-- Two writing transactions take the timestamps 2 and 4; the second is cleaned up first. -/
def overtaken : List Call :=
  [.beginTxn .normal, .beginTxn .normal, .commitWrite 1, .commitWrite 2, .cleanupTxn 2, .cleanupTxn 1]

/-- Nothing is committing any more, and the watermark is 2 although 4 was handed out and
everything up to it is cleaned up. -/
theorem watermark_left_behind : ∃ m, lifecycle.Run (.start 0 0) overtaken m ∧ m.maxCommittedTs = 2 ∧ ¬ Covering m := by
  refine ⟨_, .cons trivial rfl <| .cons trivial rfl <| .cons ⟨by decide, rfl⟩ rfl <|
    .cons ⟨by decide, rfl⟩ rfl <| .cons ⟨by decide, by decide, rfl⟩ rfl <|
    .cons ⟨by decide, by decide, rfl⟩ rfl <| .nil _, rfl, fun hcov => ?_⟩
  exact absurd (hcov 2 rfl fun t' _ _ hmem => by cases hmem) (by decide)

/-- The same two, cleaned up in the order of their timestamps. -/
def inOrder : List Call :=
  [.beginTxn .normal, .beginTxn .normal, .commitWrite 1, .commitWrite 2, .cleanupTxn 1, .cleanupTxn 2]

theorem inOrder_run : ∃ m, (lifecycle.restrict NextRemains).Run (.start 0 0) inOrder m ∧ m.maxCommittedTs = 4 := by
  refine ⟨_, .cons ⟨trivial, trivial⟩ rfl <| .cons ⟨trivial, trivial⟩ rfl <| .cons ⟨⟨by decide, rfl⟩, trivial⟩ rfl <|
    .cons ⟨⟨by decide, rfl⟩, trivial⟩ rfl <| .cons ⟨⟨by decide, by decide, rfl⟩, fun _ => .inr ?_⟩ rfl <|
    .cons ⟨⟨by decide, by decide, rfl⟩, fun _ => .inr ?_⟩ rfl <| .nil _, rfl⟩
  · intro t hw hc
    by_cases h₂ : t = 2
    · rw [h₂]
      decide
    by_cases h₁ : t = 1
    · rw [h₁]
      decide
    · simp [h₁, h₂, TxnManager.start] at hw
  · intro t hw hc
    by_cases h₁ : t = 1
    · rw [h₁] at hc
      exact absurd hc (by decide)
    by_cases h₂ : t = 2
    · rw [h₂]
      decide
    · simp [h₁, h₂, TxnManager.start] at hw

theorem commit_watermark_inOrder :
    ∃ m, lifecycle.Run (.start 0 0) inOrder m ∧ Covering m ∧ m.maxCommittedTs = 4 := by
  obtain ⟨m, hg, hmax⟩ := inOrder_run
  exact ⟨m, hg.of_restrict, (commit_watermark hg.of_restrict).2.2 hg, hmax⟩

/-! ### The clean-up timestamp -/

/-- The list of begun transactions is in begin order and its first live one is older
than every other live one. -/
theorem getCleanupScanTS_le (h : Inv startTs m) (lastCheckpointTs : Nat) (ht : m.alive t = true) :
    (m.getCleanupScanTS lastCheckpointTs).1 ≤ (m.txns t).beginTs := by
  obtain ⟨hsuf, hkept, -⟩ := m.popExpired_spec m.beginnedTxns
  have hmem := hkept t (h.kept t ht) ht
  have hsorted := h.ordered.sublist hsuf.sublist
  cases hp : m.popExpired m.beginnedTxns with
  | nil =>
    rw [hp] at hmem
    cases hmem
  | cons first rest =>
    rw [hp] at hmem hsorted
    have hfirst : (m.txns first).beginTs ≤ (m.txns t).beginTs := by
      rcases List.mem_cons.mp hmem with rfl | hmem
      · exact le_refl _
      · exact (List.pairwise_cons.mp hsorted).1 t hmem
    simp only [TxnManager.getCleanupScanTS, hp]
    split
    · exact (min_le_left _ _).trans ((min_le_left _ _).trans hfirst)
    · exact (min_le_left _ _).trans hfirst

/-- **Conflict checks pin clean-up.** Whatever the last checkpoint is, in every state
reached the clean-up timestamp is at most the begin timestamp of every candidate of
every conflict check that is going on. -/
theorem cleanupScan_pinned (hr : lifecycle.Run (.start nextTxnId startTs) calls m) (lastCheckpointTs : Nat) :
    ∀ checker check, m.checks.find? checker = some check → ∀ t ∈ check.candidateTxns,
      (m.getCleanupScanTS lastCheckpointTs).1 ≤ (m.txns t).beginTs :=
  fun _ _ hcheck _ ht => getCleanupScanTS_le (inv_run hr) lastCheckpointTs (TxnManager.alive_candidate hcheck ht)

/-- Two checks share a candidate and so a pin. The first to finish takes the pin out and
the candidate is cleaned up; the second check still holds it. -/
def sharedPin : List Call :=
  [.beginTxn .normal, .commitWrite 1, .beginTxn .normal, .beginTxn .normal, .commitWrite 2, .commitWrite 3,
    .startCheck 2, .startCheck 3, .finishCheck 2, .cleanupTxn 1, .cleanupTxn 2]

theorem sharedPin_run : ∃ m, lifecycle.Run (.start 0 0) sharedPin m ∧ m.checkingTs.entries = [] ∧
    m.checks.find? 3 = some ⟨[1, 2], some 1⟩ ∧ (m.txns 1).beginTs = 1 :=
  ⟨_, .cons trivial rfl <| .cons ⟨by decide, rfl⟩ rfl <| .cons trivial rfl <| .cons trivial rfl <|
    .cons ⟨by decide, rfl⟩ rfl <| .cons ⟨by decide, rfl⟩ rfl <| .cons ⟨by decide, rfl, rfl, rfl⟩ rfl <|
    .cons ⟨by decide, rfl, rfl, rfl⟩ rfl <| .cons (Option.some_ne_none _) rfl <|
    .cons ⟨by decide, by decide, rfl⟩ rfl <| .cons ⟨by decide, by decide, rfl⟩ rfl <| .nil _, rfl, rfl, rfl⟩

theorem cleanupScan_pinned_shared : ∃ m, lifecycle.Run (.start 0 0) sharedPin m ∧ m.checkingTs.entries = [] ∧
    (m.getCleanupScanTS 100).1 ≤ 1 := by
  obtain ⟨m, hrun, hpins, hcheck, hbegin⟩ := sharedPin_run
  refine ⟨m, hrun, hpins, ?_⟩
  rw [← hbegin]
  exact cleanupScan_pinned hrun 100 3 _ hcheck 1 (by decide)

end Infinity.Transaction.Lifecycle
