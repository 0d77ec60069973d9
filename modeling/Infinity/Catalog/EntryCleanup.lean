import Infinity.Catalog.EntryOrder

/-! Garbage collection of catalog versions cannot be seen.

The cleanup scan keeps the newest version older than its timestamp and removes the
committed versions behind it. A reader that began at or after that timestamp stops at
the kept version at the latest, so it reads what it read before. The one reader that
could look further is a transaction with a version of its own behind the kept one; such
a version is a leftover of a rollback, and the list's order says that its transaction
began before the kept version was committed, hence before the scan's timestamp. -/
namespace Infinity.Catalog

open List

/-- Two lists with the same front read the same if the parts behind it do. -/
theorem getEntryInner1NoLock_append (t b : Nat) (front : List Entry) {l l' : List Entry}
    (h : getEntryInner1NoLock t b l = getEntryInner1NoLock t b l') :
    getEntryInner1NoLock t b (front ++ l) = getEntryInner1NoLock t b (front ++ l') := by
  induction front with
  | nil => exact h
  | cons e front ih => simp only [cons_append, getEntryInner1NoLock, ih]

theorem getEntryInner1NoLock_stop {t b : Nat} {front behind : List Entry} {e : Entry} {c : Nat}
    (hc : e.commitTs = some c) (hle : c ≤ b) {x : Entry}
    (hx : getEntryInner1NoLock t b (front ++ e :: behind) = some x) : x ∈ front ∨ x = e := by
  induction front with
  | nil =>
    simp only [nil_append, getEntryInner1NoLock, hc, hle, if_true] at hx
    split at hx
    · cases hx
    · exact .inr (Option.some.inj hx).symm
  | cons y front ih =>
    have hrest : getEntryInner1NoLock t b (front ++ e :: behind) = some x → x ∈ y :: front ∨ x = e :=
      fun h => (ih h).imp (mem_cons_of_mem _) id
    have hhere : (if y.deleted then none else some y) = some x → x ∈ y :: front ∨ x = e := by
      intro h
      split at h
      · cases h
      rw [Option.some.inj h]
      exact .inl mem_cons_self
    simp only [cons_append, getEntryInner1NoLock] at hx
    cases hy : y.commitTs with
    | none =>
      rw [hy] at hx
      dsimp only at hx
      split at hx
      · exact hhere hx
      · exact hrest hx
    | some d =>
      rw [hy] at hx
      dsimp only at hx
      split at hx
      · exact hhere hx
      · exact hrest hx

theorem Inv.nothing_uncommitted_behind {s : System} (h : Inv s) {v c : Nat} {front behind : List Entry}
    {e : Entry} (hv : ∀ t r, s.txnMap t = some r → v ≤ r.beginTs) (hl : s.entries = front ++ e :: behind)
    (hc : e.commitTs = some c) (hlt : c < v) : behind.filter (fun e => e.commitTs.isNone) = [] := by
  rw [filter_eq_nil_iff]
  intro y hy hn
  rw [Option.isNone_iff_eq_none] at hn
  have hmem : y ∈ s.entries := by
    rw [hl]
    exact mem_append_right _ (mem_cons_of_mem _ hy)
  have hord := h.order
  rw [hl] at hord
  have hb := (pairwise_cons.mp (pairwise_append.mp hord).2.1).1 y hy
  obtain ⟨r, hr, hbeg, -⟩ := h.owned y hmem hn
  have h₁ := (hb.leftover c hc hn).1
  have h₂ := hv _ r hr
  omega

/-- **Cleanup cannot be seen.** In every state any calls lead to, and for every scan
timestamp that is not ahead of a transaction in the map: every transaction in the map,
and every later one that begins at or after that timestamp, reads from the cleaned list
what it reads from the list, and never a version that was handed out. -/
theorem cleanup_invisible (kind : EntryKind) (startTs : Nat) (calls : List Call) (s : System)
    (h : (listMachine kind).Run (System.start startTs) calls s) (visibleTs : Nat)
    (hv : ∀ t r, s.txnMap t = some r → visibleTs ≤ r.beginTs) (txnId beginTs : Nat)
    (hreader : (∃ r, s.txnMap txnId = some r ∧ r.beginTs = beginTs) ∨
      (s.nextTxnId < txnId ∧ visibleTs ≤ beginTs)) :
    getEntry kind txnId beginTs (pickCleanup visibleTs s.entries).1 = getEntry kind txnId beginTs s.entries ∧
      ∀ p ∈ (pickCleanup visibleTs s.entries).2, (getEntry kind txnId beginTs s.entries).1 ≠ some p.1 := by
  have hinv := inv_run h
  have hle : visibleTs ≤ beginTs := by
    rcases hreader with ⟨r, hr, rfl⟩ | ⟨-, hle⟩
    · exact hv txnId r hr
    · exact hle
  rcases pickCleanup_cases visibleTs s.entries with hp | ⟨front, e, c, behind, hl, hc, hlt, -, hkept, hpicked⟩
  · rw [hp]
    exact ⟨rfl, fun p hp => by cases hp⟩
  have hnone := hinv.nothing_uncommitted_behind hv hl hc hlt
  have hcb : c ≤ beginTs := by omega
  rw [hnone, append_nil] at hkept
  have hread : getEntryInner1NoLock txnId beginTs (pickCleanup visibleTs s.entries).1 =
      getEntryInner1NoLock txnId beginTs s.entries := by
    rw [hkept]
    conv_rhs => rw [hl]
    apply getEntryInner1NoLock_append
    -- the kept version decides, or its marker is gone and nothing is left behind it
    cases hd : e.deleted <;> simp [getEntryInner1NoLock, hc, hcb, hd]
  refine ⟨by simp only [getEntry, hread], fun p hp hret => ?_⟩
  have hpb : p.1 ∈ behind := by
    have : p.1 ∈ (pickCleanup visibleTs s.entries).2.map Prod.fst := mem_map_of_mem hp
    rw [hpicked] at this
    exact (mem_filter.mp this).1
  have hx : getEntryInner1NoLock txnId beginTs (front ++ e :: behind) = some p.1 := by
    rw [← hl]
    simp only [getEntry] at hret
    split at hret
    · rename_i x hx
      rwa [hx]
    · cases hret
  have hdist := hinv.distinct
  rw [hl] at hdist
  obtain ⟨-, hdist', hcross⟩ := pairwise_append.mp hdist
  rcases getEntryInner1NoLock_stop hc hcb hx with hmem | heq
  · exact hcross p.1 hmem p.1 (mem_cons_of_mem _ hpb) rfl
  · exact (pairwise_cons.mp hdist').1 p.1 hpb (by rw [heq])

/-- The object is created and dropped by two transactions; a third begins afterwards. -/
def createAndDrop : List Call :=
  [.beginTxn, .addEntry 1 0 .error false, .getWriteCommitTS 1, .commit 1, .beginTxn, .dropEntry 2 0 .error,
    .getWriteCommitTS 2, .commit 2, .beginTxn]

theorem createAndDrop_run : ∃ s, (listMachine .table).Run (System.start 0) createAndDrop s ∧
    s.entries = [⟨1, 0, 2, 3, some 4, true⟩, ⟨0, 0, 1, 1, some 2, false⟩] ∧
    ∀ t, s.txnMap t = if t = 3 then some ⟨.started, 5, 0⟩ else none := by
  refine ⟨_, .cons trivial rfl <| .cons ⟨_, rfl, rfl⟩ rfl <| .cons ⟨_, rfl, rfl⟩ rfl <|
    .cons ⟨_, rfl, rfl⟩ rfl <| .cons trivial rfl <| .cons ⟨_, rfl, rfl⟩ rfl <| .cons ⟨_, rfl, rfl⟩ rfl <|
    .cons ⟨_, rfl, rfl⟩ rfl <| .cons trivial rfl <| .nil _, rfl, fun t => ?_⟩
  match t with
  | 0 | 1 | 2 | 3 => rfl
  | _ + 4 => rfl

theorem cleanup_invisible_createAndDrop : ∃ s, (listMachine .table).Run (System.start 0) createAndDrop s ∧
    pickCleanup 5 s.entries = ([], [(⟨0, 0, 1, 1, some 2, false⟩, true)]) ∧
    getEntry .table 3 5 (pickCleanup 5 s.entries).1 = getEntry .table 3 5 s.entries := by
  obtain ⟨s, hrun, hl, hmap⟩ := createAndDrop_run
  refine ⟨s, hrun, by rw [hl]; rfl, ?_⟩
  have hv : ∀ t r, s.txnMap t = some r → 5 ≤ r.beginTs := by
    intro t r hr
    rw [hmap] at hr
    split at hr
    · cases hr
      exact le_rfl
    · cases hr
  exact (cleanup_invisible .table 0 createAndDrop s hrun 5 hv 3 5 (.inl ⟨_, hmap 3, rfl⟩)).1

end Infinity.Catalog
