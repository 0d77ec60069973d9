import Infinity.Table.Delete

/-! A commit puts its timestamp on what was touched, and the view stays as it is.

What a transaction appended or deleted is open until its commit: the block is in its
hands, and a new block or segment has no timestamp. Everything open was touched, and
`CommitWrite` closes all that was touched. -/
namespace Infinity.Table

open Block Lib List

variable {ρ : Type} {cap : Capacity} {txnId c : Nat}

/-! ### Commits -/

theorem BlockEntry.Dated.committed {b : BlockEntry ρ} (h : b.Dated) {minRowTs : Nat} {commitTs : Option Nat} : {b with
      usingTxnId := 0
      minRowTs
      maxRowTs := if b.maxRowTs = 0 then c else b.maxRowTs
      commitTs}.Dated where
  stamps ts hts := by
    have := h.stamps ts hts
    dsimp only
    split <;> omega
  rowCount ts hts := by
    refine h.rowCount ts ?_
    dsimp only at hts
    split at hts <;> omega

theorem BlockEntry.commitBlock_spec {b : BlockEntry ρ} (hc : 0 < c) (hb : b.Sound cap txnId c) :
    ∃ b', b.commitBlock txnId c = .ok b' ∧ b'.Sound cap txnId c ∧ b'.view c = b.view c ∧
      b'.remaining = b.remaining ∧ ¬ b'.Open := by
  have howner : ¬ (b.usingTxnId ≠ 0 ∧ b.usingTxnId ≠ txnId) := by rcases hb.owner with h | h <;> simp [h]
  have hts : ¬ b.minRowTs > b.maxRowTs := not_lt.mpr hb.minRowTs
  simp only [BlockEntry.commitBlock, howner, hts]
  have hmax := hb.maxRowTs
  have hunset := hb.unset
  refine ⟨_, rfl, ⟨hb.capacity, hb.fits, hb.created, hb.deleted, ?_, ?_, ?_, .inl rfl, hb.dated.committed⟩, ?_, rfl, ?_⟩
  · dsimp only
    split <;> split <;> omega
  · dsimp only
    split <;> omega
  · dsimp only
    split <;> split <;> omega
  · simp only [BlockEntry.view, BlockView.mk.injEq, true_and]
    cases b.commitTs <;> rfl
  · simp only [BlockEntry.Open]
    cases b.commitTs <;> simp <;> split <;> omega

theorem commitBlocks_spec {blocks : List (BlockEntry ρ)} (ids : List Nat) (hc : 0 < c)
    (hs : ∀ b ∈ blocks, b.Sound cap txnId c) :
    ∃ blocks', SegmentEntry.commitBlocks txnId c blocks ids = .ok blocks' ∧ (∀ b ∈ blocks', b.Sound cap txnId c) ∧
      blocks'.map (BlockEntry.view c) = blocks.map (BlockEntry.view c) ∧
      blocks'.map BlockEntry.remaining = blocks.map BlockEntry.remaining ∧
      ∀ (i : Nat) b', blocks'[i]? = some b' → b'.Open → i ∉ ids ∧ ∃ b, blocks[i]? = some b ∧ b.Open := by
  induction ids generalizing blocks with
  | nil => exact ⟨blocks, rfl, hs, rfl, rfl, fun i b hb ho => ⟨by simp, b, hb, ho⟩⟩
  | cons id rest ih =>
    simp only [SegmentEntry.commitBlocks]
    cases hid : blocks[id]? with
    | none =>
      obtain ⟨blocks', hrun, hs', hview, hrem, hopen⟩ := ih hs
      refine ⟨blocks', hrun, hs', hview, hrem, fun i b' hb' ho => ?_⟩
      obtain ⟨hnot, b, hb, hbo⟩ := hopen i b' hb' ho
      refine ⟨?_, b, hb, hbo⟩
      rintro (_ | _)
      · rw [hid] at hb
        cases hb
      · contradiction
    | some b =>
      have hlt := (List.getElem?_eq_some_iff.mp hid).1
      obtain ⟨b₁, hcommit, hb₁, hview₁, hrem₁, hclosed⟩ := BlockEntry.commitBlock_spec hc (hs b (mem_of_getElem? hid))
      have hs₁ : ∀ b ∈ blocks.set id b₁, b.Sound cap txnId c := by
        intro b' hb'
        rcases mem_or_eq_of_mem_set hb' with h | rfl
        · exact hs b' h
        · exact hb₁
      obtain ⟨blocks', hrun, hs', hview, hrem, hopen⟩ := ih hs₁
      simp only [hcommit]
      refine ⟨blocks', hrun, hs', ?_, ?_, fun i b' hb' ho => ?_⟩
      · rw [hview, map_set_same hid hview₁]
      · rw [hrem, map_set_same hid hrem₁]
      · obtain ⟨hnot, b₂, hb₂, hbo⟩ := hopen i b' hb' ho
        rw [getElem?_set] at hb₂
        by_cases hi : id = i
        · subst hi
          simp only [hlt, if_true, Option.some.injEq] at hb₂
          exact absurd (hb₂ ▸ hbo) hclosed
        rw [if_neg hi] at hb₂
        refine ⟨?_, b₂, hb₂, hbo⟩
        rintro (_ | _)
        · exact hi rfl
        · contradiction

/-- From `s` to `s'` what the transaction did is committed. -/
structure SegmentEntry.Committed (cap : Capacity) (txnId c : Nat) (s s' : SegmentEntry ρ) (blockIds : List Nat)
    (deletes : Bool) : Prop where
  sound : s'.Sound cap txnId c
  view : s'.view c false = s.view c deletes
  filled : s.Filled cap → s'.Filled cap
  segmentId : s'.segmentId = s.segmentId
  status : s'.status = s.status
  minRowTs : ∀ m, s.minRowTs = some m → m ≤ c → s'.minRowTs = some m
  commitTs : s.status ≠ .deprecated → s'.commitTs ≠ none
  closed : s.status ≠ .deprecated → ∀ (i : Nat) b', s'.blocks[i]? = some b' → b'.Open →
    i ∉ blockIds ∧ ∃ b, s.blocks[i]? = some b ∧ b.Open
  same : s.status = .deprecated → s' = s

theorem SegmentEntry.commitSegment_spec {s : SegmentEntry ρ} (blockIds : List Nat) (deletes : Bool) (hc : 0 < c)
    (hs : s.Sound cap txnId c) :
    ∃ s', s.commitSegment txnId c blockIds deletes = .ok s' ∧ s.Committed cap txnId c s' blockIds deletes := by
  by_cases hd : s.status = .deprecated
  · refine ⟨s, by simp [commitSegment, hd], hs, ?_, fun h => h, rfl, rfl, fun _ h _ => h, fun h => absurd hd h,
      fun h => absurd hd h, fun _ => rfl⟩
    simp [SegmentEntry.view, hd]
  obtain ⟨blocks', hrun, hbs, hview, hrem, hopen⟩ := commitBlocks_spec blockIds hc hs.blocks
  have hts : ¬ c < s.maxRowTs := not_lt.mpr hs.maxRowTs
  have hrows : blocks'.map (fun b => b.rows) = s.blocks.map fun b => b.rows := by
    simpa [BlockEntry.view, Function.comp_def] using congrArg (map fun b : BlockView ρ => b.rows) hview
  simp only [commitSegment, hd, hts, hrun]
  refine ⟨_, rfl, ⟨hbs, ?_, le_rfl⟩, ?_, ?_, rfl, rfl, ?_, ?_, fun _ => hopen, fun h => absurd h hd⟩
  · have := hs.remaining
    simp only [SegmentEntry.remaining] at this ⊢
    rwa [hrem]
  · simp only [SegmentEntry.view, hview]
    have hnd : (s.status == .deprecated) = false := by simpa using hd
    cases deletes <;> cases s.commitTs <;> simp [hnd]
  · exact fun hf => hf.of_rows rfl rfl rfl hrows
  · intro m hm hle
    simp [hm, min_eq_left hle]
  · intro _
    cases s.commitTs <;> simp

namespace TableEntry

theorem commitSegments_spec {t : TableEntry ρ} (blocks : List (Nat × Nat)) (deleteState : DeleteState) {ids : List Nat}
    (hnd : ids.Nodup) (hc : 0 < c)
    (hs : ∀ id ∈ ids, ∀ s, t.segmentMap id = some s → s.segmentId = id ∧ s.Sound cap txnId c) :
    ∃ t', t.commitSegments txnId c blocks deleteState ids = .ok t' ∧ t'.nextSegmentId = t.nextSegmentId ∧
      t'.unsealedId = t.unsealedId ∧ (∀ id, t.segmentMap id = none → t'.segmentMap id = none) ∧
      ∀ id s, t.segmentMap id = some s → ∃ s', t'.segmentMap id = some s' ∧ (id ∉ ids → s' = s) ∧
        (id ∈ ids → s.Committed cap txnId c s' ((blocks.filter fun b => b.1 == id).map Prod.snd)
          (deleteState.any fun d => d.1 == id && !d.2.isEmpty)) := by
  induction ids generalizing t with
  | nil => exact ⟨t, rfl, rfl, rfl, fun _ h => h, fun id s h => ⟨s, h, fun _ => rfl, fun h => by cases h⟩⟩
  | cons id rest ih =>
    obtain ⟨hnot, hnd⟩ := nodup_cons.mp hnd
    simp only [commitSegments]
    cases hid : t.segmentMap id with
    | none =>
      obtain ⟨t', hrun, hnext, hunsealed, hnone, hsome⟩ := ih hnd fun id' h => hs id' (mem_cons_of_mem _ h)
      refine ⟨t', hrun, hnext, hunsealed, hnone, fun id' s h => ?_⟩
      obtain ⟨s', hs', hout, hin⟩ := hsome id' s h
      have hne : id' ≠ id := by
        rintro rfl
        rw [hid] at h
        cases h
      exact ⟨s', hs', fun hn => hout fun hm => hn (mem_cons_of_mem _ hm),
        fun hm => hin ((mem_cons.mp hm).resolve_left hne)⟩
    | some s =>
      obtain ⟨hsid, hsound⟩ := hs id mem_cons_self s hid
      obtain ⟨s₁, hcommit, hcs⟩ := SegmentEntry.commitSegment_spec ((blocks.filter fun b => b.1 == id).map Prod.snd)
        (deleteState.any fun d => d.1 == id && !d.2.isEmpty) hc hsound
      have hs₁ : s₁.segmentId = id := hcs.segmentId.trans hsid
      have hself : (t.setSegment s₁).segmentMap id = some s₁ := hs₁ ▸ setSegment_self t s₁
      have hother : ∀ id', id' ≠ id → (t.setSegment s₁).segmentMap id' = t.segmentMap id' := fun id' hne =>
        setSegment_ne (hs₁ ▸ hne)
      have hne : ∀ id' ∈ rest, id' ≠ id := fun id' h heq => hnot (heq ▸ h)
      obtain ⟨t', hrun, hnext, hunsealed, hnone, hsome⟩ := ih hnd fun id' h s' hs' =>
        hs id' (mem_cons_of_mem _ h) s' (hother id' (hne id' h) ▸ hs')
      simp only [hcommit]
      refine ⟨t', hrun, hnext, hunsealed, fun id' h => ?_, fun id' s' h => ?_⟩
      · refine hnone id' ?_
        rw [hother id' ?_]
        · exact h
        · rintro rfl
          rw [hid] at h
          cases h
      · by_cases heq : id' = id
        · subst heq
          rw [hid] at h
          cases h
          obtain ⟨s'', hs'', hout, _⟩ := hsome id' s₁ hself
          refine ⟨s'', hs'', fun hn => absurd mem_cons_self hn, fun _ => ?_⟩
          rwa [hout hnot]
        · obtain ⟨s'', hs'', hout, hin⟩ := hsome id' s' ((hother id' heq).trans h)
          exact ⟨s'', hs'', fun hn => hout fun hm => hn (mem_cons_of_mem _ hm),
            fun hm => hin ((mem_cons.mp hm).resolve_left heq)⟩

/-- **A commit leaves the view as it is** and nothing open. -/
theorem commitWrite_spec {t : TableEntry ρ} (touched : Touched) {deleteState : DeleteState} (hc : 0 < c)
    (ht : t.Sound cap txnId c) (hp : t.Pending touched.blocks) (hfiled : Filed deleteState)
    (hin : ∀ d ∈ deleteState, ∃ i, (d.1, i) ∈ touched.blocks) :
    ∃ t', t.commitWrite txnId c touched deleteState = .ok t' ∧ t'.Sound cap txnId c ∧ t'.Pending [] ∧
      t'.view c [] = t.view c (deleteState.map Prod.fst) ∧ ∀ id, t.Born c id → t'.Born c id := by
  obtain ⟨t', hrun, hnext, hunsealed, hnone, hsome⟩ := commitSegments_spec touched.blocks deleteState
    (nodup_dedup (touched.blocks.map Prod.fst)) hc fun id _ s hs => ⟨(ht.ids id s hs).1, ht.segments id s hs⟩
  have hmem : ∀ id, id ∈ (touched.blocks.map Prod.fst).dedup ↔ ∃ i, (id, i) ∈ touched.blocks := by simp
  have hdeletes : ∀ id, (deleteState.any fun d => d.1 == id && !d.2.isEmpty) = decide (id ∈ deleteState.map Prod.fst) := by
    intro id
    rw [Bool.eq_iff_iff, any_eq_true, decide_eq_true_iff, mem_map]
    constructor
    · rintro ⟨d, hd, h⟩
      simp only [Bool.and_eq_true, beq_iff_eq] at h
      exact ⟨d, hd, h.1⟩
    · rintro ⟨d, hd, rfl⟩
      exact ⟨d, hd, by simpa using (hfiled d hd).1⟩
  have hback : ∀ id s', t'.segmentMap id = some s' → ∃ s, t.segmentMap id = some s ∧
      ((id ∉ (touched.blocks.map Prod.fst).dedup ∧ s' = s) ∨ s.Committed cap txnId c s'
        ((touched.blocks.filter fun b => b.1 == id).map Prod.snd) (decide (id ∈ deleteState.map Prod.fst))) := by
    intro id s' hs'
    cases hs : t.segmentMap id with
    | none =>
      rw [hnone id hs] at hs'
      cases hs'
    | some s =>
      obtain ⟨s₁, hs₁, hout, hcs⟩ := hsome id s hs
      rw [hs'] at hs₁
      cases hs₁
      by_cases hid : id ∈ (touched.blocks.map Prod.fst).dedup
      · exact ⟨s, rfl, .inr (hdeletes id ▸ hcs hid)⟩
      · exact ⟨s, rfl, .inl ⟨hid, hout hid⟩⟩
  refine ⟨t', hrun, ⟨?_, ?_, ?_⟩, ⟨?_, ?_⟩, ?_, ?_⟩
  · intro id s' hs'
    rw [hnext]
    obtain ⟨s, hs, ⟨-, rfl⟩ | hcs⟩ := hback id s' hs'
    · exact ht.ids id _ hs
    · exact ⟨hcs.segmentId.trans (ht.ids id s hs).1, (ht.ids id s hs).2⟩
  · intro id s' hs'
    obtain ⟨s, hs, ⟨-, rfl⟩ | hcs⟩ := hback id s' hs'
    · exact ht.segments id _ hs
    · exact hcs.sound
  · intro id s' hu hs'
    obtain ⟨s, hs, ⟨-, rfl⟩ | hcs⟩ := hback id s' hs'
    · exact ht.unsealed id _ (hunsealed ▸ hu) hs
    · exact hcs.filled (ht.unsealed id s (hunsealed ▸ hu) hs)
  · intro id s' hs' hn
    obtain ⟨s, hs, ⟨hid, rfl⟩ | hcs⟩ := hback id s' hs'
    · exact absurd ((hmem id).mpr (hp.segments id _ hs hn).2) hid
    by_cases hst : s.status = .deprecated
    · rw [hcs.same hst] at hn
      exact absurd hst (hp.segments id s hs hn).1
    · exact absurd hn (hcs.commitTs hst)
  · intro id s' hs' i b' hb' ho
    obtain ⟨s, hs, ⟨hid, rfl⟩ | hcs⟩ := hback id s' hs'
    · exact absurd ((hmem id).mpr ⟨i, (hp.blocks id _ hs i b' hb' ho).2⟩) hid
    by_cases hst : s.status = .deprecated
    · rw [hcs.same hst] at hb'
      exact absurd hst (hp.blocks id s hs i b' hb' ho).1
    obtain ⟨hnot, b, hb, hbo⟩ := hcs.closed hst i b' hb' ho
    refine absurd ?_ hnot
    exact mem_map.mpr ⟨(id, i), mem_filter.mpr ⟨(hp.blocks id s hs i b hb hbo).2, by simp⟩, rfl⟩
  · simp only [TableEntry.view, hnext, hunsealed, TableView.mk.injEq, and_true]
    funext id
    cases hs : t.segmentMap id with
    | none => simp [hnone id hs]
    | some s =>
      obtain ⟨s', hs', hout, hcs⟩ := hsome id s hs
      rw [hs']
      by_cases hid : id ∈ (touched.blocks.map Prod.fst).dedup
      · rw [hdeletes id] at hcs
        simpa using (hcs hid).view
      have hnot : id ∉ deleteState.map Prod.fst := by
        intro hd
        obtain ⟨d, hdm, rfl⟩ := mem_map.mp hd
        exact hid ((hmem d.1).mpr (hin d hdm))
      simp [hout hid, hnot]
  · rintro id ⟨s, m, hs, hst, hm, hle⟩
    obtain ⟨s', hs', hout, hcs⟩ := hsome id s hs
    by_cases hid : id ∈ (touched.blocks.map Prod.fst).dedup
    · exact ⟨s', m, hs', (hcs hid).status ▸ hst, (hcs hid).minRowTs m hm hle, hle⟩
    · exact ⟨s', m, hs', hout hid ▸ hst, hout hid ▸ hm, hle⟩

end TableEntry

end Infinity.Table
