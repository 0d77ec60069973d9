import Infinity.Lib.Checked
import Infinity.Lib.Lists
import Infinity.Table.Append

/-! Deleting rows is marking their places.

A delete fails when a row is deleted already, by another transaction or by the same one.
Over rows that exist it succeeds exactly when they are all there to delete and no two
are the same, and then the view is marked at their places: in which order, and in how
many calls, makes no difference. -/
namespace Infinity.Table

open Block Lib List

variable {ρ : Type} {cap : Capacity} {txnId c : Nat}

/-! ### Versions -/

/-- From `v` to `v'` the offsets are deleted at `c`, each a row that was there. -/
structure Marked (c : Nat) (v v' : BlockVersion) (offsets : List Nat) : Prop extends v.Marked c v' offsets where
  count : ∀ n, (∀ o ∈ offsets, o < n) → (v'.deleted.take n).count 0 + offsets.length = (v.deleted.take n).count 0

theorem delete_checks (v : BlockVersion) (offset : Nat) (hc : 0 < c) :
    Checks (v.delete offset c) (v.deleted[offset]? = some 0) (Marked c v · [offset]) := by
  refine ⟨fun hzero => ?_, fun v' h => (BlockVersion.delete_marked h).1⟩
  have hdel : v.delete offset c = .ok {v with deleted := v.deleted.set offset c, latestChangeTs := c} := by
    simp [BlockVersion.delete, hzero]
  refine ⟨_, hdel, (BlockVersion.delete_marked hdel).2, fun n hn => ?_⟩
  obtain ⟨hlt, hget⟩ := List.getElem?_eq_some_iff.mp hzero
  have hn := hn offset mem_cons_self
  have hlt' : offset < (v.deleted.take n).length := by
    rw [length_take]
    omega
  have hpos : 0 < (v.deleted.take n).count 0 := by
    refine count_pos_iff.mpr ?_
    have hmem := getElem_mem hlt'
    rw [getElem_take, hget] at hmem
    exact hmem
  rw [take_set, count_set hlt', getElem_take, hget]
  have hc' : (c == 0) = false := beq_eq_false_iff_ne.mpr (by omega)
  simp only [BEq.rfl, if_true, hc', length_singleton]
  simp
  omega

theorem deleteRows_checks (v : BlockVersion) (offsets : List Nat) (hc : 0 < c) :
    Checks (v.deleteRows c offsets) (offsets.Nodup ∧ ∀ o ∈ offsets, v.deleted[o]? = some 0) (Marked c v · offsets) := by
  induction offsets generalizing v with
  | nil => exact ⟨fun _ => ⟨v, rfl, BlockVersion.deleteRows_marked rfl, by simp⟩, fun _ _ => by simp⟩
  | cons offset rest ih =>
    have hone := delete_checks v offset hc
    simp only [BlockVersion.deleteRows]
    cases h : v.delete offset c with
    | error fault => exact hone.error h fun hcond => hcond.2 offset mem_cons_self
    | ok v₁ =>
      have hzero := hone.condition v₁ h
      have hm := hone.result h
      refine (ih v₁).congr ?_ ?_
      · -- what is left to delete was there before and is not the first offset
        have hiff : ∀ o, v₁.deleted[o]? = some 0 ↔ o ≠ offset ∧ v.deleted[o]? = some 0 := by
          intro o
          rw [hm.deleted o]
          by_cases ho : o = offset <;> simp [ho]
          omega
        simp only [nodup_cons, mem_cons, forall_eq_or_imp, hzero, true_and, hiff]
        constructor
        · rintro ⟨⟨hnot, hnd⟩, hall⟩
          exact ⟨hnd, fun o ho => ⟨fun heq => hnot (heq ▸ ho), hall o ho⟩⟩
        · rintro ⟨hnd, hall⟩
          exact ⟨⟨fun hmem => (hall offset hmem).1 rfl, hnd⟩, fun o ho => (hall o ho).2⟩
      · intro hcond v' hm'
        refine ⟨hm.cons hm'.toMarked, fun n hn => ?_⟩
        have h1 := hm.count n fun o ho => hn o (mem_cons.mpr (.inl (mem_singleton.mp ho)))
        have h2 := hm'.count n fun o ho => hn o (mem_cons_of_mem _ ho)
        simp only [length_cons, length_nil] at h1 ⊢
        omega

variable {offsets : List Nat}

theorem Marked.stamps {v v' : BlockVersion} (h : Marked c v v' offsets) {m : Nat} (hm : m ≤ c)
    (hv : ∀ ts ∈ v.deleted, ts ≤ m) : ∀ ts ∈ v'.deleted, ts ≤ c := by
  intro ts hts
  rcases h.mem hts with hold | rfl
  · exact (hv ts hold).trans hm
  · exact le_rfl

variable {b : BlockEntry ρ}

/-! ### Blocks -/

theorem BlockEntry.Dated.deleted (h : b.Dated) {v : BlockVersion}
    (hm : Marked c b.version v offsets) (hle : b.maxRowTs ≤ c) :
    {b with version := v, maxRowTs := c, usingTxnId := txnId}.Dated where
  stamps := hm.stamps hle h.stamps
  rowCount ts hts := by
    have hcount : v.getRowCount ts = b.version.getRowCount ts := by simp only [BlockVersion.getRowCount, hm.created]
    exact hcount.trans (h.rowCount ts (hle.trans hts))

/-- From `b` to `b'` the offsets are deleted. -/
structure BlockEntry.Deleted (cap : Capacity) (txnId c : Nat) (b b' : BlockEntry ρ) (offsets : List Nat) : Prop where
  sound : b'.Sound cap txnId c
  rows : b'.rows = b.rows
  commitTs : b'.commitTs = b.commitTs
  marked : Marked c b.version b'.version offsets

theorem BlockEntry.Deleted.view {b b' : BlockEntry ρ} (h : b.Deleted cap txnId c b' offsets) :
    b'.view c = (b.view c).mark c fun o => decide (o ∈ offsets) := by
  simp only [BlockEntry.view, BlockView.mark, BlockView.mk.injEq, h.rows, h.commitTs, true_and, and_true]
  constructor
  · funext o
    rw [h.marked.deleted o]
    by_cases ho : o ∈ offsets <;> simp [ho]
  · funext ts
    simp only [BlockVersion.getRowCount, h.marked.created]

theorem BlockEntry.Deleted.remaining {b b' : BlockEntry ρ} (h : b.Deleted cap txnId c b' offsets)
    (hlt : ∀ o ∈ offsets, o < b.rows.length) : b'.remaining + offsets.length = b.remaining := by
  unfold BlockEntry.remaining
  rw [h.rows]
  exact h.marked.count _ hlt

theorem BlockEntry.deleteData_checks (offsets : List Nat) (hc : 0 < c) (hb : b.Sound cap txnId c) :
    Checks (b.deleteData txnId c offsets) (offsets.Nodup ∧ ∀ o ∈ offsets, b.version.deleted[o]? = some 0)
      (b.Deleted cap txnId c · offsets) := by
  have howner : ¬ (b.usingTxnId ≠ 0 ∧ b.usingTxnId ≠ txnId) := by rcases hb.owner with h | h <;> simp [h]
  have hts : ¬ b.maxRowTs > c := not_lt.mpr hb.maxRowTs
  have hrows := deleteRows_checks b.version offsets hc
  simp only [deleteData, howner, if_false]
  cases h : b.version.deleteRows c offsets with
  | error fault => exact hrows.error h id
  | ok v =>
    have hm := hrows.result h
    simp only [hts]
    refine ⟨fun _ => ⟨_, rfl, ?_, rfl, rfl, hm⟩, fun _ _ => hrows.condition v h⟩
    exact ⟨hb.capacity, hb.fits, by rw [hm.created]; exact hb.created, hm.length.trans hb.deleted,
      hb.minRowTs.trans hb.maxRowTs, le_rfl, fun _ => .inr rfl, .inr rfl, hb.dated.deleted hm hb.maxRowTs⟩

/-! ### Segments -/

/-- The block and the offset of every row to delete. -/
def blockPlaces (rows : List (Nat × List Nat)) : List (Nat × Nat) := rows.flatMap fun r => r.2.map fun o => (r.1, o)

theorem BlockEntry.Sound.zero_iff (hb : b.Sound cap txnId c) {o : Nat} (ho : o < b.rows.length) :
    b.version.deleted[o]? = some 0 ↔ (b.view c).deleted o = 0 := by
  have hlt : o < b.version.deleted.length := by
    rw [hb.deleted]
    exact lt_of_lt_of_le ho hb.fits
  simp [BlockEntry.view, hlt]

namespace SegmentEntry

def views (c : Nat) (s : SegmentEntry ρ) : List (BlockView ρ) := s.blocks.map (BlockEntry.view c)

/-- From `s` to `s'` the places are deleted, and the count of what remains is not changed yet. -/
structure Cleared (cap : Capacity) (txnId c : Nat) (s s' : SegmentEntry ρ) (places : List (Nat × Nat)) : Prop where
  same : s' = {s with blocks := s'.blocks}
  views : s'.views c = markBlocks c places (s.views c)
  sound : ∀ b ∈ s'.blocks, b.Sound cap txnId c
  fresh : ∀ (i : Nat) b', s'.blocks[i]? = some b' → b'.Open →
    (∃ x ∈ places, x.1 = i) ∨ ∃ b, s.blocks[i]? = some b ∧ b.Open
  remaining : s'.remaining + places.length = s.remaining

variable {s : SegmentEntry ρ}

theorem Cleared.refl (hs : ∀ b ∈ s.blocks, b.Sound cap txnId c) : s.Cleared cap txnId c s [] where
  same := rfl
  views := ext_getElem? fun i => by simp [markBlocks, BlockView.mark]
  sound := hs
  fresh _ b hb ho := .inr ⟨b, hb, ho⟩
  remaining := rfl

theorem Cleared.trans {s s' s'' : SegmentEntry ρ} {A B : List (Nat × Nat)} (h : s.Cleared cap txnId c s' A)
    (h' : s'.Cleared cap txnId c s'' B) : s.Cleared cap txnId c s'' (A ++ B) where
  same := by rw [h'.same, h.same]
  views := by rw [h'.views, h.views, markBlocks_markBlocks]
  sound := h'.sound
  fresh i b'' hb'' ho := by
    rcases h'.fresh i b'' hb'' ho with ⟨x, hx, hi⟩ | ⟨b', hb', ho'⟩
    · exact .inl ⟨x, mem_append_right _ hx, hi⟩
    · refine (h.fresh i b' hb' ho').imp_left ?_
      rintro ⟨x, hx, hi⟩
      exact ⟨x, mem_append_left _ hx, hi⟩
  remaining := by
    have h1 := h.remaining
    have h2 := h'.remaining
    rw [length_append]
    omega

theorem Cleared.setBlock {b b' : BlockEntry ρ} {i : Nat} {offsets : List Nat}
    (hs : ∀ b ∈ s.blocks, b.Sound cap txnId c) (hb : s.blocks[i]? = some b) (hd : b.Deleted cap txnId c b' offsets)
    (hne : offsets ≠ []) (hlt : ∀ o ∈ offsets, o < b.rows.length) :
    s.Cleared cap txnId c {s with blocks := s.blocks.set i b'} (offsets.map fun o => (i, o)) := by
  obtain ⟨hi, hget⟩ := List.getElem?_eq_some_iff.mp hb
  refine ⟨rfl, ?_, ?_, ?_, ?_⟩
  · refine ext_getElem? fun j => ?_
    simp only [SegmentEntry.views, markBlocks]
    by_cases hj : i = j
    · subst hj
      simp [hi, hget, hd.view]
    · simp [hj]
      rfl
  · intro b₁ hb₁
    rcases mem_or_eq_of_mem_set hb₁ with h | rfl
    · exact hs b₁ h
    · exact hd.sound
  · intro j b₁ hb₁ ho
    rw [getElem?_set] at hb₁
    by_cases hj : i = j
    · obtain ⟨o, hmem⟩ := exists_mem_of_ne_nil _ hne
      exact .inl ⟨(i, o), mem_map.mpr ⟨o, hmem, rfl⟩, hj⟩
    · rw [if_neg hj] at hb₁
      exact .inr ⟨b₁, hb₁, ho⟩
  · have hrem := hd.remaining hlt
    have hmem : (s.blocks.map BlockEntry.remaining)[i]? = some b.remaining := by simp [hb]
    have hsum := sum_set_add (a := b'.remaining) hmem
    simp only [SegmentEntry.remaining, map_set, length_map]
    omega

/-- The rows of one block: what is checked of them is that they are alive and not repeated. -/
theorem blockRows_checks {b : BlockEntry ρ} {i : Nat} (offsets : List Nat) (hc : 0 < c)
    (hs : ∀ b ∈ s.blocks, b.Sound cap txnId c) (hb : s.blocks[i]? = some b) (hlt : ∀ o ∈ offsets, o < b.rows.length) :
    Checks (b.deleteData txnId c offsets)
      ((offsets.map fun o => (i, o)).Nodup ∧ ∀ x ∈ offsets.map (fun o => (i, o)), Alive (s.views c) x)
      (fun b' => b.Deleted cap txnId c b' offsets ∧ offsets.length ≤ b'.rowCapacity) := by
  have hbs := hs b (mem_of_getElem? hb)
  have hview : (s.views c)[i]? = some (b.view c) := by simp [views, hb]
  refine (BlockEntry.deleteData_checks offsets hc hbs).congr ?_ ?_
  · refine and_congr (nodup_map_iff fun o o' h => (Prod.mk.inj h).2) ?_
    simp only [mem_map, forall_exists_index, and_imp, forall_apply_eq_imp_iff₂, Alive, hview, Option.some.injEq,
      exists_eq_left']
    refine forall₂_congr fun o ho => ?_
    rw [hbs.zero_iff (hlt o ho)]
    exact and_iff_right (hlt o ho)
  · rintro ⟨hnd, _⟩ b' hd
    refine ⟨hd, ?_⟩
    rw [hd.sound.capacity]
    have hsub : offsets ⊆ range cap.block := fun o ho => mem_range.mpr (lt_of_lt_of_le (hlt o ho) hbs.fits)
    simpa using (subperm_of_subset hnd hsub).length_le

theorem deleteBlocks_checks (rows : List (Nat × List Nat)) (hc : 0 < c)
    (hs : ∀ b ∈ s.blocks, b.Sound cap txnId c) (hne : ∀ r ∈ rows, r.2 ≠ [])
    (hhas : ∀ x ∈ blockPlaces rows, Has (s.views c) x) :
    Checks (s.deleteBlocks txnId c rows) ((blockPlaces rows).Nodup ∧ ∀ x ∈ blockPlaces rows, Alive (s.views c) x)
      (fun r => s.Cleared cap txnId c r.1 (blockPlaces rows) ∧ r.2 = (blockPlaces rows).length) := by
  induction rows generalizing s with
  | nil => exact ⟨fun _ => ⟨(s, 0), rfl, .refl hs, rfl⟩, fun _ _ => by simp [blockPlaces]⟩
  | cons r rest ih =>
    obtain ⟨blockId, offsets⟩ := r
    have hplaces : blockPlaces ((blockId, offsets) :: rest) = offsets.map (fun o => (blockId, o)) ++ blockPlaces rest :=
      flatMap_cons
    rw [hplaces] at hhas ⊢
    have hhere : ∀ o ∈ offsets, ∃ b, s.blocks[blockId]? = some b ∧ o < b.rows.length := by
      intro o ho
      obtain ⟨bv, hbv, hlt⟩ := hhas (blockId, o) (mem_append_left _ (mem_map.mpr ⟨o, ho, rfl⟩))
      simp only [views, getElem?_map] at hbv
      obtain ⟨b, hb, rfl⟩ := Option.map_eq_some_iff.mp hbv
      exact ⟨b, hb, hlt⟩
    obtain ⟨o₀, ho₀⟩ := exists_mem_of_ne_nil _ (hne _ mem_cons_self)
    obtain ⟨b, hb, _⟩ := hhere o₀ ho₀
    have hlt : ∀ o ∈ offsets, o < b.rows.length := by
      intro o ho
      obtain ⟨b', hb', hlt⟩ := hhere o ho
      rw [hb] at hb'
      cases hb'
      exact hlt
    have hdelete := blockRows_checks offsets hc hs hb hlt
    simp only [deleteBlocks, hb]
    cases h : b.deleteData txnId c offsets with
    | error fault =>
      refine hdelete.error h fun ⟨hnd, halive⟩ => ?_
      exact ⟨(nodup_append.mp hnd).1, fun x hx => halive x (mem_append_left _ hx)⟩
    | ok b' =>
      obtain ⟨hnd, halive⟩ := hdelete.condition b' h
      obtain ⟨hd, hsize⟩ := hdelete.result h
      have hclear := Cleared.setBlock hs hb hd (hne _ mem_cons_self) hlt
      have hrest := ih hclear.sound (fun r hr => hne r (mem_cons_of_mem _ hr)) (fun x hx => by
        rw [hclear.views, has_markBlocks_iff]
        exact hhas x (mem_append_right _ hx))
      dsimp only
      rw [if_neg (not_lt.mpr hsize)]
      have hcond : ((offsets.map (fun o => (blockId, o)) ++ blockPlaces rest).Nodup ∧
          ∀ x ∈ offsets.map (fun o => (blockId, o)) ++ blockPlaces rest, Alive (s.views c) x) ↔
          (blockPlaces rest).Nodup ∧
            ∀ x ∈ blockPlaces rest, Alive (SegmentEntry.views c {s with blocks := s.blocks.set blockId b'}) x := by
        simp only [hclear.views, alive_markBlocks_iff hc]
        exact nodup_append_and_forall_iff hnd halive
      cases hrun : deleteBlocks txnId c {s with blocks := s.blocks.set blockId b'} rest with
      | error fault => exact hrest.error hrun hcond.mp
      | ok r =>
        obtain ⟨hcl, hn⟩ := hrest.result hrun
        refine ⟨fun _ => ⟨_, rfl, hclear.trans hcl, ?_⟩, fun _ _ => hcond.mpr (hrest.condition r hrun)⟩
        simp [hn]

/-- From `s` to `s'` the places are deleted. -/
structure Deleted (cap : Capacity) (txnId c : Nat) (s s' : SegmentEntry ρ) (places : List (Nat × Nat)) : Prop where
  same : s' = {s with blocks := s'.blocks, actualRowCount := s'.actualRowCount}
  views : s'.views c = markBlocks c places (s.views c)
  sound : s'.Sound cap txnId c
  fresh : ∀ (i : Nat) b', s'.blocks[i]? = some b' → b'.Open →
    (∃ x ∈ places, x.1 = i) ∨ ∃ b, s.blocks[i]? = some b ∧ b.Open

theorem deleteData_checks (rows : List (Nat × List Nat)) (hc : 0 < c) (hs : s.Sound cap txnId c)
    (hne : ∀ r ∈ rows, r.2 ≠ []) (hhas : ∀ x ∈ blockPlaces rows, Has (s.views c) x) :
    Checks (s.deleteData txnId c rows) ((blockPlaces rows).Nodup ∧ ∀ x ∈ blockPlaces rows, Alive (s.views c) x)
      (s.Deleted cap txnId c · (blockPlaces rows)) := by
  have hblocks := deleteBlocks_checks rows hc hs.blocks hne hhas
  simp only [deleteData]
  cases h : s.deleteBlocks txnId c rows with
  | error fault => exact hblocks.error h id
  | ok r =>
    obtain ⟨s', deleted⟩ := r
    obtain ⟨hcl, hn⟩ := hblocks.result h
    dsimp only at hcl hn ⊢
    have hactual : s'.actualRowCount = s.actualRowCount := by rw [hcl.same]
    have hmax : s'.maxRowTs = s.maxRowTs := by rw [hcl.same]
    have hrem := hcl.remaining
    have hrem' := hs.remaining
    rw [if_neg (by omega)]
    refine ⟨fun _ => ⟨_, rfl, ?_, hcl.views, ⟨hcl.sound, ?_, ?_⟩, hcl.fresh⟩, fun _ _ => hblocks.condition _ h⟩
    · rw [hcl.same]
    · show s'.remaining ≤ s'.actualRowCount - deleted
      omega
    · show s'.maxRowTs ≤ c
      rw [hmax]
      exact hs.maxRowTs

theorem Deleted.filled {s s' : SegmentEntry ρ} {places : List (Nat × Nat)} (h : s.Deleted cap txnId c s' places)
    (hf : s.Filled cap) : s'.Filled cap := by
  have hrows : s'.blocks.map (fun b => b.rows) = s.blocks.map fun b => b.rows := by
    have hv := congrArg (map fun b : BlockView ρ => b.rows) h.views
    have hmark : (markBlocks c places (s.views c)).map (fun b => b.rows) = (s.views c).map fun b => b.rows := by
      refine ext_getElem? fun i => ?_
      simp only [markBlocks, getElem?_map, getElem?_mapIdx, Option.map_map]
      rfl
    rw [hmark] at hv
    simpa [SegmentEntry.views, BlockEntry.view, Function.comp_def] using hv
  exact hf.of_rows (by rw [h.same]) (by rw [h.same]) (by rw [h.same]) hrows

end SegmentEntry

/-! ### Tables -/

/-- The places of the rows to delete. -/
def places (deleteState : DeleteState) : List Place := deleteState.flatMap fun d => (blockPlaces d.2).map fun x => (d.1, x)

theorem places_cons (id : Nat) (rows : List (Nat × List Nat)) (rest : DeleteState) :
    places ((id, rows) :: rest) = (blockPlaces rows).map (fun x => (id, x)) ++ places rest := flatMap_cons

theorem within_map_self (id : Nat) (A : List (Nat × Nat)) : within id (A.map fun x => (id, x)) = A := by
  have hfilter : (A.map fun x => (id, x)).filter (fun x => x.1 == id) = A.map fun x => (id, x) := by
    refine filter_eq_self.mpr fun x hx => ?_
    obtain ⟨y, _, rfl⟩ := mem_map.mp hx
    simp
  simp [within, hfilter]

/-- No entry of the state is empty. -/
def Filed (deleteState : DeleteState) : Prop := ∀ d ∈ deleteState, d.2 ≠ [] ∧ ∀ r ∈ d.2, r.2 ≠ []

theorem blockPlaces_ne_nil {rows : List (Nat × List Nat)} (h : rows ≠ []) (hne : ∀ r ∈ rows, r.2 ≠ []) :
    blockPlaces rows ≠ [] := by
  obtain ⟨r, hr⟩ := exists_mem_of_ne_nil _ h
  obtain ⟨o, ho⟩ := exists_mem_of_ne_nil _ (hne r hr)
  exact ne_nil_of_mem (mem_flatMap.mpr ⟨r, hr, mem_map.mpr ⟨o, ho, rfl⟩⟩)

variable {t : TableEntry ρ} {id : Nat}

theorem TableEntry.Born.getSegmentByID (h : t.Born c id) :
    ∃ s, t.segmentMap id = some s ∧ s.status ≠ .deprecated ∧ t.getSegmentByID id c = some s := by
  obtain ⟨s, m, hs, hst, hm, hle⟩ := h
  exact ⟨s, hs, hst, by simp [TableEntry.getSegmentByID, hs, hm, hle]⟩

/-- From `t` to `t'` the places are deleted, and `ids'` are the segments with deletes to commit. -/
structure TableEntry.Deleted (cap : Capacity) (txnId c : Nat) (t t' : TableEntry ρ) (places : List Place)
    (ids ids' : List Nat) (touched touched' : List (Nat × Nat)) : Prop where
  sound : t'.Sound cap txnId c
  view : t'.view c ids' = (t.view c ids).mark c places
  pending : t.Pending touched → t'.Pending touched'
  born : ∀ id, t.Born c id → t'.Born c id
  kept : touched ⊆ touched'

theorem SegmentEntry.Deleted.view {s s' : SegmentEntry ρ} {A : List (Nat × Nat)} (h : s.Deleted cap txnId c s' A)
    (hne : A ≠ []) (id : Nat) (deletes : Bool) :
    s'.view c true = (s.view c deletes).mark c id (A.map fun x => (id, x)) := by
  have hsome : ∃ x ∈ A.map (fun x => (id, x)), x.1 = id := by
    obtain ⟨x, hx⟩ := exists_mem_of_ne_nil _ hne
    exact ⟨(id, x), mem_map.mpr ⟨x, hx, rfl⟩, rfl⟩
  have hviews := h.views
  have hcommit : s'.commitTs = s.commitTs := by rw [h.same]
  have hstatus : s'.status = s.status := by rw [h.same]
  have hfirst : s'.firstDeleteTs = s.firstDeleteTs := by rw [h.same]
  have hdep : s'.deprecateTs = s.deprecateTs := by rw [h.same]
  simp only [SegmentEntry.views] at hviews
  simp only [SegmentEntry.view, SegmentView.mark, within_map_self, hviews, hcommit, hstatus, hfirst, hdep, hsome,
    true_and, SegmentView.mk.injEq, and_true]
  cases hd : s.status == .deprecated
  · cases deletes <;> cases s.firstDeleteTs <;> simp
  · simp

theorem TableEntry.Deleted.setSegment {s s' : SegmentEntry ρ}
    {rows : List (Nat × List Nat)} (ids : List Nat) (touched : List (Nat × Nat)) (ht : t.Sound cap txnId c)
    (hs : t.segmentMap id = some s) (hst : s.status ≠ .deprecated) (hd : s.Deleted cap txnId c s' (blockPlaces rows))
    (hne : blockPlaces rows ≠ []) :
    t.Deleted cap txnId c (t.setSegment s') ((blockPlaces rows).map fun x => (id, x)) ids (ids ++ [id]) touched
      (touched ++ rows.map fun row => (id, row.1)) := by
  have hid : s'.segmentId = id := by
    rw [hd.same]
    exact (ht.ids id s hs).1
  have hst' : s'.status ≠ .deprecated := by rwa [hd.same]
  refine ⟨ht.setSegment hid (ht.ids id s hs).2 hd.sound fun hu => hd.filled (ht.unsealed id s hu hs), ?_, fun hp => ?_,
    fun id' hb => ?_, subset_append_left _ _⟩
  · rw [TableEntry.view_setSegment, hid]
    simp only [TableView.set, TableView.mark, TableEntry.view, TableView.mk.injEq]
    refine ⟨?_, trivial, trivial⟩
    funext id'
    by_cases h : id' = id
    · subst h
      simp [hs, hd.view hne id' (decide (id' ∈ ids))]
    have hout : ∀ x ∈ (blockPlaces rows).map (fun x => (id, x)), x.1 ≠ id' := by
      intro x hx
      obtain ⟨y, _, rfl⟩ := mem_map.mp hx
      exact Ne.symm h
    cases hmap : t.segmentMap id' <;> simp [h, hmap, SegmentView.mark_outside hout]
  · refine hp.setSegment (subset_append_left _ _) hid hst' (fun hnone => ?_) fun i b' hb' ho' => ?_
    · rw [hd.same] at hnone
      obtain ⟨_, i, hi⟩ := hp.segments _ s hs hnone
      exact ⟨i, mem_append_left _ hi⟩
    · rcases hd.fresh i b' hb' ho' with ⟨x, hx, rfl⟩ | ⟨b, hb, ho⟩
      · obtain ⟨row, hrow, hx⟩ := mem_flatMap.mp hx
        obtain ⟨o, _, rfl⟩ := mem_map.mp hx
        exact mem_append_right _ (mem_map.mpr ⟨row, hrow, rfl⟩)
      · exact mem_append_left _ (hp.blocks _ s hs i b hb ho).2
  · refine hb.setSegment hid hst' fun s₀ hs₀ => ?_
    rw [hs, Option.some.injEq] at hs₀
    rw [hd.same, hs₀]

theorem TableEntry.Deleted.trans {t t' t'' : TableEntry ρ} {A B : List Place} {ids ids' ids'' : List Nat}
    {touched touched' touched'' : List (Nat × Nat)} (h : t.Deleted cap txnId c t' A ids ids' touched touched')
    (h' : t'.Deleted cap txnId c t'' B ids' ids'' touched' touched'') :
    t.Deleted cap txnId c t'' (A ++ B) ids ids'' touched touched'' where
  sound := h'.sound
  view := by rw [h'.view, h.view, TableView.mark_mark]
  pending hp := h'.pending (h.pending hp)
  born id hb := h'.born id (h.born id hb)
  kept := fun _ hx => h'.kept (h.kept hx)

theorem TableEntry.Deleted.refl (ids : List Nat) (touched : List (Nat × Nat))
    (ht : t.Sound cap txnId c) : t.Deleted cap txnId c t [] ids ids touched touched :=
  ⟨ht, (TableView.mark_nil c _).symm, fun hp => hp, fun _ hb => hb, fun _ hx => hx⟩

variable {s : SegmentEntry ρ}

theorem TableEntry.has_view_iff (hs : t.segmentMap id = some s)
    (ids : List Nat) (x : Nat × Nat) : (t.view c ids).Has (id, x) ↔ Has (s.views c) x := by
  simp [TableView.Has, TableEntry.view, hs, SegmentEntry.view, SegmentEntry.views]

theorem TableEntry.alive_view_iff (hs : t.segmentMap id = some s)
    (ids : List Nat) (x : Nat × Nat) : (t.view c ids).Alive (id, x) ↔ Alive (s.views c) x := by
  simp [TableView.Alive, TableEntry.view, hs, SegmentEntry.view, SegmentEntry.views]

theorem TableEntry.segmentRows_checks (rows : List (Nat × List Nat))
    (ids : List Nat) (hc : 0 < c) (ht : t.Sound cap txnId c) (hs : t.segmentMap id = some s)
    (hne : ∀ r ∈ rows, r.2 ≠ []) (hhas : ∀ x ∈ (blockPlaces rows).map (fun x => (id, x)), (t.view c ids).Has x) :
    Checks (s.deleteData txnId c rows) (((blockPlaces rows).map fun x => (id, x)).Nodup ∧
        ∀ x ∈ (blockPlaces rows).map (fun x => (id, x)), (t.view c ids).Alive x)
      (s.Deleted cap txnId c · (blockPlaces rows)) := by
  have hhas' : ∀ x ∈ blockPlaces rows, Has (s.views c) x := fun x hx =>
    (has_view_iff hs ids x).mp (hhas _ (mem_map.mpr ⟨x, hx, rfl⟩))
  refine (SegmentEntry.deleteData_checks rows hc (ht.segments id s hs) hne hhas').congr ?_ fun _ _ h => h
  refine and_congr (nodup_map_iff fun x y h => (Prod.mk.inj h).2) ?_
  simp only [mem_map, forall_exists_index, and_imp, forall_apply_eq_imp_iff₂, alive_view_iff hs]

/-- **A delete of rows that exist succeeds exactly when they are alive and no two are the
same**, and marks their places. -/
theorem TableEntry.delete_checks (deleteState : DeleteState) (ids : List Nat) (touched : Touched)
    (hc : 0 < c) (ht : t.Sound cap txnId c) (hfiled : Filed deleteState)
    (hborn : ∀ d ∈ deleteState, t.Born c d.1) (hhas : ∀ x ∈ places deleteState, (t.view c ids).Has x) :
    Checks (t.delete txnId c deleteState touched)
      ((places deleteState).Nodup ∧ ∀ x ∈ places deleteState, (t.view c ids).Alive x)
      (fun r => t.Deleted cap txnId c r.1 (places deleteState) ids (ids ++ deleteState.map Prod.fst) touched.blocks
        r.2.blocks ∧ (∀ d ∈ deleteState, ∃ i, (d.1, i) ∈ r.2.blocks) ∧ r.2.full = touched.full) := by
  induction deleteState generalizing t ids touched with
  | nil =>
    refine ⟨fun _ => ⟨(t, touched), rfl, ?_, by simp, rfl⟩, fun _ _ => by simp [places]⟩
    simpa [places] using Deleted.refl ids touched.blocks ht
  | cons d rest ih =>
    obtain ⟨id, rows⟩ := d
    obtain ⟨hrows, hoffsets⟩ := hfiled _ mem_cons_self
    obtain ⟨s, hs, hst, hget⟩ := (hborn _ mem_cons_self).getSegmentByID
    have hseg := segmentRows_checks rows ids hc ht hs hoffsets fun x hx => hhas x (mem_append_left _ hx)
    simp only [delete, hget]
    cases h : s.deleteData txnId c rows with
    | error fault =>
      refine hseg.error h fun ⟨hnd, halive⟩ => ?_
      exact ⟨(nodup_append.mp hnd).1, fun x hx => halive x (mem_append_left _ hx)⟩
    | ok s' =>
      obtain ⟨hnd, halive⟩ := hseg.condition s' h
      have hdel := Deleted.setSegment ids touched.blocks ht hs hst (hseg.result h) (blockPlaces_ne_nil hrows hoffsets)
      have hrest := ih (ids ++ [id]) {touched with blocks := touched.blocks ++ rows.map fun row => (id, row.1)}
        hdel.sound (fun d hd => hfiled d (mem_cons_of_mem _ hd))
        (fun d hd => hdel.born _ (hborn d (mem_cons_of_mem _ hd)))
        (fun x hx => by
          rw [hdel.view, TableView.has_mark_iff]
          exact hhas x (mem_append_right _ hx))
      rw [hdel.view] at hrest
      refine hrest.congr ?_ ?_
      · simp only [TableView.alive_mark_iff hc]
        exact nodup_append_and_forall_iff hnd halive
      · rintro _ r ⟨hr, htouched, hfull⟩
        refine ⟨?_, ?_, hfull⟩
        · have happend : ids ++ [id] ++ rest.map Prod.fst = ids ++ ((id, rows) :: rest).map Prod.fst := by simp
          rw [← happend]
          exact hdel.trans hr
        · intro d hd
          rcases mem_cons.mp hd with rfl | hd
          · obtain ⟨row, hrow⟩ := exists_mem_of_ne_nil _ hrows
            exact ⟨row.1, hr.kept (mem_append_right _ (mem_map.mpr ⟨row, hrow, rfl⟩))⟩
          · exact htouched d hd

end Infinity.Table
