import Infinity.Executor.PhysicalTop

/-! The operator `PhysicalSort`, `ORDER BY` without a limit.

Each execution sorts the row ids of its batch and copies the rows, in this order, to blocks of
their own. The execution after which the operator below is complete merges the blocks of all
batches, half with half, and leaves the rows in packed blocks. -/
namespace Infinity.Executor

open Lib List

structure PhysicalSort (α : Type) where
  sortFunctions : List (α → α → Ordering)

/-- `SortOperatorState` -/
structure SortState (α : Type) where
  unmergeSortedBlocks : List (List α) := []
  dataBlockArray : List (List α) := []
  complete : Bool := false

/-- What the standard promises of `std::sort` for a strict weak order. -/
def StdSort {ι : Type} (sort : (ι → ι → Bool) → List ι → List ι) : Prop :=
  ∀ lt l, IsStrictWeakOrder ι (fun x y => lt x y = true) → (sort lt l).Perm l ∧ (sort lt l).Pairwise fun x y => !lt y x

variable {α : Type} (op : PhysicalSort α) (sort : (Nat × Nat → Nat × Nat → Bool) → List (Nat × Nat) → List (Nat × Nat))

/-! ### The operator -/

/-- `Comparator::Compare` -/
def PhysicalSort.compare (other : α) (blocks : List (List α)) (left right : Nat × Nat) : Bool :=
  preferLeft op.sortFunctions (rowAt other blocks left) (rowAt other blocks right)

/-- The comparator that `std::sort` is called with. -/
def PhysicalSort.sortsBefore (other : α) (blocks : List (List α)) (x y : Nat × Nat) : Bool :=
  !op.compare other blocks y x

/-- `CopyWithIndexes` for blocks with a row. -/
def copyWithIndexes (other : α) (inputBlocks outputBlocks : List (List α)) (blockIndexes : List (Nat × Nat)) :
    List (List α) :=
  let startBlockIndex := outputBlocks.length
  let blockCount := (blockIndexes.length + defaultBlockCapacity - 1) / defaultBlockCapacity
  blockIndexes.zipIdx.foldl
    (fun blocks id => blocks.modify (id.2 / defaultBlockCapacity + startBlockIndex) (· ++ [rowAt other inputBlocks id.1]))
    (outputBlocks ++ replicate blockCount [])

/-- `MergeIndexes`, with `MergeTwoIndexes` as `List.merge`. -/
def mergeIndexes {ι : Type} (compare : ι → ι → Bool) (indexesGroup : List (List ι)) (l r : Nat) : List ι :=
  if r < l ∨ indexesGroup.length ≤ r then []
  else if l = r then (indexesGroup[l]?).getD []
  else
    let mid := (l + r) / 2
    (mergeIndexes compare indexesGroup l mid).merge (mergeIndexes compare indexesGroup (mid + 1) r) compare
termination_by r - l

/-- The part of an execution before the merge. Where the batch has no row no block is added. -/
def PhysicalSort.sortBatch (state : SortState α) (input : List (List α)) : SortState α :=
  match input.flatten with
  | [] => state
  | other :: _ =>
    let blockIndexes := sort (op.sortsBefore other input) (candidateRowIds input)
    {state with unmergeSortedBlocks := copyWithIndexes other input state.unmergeSortedBlocks blockIndexes}

/-- The merge at the end. -/
def PhysicalSort.mergeBlocks (state : SortState α) : SortState α :=
  let blocks := state.unmergeSortedBlocks
  match blocks.flatten with
  | [] => ⟨[], state.dataBlockArray, true⟩
  | other :: _ =>
    let merged := mergeIndexes (op.compare other blocks) (indexesGroup blocks) 0 (blocks.length - 1)
    ⟨[], copyWithIndexes other blocks state.dataBlockArray merged, true⟩

/-- `PhysicalSort::Execute` -/
def PhysicalSort.execute (prevComplete : Bool) (state : SortState α) (input : List (List α)) : SortState α :=
  let state := op.sortBatch sort state input
  if prevComplete then op.mergeBlocks state else state

/-! ### Its parts -/

variable {op} {sort}

section Order

variable (hsort : Consistent op.sortFunctions) (other : α) (blocks : List (List α))
include hsort

theorem compare_total (x y : Nat × Nat) : (op.compare other blocks x y || op.compare other blocks y x) = true :=
  Bool.or_eq_true_iff.mpr (rowLe_total hsort _ _)

theorem compare_trans (x y z : Nat × Nat) (hxy : op.compare other blocks x y = true)
    (hyz : op.compare other blocks y z = true) : op.compare other blocks x z = true :=
  rowLe_trans hsort hxy hyz

/-- A comparison that prefers the left of equals, turned round and negated, is a strict weak order. -/
theorem sortsBefore_strictWeakOrder :
    IsStrictWeakOrder (Nat × Nat) (fun x y => op.sortsBefore other blocks x y = true) where
  irrefl x := by
    have hself := compare_total hsort other blocks x x
    simpa [PhysicalSort.sortsBefore] using hself
  trans x y z hxy hyz := by
    have htotal := compare_total hsort other blocks x y
    have htrans := compare_trans hsort other blocks z x y
    simp only [PhysicalSort.sortsBefore] at *
    simp_all
  incomp_trans x y z hxy hyz := by
    have hxz := compare_trans hsort other blocks x y z
    have hzx := compare_trans hsort other blocks z y x
    simp only [PhysicalSort.sortsBefore, Bool.not_eq_true', Bool.not_eq_false] at *
    exact ⟨hzx hyz.1 hxy.1, hxz hxy.2 hyz.2⟩

end Order

theorem copyWithIndexes_eq (other : α) (input output : List (List α)) (ids : List (Nat × Nat)) :
    copyWithIndexes other input output ids = output ++ chunks defaultBlockCapacity (ids.map (rowAt other input))
      (blockCount defaultBlockCapacity ids.length) := by
  have hfold (n : Nat) (ids : List (Nat × Nat)) (done : List α) : (ids.zipIdx done.length).foldl (fun blocks id =>
        blocks.modify (id.2 / defaultBlockCapacity + output.length) (· ++ [rowAt other input id.1]))
        (output ++ chunks defaultBlockCapacity done n) =
      output ++ chunks defaultBlockCapacity (done ++ ids.map (rowAt other input)) n := by
    induction ids generalizing done with
    | nil => simp
    | cons id ids ih =>
      have hnext := ih (done ++ [rowAt other input id])
      rw [length_append, length_singleton, append_assoc, singleton_append] at hnext
      rw [zipIdx_cons, foldl_cons, modify_append, modify_chunks defaultBlockCapacity_pos, hnext, map_cons]
  have hall := hfold (blockCount defaultBlockCapacity ids.length) ids []
  rw [chunks_nil] at hall
  rwa [copyWithIndexes, ceil_div_eq_blockCount defaultBlockCapacity_pos]

theorem mergeIndexes_spec {ι : Type} {compare : ι → ι → Bool} {group : List (List ι)}
    (htrans : ∀ a b c, compare a b = true → compare b c = true → compare a c = true)
    (htotal : ∀ a b, (compare a b || compare b a) = true) (hgroup : ∀ g ∈ group, g.Pairwise fun a b => compare a b = true)
    {l r : Nat} (hlr : l ≤ r) (hr : r < group.length) :
    (mergeIndexes compare group l r).Pairwise (fun a b => compare a b = true) ∧
      (mergeIndexes compare group l r).Perm ((group.drop l).take (r + 1 - l)).flatten := by
  fun_induction mergeIndexes compare group l r with
  | case1 l r hout => omega
  | case2 l hout =>
    have hget : group[l]? = some group[l] := getElem?_eq_getElem hr
    rw [hget, Nat.add_sub_cancel_left, drop_eq_getElem_cons hr, take_succ_cons]
    exact ⟨hgroup _ (getElem_mem hr), by simp⟩
  | case3 l r hout hne mid ihl ihr =>
    have hmid : l ≤ mid ∧ mid < r := by omega
    obtain ⟨hsortl, hperml⟩ := ihl hmid.1 (by omega)
    obtain ⟨hsortr, hpermr⟩ := ihr hmid.2 hr
    refine ⟨pairwise_merge htrans htotal _ _ hsortl hsortr, (merge_perm_append _).trans ?_⟩
    have hsplit : r + 1 - l = (mid + 1 - l) + (r + 1 - (mid + 1)) := by omega
    rw [hsplit, take_add, drop_drop, flatten_append, show l + (mid + 1 - l) = mid + 1 by omega]
    exact hperml.append hpermr

/-! ### Batches -/

/-- Sorted blocks with the rows of all batches. -/
structure SortedBlocks (op : PhysicalSort α) (rows : List α) (blocks : List (List α)) : Prop where
  sorted : ∀ b ∈ blocks, b.Pairwise (RowLe op.sortFunctions)
  perm : blocks.flatten.Perm rows

variable {state : SortState α} {rows : List α}

theorem PhysicalSort.sortBatch_dataBlockArray (state : SortState α) (input : List (List α)) :
    (op.sortBatch sort state input).dataBlockArray = state.dataBlockArray := by
  unfold PhysicalSort.sortBatch
  split <;> rfl

theorem PhysicalSort.sortBatch_spec (hsort : Consistent op.sortFunctions) (hstd : StdSort sort)
    (h : SortedBlocks op rows state.unmergeSortedBlocks) (input : List (List α)) :
    SortedBlocks op (rows ++ input.flatten) (op.sortBatch sort state input).unmergeSortedBlocks := by
  unfold PhysicalSort.sortBatch
  split
  · rename_i hnil
    rwa [hnil, append_nil]
  rename_i other _ _
  obtain ⟨hperm, hsorted⟩ := hstd _ (candidateRowIds input) (sortsBefore_strictWeakOrder hsort other input)
  generalize sort (op.sortsBefore other input) (candidateRowIds input) = ids at hperm hsorted
  have hrows : (ids.map (rowAt other input)).Pairwise (RowLe op.sortFunctions) := by
    rw [pairwise_map]
    exact hsorted.imp fun hxy => (Bool.not_not _).symm.trans hxy
  have hbatch : (ids.map (rowAt other input)).Perm input.flatten :=
    map_rowAt_candidateRowIds other input ▸ hperm.map _
  dsimp only
  rw [copyWithIndexes_eq, ← length_map (rowAt other input)]
  refine ⟨fun b hb => ?_, ?_⟩
  · rcases mem_append.mp hb with hb | hb
    · exact h.sorted b hb
    · obtain ⟨j, -, rfl⟩ := mem_map.mp hb
      exact hrows.sublist ((take_sublist _ _).trans (drop_sublist _ _))
  · rw [flatten_append, flatten_chunks_blockCount defaultBlockCapacity_pos]
    exact h.perm.append hbatch

theorem PhysicalSort.mergeBlocks_spec (hsort : Consistent op.sortFunctions) (h : SortedBlocks op rows state.unmergeSortedBlocks)
    (hempty : state.dataBlockArray = []) :
    (op.mergeBlocks state).complete = true ∧ Packed defaultBlockCapacity (op.mergeBlocks state).dataBlockArray ∧
      (op.mergeBlocks state).dataBlockArray.flatten.Pairwise (RowLe op.sortFunctions) ∧
      (op.mergeBlocks state).dataBlockArray.flatten.Perm rows := by
  have hperm := h.perm
  unfold PhysicalSort.mergeBlocks
  dsimp only
  split
  · rename_i hnil
    rw [hnil] at hperm
    rw [hempty]
    exact ⟨rfl, nofun, .nil, hperm⟩
  · rename_i other _ hcons
    generalize state.unmergeSortedBlocks = blocks at h hperm hcons
    have hgroup : ∀ g ∈ indexesGroup blocks, g.Pairwise fun x y => op.compare other blocks x y = true := by
      intro g hg
      have hmem : g.map (rowAt other blocks) ∈ (indexesGroup blocks).map (map (rowAt other blocks)) := mem_map_of_mem hg
      rw [map_rowAt_indexesGroup] at hmem
      exact pairwise_map.mp (h.sorted _ hmem)
    have hlength : (indexesGroup blocks).length = blocks.length := by simp [indexesGroup]
    have hpos : 0 < blocks.length := length_pos_iff.mpr (by rintro rfl; cases hcons)
    obtain ⟨hsorted, hall⟩ := mergeIndexes_spec (compare_trans hsort other blocks) (compare_total hsort other blocks)
      hgroup (Nat.zero_le (blocks.length - 1)) (by omega)
    rw [drop_zero, take_of_length_le (by omega)] at hall
    have hrows := hall.map (rowAt other blocks)
    rw [map_flatten, map_rowAt_indexesGroup] at hrows
    rw [copyWithIndexes_eq, hempty, nil_append, ← length_map (rowAt other blocks),
      flatten_chunks_blockCount defaultBlockCapacity_pos]
    exact ⟨rfl, packed_chunks defaultBlockCapacity_pos _, pairwise_map.mpr hsorted, hrows.trans hperm⟩

/-- **A sort leaves packed blocks with all rows of all batches in order**, and what it asks
`std::sort` to sort by is a strict weak order. -/
theorem execute_sorts (op : PhysicalSort α) (hsort : Consistent op.sortFunctions) (hstd : StdSort sort)
    (batches : List (List (List α))) (last : List (List α)) :
    let state := op.execute sort true (batches.foldl (op.execute sort false) {}) last
    state.complete = true ∧ Packed defaultBlockCapacity state.dataBlockArray ∧
      state.dataBlockArray.flatten.Pairwise (RowLe op.sortFunctions) ∧
      state.dataBlockArray.flatten.Perm (batches ++ [last]).flatten.flatten ∧
      ∀ other blocks, IsStrictWeakOrder (Nat × Nat) (fun x y => op.sortsBefore other blocks x y = true) := by
  have hrun : ∀ (state : SortState α) (rows : List α), SortedBlocks op rows state.unmergeSortedBlocks →
      state.dataBlockArray = [] → SortedBlocks op (rows ++ batches.flatten.flatten)
        (batches.foldl (op.execute sort false) state).unmergeSortedBlocks ∧
      (batches.foldl (op.execute sort false) state).dataBlockArray = [] := by
    induction batches with
    | nil =>
      intro state rows h hempty
      exact ⟨by simpa using h, hempty⟩
    | cons batch batches ih =>
      intro state rows h hempty
      rw [foldl_cons, flatten_cons, flatten_append, ← append_assoc]
      exact ih _ _ (PhysicalSort.sortBatch_spec hsort hstd h batch) ((PhysicalSort.sortBatch_dataBlockArray state batch).trans hempty)
  obtain ⟨hblocks, hempty⟩ := hrun {} [] ⟨nofun, .nil⟩ rfl
  obtain ⟨hdone, hpacked, hsorted, hperm⟩ := PhysicalSort.mergeBlocks_spec hsort (PhysicalSort.sortBatch_spec hsort hstd hblocks last)
    ((PhysicalSort.sortBatch_dataBlockArray _ last).trans hempty)
  refine ⟨hdone, hpacked, hsorted, ?_, sortsBefore_strictWeakOrder hsort⟩
  rwa [flatten_append, flatten_append, flatten_singleton]

/-- Merge sort keeps the promise. -/
theorem stdSort_mergeSort {ι : Type} : StdSort fun (lt : ι → ι → Bool) l => l.mergeSort fun x y => !lt y x := by
  intro lt l hlt
  refine ⟨mergeSort_perm l _, pairwise_mergeSort (fun x y z hxy hyz => ?_) (fun x y => ?_) l⟩
  · simp only [Bool.not_eq_true', ← Bool.not_eq_true] at hxy hyz ⊢
    intro hzx
    have hyx : ¬ lt x y = true := fun h => hyz (hlt.trans z x y hzx h)
    have hzy : ¬ lt y z = true := fun h => hxy (hlt.trans y z x h hzx)
    exact (hlt.incomp_trans x y z ⟨hyx, hxy⟩ ⟨hzy, hyz⟩).2 hzx
  · by_cases hxy : lt x y = true
    · have hyx : ¬ lt y x = true := fun h => hlt.irrefl x (hlt.trans x y x hxy h)
      simp [hyx]
    · simp [hxy]

theorem execute_sorts_numbers :
    let state := PhysicalSort.execute ⟨[compare]⟩ (fun lt l => l.mergeSort fun x y => !lt y x) true
      ([[[3, 1], [2]]].foldl (PhysicalSort.execute ⟨[compare]⟩ (fun lt l => l.mergeSort fun x y => !lt y x) false) {}) [[0]]
    state.complete = true ∧ Packed defaultBlockCapacity state.dataBlockArray ∧
      state.dataBlockArray.flatten.Pairwise (RowLe [(compare : Nat → Nat → Ordering)]) ∧
      state.dataBlockArray.flatten.Perm [3, 1, 2, 0] ∧
      ∀ other blocks, IsStrictWeakOrder (Nat × Nat)
        (fun x y => (PhysicalSort.mk [(compare : Nat → Nat → Ordering)]).sortsBefore other blocks x y = true) :=
  execute_sorts ⟨[compare]⟩ (fun f hf => by rw [mem_singleton.mp hf]; infer_instance) stdSort_mergeSort [[[3, 1], [2]]] [[0]]

end Infinity.Executor
