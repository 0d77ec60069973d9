import Infinity.Common
import Infinity.Executor.QueueSource
import Infinity.Executor.TopSolver

/-! The operator `PhysicalTop`.

One execution takes the blocks the previous operator has left, finds the best rows of all of
them and leaves these, sorted, in blocks of full capacity. -/
namespace Infinity.Executor

open Lib List

inductive TopFault where
  /-- "output data_block_array_ is not empty" -/
  | outputNotEmpty
  /-- "MergeTop: empty input" -/
  | emptyInput
  /-- A block or a row that is not there is accessed. -/
  | outOfRange
  deriving DecidableEq, Repr

variable {α : Type}

/-! ### Row ids and their rows -/

/-- The ids of all rows, block by block. -/
def candidateRowIds (blocks : List (List α)) : List (Nat × Nat) :=
  blocks.zipIdx.flatMap fun block => (List.range block.1.length).map fun rowId => (block.2, rowId)

/-- The ids of the rows of each block. -/
def indexesGroup (blocks : List (List α)) : List (List (Nat × Nat)) :=
  blocks.zipIdx.map fun block => (List.range block.1.length).map fun rowId => (block.2, rowId)

/-- The row of an id. An id that names no row, of which there are none among the candidates,
reads as `other`. -/
def rowAt (other : α) (blocks : List (List α)) (id : Nat × Nat) : α := ((blocks[id.1]?).bind (·[id.2]?)).getD other

/-- `compare_id_for_heap` -/
def compareIdForHeap (sortFunctions : List (α → α → Ordering)) (other : α) (blocks : List (List α)) (x y : Nat × Nat) :
    Bool :=
  !preferLeft sortFunctions (rowAt other blocks x) (rowAt other blocks y)

/-! ### Writing the output -/

/-- The output blocks and the place of the next row. -/
structure OutputCursor (α : Type) where
  blocks : List (List α)
  blockId : Nat
  rowId : Nat

/-- Empty blocks for the rows: at least one. At most as many rounds as rows are made. -/
def prepareOutput : Nat → Nat → List (List α)
  | 0, _ => [[]]
  | rounds + 1, rowCnt =>
    [] :: if defaultBlockCapacity < rowCnt then prepareOutput rounds (rowCnt - defaultBlockCapacity) else []

def OutputCursor.append (out : OutputCursor α) (row : α) : OutputCursor α :=
  let (blockId, rowId) := if out.rowId = defaultBlockCapacity then (out.blockId + 1, 0) else (out.blockId, out.rowId)
  ⟨out.blocks.modify blockId (· ++ [row]), blockId, rowId + 1⟩

/-- `WriteToOutput` for the rows of the candidates. -/
def writeToOutput (rows : List α) : List (List α) :=
  (rows.foldl OutputCursor.append ⟨prepareOutput rows.length rows.length, 0, 0⟩).blocks

/-! ### The operator -/

structure PhysicalTop (α : Type) where
  sortFunctions : List (α → α → Ordering)
  limit : Nat
  totalHitsCountFlag : Bool

/-- `WriteTopResultsToOutput` on blocks with a row; `uninit` is the array before it is filled. -/
def PhysicalTop.topRows (op : PhysicalTop α) (other : α) (blocks : List (List α)) : List α :=
  let compare := compareIdForHeap op.sortFunctions other blocks
  let solver : TopSolver (Nat × Nat) := ⟨0, fun _ => (0, 0)⟩
  (solver.solveTop compare op.limit (candidateRowIds blocks)).result.map (rowAt other blocks)

/-- The end of an execution: the task is complete with the operator below it. -/
def PhysicalTop.finish (op : PhysicalTop α) (state : OperatorState (List α)) (prevComplete : Bool)
    (totalHitsRowCount : Nat) : OperatorState (List α) :=
  if prevComplete then
    { state with
      totalHitsCountFlag := state.totalHitsCountFlag || op.totalHitsCountFlag
      totalHitsCount := if op.totalHitsCountFlag then totalHitsRowCount else state.totalHitsCount
      complete := true }
  else state

/-- `PhysicalTop::Execute`; `prevComplete` and `input` are the previous operator's. -/
def PhysicalTop.execute (op : PhysicalTop α) (state : OperatorState (List α)) (prevComplete : Bool)
    (input : List (List α)) : Except TopFault (OperatorState (List α)) :=
  let totalHitsRowCount := (input.map List.length).sum
  match input.flatten with
  | [] => .ok (op.finish state prevComplete totalHitsRowCount)
  | other :: _ =>
    if state.dataBlockArray ≠ [] then .error .outputNotEmpty
    else
      let state := {state with dataBlockArray := writeToOutput (op.topRows other input)}
      .ok (op.finish state prevComplete totalHitsRowCount)

/-! ### The order of the rows -/

/-- Every sort function compares rows consistently. -/
def Consistent (sortFunctions : List (α → α → Ordering)) : Prop := ∀ f ∈ sortFunctions, Std.TransCmp f

section Order

variable {sortFunctions : List (α → α → Ordering)} (h : Consistent sortFunctions)
include h

theorem rowLe_total (a b : α) : RowLe sortFunctions a b ∨ RowLe sortFunctions b a := by
  induction sortFunctions with
  | nil => exact .inl rfl
  | cons f rest ih =>
    have hf : Std.TransCmp f := h f (mem_cons_self ..)
    have hrest := ih fun g hg => h g (mem_cons_of_mem f hg)
    have hswap : f a b = (f b a).swap := Std.OrientedCmp.eq_swap
    simp only [RowLe, preferLeft] at hrest ⊢
    cases hab : f b a <;> simp_all

theorem rowLe_trans {a b c : α} (hab : RowLe sortFunctions a b) (hbc : RowLe sortFunctions b c) :
    RowLe sortFunctions a c := by
  induction sortFunctions with
  | nil => rfl
  | cons f rest ih =>
    have hf : Std.TransCmp f := h f (mem_cons_self ..)
    have hrest := ih fun g hg => h g (mem_cons_of_mem f hg)
    simp only [RowLe, preferLeft] at hab hbc hrest ⊢
    cases hfab : f a b with
    | gt => simp [hfab] at hab
    | lt =>
      cases hfbc : f b c with
      | gt => simp [hfbc] at hbc
      | lt => rw [Std.TransCmp.lt_trans hfab hfbc]
      | eq => rw [Std.TransCmp.lt_of_lt_of_eq hfab hfbc]
    | eq =>
      rw [Std.TransCmp.congr_left hfab]
      cases hfbc : f b c with
      | gt => simp [hfbc] at hbc
      | lt => rfl
      | eq =>
        rw [hfab] at hab
        rw [hfbc] at hbc
        exact hrest hab hbc

end Order

/-! ### The rows of the result -/

theorem map_rowAt_indexesGroup (other : α) (blocks : List (List α)) :
    (indexesGroup blocks).map (map (rowAt other blocks)) = blocks := by
  have hblock : ∀ block ∈ blocks.zipIdx,
      ((range block.1.length).map fun rowId => (block.2, rowId)).map (rowAt other blocks) = block.1 := by
    rintro ⟨block, i⟩ hmem
    have hget : blocks[i]? = some block := mk_mem_zipIdx_iff_getElem?.mp hmem
    refine ext_getElem (by simp) fun j hj hj' => ?_
    simp [rowAt, hget, getElem?_eq_getElem hj']
  rw [indexesGroup, map_map]
  exact (map_congr_left hblock).trans (zipIdx_map_fst ..)

theorem map_rowAt_candidateRowIds (other : α) (blocks : List (List α)) :
    (candidateRowIds blocks).map (rowAt other blocks) = blocks.flatten := by
  rw [candidateRowIds, flatMap_def, map_flatten, ← indexesGroup, map_rowAt_indexesGroup]

theorem prepareOutput_eq (rounds rowCnt : Nat) (hpos : 0 < rowCnt) (hrounds : rowCnt ≤ rounds) :
    (prepareOutput rounds rowCnt : List (List α)) = replicate (blockCount defaultBlockCapacity rowCnt) [] := by
  induction rounds generalizing rowCnt with
  | zero => omega
  | succ rounds ih =>
    unfold prepareOutput
    split
    · rename_i hlt
      have hsplit : rowCnt = defaultBlockCapacity + (rowCnt - defaultBlockCapacity) := by omega
      have hcap := defaultBlockCapacity_pos
      rw [ih _ (by omega) (by omega)]
      conv_rhs => rw [hsplit, blockCount_add defaultBlockCapacity_pos, replicate_succ]
    · rename_i hle
      rw [blockCount_of_le hpos (by omega), replicate_one]

/-- The output with `n` blocks after the given rows. -/
def cursorAt (n : Nat) (rows : List α) : OutputCursor α where
  blocks := chunks defaultBlockCapacity rows n
  blockId := (rows.length - 1) / defaultBlockCapacity
  rowId := if rows.length = 0 then 0 else (rows.length - 1) % defaultBlockCapacity + 1

theorem nextPlace_eq {c : Nat} (hpos : 0 < c) (m : Nat) :
    (if (if m = 0 then 0 else (m - 1) % c + 1) = c then ((m - 1) / c + 1, 0)
      else ((m - 1) / c, if m = 0 then 0 else (m - 1) % c + 1)) = (m / c, m % c) := by
  cases m with
  | zero => simp [hpos.ne]
  | succ m =>
    obtain ⟨hdiv, hmod⟩ := next_place hpos m
    rw [hdiv, hmod, if_neg (Nat.succ_ne_zero m), Nat.add_sub_cancel]
    split <;> rfl

theorem append_cursorAt (n : Nat) (rows : List α) (row : α) : (cursorAt n rows).append row = cursorAt n (rows ++ [row]) := by
  have hcap := defaultBlockCapacity_pos
  have hplace : (if (cursorAt n rows).rowId = defaultBlockCapacity then ((cursorAt n rows).blockId + 1, 0)
      else ((cursorAt n rows).blockId, (cursorAt n rows).rowId)) =
      (rows.length / defaultBlockCapacity, rows.length % defaultBlockCapacity) :=
    nextPlace_eq hcap rows.length
  unfold OutputCursor.append
  rw [hplace]
  simp only [cursorAt, modify_chunks hcap]
  simp

theorem writeToOutput_eq (rows : List α) (hne : rows ≠ []) :
    writeToOutput rows = chunks defaultBlockCapacity rows (blockCount defaultBlockCapacity rows.length) := by
  have hfold : ∀ (n : Nat) (l done : List α), l.foldl OutputCursor.append (cursorAt n done) = cursorAt n (done ++ l) := by
    intro n l
    induction l with
    | nil =>
      simp
    | cons row l ih =>
      intro done
      rw [foldl_cons, append_cursorAt, ih, append_assoc, singleton_append]
  have hlen := length_pos_iff.mpr hne
  have hstart : (⟨prepareOutput rows.length rows.length, 0, 0⟩ : OutputCursor α) =
      cursorAt (blockCount defaultBlockCapacity rows.length) [] := by
    rw [prepareOutput_eq _ _ hlen le_rfl, ← chunks_nil defaultBlockCapacity]
    simp [cursorAt]
  rw [writeToOutput, hstart, hfold]
  rfl

theorem topRows_spec {op : PhysicalTop α} (hsort : Consistent op.sortFunctions) (hlimit : 1 ≤ op.limit) (other : α)
    (blocks : List (List α)) :
    (op.topRows other blocks).Pairwise (RowLe op.sortFunctions) ∧
      Smallest (RowLe op.sortFunctions) op.limit blocks.flatten (op.topRows other blocks) := by
  have hle (x y : Nat × Nat) : HeapLe (compareIdForHeap op.sortFunctions other blocks) x y ↔
      RowLe op.sortFunctions (rowAt other blocks x) (rowAt other blocks y) := by
    simp [HeapLe, compareIdForHeap, RowLe]
  have htrans : IsTrans (Nat × Nat) (HeapLe (compareIdForHeap op.sortFunctions other blocks)) :=
    ⟨fun x y z hxy hyz => (hle x z).mpr (rowLe_trans hsort ((hle x y).mp hxy) ((hle y z).mp hyz))⟩
  have htotal (x y : Nat × Nat) : HeapLe (compareIdForHeap op.sortFunctions other blocks) x y ∨
      HeapLe (compareIdForHeap op.sortFunctions other blocks) y x := by
    rw [hle, hle]
    exact rowLe_total hsort _ _
  obtain ⟨hsorted, hsmall⟩ := solveTop_spec htotal hlimit ⟨0, fun _ => (0, 0)⟩ (candidateRowIds blocks)
  constructor
  · unfold PhysicalTop.topRows
    rw [pairwise_map]
    exact hsorted.imp fun {x y} h => (hle x y).mp h
  · have := hsmall.map (fun x y h => (hle x y).mp h)
    rwa [Multiset.map_coe, map_rowAt_candidateRowIds] at this

/-- Packed blocks with the best of the rows in order. -/
structure TopBlocks (op : PhysicalTop α) (rows : Multiset α) (blocks : List (List α)) : Prop where
  packed : Packed defaultBlockCapacity blocks
  sorted : blocks.flatten.Pairwise (RowLe op.sortFunctions)
  smallest : Smallest (RowLe op.sortFunctions) op.limit rows blocks.flatten

theorem topBlocks_nil (op : PhysicalTop α) : TopBlocks op 0 [] where
  packed := by
    intro i b hb
    simp at hb
  sorted := .nil
  smallest := .of_card_le (by simp)

theorem topBlocks_writeToOutput {op : PhysicalTop α} (hsort : Consistent op.sortFunctions) (hlimit : 1 ≤ op.limit)
    (other : α) {blocks : List (List α)} (hne : blocks.flatten ≠ []) :
    TopBlocks op blocks.flatten (writeToOutput (op.topRows other blocks)) := by
  obtain ⟨hsorted, hsmall⟩ := topRows_spec hsort hlimit other blocks
  have hrows : op.topRows other blocks ≠ [] := by
    have hcard := hsmall.card_eq
    have hpos := length_pos_iff.mpr hne
    simp only [Multiset.coe_card] at hcard
    exact length_pos_iff.mp (by omega)
  have hcap := defaultBlockCapacity_pos
  rw [writeToOutput_eq _ hrows]
  refine ⟨packed_chunks hcap _, ?_, ?_⟩ <;> rw [flatten_chunks_blockCount hcap]
  · exact hsorted
  · exact hsmall

end Infinity.Executor
