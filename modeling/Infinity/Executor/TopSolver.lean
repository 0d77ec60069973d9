import Infinity.Lib.Heap
import Infinity.Lib.Packing
import Infinity.Lib.Smallest

/-! `ORDER BY ... LIMIT` in one task.

`TopSolver` keeps the row ids of the best rows seen so far in a binary heap with the worst of
them on top, sorts the heap in place and writes the rows to blocks of full capacity.
`PhysicalTop::Execute` runs it on the blocks of one execution.

Row counts and heap positions are natural numbers; the source's are 32-bit words, which is the
same as long as fewer than 2^31 rows meet in one operator. The offset is zero: the blocks are
not cut at the front. -/
namespace Infinity.Executor

open Lib Lib.Heap Function Multiset

/-! ### Comparing rows -/

/-- `CompareTwoRowAndPreferLeft::Compare`: the first sort function that tells the rows apart
decides, and equal rows are taken from the left. -/
def preferLeft {α : Type} : List (α → α → Ordering) → α → α → Bool
  | [], _, _ => true
  | sortFunction :: rest, left, right =>
    match sortFunction left right with
    | .eq => preferLeft rest left right
    | .lt => true
    | .gt => false

/-- The order of the rows. -/
def RowLe {α : Type} (sortFunctions : List (α → α → Ordering)) (left right : α) : Prop :=
  preferLeft sortFunctions left right = true

/-! ### The heap -/

section Heap

variable {γ : Type} (compare : γ → γ → Bool)

/-- The loop of `HeapifyDown`: the element in `tmp` looks for its place from `index` on. At most
`size` rounds are made. -/
def heapifyLoop (size : Nat) (tmp : γ) : Nat → Nat → (Nat → γ) → Nat → γ
  | 0, index, rowIds => Function.update rowIds index tmp
  | rounds + 1, index, rowIds =>
    if 2 * index ≤ size then
      let sub := if 2 * index + 1 ≤ size && compare (rowIds (2 * index + 1)) (rowIds (2 * index)) then 2 * index + 1
        else 2 * index
      if !compare (rowIds sub) tmp then Function.update rowIds index tmp
      else heapifyLoop size tmp rounds sub (Function.update rowIds index (rowIds sub))
    else Function.update rowIds index tmp

def heapifyDown (size index : Nat) (rowIds : Nat → γ) : Nat → γ :=
  if index = 0 ∨ size < 2 * index then rowIds else heapifyLoop compare size (rowIds index) size index rowIds

/-- `HeapifyDown` from the given position down to the first. -/
def heapifyAll (size : Nat) : Nat → (Nat → γ) → Nat → γ
  | 0, rowIds => rowIds
  | index + 1, rowIds => heapifyAll size index (heapifyDown compare size (index + 1) rowIds)

/-- `size_` and `row_ids_ptr_`, which counts from 1. -/
structure TopSolver (γ : Type) where
  size : Nat
  rowIds : Nat → γ

def TopSolver.addCandidate (limit : Nat) (s : TopSolver γ) (addId : γ) : TopSolver γ :=
  if s.size = limit then
    if compare (s.rowIds 1) addId then
      {s with rowIds := heapifyDown compare s.size 1 (Function.update s.rowIds 1 addId)}
    else s
  else
    let size := s.size + 1
    let rowIds := Function.update s.rowIds size addId
    if size = limit then ⟨size, heapifyAll compare size (size / 2) rowIds⟩ else ⟨size, rowIds⟩

/-- The loop of `SortResult`: the top goes to the end of the part that is not sorted yet. -/
def popAll : Nat → (Nat → γ) → Nat → γ
  | 0, rowIds => rowIds
  | 1, rowIds => rowIds
  | size + 2, rowIds =>
    popAll (size + 1) (heapifyDown compare (size + 1) 1 fun p => rowIds (Equiv.swap (size + 2) 1 p))

def TopSolver.sortResult (limit : Nat) (s : TopSolver γ) : TopSolver γ :=
  let rowIds := if s.size < limit then heapifyAll compare s.size (s.size / 2) s.rowIds else s.rowIds
  {s with rowIds := popAll compare s.size rowIds}

/-- `SolveTop` on the candidates in the order of the input. -/
def TopSolver.solveTop (limit : Nat) (s : TopSolver γ) (candidates : List γ) : TopSolver γ :=
  (candidates.foldl (TopSolver.addCandidate compare limit) {s with size := 0}).sortResult compare limit

/-- The ids in the order they were left in. -/
def TopSolver.result (s : TopSolver γ) : List γ := (List.range s.size).map fun i => s.rowIds (i + 1)

end Heap

/-! ### The heap keeps the best candidates

`compare x y` says that `y` is strictly better than `x`, so that `HeapLe compare x y`, `x` is at
most `y` in the heap's order, is its negation. -/

def HeapLe {γ : Type} (compare : γ → γ → Bool) (x y : γ) : Prop := compare x y = false

section HeapProofs

variable {γ : Type} {compare : γ → γ → Bool} [IsTrans γ (HeapLe compare)]
  (total : ∀ x y, HeapLe compare x y ∨ HeapLe compare y x)

/-- The array while `tmp` is on its way: what is stored with `tmp` at the hole. Storing the
child at the hole and moving on is an exchange of the two. -/
theorem update_update_swap (rowIds : Nat → γ) {index sub : Nat} (tmp : γ) (hne : sub ≠ index) :
    update (update rowIds index (rowIds sub)) sub tmp = fun p => update rowIds index tmp (Equiv.swap index sub p) := by
  funext p
  by_cases hp : p = sub
  · subst hp
    simp
  by_cases hi : p = index
  · subst hi
    simp [update_of_ne hne, update_of_ne (Ne.symm hne)]
  · rw [update_of_ne hp, update_of_ne hi, Equiv.swap_apply_of_ne_of_ne hi hp, update_of_ne hi]

/-- What a sift down from `lo` leaves of the array `f`. -/
structure Sifted (compare : γ → γ → Bool) (size lo : Nat) (f f' : Nat → γ) : Prop where
  contents : contents f' size = contents f size
  heap : HeapFrom (fun x y => HeapLe compare x y) size lo f'
  frame : ∀ i, i < lo ∨ size < i → f' i = f i

omit [IsTrans γ (HeapLe compare)] in
include total in
theorem larger_child {size index : Nat} (rowIds : Nat → γ) (hchild : 2 * index ≤ size) {sub : Nat}
    (hsub : sub = if 2 * index + 1 ≤ size && compare (rowIds (2 * index + 1)) (rowIds (2 * index)) then 2 * index + 1
      else 2 * index) :
    IsChild sub index ∧ sub ≤ size ∧ ∀ c, IsChild c index → c ≤ size → HeapLe compare (rowIds c) (rowIds sub) := by
  have hrefl (x : γ) : HeapLe compare x x := (total x x).elim id id
  split at hsub
  · rename_i hright
    obtain ⟨hle, hgt⟩ := Bool.and_eq_true_iff.mp hright
    subst hsub
    refine ⟨.inr rfl, by simpa using hle, fun c hc hcs => ?_⟩
    rcases hc with rfl | rfl
    · exact (total _ _).resolve_right (by simp [HeapLe, hgt])
    · exact hrefl _
  · rename_i hright
    subst hsub
    refine ⟨.inl rfl, hchild, fun c hc hcs => ?_⟩
    rcases hc with rfl | rfl
    · exact hrefl _
    · simpa [HeapLe, hcs] using hright

include total in
theorem heapifyLoop_spec {size lo : Nat} {tmp : γ} (hlo : 1 ≤ lo) (rounds : Nat) {index : Nat} {rowIds : Nat → γ}
    (hrounds : size ≤ rounds + index) (hindex : lo ≤ index) (hsize : index ≤ size)
    (h : Sift (HeapLe compare) size lo index (update rowIds index tmp)) :
    Sifted compare size lo (update rowIds index tmp) (heapifyLoop compare size tmp rounds index rowIds) := by
  induction rounds generalizing index rowIds with
  | zero => exact ⟨rfl, h.leaf (by omega), fun _ _ => rfl⟩
  | succ rounds ih =>
    unfold heapifyLoop
    split
    · rename_i hchild
      obtain ⟨hsub, hsubn, hmax⟩ := larger_child total rowIds hchild rfl
      set sub := if 2 * index + 1 ≤ size && compare (rowIds (2 * index + 1)) (rowIds (2 * index)) then 2 * index + 1
        else 2 * index
      have hlt : index < sub := by
        have := hsub.twice_le
        omega
      have hgsub : update rowIds index tmp sub = rowIds sub := update_of_ne hlt.ne' ..
      have hgmax : ∀ c, IsChild c index → c ≤ size →
          HeapLe compare (update rowIds index tmp c) (update rowIds index tmp sub) := by
        intro c hc hcs
        have := hc.twice_le
        rw [hgsub, update_of_ne (by omega)]
        exact hmax c hc hcs
      dsimp only
      split
      · -- the larger child is not above `tmp`
        rename_i hstop
        refine ⟨rfl, h.finish fun c hc hcs => ?_, fun _ _ => rfl⟩
        have hle : HeapLe compare (rowIds sub) tmp := by simpa [HeapLe] using hstop
        rw [update_self]
        exact Trans.trans (hgsub ▸ hgmax c hc hcs) hle
      · rename_i hmove
        have hle : HeapLe compare tmp (rowIds sub) := (total _ _).resolve_right (by simpa [HeapLe] using hmove)
        have hswap := update_update_swap rowIds tmp hlt.ne'
        have hstep := h.move hlo hindex hsub hsubn hgmax (by rwa [update_self, hgsub])
        rw [← hswap] at hstep
        have hrec := ih (by omega) (by omega) hsubn hstep
        refine ⟨?_, hrec.heap, fun i hi => ?_⟩
        · rw [hrec.contents, hswap]
          exact contents_swap ⟨by omega, hsize⟩ ⟨by omega, hsubn⟩
        · rw [hrec.frame i hi, hswap]
          show update rowIds index tmp (Equiv.swap index sub i) = _
          rw [Equiv.swap_apply_of_ne_of_ne (by omega) (by omega)]
    · exact ⟨rfl, h.leaf (by omega), fun _ _ => rfl⟩

include total in
theorem heapifyDown_spec {size lo : Nat} {rowIds : Nat → γ} (hlo : 1 ≤ lo)
    (h : HeapFrom (HeapLe compare) size (lo + 1) rowIds) :
    Sifted compare size lo rowIds (heapifyDown compare size lo rowIds) := by
  unfold heapifyDown
  have hsift : Sift (HeapLe compare) size lo lo rowIds := .start hlo h
  split
  · rename_i hleaf
    exact ⟨rfl, hsift.leaf (by omega), fun _ _ => rfl⟩
  have hself : update rowIds lo (rowIds lo) = rowIds := update_eq_self lo rowIds
  have hloop : Sifted compare size lo (update rowIds lo (rowIds lo))
      (heapifyLoop compare size (rowIds lo) size lo rowIds) :=
    heapifyLoop_spec total hlo size (by omega) le_rfl (by omega) (by rwa [hself])
  rwa [hself] at hloop

include total in
theorem heapifyAll_spec {size : Nat} (index : Nat) {rowIds : Nat → γ}
    (h : HeapFrom (HeapLe compare) size (index + 1) rowIds) :
    Sifted compare size 1 rowIds (heapifyAll compare size index rowIds) := by
  induction index generalizing rowIds with
  | zero => exact ⟨rfl, h, fun _ _ => rfl⟩
  | succ index ih =>
    have hone : Sifted compare size (index + 1) rowIds _ := heapifyDown_spec total (by omega) h
    have hrest := ih hone.heap
    refine ⟨hrest.contents.trans hone.contents, hrest.heap, fun i hi => ?_⟩
    exact (hrest.frame i hi).trans (hone.frame i (by omega))

/-- The solver after it has seen the candidates `S`. -/
structure Best (compare : γ → γ → Bool) (limit : Nat) (S : Multiset γ) (s : TopSolver γ) : Prop where
  size_le : s.size ≤ limit
  smallest : Smallest (HeapLe compare) limit S (contents s.rowIds s.size)
  heap : s.size = limit → HeapFrom (HeapLe compare) s.size 1 s.rowIds

omit [IsTrans γ (HeapLe compare)] in
theorem Best.eq_contents {limit : Nat} {S : Multiset γ} {s : TopSolver γ} (h : Best compare limit S s)
    (hroom : s.size < limit) : contents s.rowIds s.size = S := by
  have hcard := h.smallest.card_eq
  rw [card_contents] at hcard
  refine eq_of_le_of_card_le h.smallest.subset ?_
  rw [card_contents]
  omega

include total in
theorem Best.addCandidate {limit : Nat} {S : Multiset γ} {s : TopSolver γ} (hlimit : 1 ≤ limit)
    (h : Best compare limit S s) (addId : γ) :
    Best compare limit (addId ::ₘ S) (s.addCandidate compare limit addId) := by
  have hrefl : Std.Refl (HeapLe compare) := ⟨fun x => (total x x).elim id id⟩
  unfold TopSolver.addCandidate
  split
  · rename_i hfull
    have hheap := h.heap hfull
    have hpos : 1 ≤ s.size := hfull ▸ hlimit
    have htop : ∀ a ∈ contents s.rowIds s.size, HeapLe compare a (s.rowIds 1) := fun a ha => by
      obtain ⟨i, hi, hin, rfl⟩ := mem_contents.mp ha
      exact hheap.le_top hi hin
    split
    · -- the candidate takes the place of the top
      rename_i hbetter
      have hle : HeapLe compare addId (s.rowIds 1) := (total _ _).resolve_right (by simp [HeapLe, hbetter])
      have hsift := heapifyDown_spec total le_rfl (hheap.replace_top addId)
      refine ⟨h.size_le, ?_, fun _ => hsift.heap⟩
      rw [hsift.contents, contents_replace_top _ hpos]
      have hsmall := h.smallest
      rw [contents_first _ hpos] at hsmall htop
      refine hsmall.replace ?_ (fun a ha => htop a (mem_cons_of_mem ha)) hle
      rw [← contents_first _ hpos, card_contents, hfull]
    · rename_i hworse
      have hle : HeapLe compare (s.rowIds 1) addId := by simpa [HeapLe] using hworse
      refine ⟨h.size_le, h.smallest.discard (by rw [card_contents, hfull]) fun a ha => ?_, h.heap⟩
      exact Trans.trans (htop a ha) hle
  · rename_i hroom
    have hlt : s.size < limit := lt_of_le_of_ne h.size_le hroom
    have hcontents : contents (update s.rowIds (s.size + 1) addId) (s.size + 1) = addId ::ₘ S := by
      rw [contents_succ, update_self, ← h.eq_contents hlt]
      exact congrArg _ (contents_congr fun i _ hi => update_of_ne (by omega) ..)
    have hkept : Smallest (HeapLe compare) limit (addId ::ₘ S) (addId ::ₘ S) := by
      refine .of_card_le ?_
      rwa [← hcontents, card_contents]
    dsimp only
    split
    · have hsift : Sifted compare (s.size + 1) 1 (update s.rowIds (s.size + 1) addId) _ :=
        heapifyAll_spec total ((s.size + 1) / 2) (heapFrom_leaves (by omega))
      refine ⟨hlt, ?_, fun _ => hsift.heap⟩
      rwa [hsift.contents, hcontents]
    · rename_i hne
      exact ⟨hlt, hcontents.symm ▸ hkept, fun hfull => absurd hfull hne⟩

include total in
theorem popAll_spec (size : Nat) {rowIds : Nat → γ} (h : HeapFrom (HeapLe compare) size 1 rowIds) :
    contents (popAll compare size rowIds) size = contents rowIds size ∧
      (∀ i, size < i → popAll compare size rowIds i = rowIds i) ∧
      ∀ i j, 1 ≤ i → i < j → j ≤ size → HeapLe compare (popAll compare size rowIds i) (popAll compare size rowIds j) := by
  have hrefl : Std.Refl (HeapLe compare) := ⟨fun x => (total x x).elim id id⟩
  induction size using Nat.twoStepInduction generalizing rowIds with
  | zero => exact ⟨rfl, fun _ _ => rfl, by omega⟩
  | one => exact ⟨rfl, fun _ _ => rfl, by omega⟩
  | more size _ ih =>
    -- after the exchange the last position holds the largest element
    set swapped := fun p => rowIds (Equiv.swap (size + 2) 1 p) with hswapped
    have hlast : swapped (size + 2) = rowIds 1 := by simp [hswapped]
    have hother : ∀ p, p ≠ 1 → p ≠ size + 2 → swapped p = rowIds p := fun p h1 h2 => by
      simp only [hswapped]
      rw [Equiv.swap_apply_of_ne_of_ne h2 h1]
    have hfrom : HeapFrom (HeapLe compare) (size + 1) 2 swapped := by
      intro p c hp hc hcs
      have := hc.twice_le
      rw [hother c (by omega) (by omega), hother p (by omega) (by omega)]
      exact h p c (by omega) hc (by omega)
    have hsift := heapifyDown_spec total le_rfl hfrom
    obtain ⟨hcontents, hframe, hsorted⟩ := ih hsift.heap
    have hcs : contents swapped (size + 2) = contents rowIds (size + 2) := contents_swap (by omega) (by omega)
    have htop : popAll compare (size + 1) (heapifyDown compare (size + 1) 1 swapped) (size + 2) = rowIds 1 := by
      rw [hframe _ (by omega), hsift.frame _ (by omega), hlast]
    refine ⟨?_, fun i hi => ?_, fun i j hi hij hj => ?_⟩
    · show contents (popAll compare (size + 1) (heapifyDown compare (size + 1) 1 swapped)) (size + 2) = _
      rw [contents_succ, htop, hcontents, hsift.contents, ← hcs, contents_succ swapped (size + 1), hlast]
    · show popAll compare (size + 1) (heapifyDown compare (size + 1) 1 swapped) i = _
      rw [hframe i (by omega), hsift.frame i (by omega), hother i (by omega) (by omega)]
    · show HeapLe compare (popAll compare (size + 1) (heapifyDown compare (size + 1) 1 swapped) i)
        (popAll compare (size + 1) (heapifyDown compare (size + 1) 1 swapped) j)
      by_cases hj' : j = size + 2
      · subst hj'
        rw [htop]
        have hmem : popAll compare (size + 1) (heapifyDown compare (size + 1) 1 swapped) i ∈
            contents swapped (size + 1) := by
          rw [← hsift.contents, ← hcontents]
          exact mem_contents.mpr ⟨i, hi, by omega, rfl⟩
        have hmem' : popAll compare (size + 1) (heapifyDown compare (size + 1) 1 swapped) i ∈
            contents rowIds (size + 2) := by
          rw [← hcs, contents_succ]
          exact mem_cons_of_mem hmem
        obtain ⟨q, hq, hqn, hqe⟩ := mem_contents.mp hmem'
        rw [← hqe]
        exact h.le_top hq hqn
      · exact hsorted i j hi hij (by omega)

omit [IsTrans γ (HeapLe compare)] in
theorem coe_result (s : TopSolver γ) : (s.result : Multiset γ) = contents s.rowIds s.size := by
  obtain ⟨size, rowIds⟩ := s
  unfold TopSolver.result
  induction size with
  | zero => rfl
  | succ size ih =>
    simp only [List.range_succ, List.map_append, List.map_singleton] at ih ⊢
    rw [contents_succ, ← ih, ← coe_add, add_comm]
    rfl

omit [IsTrans γ (HeapLe compare)] in
theorem Best.empty {limit : Nat} (hlimit : 1 ≤ limit) (rowIds : Nat → γ) : Best compare limit 0 ⟨0, rowIds⟩ :=
  ⟨Nat.zero_le _, by simpa [contents] using Smallest.of_card_le (Nat.zero_le _), fun h0 => by simp at h0; omega⟩

include total in
/-- A run of additions, for any `add` that does what `addCandidate` does. -/
theorem Best.foldl {limit : Nat} (hlimit : 1 ≤ limit) {add : TopSolver γ → γ → TopSolver γ}
    (hadd : ∀ s x, s.size ≤ limit → add s x = s.addCandidate compare limit x) (l : List γ) {S : Multiset γ}
    {s : TopSolver γ} (h : Best compare limit S s) : Best compare limit ((l : Multiset γ) + S) (l.foldl add s) := by
  induction l generalizing S s with
  | nil => simpa using h
  | cons x l ih =>
    have hl : ((x :: l : List γ) : Multiset γ) + S = (l : Multiset γ) + x ::ₘ S := by
      rw [← cons_coe, cons_add, add_cons]
    rw [hl, List.foldl_cons, hadd s x h.size_le]
    exact ih (h.addCandidate total hlimit x)

include total in
theorem Best.sortResult {limit : Nat} {S : Multiset γ} {s : TopSolver γ} (h : Best compare limit S s) :
    (s.sortResult compare limit).result.Pairwise (HeapLe compare) ∧
      ((s.sortResult compare limit).result : Multiset γ) = contents s.rowIds s.size := by
  obtain ⟨rowIds, hrowIds, hheap, hcontents⟩ : ∃ rowIds,
      s.sortResult compare limit = ⟨s.size, popAll compare s.size rowIds⟩ ∧
        HeapFrom (HeapLe compare) s.size 1 rowIds ∧ contents rowIds s.size = contents s.rowIds s.size := by
    refine ⟨_, rfl, ?_⟩
    split
    · have hsift : Sifted compare s.size 1 s.rowIds _ := heapifyAll_spec total (s.size / 2) (heapFrom_leaves (by omega))
      exact ⟨hsift.heap, hsift.contents⟩
    · rename_i hfull
      exact ⟨h.heap (le_antisymm h.size_le (Nat.le_of_not_lt hfull)), rfl⟩
  obtain ⟨hpop, -, hsorted⟩ := popAll_spec total s.size hheap
  rw [hrowIds, coe_result, hpop, hcontents]
  refine ⟨?_, rfl⟩
  unfold TopSolver.result
  rw [List.pairwise_map]
  refine List.pairwise_lt_range.imp_of_mem fun {i j} _ hj hij => ?_
  exact hsorted (i + 1) (j + 1) (by omega) (by omega) (List.mem_range.mp hj)

include total in
/-- `SolveTop` finds the `limit` smallest candidates and leaves them in order. -/
theorem solveTop_spec {limit : Nat} (hlimit : 1 ≤ limit) (s : TopSolver γ) (candidates : List γ) :
    (s.solveTop compare limit candidates).result.Pairwise (HeapLe compare) ∧
      Smallest (HeapLe compare) limit candidates (s.solveTop compare limit candidates).result := by
  have hbest := Best.foldl total hlimit (fun _ _ _ => rfl) candidates (.empty hlimit s.rowIds)
  rw [add_zero] at hbest
  obtain ⟨hsorted, hcontents⟩ := hbest.sortResult total
  refine ⟨hsorted, ?_⟩
  rw [TopSolver.solveTop, hcontents]
  exact hbest.smallest

end HeapProofs

end Infinity.Executor
