import Infinity.Executor.TopSolver

/-! The best results of a search.

`HeapResultHandler` (vector search) and `FullTextScoreResultHeap` (full text search) keep the
`top_k` best pairs of a score and a row id, in the heap of `TopSolver` with the id as the second
key. The two arrays are one array of pairs, and of the handler the part of one query is modelled.
Positions are natural numbers as there: the same as the source's for `top_k` below 2^31. -/
namespace Infinity.Search

open Lib Lib.Heap Executor

/-! ### A heap of pairs that are compared by a key -/

variable {D I K : Type} [LinearOrder K]

/-- `fill_n` on the scores behind the results; the ids stay. -/
def fillRest (topK : Nat) (initial : D) (s : TopSolver (D × I)) : TopSolver (D × I) :=
  {s with rowIds := fun p => if s.size < p ∧ p ≤ topK then (initial, (s.rowIds p).2) else s.rowIds p}

/-- The heap `s` has seen `adds`: the array `ended` that a sort leaves of it has the `topK` first
of them in order, and when `topK` are held `bar` is the score of the last one in the order. -/
def KeepsBest (key : D × I → K) (topK : Nat) (adds : List (D × I)) (s : TopSolver (D × I)) (ended : Nat → D × I)
    (bar : D) : Prop :=
  let results := (TopSolver.mk s.size ended).result
  results.Pairwise (fun x y => key x ≤ key y) ∧ Smallest (fun x y => key x ≤ key y) topK adds results ∧
    (s.size = topK → ∃ last ∈ results, last.1 = bar ∧ ∀ x ∈ results, key x ≤ key last)

theorem best_fillRest {compare : D × I → D × I → Bool} {topK : Nat} {S : Multiset (D × I)} {s : TopSolver (D × I)}
    (h : Best compare topK S s) (initial : D) : Best compare topK S (fillRest topK initial s) := by
  have hsame : ∀ p, p ≤ s.size ∨ s.size = topK → (fillRest topK initial s).rowIds p = s.rowIds p :=
    fun p hp => if_neg (by omega)
  refine ⟨h.size_le, ?_, fun hfull => ?_⟩
  · exact contents_congr (fun p _ hp => hsame p (.inl hp)) ▸ h.smallest
  · rw [funext fun p => hsame p (.inr hfull)]
    exact h.heap hfull

/-- A run of additions, when `compare x y` says that `y` has the smaller key. -/
theorem keepsBest {key : D × I → K} {compare : D × I → D × I → Bool} {topK : Nat} (htop : 1 ≤ topK)
    (hkey : ∀ x y, compare x y = true ↔ key y < key x) {add : TopSolver (D × I) → D × I → TopSolver (D × I)}
    (hadd : ∀ s x, s.size ≤ topK → add s x = s.addCandidate compare topK x) (initial : D) (arrays : Nat → D × I)
    (adds : List (D × I)) {s : TopSolver (D × I)} (hs : s = adds.foldl add ⟨0, arrays⟩) :
    KeepsBest key topK adds s ((fillRest topK initial s).sortResult compare topK).rowIds (s.rowIds 1).1 := by
  have hle : HeapLe compare = fun x y => key x ≤ key y := by
    funext x y
    rw [HeapLe, ← Bool.not_eq_true, hkey, not_lt]
  have htotal (x y : D × I) : HeapLe compare x y ∨ HeapLe compare y x := hle ▸ le_total _ _
  have htrans : IsTrans (D × I) (HeapLe compare) := hle ▸ ⟨fun _ _ _ => le_trans⟩
  have hrefl : Std.Refl (HeapLe compare) := ⟨fun x => (htotal x x).elim id id⟩
  have hbest := Best.foldl htotal htop hadd adds (.empty htop arrays)
  rw [add_zero, ← hs] at hbest
  have hfilled := best_fillRest hbest initial
  obtain ⟨hsorted, hcontents⟩ := hfilled.sortResult htotal
  have hsmallest := hcontents ▸ hfilled.smallest
  rw [hle] at hsorted hsmallest
  refine ⟨hsorted, hsmallest, fun hfull => ?_⟩
  refine ⟨(fillRest topK initial s).rowIds 1, ?_, congrArg Prod.fst (if_neg (by omega)), fun x hx => ?_⟩
  · rw [← Multiset.mem_coe]
    exact hcontents ▸ mem_contents.mpr ⟨1, le_rfl, hfull.symm ▸ htop, rfl⟩
  · have hx : x ∈ contents (fillRest topK initial s).rowIds s.size := hcontents ▸ Multiset.mem_coe.mpr hx
    obtain ⟨i, hi, hin, rfl⟩ := mem_contents.mp hx
    exact (congrFun₂ hle _ _).mp ((hfilled.heap hfull).le_top hi hin)

/-! ### The handlers -/

variable [LinearOrder D] [LinearOrder I]

/-- `lt` tells which score is worse, and of equal scores the one with the larger id is. -/
def comparePairs (lt : D → D → Bool) (x y : D × I) : Bool := lt x.1 y.1 || (x.1 == y.1 && decide (x.2 > y.2))

def CompareMin.compare : D × I → D × I → Bool := comparePairs fun a b => decide (a < b)

def CompareMax.compare : D × I → D × I → Bool := comparePairs fun a b => decide (a > b)

def HeapCompare.less : D × I → D × I → Bool := comparePairs fun a b => decide (a < b)

namespace HeapResultHandler

def getDistance0 (s : TopSolver (D × I)) : D := (s.rowIds 1).1

def addResult (compare : D × I → D × I → Bool) (topK : Nat) (s : TopSolver (D × I)) (x : D × I) : TopSolver (D × I) :=
  s.addCandidate compare topK x

/-- `End`: the results stand in the first positions, and the size is forgotten. -/
def end_ (compare : D × I → D × I → Bool) (topK : Nat) (initial : D) (s : TopSolver (D × I)) : TopSolver (D × I) :=
  {(fillRest topK initial s).sortResult compare topK with size := 0}

end HeapResultHandler

namespace FullTextScoreResultHeap

def getScoreThreshold [Zero D] (topK : Nat) (s : TopSolver (D × I)) : D := if s.size < topK then 0 else (s.rowIds 1).1

/-- With `true` when the threshold is updated. -/
def addResult (topK : Nat) (s : TopSolver (D × I)) (x : D × I) : TopSolver (D × I) × Bool :=
  if s.size < topK then
    let size := s.size + 1
    let rowIds := Function.update s.rowIds size x
    if size = topK then (⟨size, heapifyAll HeapCompare.less size (size / 2) rowIds⟩, true) else (⟨size, rowIds⟩, false)
  else if HeapCompare.less (s.rowIds 1) x then
    ({s with rowIds := heapifyDown HeapCompare.less s.size 1 (Function.update s.rowIds 1 x)}, true)
  else (s, false)

def sort (topK : Nat) (minValue : D) (s : TopSolver (D × I)) : TopSolver (D × I) :=
  (fillRest topK minValue s).sortResult HeapCompare.less topK

theorem addResult_eq {topK : Nat} (s : TopSolver (D × I)) (x : D × I) (h : s.size ≤ topK) :
    (addResult topK s x).1 = s.addCandidate HeapCompare.less topK x := by
  unfold addResult TopSolver.addCandidate
  by_cases hfull : s.size = topK
  · rw [if_neg (by omega), if_pos hfull]
    split <;> rfl
  · rw [if_pos (by omega), if_neg hfull]
    dsimp only
    split <;> rfl

end FullTextScoreResultHeap

/-- Smaller distances first, then smaller ids. -/
def nearest (x : D × I) : D ×ₗ I := toLex x

/-- Larger scores first, then smaller ids. -/
def highest (x : D × I) : Dᵒᵈ ×ₗ I := toLex (OrderDual.toDual x.1, x.2)

theorem compareMax_iff (x y : D × I) : CompareMax.compare x y = true ↔ nearest y < nearest x := by
  simp [CompareMax.compare, comparePairs, nearest, Prod.Lex.toLex_lt_toLex, @eq_comm _ y.1]

theorem compareMin_iff (x y : D × I) : CompareMin.compare x y = true ↔ highest y < highest x := by
  simp [CompareMin.compare, comparePairs, highest, Prod.Lex.toLex_lt_toLex, @eq_comm _ y.1]

/-- After any additions both heaps end with the best `topK` pairs in order, and while they are
full they expose the score of the last of these. -/
theorem resultHeaps_keep_best [Zero D] {topK : Nat} (htop : 1 ≤ topK) (initial : D) (arrays : Nat → D × I)
    (adds : List (D × I)) :
    let max := adds.foldl (HeapResultHandler.addResult CompareMax.compare topK) ⟨0, arrays⟩
    let min := adds.foldl (HeapResultHandler.addResult CompareMin.compare topK) ⟨0, arrays⟩
    let text := adds.foldl (fun s x => (FullTextScoreResultHeap.addResult topK s x).1) ⟨0, arrays⟩
    KeepsBest nearest topK adds max (HeapResultHandler.end_ CompareMax.compare topK initial max).rowIds
        (HeapResultHandler.getDistance0 max) ∧
      KeepsBest highest topK adds min (HeapResultHandler.end_ CompareMin.compare topK initial min).rowIds
        (HeapResultHandler.getDistance0 min) ∧
      KeepsBest highest topK adds text (FullTextScoreResultHeap.sort topK initial text).rowIds
        (FullTextScoreResultHeap.getScoreThreshold topK text) := by
  intro max min text
  refine ⟨keepsBest htop compareMax_iff (fun _ _ _ => rfl) initial arrays adds rfl,
    keepsBest htop compareMin_iff (fun _ _ _ => rfl) initial arrays adds rfl, ?_⟩
  obtain ⟨hsorted, hsmallest, hbar⟩ :=
    keepsBest htop compareMin_iff FullTextScoreResultHeap.addResult_eq initial arrays adds rfl
  refine ⟨hsorted, hsmallest, fun hfull => ?_⟩
  rw [FullTextScoreResultHeap.getScoreThreshold, if_neg (by omega)]
  exact hbar hfull

theorem resultHeaps_keep_best_two :
    let adds : List (Nat × Nat) := [(5, 1), (3, 2), (4, 3)]
    let text := adds.foldl (fun s x => (FullTextScoreResultHeap.addResult 2 s x).1) ⟨0, fun _ => (0, 0)⟩
    text.size = 2 ∧ KeepsBest highest 2 adds text (FullTextScoreResultHeap.sort 2 0 text).rowIds
      (FullTextScoreResultHeap.getScoreThreshold 2 text) :=
  ⟨by decide, (resultHeaps_keep_best (by decide) 0 (fun _ => (0, 0)) [(5, 1), (3, 2), (4, 3)]).2.2⟩

end Infinity.Search
