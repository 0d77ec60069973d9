import Infinity.Lib.Lists
import Infinity.Lib.OrderedMap
import Infinity.Table.Entries

/-! Which segments a manual compaction puts together.

`GreedyCompactableSegmentsGenerator` keeps the sealed segments in a multimap by their actual
row count. A group is filled greedily, always with the largest segment that still fits. A
group of one segment without deleted rows is not worth a compaction and is dropped. -/
namespace Infinity.Compaction

open Lib Table List

variable {ρ : Type}

/-- A segment of the block index under its id. -/
abbrev Indexed (ρ : Type) := Nat × SegmentEntry ρ

/-- The multimap `segments_`: by actual row count, those with equal counts as they came. -/
def sealedSegments (blockIndex : OrderedMap Nat (SegmentEntry ρ)) : List (Indexed ρ) :=
  (blockIndex.entries.filter fun e => e.2.status == .sealed).mergeSort fun a b =>
    decide (a.2.actualRowCount ≤ b.2.actualRowCount)

/-- The entry before `upper_bound(size)`, and the multimap without it. -/
def takeLargest (size : Nat) (segments : List (Indexed ρ)) : Option (Indexed ρ × List (Indexed ρ)) :=
  let fitting := segments.takeWhile fun e => decide (e.2.actualRowCount ≤ size)
  fitting.getLast?.map fun e => (e, fitting.dropLast ++ segments.dropWhile fun e => decide (e.2.actualRowCount ≤ size))

theorem takeLargest_perm {size : Nat} {segments rest : List (Indexed ρ)} {e : Indexed ρ}
    (h : takeLargest size segments = some (e, rest)) :
    segments.Perm (e :: rest) ∧ rest.Sublist segments ∧ e.2.actualRowCount ≤ size := by
  obtain ⟨last, hlast, heq⟩ := Option.map_eq_some_iff.mp h
  cases heq
  have hfit : e ∈ segments.takeWhile fun e => decide (e.2.actualRowCount ≤ size) := mem_of_getLast? hlast
  have hsplit := takeWhile_append_dropWhile (p := fun e : Indexed ρ => decide (e.2.actualRowCount ≤ size))
    (l := segments)
  refine ⟨?_, ?_, by simpa using mem_takeWhile_imp hfit⟩
  · nth_rewrite 1 [← hsplit, ← dropLast_append_getLast? e hlast]
    rw [append_assoc]
    exact perm_middle
  · nth_rewrite 3 [← hsplit]
    exact (dropLast_sublist _).append_right _

/-- The inner loop: the group, and the segments that are left. -/
def fillGroup (size : Nat) (segments : List (Indexed ρ)) : List (Indexed ρ) × List (Indexed ρ) :=
  match _h : takeLargest size segments with
  | none => ([], segments)
  | some (e, rest) =>
    let (group, left) := fillGroup (size - e.2.actualRowCount) rest
    (e :: group, left)
termination_by segments.length
decreasing_by
  have := (takeLargest_perm _h).1.length_eq
  simp only [List.length_cons] at this
  omega

/-- From a multimap a group is taken. -/
structure Grouped (size : Nat) (segments group left : List (Indexed ρ)) : Prop where
  perm : segments.Perm (group ++ left)
  sublist : left.Sublist segments
  fits : (group.map fun e => e.2.actualRowCount).sum ≤ size
  rest : ∀ e ∈ left, size < (group.map fun e => e.2.actualRowCount).sum + e.2.actualRowCount

/-- In the order of the multimap. -/
def Ascending (segments : List (Indexed ρ)) : Prop :=
  segments.Pairwise fun a b => a.2.actualRowCount ≤ b.2.actualRowCount

theorem fillGroup_spec (size : Nat) {segments : List (Indexed ρ)} (hsorted : Ascending segments) :
    Grouped size segments (fillGroup size segments).1 (fillGroup size segments).2 := by
  fun_induction fillGroup size segments with
  | case1 size segments h =>
    refine ⟨.refl _, .refl _, Nat.zero_le _, fun e he => ?_⟩
    -- nothing fits, and the first is the smallest
    have hnil := getLast?_eq_none_iff.mp (Option.map_eq_none_iff.mp h)
    rw [takeWhile_eq_filter (hsorted.imp fun hle hb => decide_eq_true (hle.trans (of_decide_eq_true hb)))] at hnil
    simpa using filter_eq_nil_iff.mp hnil e he
  | case2 size segments e rest h group left heq ih =>
    obtain ⟨hperm, hsub, hle⟩ := takeLargest_perm h
    have hg : Grouped (size - e.2.actualRowCount) rest group left := by
      simpa only [heq] using ih (Pairwise.sublist hsub hsorted)
    have hsum := hg.fits
    refine ⟨hperm.trans (hg.perm.cons e), hg.sublist.trans hsub, ?_, fun x hx => ?_⟩
    · simp only [map_cons, sum_cons]
      omega
    · have := hg.rest x hx
      simp only [map_cons, sum_cons] at this ⊢
      omega

/-- A group that `generate` drops. -/
def lone : List (Indexed ρ) → Bool
  | [e] => e.2.actualRowCount == e.2.rowCount
  | _ => false

theorem fillGroup_left_lt {size : Nat} {segments : List (Indexed ρ)} (hsorted : Ascending segments)
    (hne : (fillGroup size segments).1 ≠ []) : (fillGroup size segments).2.length < segments.length := by
  have hlen := (fillGroup_spec size hsorted).perm.length_eq
  have := length_pos_iff.mpr hne
  rw [length_append] at hlen
  omega

/-- A multimap that keeps its order. -/
structure Segments (ρ : Type) where
  entries : List (Indexed ρ)
  sorted : Ascending entries

def Segments.rest (segments : Segments ρ) (maxSegmentSize : Nat) : Segments ρ :=
  ⟨(fillGroup maxSegmentSize segments.entries).2,
    List.Pairwise.sublist (fillGroup_spec maxSegmentSize segments.sorted).sublist segments.sorted⟩

/-- `generate`: the group, the groups that were dropped on the way to it, and what is left. -/
def generate (maxSegmentSize : Nat) (segments : Segments ρ) : List (Indexed ρ) × List (List (Indexed ρ)) × Segments ρ :=
  let group := (fillGroup maxSegmentSize segments.entries).1
  if _h : lone group then
    let (result, dropped, left) := generate maxSegmentSize (segments.rest maxSegmentSize)
    (result, group :: dropped, left)
  else (group, [], segments.rest maxSegmentSize)
termination_by segments.entries.length
decreasing_by exact fillGroup_left_lt segments.sorted fun hnil => by simp [group, hnil, lone] at _h

theorem generate_spec (maxSegmentSize : Nat) (segments : Segments ρ) :
    let (result, dropped, left) := generate maxSegmentSize segments
    segments.entries.Perm (result ++ dropped.flatten ++ left.entries) ∧
      (result.map fun e => e.2.actualRowCount).sum ≤ maxSegmentSize ∧ (∀ group ∈ dropped, lone group = true) ∧
      (result = [] → ∀ e ∈ left.entries, maxSegmentSize < e.2.actualRowCount) := by
  fun_induction generate maxSegmentSize segments with
  | case1 segments group h result dropped left heq ih =>
    rw [heq] at ih
    obtain ⟨hperm, hsum, hlone, hrest⟩ := ih
    refine ⟨?_, hsum, forall_mem_cons.mpr ⟨h, hlone⟩, hrest⟩
    refine ((fillGroup_spec maxSegmentSize segments.sorted).perm.trans (hperm.append_left _)).trans ?_
    simp only [flatten_cons, ← append_assoc]
    exact (perm_append_comm.append_right _).append_right _
  | case2 segments group h =>
    have hg : Grouped _ _ group (segments.rest maxSegmentSize).entries := fillGroup_spec maxSegmentSize segments.sorted
    exact ⟨by simpa using hg.perm, hg.fits, by simp, fun hnil e he => by simpa [hnil] using hg.rest e he⟩

theorem generate_left_lt {maxSegmentSize : Nat} {segments : Segments ρ}
    (hne : (generate maxSegmentSize segments).1 ≠ []) :
    (generate maxSegmentSize segments).2.2.entries.length < segments.entries.length := by
  have hperm : segments.entries.Perm ((generate maxSegmentSize segments).1 ++
      (generate maxSegmentSize segments).2.1.flatten ++ (generate maxSegmentSize segments).2.2.entries) :=
    (generate_spec maxSegmentSize segments).1
  have hlen := hperm.length_eq
  have := length_pos_iff.mpr hne
  simp only [length_append] at hlen
  omega

/-- The loop of `Init`, until `generate` returns no segment: the groups, those that were
dropped, and what is left. -/
def generateAll (maxSegmentSize : Nat) (segments : Segments ρ) :
    List (List (Indexed ρ)) × List (List (Indexed ρ)) × Segments ρ :=
  let next := generate maxSegmentSize segments
  if _h : next.1 = [] then ([], next.2)
  else
    let (groups, dropped, left) := generateAll maxSegmentSize next.2.2
    (next.1 :: groups, next.2.1 ++ dropped, left)
termination_by segments.entries.length
decreasing_by exact generate_left_lt _h

theorem generateAll_spec (maxSegmentSize : Nat) (segments : Segments ρ) :
    let (groups, dropped, left) := generateAll maxSegmentSize segments
    segments.entries.Perm (groups.flatten ++ dropped.flatten ++ left.entries) ∧
      (∀ group ∈ groups, group ≠ [] ∧ (group.map fun e => e.2.actualRowCount).sum ≤ maxSegmentSize) ∧
      (∀ group ∈ dropped, lone group = true) ∧ ∀ e ∈ left.entries, maxSegmentSize < e.2.actualRowCount := by
  fun_induction generateAll maxSegmentSize segments with
  | case1 segments next h =>
    obtain ⟨hperm, _, hlone, hrest⟩ := generate_spec maxSegmentSize segments
    refine ⟨?_, by simp, hlone, hrest h⟩
    rw [show (generate maxSegmentSize segments).1 = [] from h] at hperm
    simpa using hperm
  | case2 segments next h groups dropped left heq ih =>
    obtain ⟨hperm, hsum, hlone, _⟩ := generate_spec maxSegmentSize segments
    rw [heq] at ih
    obtain ⟨hperm', hgroups, hlone', hrest⟩ := ih
    refine ⟨?_, forall_mem_cons.mpr ⟨⟨h, hsum⟩, hgroups⟩, fun g hg => ?_, hrest⟩
    · have hp : segments.entries.Perm (next.1 ++ next.2.1.flatten ++ next.2.2.entries) := hperm
      refine (hp.trans (hperm'.append_left _)).trans ?_
      simp only [flatten_cons, flatten_append, ← append_assoc]
      rw [append_assoc next.1 next.2.1.flatten, append_assoc next.1 groups.flatten]
      exact ((perm_append_comm.append_left _).append_right _).append_right _
    · exact (mem_append.mp hg).elim (hlone g) (hlone' g)

def greedySegments (blockIndex : OrderedMap Nat (SegmentEntry ρ)) : Segments ρ :=
  ⟨sealedSegments blockIndex, List.Pairwise.imp of_decide_eq_true <|
    List.pairwise_mergeSort (by simpa using fun _ _ _ => Nat.le_trans) (by simpa using fun _ _ => Nat.le_total _ _) _⟩

/-- **The groups are of different sealed segments and fit the maximum; a sealed segment that is in
none of them is larger than the maximum or was a group of its own without deleted rows.** -/
theorem generateAll_groups (maxSegmentSize : Nat) (blockIndex : OrderedMap Nat (SegmentEntry ρ)) :
    let (groups, dropped, _) := generateAll maxSegmentSize (greedySegments blockIndex)
    (groups.flatten.map Prod.fst).Nodup ∧
      (∀ group ∈ groups, (group.map fun e => e.2.actualRowCount).sum ≤ maxSegmentSize ∧
        ∀ e ∈ group, e ∈ blockIndex.entries ∧ e.2.status = .sealed) ∧
      ∀ e ∈ blockIndex.entries, e.2.status = .sealed → e ∉ groups.flatten →
        maxSegmentSize < e.2.actualRowCount ∨ ([e] ∈ dropped ∧ e.2.actualRowCount = e.2.rowCount) := by
  obtain ⟨hperm, hgroups, hlone, hrest⟩ := generateAll_spec maxSegmentSize (greedySegments blockIndex)
  have hsealed : (blockIndex.entries.filter fun e => e.2.status == .sealed).Perm _ :=
    (mergeSort_perm _ _).symm.trans hperm
  have hmem : ∀ e : Indexed ρ, (e ∈ blockIndex.entries ∧ e.2.status = .sealed) ↔ _ :=
    fun e => by simpa using hsealed.mem_iff (a := e)
  have hnodup : ((blockIndex.entries.filter fun e => e.2.status == .sealed).map Prod.fst).Nodup :=
    pairwise_map.mpr ((blockIndex.sorted.filter _).imp fun h => ne_of_lt h)
  refine ⟨?_, fun group hg => ⟨(hgroups group hg).2, fun e he => (hmem e).mpr (.inl ⟨group, hg, he⟩)⟩,
    fun e he hs hnot => ?_⟩
  · have := (hsealed.map Prod.fst).nodup_iff.mp hnodup
    rw [append_assoc, map_append] at this
    exact (nodup_append.mp this).1
  · rcases (hmem e).mp ⟨he, hs⟩ with hin | ⟨group, hd, hin⟩ | hleft
    · exact absurd (mem_flatten.mpr hin) hnot
    · right
      have := hlone group hd
      unfold lone at this
      split at this
      · rw [mem_singleton.mp hin]
        exact ⟨hd, beq_iff_eq.mp this⟩
      · cases this
    · exact .inl (hrest e hleft)

end Infinity.Compaction
