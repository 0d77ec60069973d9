import Mathlib

/-! Ordered sets of half-open ranges that are merged with their neighbours.

A set is the list of its ranges by start, as an ordered set keyed by the start keeps
them. `insertMerging` adds a range: it looks at the two neighbours of the place where
the range belongs, refuses a range that meets one of them, and takes up the neighbours
that touch it. Looking at the neighbours is enough when the set is `Separated`, which
the insertion keeps: `insertMerging_spec`. -/
namespace Infinity.Lib

open List

/-- The numbers from `start` up to, not including, `stop`. -/
structure Range where
  start : Nat
  stop : Nat
  deriving DecidableEq, Repr

namespace Range

def cover (a b : Range) : Bool := decide (a.start ≤ b.start) && decide (b.stop ≤ a.stop)

def intersect (a b : Range) : Bool := decide (a.start < b.stop) && decide (b.start < a.stop)

def Contains (a : Range) (x : Nat) : Prop := a.start ≤ x ∧ x < a.stop

variable {a b : Range}

theorem cover_eq_true : a.cover b = true ↔ a.start ≤ b.start ∧ b.stop ≤ a.stop := by
  simp [cover]

theorem intersect_eq_true : a.intersect b = true ↔ a.start < b.stop ∧ b.start < a.stop := by
  simp [intersect]

theorem intersect_comm (a b : Range) : a.intersect b = b.intersect a :=
  Bool.and_comm _ _

/-- Ranges that do not meet have no number in common. -/
theorem not_contains_both (h : a.intersect b = false) {x : Nat} (ha : a.Contains x) : ¬ b.Contains x := by
  intro hb
  have hi : a.intersect b = true := intersect_eq_true.mpr ⟨lt_of_le_of_lt ha.1 hb.2, lt_of_le_of_lt hb.1 ha.2⟩
  rw [h] at hi
  cases hi

/-- Ranges that meet have a number in common, unless one is empty. -/
theorem exists_contains_both (h : a.intersect b = true) (ha : a.start < a.stop) (hb : b.start < b.stop) :
    ∃ x, a.Contains x ∧ b.Contains x := by
  obtain ⟨h₁, h₂⟩ := intersect_eq_true.mp h
  refine ⟨max a.start b.start, ?_⟩
  simp only [Contains]
  omega

end Range

/-- Some range of the set contains the number. -/
def Covered (l : List Range) (x : Nat) : Prop := ∃ r ∈ l, r.Contains x

@[simp] theorem covered_nil (x : Nat) : ¬ Covered [] x := fun ⟨_, h, _⟩ => by cases h

variable {r : Range} {l : List Range}

@[simp] theorem covered_cons {x : Nat} : Covered (r :: l) x ↔ r.Contains x ∨ Covered l x := by
  simp [Covered]

@[simp] theorem covered_append {l l' : List Range} {x : Nat} : Covered (l ++ l') x ↔ Covered l x ∨ Covered l' x := by
  simp [Covered, or_and_right, exists_or]

/-- The ranges are in order, none is empty and no two touch. -/
structure Separated (l : List Range) : Prop where
  gaps : l.Pairwise fun a b => a.stop < b.start
  nonempty : ∀ r ∈ l, r.start < r.stop

/-- What adding a range to a set came to. -/
inductive Inserted where
  /-- A neighbour contained the range already; the set that is left. -/
  | covered (l : List Range)
  | hitsPrev (p : Range)
  | hitsNext (n : Range)
  /-- Another range starts where the merged one does. -/
  | duplicate (r : Range)
  /-- The new set and the range that was put into it. -/
  | done (l : List Range) (merged : Range)
  deriving DecidableEq, Repr

/-- An ordered set takes a range unless one with that start is there. -/
def insertRange (l : List Range) (r : Range) : Option (List Range) :=
  if l.any (fun a => a.start == r.start) then none
  else some (l.takeWhile (fun a => decide (a.start < r.start)) ++
    r :: l.dropWhile (fun a => decide (a.start < r.start)))

def place (l : List Range) (r : Range) : Inserted :=
  match insertRange l r with
  | none => .duplicate r
  | some l' => .done l' r

/-- The right neighbour of the place between `before` and `after`. `orig` is the range to
be added, `r` what it has been merged to. -/
def mergeNext (before after : List Range) (orig r : Range) : Inserted :=
  match after with
  | [] => place before r
  | n :: rest =>
    if n.cover orig then .covered (before ++ n :: rest)
    else if n.intersect orig then .hitsNext n
    else if orig.stop = n.start then place (before ++ rest) ⟨r.start, n.stop⟩
    else place (before ++ n :: rest) r

/-- The left neighbour of the place between `before` and `after`, then the right one. -/
def mergePrev (before after : List Range) (orig : Range) : Inserted :=
  match before.getLast? with
  | none => mergeNext before after orig orig
  | some p =>
    if p.cover orig then .covered (before ++ after)
    else if p.intersect orig then .hitsPrev p
    else if orig.start = p.stop then mergeNext before.dropLast after orig ⟨p.start, orig.stop⟩
    else mergeNext before after orig orig

/-- Add a range, merging it with the neighbours that touch it. -/
def insertMerging (l : List Range) (r : Range) : Inserted :=
  mergePrev (l.takeWhile fun a => decide (a.start < r.start)) (l.dropWhile fun a => decide (a.start < r.start)) r

variable {before after : List Range}

/-! ### Insertion -/

theorem insertRange_append (hb : ∀ a ∈ before, a.start < r.start)
    (ha : ∀ a ∈ after, r.start < a.start) : insertRange (before ++ after) r = some (before ++ r :: after) := by
  have hnone : (before ++ after).any (fun a => a.start == r.start) = false := by
    rw [any_eq_false]
    intro a hmem
    rcases mem_append.mp hmem with hmem | hmem
    · simpa using ne_of_lt (hb a hmem)
    · simpa using ne_of_gt (ha a hmem)
  have hbefore : ∀ a ∈ before, decide (a.start < r.start) = true := fun a h => by simpa using hb a h
  have htake : after.takeWhile (fun a => decide (a.start < r.start)) = [] := by
    cases after with
    | nil => rfl
    | cons a rest =>
      simpa using le_of_lt (ha a mem_cons_self)
  have hdrop : after.dropWhile (fun a => decide (a.start < r.start)) = after := by
    cases after with
    | nil => rfl
    | cons a rest =>
      rw [dropWhile_cons_of_neg]
      simpa using le_of_lt (ha a mem_cons_self)
  rw [insertRange, hnone, takeWhile_append_of_pos hbefore, dropWhile_append_of_pos hbefore, htake, hdrop]
  simp

/-- A set between whose halves a range fits, apart from both. -/
structure Fits (before after : List Range) (r : Range) : Prop where
  separated : Separated (before ++ after)
  nonempty : r.start < r.stop
  left : ∀ a ∈ before, a.stop < r.start
  right : ∀ a ∈ after, r.stop < a.start

theorem Fits.place (h : Fits before after r) :
    place (before ++ after) r = .done (before ++ r :: after) r ∧ Separated (before ++ r :: after) := by
  refine ⟨?_, ?_, ?_⟩
  · rw [Lib.place, insertRange_append]
    · intro a ha
      exact lt_trans (h.separated.nonempty a (mem_append_left _ ha)) (h.left a ha)
    · exact fun a ha => lt_trans h.nonempty (h.right a ha)
  · obtain ⟨hb, ha, hba⟩ := pairwise_append.mp h.separated.gaps
    refine pairwise_append.mpr ⟨hb, pairwise_cons.mpr ⟨h.right, ha⟩, fun a hmem b hmem' => ?_⟩
    rcases mem_cons.mp hmem' with rfl | hmem'
    · exact h.left a hmem
    · exact hba a hmem b hmem'
  · intro a hmem
    rcases mem_append.mp hmem with hmem | hmem
    · exact h.separated.nonempty a (mem_append_left _ hmem)
    · rcases mem_cons.mp hmem with rfl | hmem
      · exact h.nonempty
      · exact h.separated.nonempty a (mem_append_right _ hmem)

theorem Separated.sublist {l l' : List Range} (h : Separated l) (hs : l'.Sublist l) : Separated l' :=
  ⟨h.gaps.sublist hs, fun r hr => h.nonempty r (hs.subset hr)⟩

/-- A range and one that starts where it ends are one range. -/
theorem Range.contains_glue {a b : Range} (ha : a.start < a.stop) (hb : b.start < b.stop) (h : a.stop = b.start)
    (x : Nat) : Contains ⟨a.start, b.stop⟩ x ↔ a.Contains x ∨ b.Contains x := by
  simp only [Contains]
  omega

theorem mergeNext_spec (orig r : Range) (h : Separated (before ++ after))
    (hr : r.start < r.stop) (hstop : r.stop = orig.stop) (horig : orig.start < orig.stop)
    (hleft : ∀ a ∈ before, a.stop < r.start) (hright : ∀ a ∈ after, orig.stop ≤ a.start) :
    ∃ l' merged, mergeNext before after orig r = .done l' merged ∧ Separated l' ∧ merged ∈ l' ∧
      ∀ x, Covered l' x ↔ Covered (before ++ after) x ∨ r.Contains x := by
  cases after with
  | nil =>
    obtain ⟨hp, hs⟩ := Fits.place ⟨h, hr, hleft, fun a ha => by cases ha⟩
    rw [append_nil] at hp
    refine ⟨_, _, hp, hs, mem_append_right _ mem_cons_self, fun x => ?_⟩
    simp
  | cons n rest =>
    obtain ⟨hbefore, hafter, -⟩ := pairwise_append.mp h.gaps
    have hrest := (pairwise_cons.mp hafter).1
    have hn := h.nonempty n (mem_append_right _ mem_cons_self)
    have hle := hright n mem_cons_self
    have hcover : n.cover orig = false := by
      rw [← Bool.not_eq_true, Range.cover_eq_true]
      omega
    have hinter : n.intersect orig = false := by
      rw [← Bool.not_eq_true, Range.intersect_eq_true]
      omega
    by_cases htouch : orig.stop = n.start
    · have hfits : Fits before rest ⟨r.start, n.stop⟩ :=
        ⟨h.sublist (Sublist.append_left (sublist_cons_self _ _) _), by show r.start < n.stop; omega, hleft, hrest⟩
      obtain ⟨hp, hs⟩ := hfits.place
      refine ⟨_, _, ?_, hs, mem_append_right _ mem_cons_self, fun x => ?_⟩
      · simp [mergeNext, hcover, hinter, htouch, hp]
      · simp only [covered_append, covered_cons, Range.contains_glue hr hn (hstop.trans htouch)]
        tauto
    · have hfits : Fits before (n :: rest) r := by
        refine ⟨h, hr, hleft, fun a ha => ?_⟩
        rcases mem_cons.mp ha with rfl | ha
        · omega
        have := hrest a ha
        omega
      obtain ⟨hp, hs⟩ := hfits.place
      refine ⟨_, _, ?_, hs, mem_append_right _ mem_cons_self, fun x => ?_⟩
      · simp [mergeNext, hcover, hinter, htouch, hp]
      · simp only [covered_append, covered_cons]
        tauto

theorem mergePrev_spec (before after : List Range) (h : Separated (before ++ after))
    (hr : r.start < r.stop) (hleft : ∀ a ∈ before, a.stop ≤ r.start) (hright : ∀ a ∈ after, r.stop ≤ a.start) :
    ∃ l' merged, mergePrev before after r = .done l' merged ∧ Separated l' ∧ merged ∈ l' ∧
      ∀ x, Covered l' x ↔ Covered (before ++ after) x ∨ r.Contains x := by
  rcases eq_nil_or_concat before with rfl | ⟨init, p, rfl⟩
  · exact mergeNext_spec r r h hr rfl hr (fun a ha => by cases ha) hright
  rw [concat_eq_append] at h hleft ⊢
  have hp := h.nonempty p (by simp)
  have hle := hleft p (by simp)
  have hinit : ∀ a ∈ init, a.stop < p.start := by
    intro a ha
    obtain ⟨hbefore, -, -⟩ := pairwise_append.mp h.gaps
    exact (pairwise_append.mp hbefore).2.2 a ha p (mem_singleton.mpr rfl)
  have hcover : p.cover r = false := by
    rw [← Bool.not_eq_true, Range.cover_eq_true]
    omega
  have hinter : p.intersect r = false := by
    rw [← Bool.not_eq_true, Range.intersect_eq_true]
    omega
  have hlast : (init ++ [p]).getLast? = some p := by simp
  by_cases htouch : r.start = p.stop
  · have hsub : (init ++ after).Sublist (init ++ [p] ++ after) := Sublist.append_right (sublist_append_left _ _) _
    obtain ⟨l', merged, hm, hs, hmem, hcov⟩ := mergeNext_spec r ⟨p.start, r.stop⟩
      (h.sublist hsub) (by show p.start < r.stop; omega) rfl hr hinit hright
    refine ⟨l', merged, ?_, hs, hmem, fun x => ?_⟩
    · simp only [mergePrev, hlast, hcover, hinter]
      simpa [htouch] using hm
    · rw [hcov, Range.contains_glue hp hr htouch.symm]
      simp only [covered_append, covered_cons, covered_nil]
      tauto
  · have hlt : ∀ a ∈ init ++ [p], a.stop < r.start := by
      intro a ha
      rcases mem_append.mp ha with ha | ha
      · have := hinit a ha
        omega
      rw [mem_singleton.mp ha]
      omega
    obtain ⟨l', merged, hm, hs, hmem, hcov⟩ := mergeNext_spec r r h hr rfl hr hlt hright
    refine ⟨l', merged, ?_, hs, hmem, hcov⟩
    simp [mergePrev, hcover, hinter, htouch, hm]

variable {a : Range}

theorem Separated.le_of_mem_dropWhile (h : Separated l) {k : Nat}
    (ha : a ∈ l.dropWhile fun a => decide (a.start < k)) : k ≤ a.start := by
  induction l with
  | nil => cases ha
  | cons x l ih =>
    by_cases hx : x.start < k
    · rw [dropWhile_cons_of_pos (by simpa using hx)] at ha
      exact ih (h.sublist (sublist_cons_self _ _)) ha
    rw [dropWhile_cons_of_neg (by simpa using hx)] at ha
    have hne := h.nonempty x mem_cons_self
    rcases mem_cons.mp ha with rfl | ha
    · omega
    have := (pairwise_cons.mp h.gaps).1 a ha
    omega

/-- **A range that meets no range of a separated set is added, and the set stays separated.** -/
theorem insertMerging_spec (h : Separated l) (hr : r.start < r.stop) (hd : ∀ a ∈ l, a.intersect r = false) :
    ∃ l' merged, insertMerging l r = .done l' merged ∧ Separated l' ∧ merged ∈ l' ∧
      ∀ x, Covered l' x ↔ Covered l x ∨ r.Contains x := by
  have hsplit := takeWhile_append_dropWhile (p := fun a : Range => decide (a.start < r.start)) (l := l)
  have hapart : ∀ a ∈ l, a.stop ≤ r.start ∨ r.stop ≤ a.start := by
    intro a ha
    have := hd a ha
    rw [← Bool.not_eq_true, Range.intersect_eq_true] at this
    omega
  have hleft : ∀ a ∈ l.takeWhile fun a => decide (a.start < r.start), a.stop ≤ r.start := by
    intro a ha
    have hlt : a.start < r.start := by simpa using mem_takeWhile_imp ha
    rcases hapart a ((takeWhile_sublist _).subset ha) with h' | h' <;> omega
  have hright : ∀ a ∈ l.dropWhile fun a => decide (a.start < r.start), r.stop ≤ a.start := by
    intro a ha
    have hle := h.le_of_mem_dropWhile ha
    have := h.nonempty a ((dropWhile_sublist _).subset ha)
    rcases hapart a ((dropWhile_sublist _).subset ha) with h' | h' <;> omega
  obtain ⟨l', merged, hm, hs, hmem, hcov⟩ := mergePrev_spec _ _ (by rwa [hsplit]) hr hleft hright
  exact ⟨l', merged, hm, hs, hmem, fun x => by rw [hcov, hsplit]⟩

theorem Separated.apart (h : Separated l) {a b : Range} (ha : a ∈ l) (hb : b ∈ l) (hne : a ≠ b) :
    a.stop < b.start ∨ b.stop < a.start := by
  have : Std.Symm fun a b : Range => a.stop < b.start ∨ b.stop < a.start := ⟨fun _ _ => Or.symm⟩
  have hgaps : l.Pairwise fun a b => a.stop < b.start ∨ b.stop < a.start := h.gaps.imp Or.inl
  exact hgaps.forall ha hb hne

/-- A separated set of all numbers below a bound is one range. -/
theorem Separated.eq_of_covered {n : Nat} (h : Separated l) (hall : ∀ x, Covered l x ↔ x < n)
    (hr : r ∈ l) : r.start = 0 ∧ r.stop = n := by
  have hne := h.nonempty r hr
  have hlast : r.stop - 1 < n := (hall _).mp ⟨r, hr, by simp only [Range.Contains]; omega⟩
  -- a number next to the range is in no range of the set
  have hnext (x : Nat) (hx : x + 1 = r.start ∨ x = r.stop) : ¬ x < n := by
    rw [← hall]
    rintro ⟨a, ha, hle, hlt⟩
    have hra : r ≠ a := by
      rintro rfl
      omega
    have := h.apart hr ha hra
    omega
  constructor
  · by_contra hpos
    exact hnext (r.start - 1) (.inl (by omega)) (by omega)
  · have := hnext r.stop (.inr rfl)
    omega

end Infinity.Lib
