import Infinity.Search.OrIterator

/-! Trees of search iterators.

A search moves one tree of iterators through the documents of an index. The leaves look their
documents up in posting lists; the other nodes move their children. `boolean_iterators_next`
says that a tree answers with the documents of the set it stands for.

A leaf seeks when it is not at or beyond the target already. The seek that comes after its
end is the delicate one: a leaf may begin its posting list anew (`rewinds`). Such a leaf
brings documents back that an and-not iterator has excluded before. -/
namespace Infinity.Search

open Lib Lib.Cursor List

/-! ### Leaves -/

/-- The documents of a posting list. -/
structure DocSet where
  docs : List Nat
  valid : ∀ x ∈ docs, x < invalidRowId

def DocSet.seek (s : DocSet) (target : Nat) : Nat := (s.docs.filter (target ≤ ·)).foldr min invalidRowId

structure Leaf where
  docs : DocSet
  rewinds : Bool
  docId : Nat
  ended : Bool

/-- `TermDocIterator::Next` with threshold zero. -/
def Leaf.next (l : Leaf) (target : Nat) : Leaf :=
  if l.docId ≠ invalidRowId ∧ target ≤ l.docId then l
  else
    let doc := if l.ended && !l.rewinds then invalidRowId else l.docs.seek target
    {l with docId := doc, ended := l.ended || doc == invalidRowId}

theorem foldr_min_spec (l : List Nat) (m : Nat) :
    (l.foldr min m = m ∨ l.foldr min m ∈ l) ∧ l.foldr min m ≤ m ∧ ∀ x ∈ l, l.foldr min m ≤ x := by
  induction l with
  | nil => simp
  | cons a l ih =>
    obtain ⟨hmem, hle, hall⟩ := ih
    rw [foldr_cons]
    refine ⟨?_, (min_le_right _ _).trans hle, fun x hx => ?_⟩
    · rcases min_choice a (l.foldr min m) with h | h
      · rw [h]
        exact .inr mem_cons_self
      · rw [h]
        exact hmem.imp id (mem_cons_of_mem _)
    · rcases mem_cons.mp hx with rfl | hx
      · exact min_le_left _ _
      · exact (min_le_right _ _).trans (hall x hx)

theorem DocSet.seek_first (s : DocSet) {d : Nat} (hd : d ≤ invalidRowId) :
    FirstFrom invalidRowId (· ∈ s.docs) d (s.seek d) := by
  obtain ⟨hmem, hle, hall⟩ := foldr_min_spec (s.docs.filter (d ≤ ·)) invalidRowId
  refine ⟨hmem.imp id fun h => mem_of_mem_filter h, hle, ?_, fun x hx hdx => ?_⟩
  · rcases hmem with h | h
    · exact hd.trans h.ge
    · exact of_decide_eq_true (mem_filter.mp h).2
  · exact hall x (mem_filter.mpr ⟨hx, decide_eq_true hdx⟩)

theorem leaf_fresh (docs : DocSet) :
    Fresh invalidRowId Leaf.next Leaf.docId (· ∈ docs.docs) ⟨docs, false, invalidRowId, false⟩ := by
  let I (t : Nat) (l : Leaf) : Prop := l.docs = docs ∧ l.rewinds = false ∧
    FirstFrom invalidRowId (· ∈ docs.docs) t l.docId ∧ (l.ended = true ↔ l.docId = invalidRowId)
  have hcursor : IsCursor invalidRowId Leaf.next Leaf.docId (· ∈ docs.docs) I := by
    refine ⟨fun t l h => h.2.2.1, fun t l d h hd => ?_, fun t l d h hd hlast => ?_⟩
    · obtain ⟨rfl, hrewinds, hfirst, hended⟩ := h
      by_cases hend : l.docId = invalidRowId
      · rw [Leaf.next, if_neg fun hno => hno.1 hend]
        simp only [hended.mpr hend, hrewinds, Bool.not_false, Bool.and_self, if_true, hend]
        exact ⟨trivial, rfl, rfl, hend ▸ hfirst, by simp⟩
      · rw [Leaf.next, if_pos ⟨hend, hd⟩]
        exact ⟨rfl, rfl, hrewinds, hfirst, hended⟩
    · obtain ⟨rfl, hrewinds, hfirst, hended⟩ := h
      have hne : l.docId ≠ invalidRowId := by omega
      have hopen : l.ended = false := Bool.eq_false_iff.mpr fun h => hne (hended.mp h)
      rw [Leaf.next, if_neg fun hno => absurd hno.2 (by omega)]
      refine ⟨rfl, hrewinds, ?_, ?_⟩
      · simpa [hopen] using l.docs.seek_first hlast
      · simp [hopen]
  refine ⟨rfl, fun d hd => ⟨I, hcursor, rfl, rfl, ?_, ?_⟩⟩
  · rw [Leaf.next]
    exact docs.seek_first hd
  · rw [Leaf.next]
    simp

/-! ### Trees -/

/-- The iterators of a search, with their states. -/
inductive Iter where
  | leaf (l : Leaf)
  | and (n : Node Iter)
  | or (n : OrNode Iter)
  | andNot (n : Node Iter)
  | mustFirst (n : Node Iter)

namespace Iter

def docId : Iter → Nat
  | .leaf l => l.docId
  | .and n => n.docId
  | .or n => n.docId
  | .andNot n => n.docId
  | .mustFirst n => n.docId

/-- `Next` in trees of at most the given height. -/
def next : Nat → Iter → Nat → Iter
  | 0, it, _ => it
  | _ + 1, .leaf l, target => .leaf (l.next target)
  | height + 1, .and n, target => .and (andNext (next height) docId n target)
  | height + 1, .or n, target => .or (orNext (next height) docId n target)
  | height + 1, .andNot n, target => .andNot (andNotNext (next height) docId n target)
  | height + 1, .mustFirst n, target => .mustFirst (mustFirstNext (next height) docId n target)

/-- What a sequence of calls returns: whether there is a document, and `DocID()` after the call. -/
def answers (height : Nat) : Iter → List Nat → List (Bool × Nat)
  | _, [] => []
  | it, target :: targets =>
    let it := it.next height target
    (it.docId != invalidRowId, it.docId) :: answers height it targets

end Iter

/-- A tree of iterators, without their states. -/
inductive Tree where
  | leaf (docs : DocSet) (rewinds : Bool)
  | and (first : Tree) (rest : List Tree)
  | or (first : Tree) (rest : List Tree)
  | andNot (first : Tree) (rest : List Tree)
  | mustFirst (first : Tree) (rest : List Tree)

namespace Tree

mutual

/-- The iterators before the first call. -/
def build : Tree → Iter
  | .leaf docs rewinds => .leaf ⟨docs, rewinds, invalidRowId, false⟩
  | .and first rest => .and ⟨invalidRowId, first.build :: buildAll rest⟩
  | .or first rest => .or ⟨invalidRowId, .empty, first.build :: buildAll rest⟩
  | .andNot first rest => .andNot ⟨invalidRowId, first.build :: buildAll rest⟩
  | .mustFirst first rest => .mustFirst ⟨invalidRowId, first.build :: buildAll rest⟩

def buildAll : List Tree → List Iter
  | [] => []
  | t :: ts => t.build :: buildAll ts

end

mutual

/-- The documents the tree stands for. -/
def Docs : Tree → Nat → Prop
  | .leaf docs _ => (· ∈ docs.docs)
  | .and first rest => Common (first.Docs :: docsOf rest)
  | .or first rest => SomeOf (first.Docs :: docsOf rest)
  | .andNot first rest => Without first.Docs (docsOf rest)
  | .mustFirst first _ => first.Docs

def docsOf : List Tree → List (Nat → Prop)
  | [] => []
  | t :: ts => t.Docs :: docsOf ts

end

mutual

def height : Tree → Nat
  | .leaf _ _ => 1
  | .and first rest | .or first rest | .andNot first rest | .mustFirst first rest =>
    max first.height (heights rest) + 1

def heights : List Tree → Nat
  | [] => 0
  | t :: ts => max t.height (heights ts)

end

mutual

/-- No leaf begins anew after its end. -/
def Settled : Tree → Prop
  | .leaf _ rewinds => rewinds = false
  | .and first rest | .or first rest | .andNot first rest | .mustFirst first rest =>
    first.Settled ∧ AllSettled rest

def AllSettled : List Tree → Prop
  | [] => True
  | t :: ts => t.Settled ∧ AllSettled ts

end

/-- The answers of the tree to a sequence of calls. -/
def answers (t : Tree) (targets : List Nat) : List (Bool × Nat) := t.build.answers t.height targets

/-! ### Trees are cursors -/

theorem fresh_all {height : Nat} (ih : ∀ t : Tree, t.height ≤ height → t.Settled →
      Fresh invalidRowId (Iter.next height) Iter.docId t.Docs t.build)
    (ts : List Tree) (hheight : heights ts ≤ height) (hsettled : AllSettled ts) :
    Forall₂ (Fresh invalidRowId (Iter.next height) Iter.docId) (docsOf ts) (buildAll ts) := by
  induction ts with
  | nil => exact .nil
  | cons t ts ih' =>
    rw [heights] at hheight
    exact .cons (ih t (by omega) hsettled.1) (ih' (by omega) hsettled.2)

theorem fresh (height : Nat) (t : Tree) (hheight : t.height ≤ height) (hsettled : t.Settled) :
    Fresh invalidRowId (Iter.next height) Iter.docId t.Docs t.build := by
  induction height generalizing t with
  | zero => cases t <;> simp [Tree.height] at hheight
  | succ height ih =>
    have hall (first : Tree) (rest : List Tree) (h : max first.height (heights rest) + 1 ≤ height + 1)
        (hs : AllSettled (first :: rest)) := fresh_all ih (first :: rest) (by rw [heights]; omega) hs
    cases t with
    | leaf docs rewinds =>
      obtain rfl : rewinds = false := hsettled
      exact (leaf_fresh docs).map (g := Iter.leaf) (fun _ _ => rfl) fun _ => rfl
    | and first rest =>
      rw [Tree.height] at hheight
      exact (andNext_fresh (cons_ne_nil _ _) (hall _ _ hheight hsettled)).map (g := Iter.and) (fun _ _ => rfl) fun _ => rfl
    | or first rest =>
      rw [Tree.height] at hheight
      exact (orNext_fresh (cons_ne_nil _ _) (hall _ _ hheight hsettled)).map (g := Iter.or) (fun _ _ => rfl) fun _ => rfl
    | andNot first rest =>
      rw [Tree.height] at hheight
      obtain ⟨⟩ | ⟨hfirst, hrest⟩ := hall _ _ hheight hsettled
      exact (andNotNext_fresh hfirst hrest).map (g := Iter.andNot) (fun _ _ => rfl) fun _ => rfl
    | mustFirst first rest =>
      rw [Tree.height] at hheight
      obtain ⟨⟩ | ⟨hfirst, hrest⟩ := hall _ _ hheight hsettled
      exact (mustFirstNext_fresh hfirst hrest).map (g := Iter.mustFirst) (fun _ _ => rfl) fun _ => rfl

end Tree

/-- What the answer to a call for `d` should be: the least document from `d` on, or none. -/
structure Answer (S : Nat → Prop) (d : Nat) (answer : Bool × Nat) : Prop where
  found : answer.1 = true → IsLeast {x | S x ∧ d ≤ x} answer.2
  none : answer.1 = false → ∀ x, S x → x < d

theorem answer_of_first {S : Nat → Prop} {d p : Nat} (hS : ∀ x, S x → x < invalidRowId)
    (h : FirstFrom invalidRowId S d p) : Answer S d (p != invalidRowId, p) := by
  refine ⟨fun hfound => ?_, fun hnone x hx => ?_⟩
  · have hne : p ≠ invalidRowId := by simpa using hfound
    exact ⟨⟨h.mem.resolve_left hne, h.from_le⟩, fun x hx => h.least x hx.1 hx.2⟩
  · obtain rfl : p = invalidRowId := by simpa using hnone
    by_contra hle
    have hlast := h.least x hx (not_lt.mp hle)
    have hlt := hS x hx
    omega

theorem answers_of_upTo {height : Nat} {S : Nat → Prop} {t : Nat} {it : Iter} {targets : List Nat}
    (hS : ∀ x, S x → x < invalidRowId) (h : UpTo invalidRowId (Iter.next height) Iter.docId S t it)
    (hlt : ∀ d ∈ targets, d < invalidRowId) (hfrom : ∀ d ∈ targets, t ≤ d) (hsorted : targets.Pairwise (· ≤ ·)) :
    Forall₂ (Answer S) targets (it.answers height targets) := by
  induction targets generalizing t it with
  | nil => exact .nil
  | cons d targets ih =>
    obtain ⟨hle, hsorted⟩ := pairwise_cons.mp hsorted
    have hstands := (h.mono (hfrom d mem_cons_self)).ask (hlt d mem_cons_self).le
    refine .cons (answer_of_first hS hstands.first) (ih (.of_standsAt hstands (le_refl d)) ?_ hle hsorted)
    exact fun d' hd' => hlt d' (mem_cons_of_mem _ hd')

namespace Tree

theorem docs_lt (height : Nat) (t : Tree) (hheight : t.height ≤ height) (x : Nat) (hx : t.Docs x) : x < invalidRowId := by
  induction height generalizing t with
  | zero => cases t <;> simp [Tree.height] at hheight
  | succ height ih =>
    cases t with
    | leaf docs rewinds => exact docs.valid x hx
    | and first rest =>
      rw [Tree.height] at hheight
      exact ih first (by omega) (hx _ mem_cons_self)
    | or first rest =>
      rw [Tree.height] at hheight
      obtain ⟨S, hS, hx⟩ := hx
      rcases mem_cons.mp hS with rfl | hS
      · exact ih first (by omega) hx
      have hrest : ∀ ts : List Tree, heights ts ≤ height → S ∈ docsOf ts → x < invalidRowId := by
        intro ts hts hmem
        induction ts with
        | nil => cases hmem
        | cons t ts ih' =>
          rw [heights] at hts
          rcases mem_cons.mp hmem with rfl | hmem
          · exact ih t (by omega) hx
          · exact ih' (by omega) hmem
      exact hrest rest (by omega) hS
    | andNot first rest =>
      rw [Tree.height] at hheight
      exact ih first (by omega) hx.1
    | mustFirst first rest =>
      rw [Tree.height] at hheight
      exact ih first (by omega) hx

end Tree

/-- **Boolean iterators compute set semantics.** In a tree of and, or, and-not and must-first
iterators whose leaves do not begin anew after their end, every call of a non-decreasing
sequence answers with the least document from its target on, or with none where there is none. -/
theorem boolean_iterators_next (t : Tree) (hsettled : t.Settled) (targets : List Nat)
    (hlt : ∀ d ∈ targets, d < invalidRowId) (hsorted : targets.Pairwise (· ≤ ·)) :
    List.Forall₂ (Answer t.Docs) targets (t.answers targets) :=
  answers_of_upTo (t := 0) (fun x hx => t.docs_lt t.height (le_refl _) x hx)
    (.inl (t.fresh t.height (le_refl _) hsettled)) hlt (fun d _ => Nat.zero_le d) hsorted

/-- Documents 10 and 20 without those of an or over 10 and over 20. -/
def excluded (rewinds : Bool) : Tree :=
  .andNot (.leaf ⟨[10, 20], by decide⟩ rewinds)
    [.or (.leaf ⟨[10], by decide⟩ rewinds) [.leaf ⟨[20], by decide⟩ rewinds]]

theorem boolean_iterators_next_excluded :
    List.Forall₂ (Answer (excluded false).Docs) [0, 1] ((excluded false).answers [0, 1]) :=
  boolean_iterators_next (excluded false) ⟨rfl, ⟨rfl, rfl, trivial⟩, trivial⟩ [0, 1] (by decide) (by decide)

/-- Over leaves that begin anew the second call finds document 10, which is excluded. -/
theorem excluded_found_again :
    (excluded true).answers [0, 1] = [(false, invalidRowId), (true, 10)] ∧ ¬ (excluded true).Docs 10 := by
  refine ⟨by decide +kernel, fun h => h.2 _ mem_cons_self ?_⟩
  exact ⟨_, mem_cons_self, mem_singleton.mpr rfl⟩

end Infinity.Search
