import Mathlib

/-! Cursors over sets of numbers.

A cursor stands at a member of a set or at the end mark `last`, and is moved by asking for the
first member from a target on. It never goes back: asked for a target it has passed or reached,
it stays where it is, also at the end. `StandsAt` says of a state that it is such a cursor and
that it stands at the first member from a given number on; `Fresh` is one that was not asked
yet. They are stated for any state type, so that cursors made from cursors can be described by
the same words. -/
namespace Infinity.Lib.Cursor

variable {last : Nat} {σ τ : Type} {next : σ → Nat → σ} {pos : σ → Nat} {S : Nat → Prop} {t d p : Nat} {s : σ}

/-- `p` is the first member from `d` on, or the end mark if there is none. -/
structure FirstFrom (last : Nat) (S : Nat → Prop) (d p : Nat) : Prop where
  mem : p = last ∨ S p
  le_last : p ≤ last
  from_le : d ≤ p
  least : ∀ x, S x → d ≤ x → p ≤ x

namespace FirstFrom

/-- Up to where it is, the first member is the same. -/
theorem raise (h : FirstFrom last S t p) (htd : t ≤ d) (hdp : d ≤ p) : FirstFrom last S d p where
  mem := h.mem
  le_last := h.le_last
  from_le := hdp
  least x hx hdx := h.least x hx (htd.trans hdx)

end FirstFrom

/-- The states in `I` are cursors over `S`, indexed by the number they were last moved to. -/
structure IsCursor (last : Nat) (next : σ → Nat → σ) (pos : σ → Nat) (S : Nat → Prop) (I : Nat → σ → Prop) : Prop where
  first : ∀ t s, I t s → FirstFrom last S t (pos s)
  stay : ∀ t s d, I t s → d ≤ pos s → pos (next s d) = pos s ∧ I t (next s d)
  move : ∀ t s d, I t s → pos s < d → d ≤ last → I d (next s d)

/-- A cursor that stands at the first member from `t` on. -/
def StandsAt (last : Nat) (next : σ → Nat → σ) (pos : σ → Nat) (S : Nat → Prop) (t : Nat) (s : σ) : Prop :=
  ∃ I, IsCursor last next pos S I ∧ I t s

namespace StandsAt

section
variable (h : StandsAt last next pos S t s)
include h

theorem first : FirstFrom last S t (pos s) := by
  obtain ⟨I, hI, hs⟩ := h
  exact hI.first t s hs

theorem stay (hd : d ≤ pos s) : pos (next s d) = pos s ∧ StandsAt last next pos S t (next s d) := by
  obtain ⟨I, hI, hs⟩ := h
  obtain ⟨hpos, hs'⟩ := hI.stay t s d hs hd
  exact ⟨hpos, I, hI, hs'⟩

theorem move (hd : pos s < d) (hlast : d ≤ last) : StandsAt last next pos S d (next s d) := by
  obtain ⟨I, hI, hs⟩ := h
  exact ⟨I, hI, hI.move t s d hs hd hlast⟩

theorem raise (htd : t ≤ d) (hd : d ≤ pos s) : StandsAt last next pos S d s := by
  obtain ⟨I, hI, hs⟩ := h
  refine ⟨fun d s => ∃ t ≤ d, d ≤ pos s ∧ I t s, ?_, t, htd, hd, hs⟩
  constructor
  · rintro d s ⟨t, htd, hd, hs⟩
    exact (hI.first t s hs).raise htd hd
  · rintro d s e ⟨t, htd, hd, hs⟩ he
    obtain ⟨hpos, hs'⟩ := hI.stay t s e hs he
    exact ⟨hpos, t, htd, hpos ▸ hd, hs'⟩
  · rintro d s e ⟨t, htd, hd, hs⟩ he hlast
    have hs' := hI.move t s e hs he hlast
    exact ⟨e, le_refl e, (hI.first e _ hs').from_le, hs'⟩

/-- A cursor goes to the first member from a target that is not before the last one. -/
theorem next_le (htd : t ≤ d) (hlast : d ≤ last) : StandsAt last next pos S d (next s d) := by
  by_cases hd : d ≤ pos s
  · obtain ⟨hpos, hs'⟩ := h.stay hd
    exact hs'.raise htd (hpos ▸ hd)
  · exact h.move (by omega) hlast

/-- States that behave like the cursor are cursors. -/
theorem map {next' : τ → Nat → τ} {pos' : τ → Nat} {g : σ → τ}
    (hnext : ∀ s d, next' (g s) d = g (next s d)) (hpos : ∀ s, pos' (g s) = pos s) :
    StandsAt last next' pos' S t (g s) := by
  obtain ⟨I, hI, hs⟩ := h
  refine ⟨fun t a => ∃ s, a = g s ∧ I t s, ?_, s, rfl, hs⟩
  constructor
  · rintro t _ ⟨s, rfl, hs⟩
    exact hpos s ▸ hI.first t s hs
  · rintro t _ d ⟨s, rfl, hs⟩ hd
    rw [hpos] at hd
    obtain ⟨hstay, hs'⟩ := hI.stay t s d hs hd
    rw [hnext, hpos, hpos]
    exact ⟨hstay, _, rfl, hs'⟩
  · rintro t _ d ⟨s, rfl, hs⟩ hd hlast
    rw [hpos] at hd
    exact ⟨_, hnext s d, hI.move t s d hs hd hlast⟩

end

end StandsAt

/-- A cursor that was not asked yet; it says that it is at the end. -/
structure Fresh (last : Nat) (next : σ → Nat → σ) (pos : σ → Nat) (S : Nat → Prop) (s : σ) : Prop where
  pos_eq : pos s = last
  start : ∀ d, d ≤ last → StandsAt last next pos S d (next s d)

theorem Fresh.map {next' : τ → Nat → τ} {pos' : τ → Nat} {g : σ → τ} (h : Fresh last next pos S s)
    (hnext : ∀ s d, next' (g s) d = g (next s d)) (hpos : ∀ s, pos' (g s) = pos s) :
    Fresh last next' pos' S (g s) where
  pos_eq := (hpos s).trans h.pos_eq
  start d hd := hnext s d ▸ (h.start d hd).map hnext hpos

/-- A cursor that was not asked for anything beyond `d`. -/
def UpTo (last : Nat) (next : σ → Nat → σ) (pos : σ → Nat) (S : Nat → Prop) (d : Nat) (s : σ) : Prop :=
  Fresh last next pos S s ∨ ∃ t ≤ d, StandsAt last next pos S t s

namespace UpTo

theorem of_standsAt (h : StandsAt last next pos S t s) (htd : t ≤ d) : UpTo last next pos S d s := .inr ⟨t, htd, h⟩

theorem mono {e : Nat} (h : UpTo last next pos S d s) (hde : d ≤ e) : UpTo last next pos S e s := by
  rcases h with h | ⟨t, ht, h⟩
  · exact .inl h
  · exact .inr ⟨t, ht.trans hde, h⟩

theorem ask (h : UpTo last next pos S d s) (hlast : d ≤ last) : StandsAt last next pos S d (next s d) := by
  rcases h with h | ⟨t, ht, h⟩
  · exact h.start d hlast
  · exact h.next_le ht hlast

end UpTo

/-- A cursor in any state. -/
def Alive (last : Nat) (next : σ → Nat → σ) (pos : σ → Nat) (S : Nat → Prop) (s : σ) : Prop :=
  Fresh last next pos S s ∨ ∃ t, StandsAt last next pos S t s

theorem UpTo.alive (h : UpTo last next pos S d s) : Alive last next pos S s := h.imp id fun ⟨t, _, h⟩ => ⟨t, h⟩

theorem Alive.ask (h : Alive last next pos S s) (hlast : d ≤ last) : ∃ t, StandsAt last next pos S t (next s d) := by
  rcases h with h | ⟨t, h⟩
  · exact ⟨d, h.start d hlast⟩
  · by_cases hd : d ≤ pos s
    · exact ⟨t, (h.stay hd).2⟩
    · exact ⟨d, h.move (by omega) hlast⟩

end Infinity.Lib.Cursor
