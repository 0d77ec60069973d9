import Infinity.FullText.Ring
import Infinity.Lib.Machine

/-! The ring between many threads.

A `Put` takes the lock, checks its assertions and then stores its element, or waits for room and
stores it when it is woken. `Get` and `GetBatch` take from the ground. The calls are made at the
granularity of the lock, in any order, each offset being put once. `ring_ordered` says that what
is returned is what was stored, in the order of the offsets. -/
namespace Infinity.FullText

open Lib Function

/-- The assertions of `Put`. -/
inductive RingFault where
  /-- `off_ground_ <= off_filled_ && off_filled_ <= off_ceiling_` -/
  | order
  /-- `off >= off_filled_` -/
  | filled
  deriving DecidableEq, Repr

namespace Ring

variable {τ : Type}

/-- What is left of `Put` when it does not wait any more. -/
def insert (r : Ring τ) (off : Nat) (elem : τ) : Ring τ :=
  let r' := r.store off elem
  if off = r.offFilled then {r' with offFilled := r'.fill (r'.offCeiling - (off + 1)) (off + 1)} else r'

/-- `Get`, when it does not wait any more. -/
def get (r : Ring τ) : List τ × Nat × Ring τ :=
  ((r.ringBuf (r.slot r.offGround)).toList, r.seqGet,
    {r with ringBuf := Function.update r.ringBuf (r.slot r.offGround) none,
            offGround := r.offGround + 1, seqGet := r.seqGet + 1})

end Ring

/-- The ring with the puts that wait for room. `stored` and `gets` are a record: the elements
stored so far, and the sequence number and the elements of each get that was not empty. -/
structure RingUse (τ : Type) where
  ring : Ring τ
  waiting : Nat → Option τ := fun _ => none
  stored : Nat → Option τ := fun _ => none
  gets : List (Nat × List τ) := []

inductive RingCall (τ : Type) where
  | put (off : Nat) (elem : τ)
  /-- A put that waited finds room. -/
  | wake (off : Nat)
  | get
  | getBatch

namespace RingUse

variable {τ : Type}

/-- All that was returned, in the order in which it was. -/
def returned (s : RingUse τ) : List τ := s.gets.flatMap Prod.snd

def insert (s : RingUse τ) (off : Nat) (elem : τ) : RingUse τ :=
  {s with ring := s.ring.insert off elem, stored := Function.update s.stored off (some elem)}

def take (s : RingUse τ) (got : List τ × Nat × Ring τ) : RingUse τ :=
  {s with ring := got.2.2, gets := if got.1.isEmpty then s.gets else s.gets ++ [(got.2.1, got.1)]}

def enabled (s : RingUse τ) : RingCall τ → Prop
  | .put off _ => s.waiting off = none ∧ s.stored off = none
  | .wake off => s.waiting off ≠ none ∧ off < s.ring.offGround + s.ring.capacity
  | .get => s.ring.offGround < s.ring.offFilled
  | .getBatch => True

def step (s : RingUse τ) : RingCall τ → Except RingFault (RingUse τ)
  | .put off elem =>
    if ¬ (s.ring.offGround ≤ s.ring.offFilled ∧ s.ring.offFilled ≤ s.ring.offCeiling) then .error .order
    else if off < s.ring.offFilled then .error .filled
    else if s.ring.offGround + s.ring.capacity ≤ off then
      .ok {s with waiting := Function.update s.waiting off (some elem)}
    else .ok (s.insert off elem)
  | .wake off =>
    .ok ((s.waiting off).elim s ({s with waiting := Function.update s.waiting off none}.insert off))
  | .get => .ok (s.take s.ring.get)
  | .getBatch => .ok (s.take s.ring.getBatch)

/-! ### What is returned -/

structure Inv (s : RingUse τ) : Prop where
  shown : s.ring.Shows s.stored
  free : ∀ off, s.waiting off ≠ none → s.stored off = none
  numbers : s.gets.map Prod.fst = List.range s.ring.seqGet
  returned : s.returned.map some = (List.range s.ring.offGround).map s.stored

variable {s s' : RingUse τ} {off : Nat} {elem : τ}

theorem inv_start (shift : Nat) : Inv {ring := ({capShift := shift} : Ring τ)} :=
  ⟨Ring.shows_empty shift, fun _ h => absurd rfl h, rfl, rfl⟩

theorem Inv.filled_le (h : s.Inv) (hfree : s.stored off = none) : s.ring.offFilled ≤ off := by
  by_contra hlt
  exact h.shown.filled off (by omega) hfree

theorem Inv.insert (h : s.Inv) (hfree : s.stored off = none) (hwait : s.waiting off = none)
    (hroom : off < s.ring.offGround + s.ring.capacity) (elem : τ) : (s.insert off elem).Inv := by
  have hput : s.ring.put off elem = s.ring.insert off elem := if_neg (h.filled_le hfree).not_gt
  have hle := (h.shown.ground_le).trans (h.filled_le hfree)
  refine ⟨?_, fun o ho => ?_, ?_, ?_⟩
  · rw [RingUse.insert, ← hput]
    exact h.shown.put hfree hroom elem
  · have hne : o ≠ off := fun heq => ho (heq ▸ hwait)
    exact (update_of_ne hne _ _).trans (h.free o ho)
  · exact h.numbers.trans (by rw [RingUse.insert, ← hput, Ring.put_seqGet])
  · rw [RingUse.insert, ← hput, Ring.put_offGround]
    refine h.returned.trans (List.map_congr_left fun o ho => ?_)
    exact (update_of_ne ((List.mem_range.mp ho).trans_le hle).ne _ _).symm

/-- What a get owes: the elements from the ground on, with the next number. -/
structure Gets (s : RingUse τ) (got : List τ × Nat × Ring τ) (n : Nat) : Prop where
  elems : got.1.map some = (List.range' s.ring.offGround n).map s.stored
  shown : got.2.2.Shows s.stored
  ground : got.2.2.offGround = s.ring.offGround + n
  empty : got.1 = [] → got.2.2.seqGet = s.ring.seqGet
  number : got.1 ≠ [] → got.2.1 = s.ring.seqGet ∧ got.2.2.seqGet = s.ring.seqGet + 1

theorem Inv.gets_getBatch (h : s.Inv) : s.Gets s.ring.getBatch (s.ring.offFilled - s.ring.offGround) := by
  obtain ⟨helems, hshown, hground, -, hempty, hnumber⟩ := h.shown.getBatch
  have := h.shown.ground_le
  exact ⟨helems, hshown, by omega, fun hnil => by rw [(hempty hnil).1], hnumber⟩

theorem Inv.gets_get (h : s.Inv) (hsome : s.ring.offGround < s.ring.offFilled) : s.Gets s.ring.get 1 := by
  obtain ⟨helems, hshown⟩ := h.shown.take (n := 1) hsome (s.ring.seqGet + 1)
  simp only [Ring.drain, List.append_nil] at helems hshown
  refine ⟨helems, hshown, rfl, fun hnil => ?_, fun _ => ⟨rfl, rfl⟩⟩
  simp [show (s.ring.ringBuf (s.ring.slot s.ring.offGround)).toList = [] from hnil] at helems

theorem Inv.take (h : s.Inv) {got : List τ × Nat × Ring τ} {n : Nat} (hgot : s.Gets got n) :
    (s.take got).Inv ∧ (s.take got).returned = s.returned ++ got.1 := by
  have hreturned : (s.take got).returned = s.returned ++ got.1 := by
    cases hnil : got.1 with
    | nil => simp [RingUse.take, RingUse.returned, hnil]
    | cons e l => simp [RingUse.take, RingUse.returned, hnil]
  refine ⟨⟨hgot.shown, h.free, ?_, ?_⟩, hreturned⟩
  · cases hnil : got.1 with
    | nil => simp [RingUse.take, hnil, h.numbers, hgot.empty hnil]
    | cons e l =>
      obtain ⟨hseq, hnext⟩ := hgot.number (by simp [hnil])
      simp [RingUse.take, hnil, h.numbers, hseq, hnext, List.range_succ]
  · rw [hreturned, List.map_append, h.returned, hgot.elems, ← List.map_append, RingUse.take, hgot.ground]
    simp only [List.range_eq_range']
    rw [← List.range'_append_1, zero_add]

theorem Inv.step (h : s.Inv) {c : RingCall τ} (he : s.enabled c) : ∃ s', s.step c = .ok s' ∧ s'.Inv := by
  cases c with
  | put off elem =>
    have hle := h.filled_le he.2
    rw [RingUse.step, if_neg (not_not.mpr ⟨h.shown.ground_le, h.shown.filled_le⟩), if_neg hle.not_gt]
    by_cases hfull : s.ring.offGround + s.ring.capacity ≤ off
    · rw [if_pos hfull]
      refine ⟨_, rfl, h.shown, fun o ho => ?_, h.numbers, h.returned⟩
      by_cases heq : o = off
      · exact heq ▸ he.2
      · exact h.free o (update_of_ne heq (some elem) s.waiting ▸ ho)
    · rw [if_neg hfull]
      exact ⟨_, rfl, h.insert he.2 he.1 (not_le.mp hfull) elem⟩
  | wake off =>
    obtain ⟨elem, hwait⟩ := Option.ne_none_iff_exists'.mp he.1
    rw [RingUse.step, hwait]
    refine ⟨_, rfl, ?_⟩
    have hrest : Inv {s with waiting := update s.waiting off none} := by
      refine ⟨h.shown, fun o ho => h.free o ?_, h.numbers, h.returned⟩
      by_cases heq : o = off
      · exact heq ▸ he.1
      · exact update_of_ne heq none s.waiting ▸ ho
    exact hrest.insert (h.free off he.1) (update_self ..) he.2 elem
  | get => exact ⟨_, rfl, (h.take (h.gets_get he)).1⟩
  | getBatch => exact ⟨_, rfl, (h.take h.gets_getBatch).1⟩

end RingUse

/-- Calls on a ring, each at a moment at which it does not have to wait. -/
def ringMachine (τ : Type) : Machine (RingUse τ) (RingCall τ) RingFault := ⟨RingUse.enabled, RingUse.step⟩

/-- **The ring hands over in the order of the offsets.** In every state that any calls lead to
from an empty ring of any capacity, what was returned are the elements of the first offsets, each
once and in order; the gets that were not empty are numbered 0, 1, 2 and so on; no assertion
fails in the next call; and after a `GetBatch` everything that has no gap below it is returned. -/
theorem ring_ordered {τ : Type} (shift : Nat) {calls : List (RingCall τ)} {s : RingUse τ}
    (hrun : (ringMachine τ).Run {ring := {capShift := shift}} calls s) :
    (∃ n, s.returned.map some = (List.range n).map s.stored) ∧
    s.gets.map Prod.fst = List.range s.gets.length ∧
    (∀ c, s.enabled c → ∃ s', s.step c = .ok s') ∧
    ∀ s', s.step .getBatch = .ok s' → ∀ off elem, s.stored off = some elem → (∀ o < off, s.stored o ≠ none) →
      s'.returned[off]? = some elem := by
  have h : s.Inv := by
    refine hrun.invariant (I := RingUse.Inv) (fun s c s' h he hs => ?_) (RingUse.inv_start shift)
    obtain ⟨s'', hs', hinv⟩ := h.step he
    exact Except.ok.inj (hs'.symm.trans hs) ▸ hinv
  refine ⟨⟨_, h.returned⟩, ?_, ?_, ?_⟩
  · have hlength : s.gets.length = s.ring.seqGet := by simpa using congrArg List.length h.numbers
    rw [h.numbers, hlength]
  · intro c he
    obtain ⟨s', hs', -⟩ := h.step he
    exact ⟨s', hs'⟩
  · intro s' hs' off elem helem hlow
    cases hs'
    have hgot := h.gets_getBatch
    -- the offset is below the first that has not been put
    have hlt : off < s.ring.offFilled := by
      rcases lt_trichotomy off s.ring.offFilled with hlt | heq | hgt
      · exact hlt
      · rw [heq, h.shown.gap] at helem
        cases helem
      · exact absurd h.shown.gap (hlow _ hgt)
    have hall := congrArg (·[off]?) (h.take hgot).1.returned
    have hground : (s.take s.ring.getBatch).ring.offGround = s.ring.offFilled := h.shown.getBatch.2.2.1
    rw [hground] at hall
    simpa [RingUse.take, hlt, helem] using hall

theorem ring_ordered_hole : ∃ s, (ringMachine Nat).Run {ring := {capShift := 1}}
      [.put 1 11, .put 2 12, .getBatch, .put 0 10, .get, .wake 2, .getBatch] s ∧ s.gets = [(0, [10]), (1, [11, 12])] ∧
    ∃ n, s.returned.map some = (List.range n).map s.stored := by
  have hrun : (ringMachine Nat).Run {ring := {capShift := 1}}
      [.put 1 11, .put 2 12, .getBatch, .put 0 10, .get, .wake 2, .getBatch] _ :=
    .cons ⟨rfl, rfl⟩ rfl <| .cons ⟨rfl, rfl⟩ rfl <| .cons trivial rfl <| .cons ⟨rfl, rfl⟩ rfl <|
      .cons Nat.two_pos rfl <| .cons ⟨Option.some_ne_none 12, by decide⟩ rfl <| .cons trivial rfl <| .nil _
  exact ⟨_, hrun, rfl, (ring_ordered 1 hrun).1⟩

end Infinity.FullText
