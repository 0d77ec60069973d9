import Mathlib

/-! The order check of the builder of finite state transducers.

Keys are to be inserted in increasing order, and `CheckLastKey` compares each with the last one.
It returns before anything else while the last key is empty, so that the last key is never
set: no sequence of calls is refused. What `InsertOutput` makes of a key is open here, it
does not touch the last key. -/
namespace Infinity.FullText

inductive FstFault where
  /-- "FST duplicated key" -/
  | duplicatedKey (key : List UInt8)
  /-- "Out of order key" -/
  | outOfOrder (prev got : List UInt8)
  deriving DecidableEq, Repr

/-- `FstBuilder`: the last key and what the other members hold. -/
structure FstBuilder (σ : Type) where
  nodes : σ
  last : List UInt8 := []

/-- `CheckLastKey`, with the last key afterwards. -/
def checkLastKey (last bs : List UInt8) (checkDupe : Bool) : Except FstFault (List UInt8) :=
  if last = [] then .ok last
  else if checkDupe = true ∧ last = bs then .error (.duplicatedKey bs)
  else if (last.zip bs).any (fun c => c.2 < c.1) then .error (.outOfOrder last bs)
  else if bs.length < min last.length bs.length then .error (.outOfOrder last bs)
  else .ok bs

namespace FstBuilder

variable {σ : Type} (insertOutput : σ → List UInt8 → Nat → σ)

def insert (b : FstBuilder σ) (key : List UInt8) (val : Nat) : Except FstFault (FstBuilder σ) :=
  match checkLastKey b.last key true with
  | .error e => .error e
  | .ok last => .ok ⟨insertOutput b.nodes key val, last⟩

/-- The place of the first call that is refused. -/
def errorAt (b : FstBuilder σ) : List (List UInt8 × Nat) → Option Nat
  | [] => none
  | (key, val) :: calls =>
    match b.insert insertOutput key val with
    | .error _ => some 0
    | .ok b => (errorAt b calls).map (· + 1)

/-- The place of the first key that is not greater than the key before it. -/
def unorderedAt : List (List UInt8) → Option Nat
  | key :: key' :: keys => if key < key' then (unorderedAt (key' :: keys)).map (· + 1) else some 1
  | _ => none

theorem errorAt_eq_none (nodes : σ) (calls : List (List UInt8 × Nat)) :
    errorAt insertOutput ⟨nodes, []⟩ calls = none := by
  induction calls generalizing nodes with
  | nil => rfl
  | cons call calls ih => exact congrArg (Option.map (· + 1)) (ih _)

theorem unorderedAt_eq_none {keys : List (List UInt8)} (h : keys.IsChain (· < ·)) : unorderedAt keys = none := by
  induction keys using unorderedAt.induct with
  | case1 key key' keys hlt ih =>
    rw [unorderedAt, if_pos hlt, ih (List.isChain_cons_cons.mp h).2]
    rfl
  | case2 key key' keys hnot => exact absurd (List.isChain_cons_cons.mp h).1 hnot
  | case3 keys hshort => rwa [unorderedAt]

/-- **A call is refused at the first key out of order**, if there is none. -/
theorem errorAt_eq_unorderedAt (nodes : σ) {calls : List (List UInt8 × Nat)}
    (h : (calls.map Prod.fst).IsChain (· < ·)) :
    errorAt insertOutput {nodes} calls = unorderedAt (calls.map Prod.fst) := by
  rw [errorAt_eq_none, unorderedAt_eq_none h]

theorem errorAt_eq_unorderedAt_two : errorAt (fun n _ _ => n + 1) {nodes := 0} [([97], 1), ([97, 0], 2)] =
    unorderedAt [[97], [97, 0]] :=
  errorAt_eq_unorderedAt _ _ (by decide)

/-- A smaller key and the same key again are taken. -/
theorem out_of_order_accepted :
    errorAt (fun n _ _ => n + 1) {nodes := 0} [([98], 1), ([97], 2), ([97], 3)] = none ∧
      unorderedAt [[98], [97], [97]] = some 1 := by
  decide

end FstBuilder

end Infinity.FullText
