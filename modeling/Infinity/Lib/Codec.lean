import Mathlib

/-! Fixed-width numbers and sequences in byte files.

A reader takes a value from the front of the bytes and leaves the rest, or fails when
there are too few. `Reads r w a` says that a reader gets back what a writer wrote, whatever
follows it; the rules of this file put such facts together, one per part of a format. -/
namespace Infinity.Lib

abbrev Reader (α : Type) := List UInt8 → Option (α × List UInt8)

/-- The reader gets `a` back from what was written for it. -/
def Reads {α : Type} (r : Reader α) (bytes : List UInt8) (a : α) : Prop := ∀ rest, r (bytes ++ rest) = some (a, rest)

/-- The low `w` bytes of a number, the least significant first. -/
def writeLE : Nat → Nat → List UInt8
  | 0, _ => []
  | w + 1, n => UInt8.ofNat n :: writeLE w (n / 256)

def readLE : Nat → Reader Nat
  | 0, bytes => some (0, bytes)
  | _ + 1, [] => none
  | w + 1, b :: bytes =>
    match readLE w bytes with
    | none => none
    | some (n, rest) => some (b.toNat + 256 * n, rest)

theorem readLE_writeLE (w n : Nat) (rest : List UInt8) : readLE w (writeLE w n ++ rest) = some (n % 256 ^ w, rest) := by
  induction w generalizing n with
  | zero => simp [writeLE, readLE, Nat.mod_one]
  | succ w ih =>
    have hmod : n % 256 ^ (w + 1) = n % 256 + 256 * (n / 256 % 256 ^ w) := by rw [Nat.pow_succ', Nat.mod_mul]
    simp only [writeLE, List.cons_append, readLE, ih, UInt8.toNat_ofNat', hmod]

theorem reads_LE {w n : Nat} (h : n < 256 ^ w) : Reads (readLE w) (writeLE w n) n := by
  intro rest
  rw [readLE_writeLE, Nat.mod_eq_of_lt h]

variable {α β : Type}

/-- One reader after another. -/
def Reader.pair (r : Reader α) (r' : Reader β) : Reader (α × β) := fun bytes =>
  match r bytes with
  | none => none
  | some (a, rest) =>
    match r' rest with
    | none => none
    | some (b, rest) => some ((a, b), rest)

theorem Reads.pair {r : Reader α} {r' : Reader β} {bytes bytes' : List UInt8} {a : α} {b : β} (h : Reads r bytes a)
    (h' : Reads r' bytes' b) : Reads (r.pair r') (bytes ++ bytes') (a, b) := by
  intro rest
  simp only [Reader.pair, List.append_assoc, h (bytes' ++ rest), h' rest]

/-- The same reader a number of times. -/
def Reader.many (r : Reader α) : Nat → Reader (List α)
  | 0, bytes => some ([], bytes)
  | n + 1, bytes =>
    match r bytes with
    | none => none
    | some (a, rest) =>
      match Reader.many r n rest with
      | none => none
      | some (as, rest) => some (a :: as, rest)

theorem Reads.many {r : Reader α} {w : α → List UInt8} {l : List α} (h : ∀ a ∈ l, Reads r (w a) a) :
    Reads (r.many l.length) (l.flatMap w) l := by
  intro rest
  induction l with
  | nil => rfl
  | cons a l ih =>
    simp only [List.length_cons, List.flatMap_cons, List.append_assoc, Reader.many, h a List.mem_cons_self _,
      ih fun b hb => h b (List.mem_cons_of_mem _ hb)]

/-- A number of entries, then the entries. -/
def Reader.counted (r : Reader α) (w : Nat) : Reader (List α) := fun bytes =>
  match readLE w bytes with
  | none => none
  | some (n, rest) => r.many n rest

theorem Reads.counted {r : Reader α} {w : α → List UInt8} {width : Nat} {l : List α} (hlen : l.length < 256 ^ width)
    (h : ∀ a ∈ l, Reads r (w a) a) : Reads (r.counted width) (writeLE width l.length ++ l.flatMap w) l := by
  intro rest
  simp only [Reader.counted, List.append_assoc, reads_LE hlen _]
  exact Reads.many h rest

end Infinity.Lib
