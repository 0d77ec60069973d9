import Infinity.Lib.Checked
import Infinity.Lib.Codec

/-! Reading records back.

Records are written field after field and read with a reader that advances over the bytes.
`Holds` says of some bytes that they have a given size and, below two gigabytes, that a reader
gets a value from them, whatever follows. Its rules follow the statements of a reader: one for
each `let x ←`, one for lists, and two for readers that know where the bytes end. -/
namespace Infinity.Lib

open List

/-- A reader that advances; it fails where it would read past the bytes or stops the engine. -/
abbrev Decode := StateT (List UInt8) Option

variable {α β ε : Type}

/-- The `size` bytes hold `a`. With `k` bytes from the end of the record on, at least that many
have to follow. Lengths and counts are read as signed numbers of four bytes, so nothing is said
of what is read from two gigabytes or more. -/
structure Holds (k : Int) (read : Decode α) (bytes : List UInt8) (size : Nat) (a : α) : Prop where
  length : bytes.length = size
  reads : size < 2 ^ 31 → ∀ rest : List UInt8, k ≤ rest.length → read.run (bytes ++ rest) = some (a, rest)

variable {k : Int} {r : Decode α} {bytes bytes' : List UInt8} {n n' : Nat} {a : α} {b : β}

namespace Holds

theorem pure (k : Int) (a : α) : Holds k (Pure.pure a : Decode α) [] 0 a := ⟨rfl, fun _ _ _ => rfl⟩

section
variable (h : Holds k r bytes n a)
include h

theorem bind {f : α → Decode β} (h' : Holds k (f a) bytes' n' b) : Holds k (r >>= f) (bytes ++ bytes') (n + n') b := by
  refine ⟨by rw [length_append, h.length, h'.length], fun hsize rest hk => ?_⟩
  have hk' : k ≤ (bytes' ++ rest).length := by
    rw [length_append]
    omega
  rw [StateT.run_bind, append_assoc, h.reads (by omega) _ hk']
  exact h'.reads (by omega) rest hk

/-- The last read of a record. -/
theorem last {f : α → β} : Holds k (r >>= fun x => Pure.pure (f x)) bytes n (f a) := by
  refine ⟨h.length, fun hsize rest hk => ?_⟩
  rw [StateT.run_bind, h.reads hsize rest hk]
  rfl

theorem of_size {m : Nat} (hn : n = m) : Holds k r bytes m a := hn ▸ h

theorem of_bytes (hb : bytes = bytes') : Holds k r bytes' n a := hb ▸ h

end

/-- Where nothing is asked of what follows, anything may be. -/
theorem any (h : Holds 0 r bytes n a) (k : Int) : Holds k r bytes n a :=
  ⟨h.length, fun hsize rest _ => h.reads hsize rest (Int.natCast_nonneg _)⟩

end Holds

/-! ### Fields -/

/-- A field of `w` bytes. -/
def writeBits (w : Nat) (x : BitVec (8 * w)) : List UInt8 := writeLE w x.toNat

def readBits (w : Nat) : Decode (BitVec (8 * w)) := fun bytes =>
  match readLE w bytes with
  | none => none
  | some (n, rest) => some (BitVec.ofNat _ n, rest)

theorem length_writeLE (w n : Nat) : (writeLE w n).length = w := by
  induction w generalizing n with
  | zero => rfl
  | succ w ih => rw [writeLE, length_cons, ih]

theorem pow_256 (w : Nat) : 256 ^ w = 2 ^ (8 * w) := by
  rw [Nat.pow_mul]

theorem holds_bits (k : Int) (w : Nat) (x : BitVec (8 * w)) : Holds k (readBits w) (writeBits w x) w x := by
  refine ⟨length_writeLE w x.toNat, fun _ rest _ => ?_⟩
  show (match readLE w (writeLE w x.toNat ++ rest) with
    | none => none
    | some (n, rest) => some (BitVec.ofNat (8 * w) n, rest)) = _
  rw [readLE_writeLE, pow_256]
  simp

/-- A string: its length in four bytes, as a signed number, and its bytes. -/
def writeString (s : List UInt8) : List UInt8 := writeLE 4 s.length ++ s

def readString : Decode (List UInt8) := fun bytes =>
  match readLE 4 bytes with
  | none => none
  | some (n, rest) => if 2 ^ 31 ≤ n ∨ rest.length < n then none else some (rest.take n, rest.drop n)

theorem holds_string (k : Int) (s : List UInt8) : Holds k readString (writeString s) (4 + s.length) s := by
  refine ⟨by rw [writeString, length_append, length_writeLE], fun hsize rest _ => ?_⟩
  have hle : readLE 4 (writeLE 4 s.length ++ (s ++ rest)) = some (s.length, s ++ rest) :=
    reads_LE (w := 4) (by omega) (s ++ rest)
  have hno : ¬ (2 ^ 31 ≤ s.length ∨ (s ++ rest).length < s.length) := by
    rw [length_append]
    omega
  show (match readLE 4 (writeLE 4 s.length ++ s ++ rest) with
    | none => none
    | some (n, rest) => if 2 ^ 31 ≤ n ∨ rest.length < n then none else some (rest.take n, rest.drop n)) = _
  rw [append_assoc, hle]
  show (if 2 ^ 31 ≤ s.length ∨ (s ++ rest).length < s.length then none
    else some ((s ++ rest).take s.length, (s ++ rest).drop s.length)) = _
  rw [if_neg hno, take_left, drop_left]

/-! ### Lists -/

variable {l : List α}

/-- A part is not larger than the whole. -/
theorem le_sum_map (size : α → Nat) (h : a ∈ l) : size a ≤ (l.map size).sum := le_sum_of_mem (mem_map_of_mem h)

variable {size : α → Nat}

/-- There are not more parts than bytes. -/
theorem length_le_sum_map (h : ∀ a ∈ l, 0 < size a) : l.length ≤ (l.map size).sum := by
  rw [← length_map size]
  exact length_le_sum_of_one_le _ (forall_mem_map.mpr h)

def readMany (r : Decode α) : Nat → Decode (List α)
  | 0 => pure []
  | n + 1 => do
    let a ← r
    let as ← readMany r n
    return a :: as

/-- A loop up to a signed number of four bytes that is read first. -/
def readCounted (r : Decode α) : Decode (List α) := do
  let n ← readBits 4
  readMany r n.toInt.toNat

theorem Holds.many {write : α → List UInt8} (h : ∀ a ∈ l, Holds k r (write a) (size a) a) :
    Holds k (readMany r l.length) (l.flatMap write) (l.map size).sum l := by
  induction l with
  | nil => exact .pure k []
  | cons a l ih =>
    exact (h a mem_cons_self).bind (ih fun b hb => h b (mem_cons_of_mem _ hb)).last

theorem toNat_toInt_ofNat {n : Nat} (h : n < 2 ^ 31) : (BitVec.ofNat (8 * 4) n).toInt.toNat = n := by
  have hmod : n % 2 ^ (8 * 4) = n := Nat.mod_eq_of_lt (by omega)
  rw [BitVec.toInt_eq_toNat_cond, BitVec.toNat_ofNat, hmod, if_pos (by omega)]
  exact Int.toNat_natCast n

theorem holds_count (k : Int) (n : Nat) : Holds k (readBits 4) (writeLE 4 n) 4 (BitVec.ofNat (8 * 4) n) := by
  refine ⟨length_writeLE 4 n, fun _ rest _ => ?_⟩
  show (match readLE 4 (writeLE 4 n ++ rest) with
    | none => none
    | some (n, rest) => some (BitVec.ofNat (8 * 4) n, rest)) = _
  rw [readLE_writeLE]
  show some (BitVec.ofNat (8 * 4) (n % 256 ^ 4), rest) = _
  congr 2
  exact BitVec.eq_of_toNat_eq (by simp)

/-- Each element has a byte at least, so that their number is in range when their size is. -/
theorem Holds.counted {m : Nat} {as : List α} (h : Holds k (readMany r m) bytes n as) (hm : m ≤ n) :
    Holds k (readCounted r) (writeLE 4 m ++ bytes) (4 + n) as := by
  refine ⟨by rw [length_append, length_writeLE, h.length], fun hsize => ?_⟩
  refine ((holds_count k m).bind (f := fun x => readMany r x.toInt.toNat) ?_).reads hsize
  rwa [toNat_toInt_ofNat (by omega)]

theorem Holds.list {write : α → List UInt8} (hpos : ∀ a, 0 < size a)
    (h : ∀ a ∈ l, Holds k r (write a) (size a) a) :
    Holds k (readCounted r) (writeLE 4 l.length ++ l.flatMap write) (4 + (l.map size).sum) l :=
  (Holds.many h).counted (length_le_sum_map fun a _ => hpos a)

/-- A loop up to a number of eight bytes that is read first. -/
def readLongCounted (r : Decode α) : Decode (List α) := do
  let n ← readBits 8
  readMany r n.toNat

theorem Holds.longCounted {m : Nat} {as : List α} (h : Holds k (readMany r m) bytes n as) (hm : m ≤ n) :
    Holds k (readLongCounted r) (writeBits 8 (BitVec.ofNat 64 m) ++ bytes) (8 + n) as := by
  refine ⟨by rw [length_append, writeBits, length_writeLE, h.length], fun hsize => ?_⟩
  refine ((holds_bits k 8 (BitVec.ofNat 64 m)).bind (f := fun x => readMany r x.toNat) ?_).reads hsize
  have hlen : (BitVec.ofNat (8 * 8) m).toNat = m := Nat.mod_eq_of_lt (by omega)
  rwa [hlen]

/-! ### Enumerations -/

/-- A value of an enumeration, as its place among all of them. -/
def writeEnum [DecidableEq α] (w : Nat) (all : List α) (a : α) : List UInt8 := writeLE w (all.idxOf a)

def pick (all : List α) (n : Nat) : Decode α :=
  match all[n]? with
  | none => failure
  | some a => pure a

def readEnum (w : Nat) (all : List α) : Decode α := do
  let n ← readBits w
  pick all n.toNat

theorem holds_enum [DecidableEq α] (k : Int) (w : Nat) {all : List α} (ha : a ∈ all) (hall : all.length ≤ 256 ^ w) :
    Holds k (readEnum w all) (writeEnum w all a) w a := by
  have hlt : all.idxOf a < all.length := idxOf_lt_length_iff.mpr ha
  have hbits : (BitVec.ofNat (8 * w) (all.idxOf a)).toNat = all.idxOf a := by
    rw [BitVec.toNat_ofNat, ← pow_256]
    exact Nat.mod_eq_of_lt (by omega)
  have hpick : Holds k (pick all (BitVec.ofNat (8 * w) (all.idxOf a)).toNat) [] 0 a := by
    rw [pick, hbits, getElem?_idxOf ha]
    exact .pure k a
  have hread := holds_bits k w (BitVec.ofNat (8 * w) (all.idxOf a))
  rw [writeBits, hbits] at hread
  exact (hread.bind (f := fun n => pick all n.toNat) hpick).of_bytes (append_nil _)

/-! ### The end of the bytes -/

/-- A reader that is told how many bytes there are up to the end. -/
def withEnd (k : Int) (r : Int → Decode α) : Decode α := fun bytes => r (bytes.length - k) bytes

theorem Holds.withEnd {r : Int → Decode α} (h : ∀ maxBytes : Int, n ≤ maxBytes → Holds k (r maxBytes) bytes n a) :
    Holds k (withEnd k r) bytes n a := by
  have hn := (h n (le_refl _)).length
  refine ⟨hn, fun hsize rest hk => ?_⟩
  refine (h _ ?_).reads hsize rest hk
  rw [length_append]
  omega

/-- The check that a reader has not gone past the end. -/
def checkEnd (k : Int) : Decode Unit := fun bytes => if (bytes.length : Int) < k then none else some ((), bytes)

theorem holds_checkEnd (k : Int) : Holds k (checkEnd k) [] 0 () := ⟨rfl, fun _ _ hk => if_neg (not_lt.mpr hk)⟩

/-- The check that something is left before the end. -/
def checkMore (k : Int) : Decode Unit := fun bytes => if (bytes.length : Int) ≤ k then none else some ((), bytes)

theorem Holds.checkMore {r : Decode α} (h : Holds k r bytes n a) (hn : 0 < n) :
    Holds k (checkMore k >>= fun _ => r) bytes n a := by
  refine ⟨h.length, fun hsize rest hk => ?_⟩
  have hmore : ¬ ((bytes ++ rest).length : Int) ≤ k := by
    rw [length_append, h.length]
    omega
  have hcheck : (Lib.checkMore k).run (bytes ++ rest) = some ((), bytes ++ rest) := if_neg hmore
  rw [StateT.run_bind, hcheck]
  exact h.reads hsize rest hk

/-- A reader with its own end, so many bytes from where it starts. -/
def upTo (maxBytes : Int) (r : Int → Decode α) : Decode α := fun bytes => r (bytes.length - maxBytes) bytes

theorem Holds.upTo {r : Int → Decode α} {maxBytes : Int} (h : ∀ k, Holds k (r k) bytes n a) (hn : n ≤ maxBytes) :
    Holds k (upTo maxBytes r) bytes n a := by
  have hlen := (h k).length
  refine ⟨hlen, fun hsize rest _ => (h _).reads hsize rest ?_⟩
  rw [length_append]
  omega

/-- A nested reader: as many levels as there are bytes. -/
def withFuel (r : Nat → Decode α) : Decode α := fun bytes => r bytes.length bytes

theorem Holds.withFuel {r : Nat → Decode α} (h : ∀ fuel, n ≤ fuel → Holds k (r fuel) bytes n a) :
    Holds k (withFuel r) bytes n a := by
  have hlen := (h n (le_refl _)).length
  refine ⟨hlen, fun hsize rest hk => (h _ ?_).reads hsize rest hk⟩
  rw [length_append]
  omega

/-! ### Writers that may stop -/

/-- The writer succeeds, and what it writes holds `a`. -/
def Writes (k : Int) (write : Except ε (List UInt8)) (r : Decode α) (size : Nat) (a : α) : Prop :=
  ∃ bytes, write = .ok bytes ∧ Holds k r bytes size a

variable {r : Decode β} {g : α → β} {write : α → Except ε (List UInt8)}

theorem Writes.mapM (h : ∀ a ∈ l, Writes k (write a) r (size a) (g a)) :
    ∃ parts, l.mapM write = .ok parts ∧ Holds k (readMany r l.length) parts.flatten (l.map size).sum (l.map g) := by
  induction l with
  | nil => exact ⟨[], rfl, .pure k []⟩
  | cons a l ih =>
    obtain ⟨bytes, hok, hholds⟩ := h a mem_cons_self
    obtain ⟨parts, hparts, hrest⟩ := ih fun b hb => h b (mem_cons_of_mem _ hb)
    refine ⟨bytes :: parts, ?_, hholds.bind hrest.last⟩
    rw [mapM_cons, hok, hparts]
    rfl

theorem Writes.counted (hpos : ∀ a, 0 < size a) (h : ∀ a ∈ l, Writes k (write a) r (size a) (g a)) :
    ∃ parts, l.mapM write = .ok parts ∧
      Holds k (readCounted r) (writeLE 4 l.length ++ parts.flatten) (4 + (l.map size).sum) (l.map g) := by
  obtain ⟨parts, hparts, hholds⟩ := Writes.mapM h
  exact ⟨parts, hparts, hholds.counted (length_le_sum_map fun a _ => hpos a)⟩

/-- Whatever is written fills the size, and has no byte more only under `P`. -/
def Fills (write : Except ε (List UInt8)) (size : Nat) (P : Prop) : Prop :=
  ∀ bytes, write = .ok bytes → size ≤ bytes.length ∧ (bytes.length = size → P)

theorem Fills.of_writes {w : Except ε (List UInt8)} {P : Prop} (hP : ∀ bytes, w = .ok bytes → P)
    (h : P → Writes k w r n b) : Fills w n P := by
  intro bytes hok
  obtain ⟨bytes', hok', hholds⟩ := h (hP bytes hok)
  obtain rfl : bytes = bytes' := Except.ok.inj (hok.symm.trans hok')
  exact ⟨hholds.length.ge, fun _ => hP bytes hok⟩

/-- Parts of which none is too short have the size of the whole only if each has its own. -/
theorem Fills.mapM {P : α → Prop} (h : ∀ a ∈ l, Fills (write a) (size a) (P a)) {parts : List (List UInt8)}
    (hparts : l.mapM write = .ok parts) :
    (l.map size).sum ≤ parts.flatten.length ∧ (parts.flatten.length = (l.map size).sum → ∀ a ∈ l, P a) := by
  induction l generalizing parts with
  | nil =>
    cases hparts
    exact ⟨le_refl _, fun _ _ ha => absurd ha not_mem_nil⟩
  | cons a l ih =>
    rw [mapM_cons] at hparts
    obtain ⟨bytes, hwrite, hparts⟩ := ok_of_bind hparts
    obtain ⟨rest, hrest, hparts⟩ := ok_of_bind hparts
    cases hparts
    obtain ⟨hle, heq⟩ := h a mem_cons_self bytes hwrite
    obtain ⟨hleRest, heqRest⟩ := ih (fun b hb => h b (mem_cons_of_mem _ hb)) hrest
    rw [flatten_cons, length_append, map_cons, sum_cons]
    exact ⟨by omega, fun hall => forall_mem_cons.mpr ⟨heq (by omega), heqRest (by omega)⟩⟩

end Infinity.Lib
