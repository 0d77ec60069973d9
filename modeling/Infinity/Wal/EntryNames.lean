import Infinity.Wal.DeltaMeaning

/-! The names of catalog entries.

The encoded name of an entry is the name of the entry it stands in, a `#` and its own name or
id. `encode_injective` and `type_lt` show that this tells the entries apart, and which stands
inside which, when all the names in it are identifiers: ids are digits, and an identifier
does not begin with one. -/
namespace Infinity.Wal.Delta

open List

inductive IdentifierValidationStatus where
  | ok
  | empty
  | exceedLimit
  | invalidName
  deriving DecidableEq, Repr

def maxIdentifierNameLength : Nat := 65536

def identifierValidation (identifier : Key) : IdentifierValidationStatus :=
  match identifier with
  | [] => .empty
  | first :: rest =>
    if identifier.length ≥ maxIdentifierNameLength then .exceedLimit
    else if ¬ first.isAlpha ∧ first ≠ '_' then .invalidName
    else if rest.any fun ch => !ch.isAlphanum && ch != '_' then .invalidName
    else .ok

/-- A name that has been checked. -/
structure Identifier where
  text : Key
  valid : identifierValidation text = .ok
  deriving DecidableEq

theorem identifierValidation_ok {s : Key} (h : identifierValidation s = .ok) :
    ∃ first rest, s = first :: rest ∧ (first.isAlpha ∨ first = '_') ∧ ∀ ch ∈ rest, ch.isAlphanum ∨ ch = '_' := by
  cases s with
  | nil => cases h
  | cons first rest =>
    rw [identifierValidation] at h
    split at h
    · cases h
    split at h
    · cases h
    rename_i hfirst
    split at h
    · cases h
    rename_i hrest
    simp only [any_eq_true, Bool.and_eq_true, Bool.not_eq_true', bne_iff_ne] at hrest
    refine ⟨first, rest, rfl, by tauto, fun ch hch => ?_⟩
    by_contra hc
    rw [not_or, Bool.not_eq_true] at hc
    exact hrest ⟨ch, hch, hc⟩

/-- An id, as it is printed. -/
def digits (id : Nat) : Key := Nat.toDigits 10 id

theorem digits_injective : Function.Injective digits := by
  intro a b h
  have hread := congrArg (Nat.ofDigitChars 10 · 0) h
  simpa [digits] using hread

theorem hash_notMem_digits (id : Nat) : '#' ∉ digits id := fun h =>
  absurd (Nat.isDigit_of_mem_toDigits (by decide) (by decide) h) (by decide)

theorem Identifier.hash_notMem (i : Identifier) : '#' ∉ i.text := by
  obtain ⟨first, rest, htext, hfirst, hrest⟩ := identifierValidation_ok i.valid
  rw [htext, mem_cons]
  rintro (rfl | h)
  · exact absurd hfirst (by decide)
  · exact absurd (hrest _ h) (by decide)

theorem Identifier.text_ne_digits (i : Identifier) (id : Nat) : i.text ≠ digits id := by
  obtain ⟨first, rest, htext, hfirst, -⟩ := identifierValidation_ok i.valid
  intro h
  have hmem : first ∈ digits id := by rw [← h, htext]; exact mem_cons_self
  have hdigit := Nat.isDigit_of_mem_toDigits (by decide) (by decide) hmem
  obtain hfirst | rfl := hfirst
  · simp only [Char.isAlpha, Char.isUpper, Char.isLower, Char.isDigit, Bool.or_eq_true, Bool.and_eq_true,
      decide_eq_true_eq, UInt32.le_iff_toNat_le, ge_iff_le] at hfirst hdigit
    have hA : 'A'.val.toNat = 65 := rfl
    have ha : 'a'.val.toNat = 97 := rfl
    have h9 : '9'.val.toNat = 57 := rfl
    omega
  · exact absurd hdigit (by decide)

/-! ### Entries -/

inductive EntryName where
  | database (db : Identifier)
  | table (db table : Identifier)
  | segment (db table : Identifier) (segmentId : Nat)
  | block (db table : Identifier) (segmentId blockId : Nat)
  | column (db table : Identifier) (segmentId blockId columnId : Nat)
  | tableIndex (db table index : Identifier)
  | segmentIndex (db table index : Identifier) (segmentId : Nat)
  | chunkIndex (db table index : Identifier) (segmentId chunkId : Nat)
  deriving DecidableEq

/-- `EncodeIndex` of every entry, given the encoded name of what it stands in. -/
def encodeIndex (outer name : Key) : Key := outer ++ '#' :: name

namespace EntryName

def type : EntryName → CatalogDeltaOpType
  | .database .. => .addDatabaseEntry
  | .table .. => .addTableEntry
  | .segment .. => .addSegmentEntry
  | .block .. => .addBlockEntry
  | .column .. => .addColumnEntry
  | .tableIndex .. => .addTableIndexEntry
  | .segmentIndex .. => .addSegmentIndexEntry
  | .chunkIndex .. => .addChunkIndexEntry

/-- The names from the database down to the entry. -/
def path : EntryName → List Key
  | .database db => [db.text]
  | .table db t => [db.text, t.text]
  | .segment db t segmentId => [db.text, t.text, digits segmentId]
  | .block db t segmentId blockId => [db.text, t.text, digits segmentId, digits blockId]
  | .column db t segmentId blockId columnId => [db.text, t.text, digits segmentId, digits blockId, digits columnId]
  | .tableIndex db t index => [db.text, t.text, index.text]
  | .segmentIndex db t index segmentId => [db.text, t.text, index.text, digits segmentId]
  | .chunkIndex db t index segmentId chunkId => [db.text, t.text, index.text, digits segmentId, digits chunkId]

def encode (n : EntryName) : Key := n.path.foldl encodeIndex []

end EntryName

/-! ### Names tell entries apart -/

theorem eq_of_append_hash {a b u v : Key} (ha : '#' ∉ a) (hb : '#' ∉ b) (h : a ++ '#' :: u <+: b ++ '#' :: v) :
    a = b ∧ u <+: v := by
  induction a generalizing b with
  | nil =>
    cases b with
    | nil => exact ⟨rfl, (cons_prefix_cons.mp h).2⟩
    | cons y b => exact absurd (cons_prefix_cons.mp h).1 (ne_of_not_mem_cons hb)
  | cons x a ih =>
    cases b with
    | nil => exact absurd (cons_prefix_cons.mp h).1.symm (ne_of_not_mem_cons ha)
    | cons y b =>
      obtain ⟨rfl, htail⟩ := cons_prefix_cons.mp h
      obtain ⟨rfl, huv⟩ := ih (not_mem_of_not_mem_cons ha) (not_mem_of_not_mem_cons hb) htail
      exact ⟨rfl, huv⟩

theorem foldl_encodeIndex (outer : Key) (p : List Key) : p.foldl encodeIndex outer = outer ++ p.flatMap ('#' :: ·) := by
  induction p generalizing outer with
  | nil => simp
  | cons a p ih => simp [ih, encodeIndex]

theorem path_isPrefix {p q : List Key} (hp : ∀ a ∈ p, '#' ∉ a) (hq : ∀ a ∈ q, '#' ∉ a)
    (h : p.flatMap ('#' :: ·) ++ ['#'] <+: q.flatMap ('#' :: ·) ++ ['#']) : p <+: q := by
  have hash (r : List Key) : ∃ u, r.flatMap ('#' :: ·) ++ ['#'] = '#' :: u := by
    cases r with
    | nil => exact ⟨[], rfl⟩
    | cons a r => exact ⟨_, rfl⟩
  induction p generalizing q with
  | nil => exact nil_prefix
  | cons a p ih =>
    cases q with
    | nil => simpa using h.length_le
    | cons b q =>
      obtain ⟨u, hu⟩ := hash p
      obtain ⟨v, hv⟩ := hash q
      rw [flatMap_cons, flatMap_cons, append_assoc, append_assoc, hu, hv] at h
      obtain ⟨rfl, huv⟩ := eq_of_append_hash (hp a mem_cons_self) (hq b mem_cons_self)
        (cons_prefix_cons.mp h).2
      refine cons_prefix_cons.mpr ⟨rfl, ih (fun c hc => hp c (mem_cons_of_mem _ hc))
        (fun c hc => hq c (mem_cons_of_mem _ hc)) ?_⟩
      rw [hu, hv]
      exact cons_prefix_cons.mpr ⟨rfl, huv⟩

namespace EntryName

theorem hash_notMem_path (n : EntryName) : ∀ a ∈ n.path, '#' ∉ a := by
  cases n <;> simp [path, Identifier.hash_notMem, hash_notMem_digits]

theorem encode_eq (n : EntryName) : n.encode = n.path.flatMap ('#' :: ·) := by
  rw [encode, foldl_encodeIndex, nil_append]

theorem path_injective : Function.Injective path := by
  have text (a b : Identifier) : a.text = b.text ↔ a = b := by
    cases a
    cases b
    simp
  have index (a : Identifier) (i : Nat) : digits i ≠ a.text := (a.text_ne_digits i).symm
  intro a b h
  cases a <;> cases b <;>
    simp_all [path, Identifier.text_ne_digits, digits_injective.eq_iff]

theorem isPrefix_type {a n : EntryName} (h : a.path <+: n.path) (hlen : a.path.length < n.path.length) :
    a.type.code < n.type.code := by
  cases a <;> cases n <;>
    simp_all [path, type, CatalogDeltaOpType.code, Identifier.text_ne_digits]

end EntryName

/-- Entries are told apart by their encoded names. -/
def entryNaming : Naming EntryName where
  encode := EntryName.encode
  type := EntryName.type
  encode_injective a b h := by
    have hflat := congrArg (· ++ ['#']) h
    simp only [EntryName.encode_eq] at hflat
    have hab := path_isPrefix a.hash_notMem_path b.hash_notMem_path (hflat ▸ List.prefix_refl _)
    have hba := path_isPrefix b.hash_notMem_path a.hash_notMem_path (hflat ▸ List.prefix_refl _)
    exact EntryName.path_injective (hab.eq_of_length_le hba.length_le)
  encode_ne_nil n := by
    rw [EntryName.encode_eq]
    cases n <;> simp [EntryName.path]
  type_lt a n h := by
    rw [EntryName.encode_eq, EntryName.encode_eq] at h
    have hp := path_isPrefix a.hash_notMem_path n.hash_notMem_path (List.IsPrefix.trans h (List.prefix_append _ _))
    refine EntryName.isPrefix_type hp (lt_of_le_of_ne hp.length_le fun hlen => ?_)
    rw [hp.eq_of_length hlen] at h
    exact Under.ne h rfl

theorem under_table {a : EntryName} {db t : Identifier}
    (h : Under (entryNaming.encode a) (entryNaming.encode (.table db t))) : a = .database db := by
  have hlt := entryNaming.type_lt a _ h
  have hp : a.path <+: [db.text, t.text] := by
    refine path_isPrefix a.hash_notMem_path (EntryName.table db t).hash_notMem_path ?_
    have hu : Under a.encode (EntryName.table db t).encode := h
    rw [EntryName.encode_eq, EntryName.encode_eq] at hu
    exact IsPrefix.trans hu (prefix_append _ _)
  cases a with
  | database x =>
    obtain ⟨x, hx⟩ := x
    obtain ⟨y, hy⟩ := db
    obtain rfl : x = y := (cons_prefix_cons.mp hp).1
    rfl
  | _ => simp [entryNaming, EntryName.type, CatalogDeltaOpType.code] at hlt

end Infinity.Wal.Delta
