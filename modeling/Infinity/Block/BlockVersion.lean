import Infinity.Lib.Codec
import Infinity.Lib.Lists

/-! Block versions: which rows of a block exist, and which are deleted, at a timestamp.

A `BlockVersion` has one entry for every append, with the timestamp and the number of rows
after it, and for every row the timestamp it was deleted at, zero if it was not. A
version is written to a file in two ways. `spillToFile` writes all of it, for an object
that leaves the memory. `saveToFile` writes it as of a checkpoint: appends and deletes
after the checkpoint are left out. Both are read back by `loadFromFile`. -/
namespace Infinity.Block

open Lib List

structure CreateField where
  createTs : Nat
  rowCount : Nat
  deriving DecidableEq, Repr

structure BlockVersion where
  created : List CreateField
  deleted : List Nat
  latestChangeTs : Nat
  deriving DecidableEq, Repr

/-- The ways a change of a version stops the engine. -/
inductive VersionFault where
  /-- "Delete twice at offset: {}, commit_ts: {}, old_ts: {}" -/
  | deleteTwice (offset commitTs oldTs : Nat)
  | outOfRange (offset : Nat)
  deriving DecidableEq, Repr

namespace BlockVersion

def new (capacity : Nat) : BlockVersion := ⟨[], List.replicate capacity 0, 0⟩

/-- The rows that exist at a timestamp: those of the last append up to it. -/
def getRowCount (v : BlockVersion) (beginTs : Nat) : Nat :=
  match (v.created.takeWhile fun f => decide (f.createTs ≤ beginTs)).getLast? with
  | none => 0
  | some f => f.rowCount

def append (v : BlockVersion) (commitTs rowCount : Nat) : BlockVersion :=
  {v with created := v.created ++ [⟨commitTs, rowCount⟩], latestChangeTs := commitTs}

def delete (v : BlockVersion) (offset commitTs : Nat) : Except VersionFault BlockVersion :=
  match v.deleted[offset]? with
  | none => .error (.outOfRange offset)
  | some oldTs =>
    if oldTs ≠ 0 then .error (.deleteTwice offset commitTs oldTs)
    else .ok {v with deleted := v.deleted.set offset commitTs, latestChangeTs := commitTs}

def deleteRows (v : BlockVersion) (commitTs : Nat) : List Nat → Except VersionFault BlockVersion
  | [] => .ok v
  | offset :: rest =>
    match v.delete offset commitTs with
    | .error e => .error e
    | .ok v' => v'.deleteRows commitTs rest

def checkDelete (v : BlockVersion) (offset checkTs : Nat) : Bool :=
  match v.deleted[offset]? with
  | none => false
  | some ts => ts != 0 && decide (ts ≤ checkTs)

/-! ### Deleting rows -/

/-- From `v` to `v'` the rows at the offsets are deleted at `c`. -/
structure Marked (c : Nat) (v v' : BlockVersion) (offsets : List Nat) : Prop where
  created : v'.created = v.created
  length : v'.deleted.length = v.deleted.length
  deleted : ∀ o, v'.deleted[o]? = if o ∈ offsets then some c else v.deleted[o]?
  latest : v'.latestChangeTs = if offsets = [] then v.latestChangeTs else c

section

variable {v v' : BlockVersion} {c : Nat} {offsets : List Nat}

theorem Marked.mem (h : Marked c v v' offsets) {ts : Nat} (hts : ts ∈ v'.deleted) : ts ∈ v.deleted ∨ ts = c := by
  obtain ⟨o, ho⟩ := getElem?_of_mem hts
  rw [h.deleted o] at ho
  split at ho
  · exact .inr (Option.some.inj ho).symm
  · exact .inl (mem_of_getElem? ho)

theorem Marked.cons {v₁ : BlockVersion} {offset : Nat} (h : Marked c v v₁ [offset]) (h' : Marked c v₁ v' offsets) :
    Marked c v v' (offset :: offsets) := by
  refine ⟨h'.created.trans h.created, h'.length.trans h.length, fun o => ?_, ?_⟩
  · rw [h'.deleted o, h.deleted o]
    by_cases ho : o ∈ offsets <;> by_cases ho' : o = offset <;> simp [ho, ho']
  · rw [h'.latest, h.latest]
    simp

theorem delete_marked {offset : Nat} (h : v.delete offset c = .ok v') :
    v.deleted[offset]? = some 0 ∧ Marked c v v' [offset] := by
  unfold delete at h
  split at h
  · cases h
  rename_i old hold
  split at h
  · cases h
  rename_i hzero
  cases h
  obtain ⟨hlt, -⟩ := List.getElem?_eq_some_iff.mp hold
  refine ⟨by rw [hold, not_not.mp hzero], rfl, length_set, fun o => ?_, rfl⟩
  rw [getElem?_set]
  by_cases ho : offset = o
  · subst ho
    simp [hlt]
  · simp [ho, Ne.symm ho]

theorem deleteRows_marked (h : v.deleteRows c offsets = .ok v') : Marked c v v' offsets := by
  induction offsets generalizing v with
  | nil =>
    cases h
    exact ⟨rfl, rfl, fun o => by simp, rfl⟩
  | cons offset rest ih =>
    simp only [deleteRows] at h
    split at h
    · cases h
    rename_i v₁ hone
    exact (delete_marked hone).2.cons (ih h)

end

/-! ### Files -/

/-- `CreateField::SaveToFile`: two numbers of eight bytes. -/
def saveField (f : CreateField) : List UInt8 := writeLE 8 f.createTs ++ writeLE 8 f.rowCount

/-- The number of appends to write: from the back, those after the checkpoint are dropped. -/
def createSize (created : List CreateField) (checkpointTs : Nat) : Nat → Nat
  | 0 => 0
  | n + 1 =>
    match created[n]? with
    | none => n + 1
    | some f => if f.createTs > checkpointTs then createSize created checkpointTs n else n + 1

/-- `SaveToFile`. The numbers of appends and of rows are 16 bits wide. -/
def saveToFile (v : BlockVersion) (checkpointTs : Nat) : List UInt8 :=
  let n := createSize v.created checkpointTs (v.created.length % 2 ^ 16)
  writeLE 2 n ++ (v.created.take n).flatMap saveField ++ (writeLE 2 v.deleted.length ++
    v.deleted.flatMap fun ts => writeLE 8 (if ts ≤ checkpointTs then ts else 0))

def spillToFile (v : BlockVersion) : List UInt8 :=
  writeLE 2 v.created.length ++ v.created.flatMap saveField ++ (writeLE 2 v.deleted.length ++
    (v.deleted.take (v.deleted.length % 2 ^ 16)).flatMap (writeLE 8))

def readField : Reader CreateField := fun bytes =>
  match (readLE 8).pair (readLE 8) bytes with
  | none => none
  | some ((createTs, rowCount), rest) => some (⟨createTs, rowCount⟩, rest)

/-- `LoadFromFile`. The timestamp of the latest change is not in the file. -/
def loadFromFile (file : List UInt8) : Option BlockVersion :=
  match (readField.counted 2).pair ((readLE 8).counted 2) file with
  | none => none
  | some ((created, deleted), _) => some ⟨created, deleted, 0⟩

/-- The numbers of a version fit the fields of the file. -/
structure Representable (v : BlockVersion) : Prop where
  created : v.created.length < 2 ^ 16
  deleted : v.deleted.length < 2 ^ 16
  fields : ∀ f ∈ v.created, f.createTs < 2 ^ 64 ∧ f.rowCount < 2 ^ 64
  stamps : ∀ ts ∈ v.deleted, ts < 2 ^ 64

theorem reads_field {f : CreateField} (h : f.createTs < 2 ^ 64 ∧ f.rowCount < 2 ^ 64) :
    Reads readField (saveField f) f := by
  intro rest
  have hpair : Reads ((readLE 8).pair (readLE 8)) (saveField f) (f.createTs, f.rowCount) :=
    (reads_LE (by simpa using h.1)).pair (reads_LE (by simpa using h.2))
  simp only [readField, hpair rest]

theorem loadFromFile_eq {created : List CreateField} {deleted : List Nat} (h : Representable ⟨created, deleted, 0⟩) :
    loadFromFile (writeLE 2 created.length ++ created.flatMap saveField ++
      (writeLE 2 deleted.length ++ deleted.flatMap (writeLE 8))) = some ⟨created, deleted, 0⟩ := by
  have hcreated : Reads (readField.counted 2) (writeLE 2 created.length ++ created.flatMap saveField) created :=
    .counted (by simpa using h.created) fun f hf => reads_field (h.fields f hf)
  have hdeleted : Reads ((readLE 8).counted 2) (writeLE 2 deleted.length ++ deleted.flatMap (writeLE 8)) deleted :=
    .counted (by simpa using h.deleted) fun ts hts => reads_LE (by simpa using h.stamps ts hts)
  have := hcreated.pair hdeleted []
  rw [append_nil] at this
  rw [loadFromFile, this]

variable {v : BlockVersion}

theorem loadFromFile_spillToFile (h : Representable v) :
    loadFromFile v.spillToFile = some {v with latestChangeTs := 0} := by
  rw [spillToFile, Nat.mod_eq_of_lt h.deleted, take_length]
  exact loadFromFile_eq ⟨h.created, h.deleted, h.fields, h.stamps⟩

/-- A version as of a checkpoint. -/
def upTo (v : BlockVersion) (checkpointTs : Nat) : BlockVersion where
  created := v.created.filter fun f => decide (f.createTs ≤ checkpointTs)
  deleted := v.deleted.map fun ts => if ts ≤ checkpointTs then ts else 0
  latestChangeTs := 0

/-- No timestamp of the version is after the given one. -/
def Bounded (v : BlockVersion) (ts : Nat) : Prop := (∀ f ∈ v.created, f.createTs ≤ ts) ∧ ∀ t ∈ v.deleted, t ≤ ts

instance (ts : Nat) : Decidable (v.Bounded ts) := inferInstanceAs (Decidable (_ ∧ _))

/-- A version with nothing after the checkpoint is all of itself as of the checkpoint. -/
theorem upTo_eq {c : Nat} (h : Bounded v c) : v.upTo c = {v with latestChangeTs := 0} := by
  have hcreated : v.created.filter (fun f => decide (f.createTs ≤ c)) = v.created := by
    rw [filter_eq_self]
    intro f hf
    simpa using h.1 f hf
  have hdeleted : v.deleted.map (fun ts => if ts ≤ c then ts else 0) = v.deleted := by
    conv_rhs => rw [← map_id v.deleted]
    refine map_congr_left fun t ht => ?_
    rw [if_pos (h.2 t ht)]
    rfl
  rw [upTo, hcreated, hdeleted]

theorem Representable.upTo (h : Representable v) (c : Nat) : Representable (v.upTo c) where
  created := lt_of_le_of_lt (length_filter_le _ _) h.created
  deleted := by
    rw [BlockVersion.upTo, length_map]
    exact h.deleted
  fields := fun f hf => h.fields f (mem_of_mem_filter hf)
  stamps := by
    intro ts hts
    obtain ⟨old, hold, rfl⟩ := mem_map.mp hts
    have := h.stamps old hold
    split <;> omega

theorem createSize_le (created : List CreateField) (c n : Nat) : createSize created c n ≤ n := by
  induction n with
  | zero => exact Nat.le_refl 0
  | succ n ih =>
    simp only [createSize]
    split
    · exact le_rfl
    · split <;> omega

/-- Dropping from the back drops all that is after the checkpoint, when the appends are in
the order of their timestamps. -/
theorem take_createSize {created : List CreateField} {c : Nat}
    (hsorted : created.Pairwise fun f g => f.createTs ≤ g.createTs) {n : Nat} (hn : n ≤ created.length) :
    created.take (createSize created c n) = (created.take n).filter fun f => decide (f.createTs ≤ c) := by
  induction n with
  | zero => rfl
  | succ n ih =>
    have hget : created[n]? = some created[n] := getElem?_eq_getElem hn
    have htake : created.take (n + 1) = created.take n ++ [created[n]] := by
      rw [take_add_one, hget]
      rfl
    simp only [createSize, hget]
    split
    · rename_i hgt
      rw [ih (by omega), htake, filter_append, filter_cons_of_neg (by simpa using hgt), filter_nil, append_nil]
    rename_i hle
    rw [filter_eq_self.mpr]
    intro f hf
    rw [htake] at hf
    have hlast : f.createTs ≤ created[n].createTs := by
      rcases mem_append.mp hf with hf | hf
      · rw [← take_append_drop n created] at hsorted
        refine (pairwise_append.mp hsorted).2.2 f hf _ ?_
        rw [drop_eq_getElem_cons hn]
        exact mem_cons_self
      · rw [mem_singleton.mp hf]
    simp only [decide_eq_true_eq]
    omega

/-- **A saved version is read back as of the checkpoint.** -/
theorem loadFromFile_saveToFile (h : Representable v)
    (hsorted : v.created.Pairwise fun f g => f.createTs ≤ g.createTs) (c : Nat) :
    loadFromFile (v.saveToFile c) = some (v.upTo c) := by
  have htake := take_createSize (c := c) hsorted le_rfl
  rw [take_length] at htake
  have hsize : createSize v.created c v.created.length = (v.upTo c).created.length := by
    rw [upTo, ← htake, length_take, min_eq_left (createSize_le _ _ _)]
  have hrep := loadFromFile_eq (h.upTo c)
  simp only [length_map, flatMap_map] at hrep hsize
  rwa [saveToFile, Nat.mod_eq_of_lt h.created, htake, hsize]

/-- The file that `BufferObj::Save` leaves. A version that is not in memory, or that is on the disk
already, is not written again, and its file has all of it. -/
def checkpointFile (v : BlockVersion) (checkpointTs : Nat) (evicted : Bool) : List UInt8 :=
  if evicted then v.spillToFile else v.saveToFile checkpointTs

/-- What a restart reads from it. -/
def savedAt (v : BlockVersion) (checkpointTs : Nat) (evicted : Bool) : BlockVersion :=
  if evicted then {v with latestChangeTs := 0} else v.upTo checkpointTs

theorem loadFromFile_checkpointFile (h : Representable v)
    (hsorted : v.created.Pairwise fun f g => f.createTs ≤ g.createTs) (c : Nat) (evicted : Bool) :
    loadFromFile (v.checkpointFile c evicted) = some (v.savedAt c evicted) := by
  cases evicted with
  | true => exact loadFromFile_spillToFile h
  | false => exact loadFromFile_saveToFile h hsorted c

theorem savedAt_eq_upTo {c : Nat} {evicted : Bool} (h : evicted = true → v.Bounded c) :
    v.savedAt c evicted = v.upTo c := by
  cases evicted with
  | true => exact (upTo_eq (h rfl)).symm
  | false => rfl

/-! ### Reading at a time -/

/-- The last append of those up to a timestamp, when the appends are in order. -/
theorem getRowCount_eq (hsorted : v.created.Pairwise fun f g => f.createTs ≤ g.createTs) (ts : Nat) : v.getRowCount ts =
      ((v.created.filter fun f => decide (f.createTs ≤ ts)).getLast?.map CreateField.rowCount).getD 0 := by
  rw [getRowCount, takeWhile_eq_filter (hsorted.imp fun hle h => decide_eq_true (hle.trans (of_decide_eq_true h)))]
  cases (v.created.filter fun f => decide (f.createTs ≤ ts)).getLast? <;> rfl

/-- A version as of a checkpoint is read as the version at the earlier of the two times. -/
theorem getRowCount_upTo (hsorted : v.created.Pairwise fun f g => f.createTs ≤ g.createTs)
    (c ts : Nat) : (v.upTo c).getRowCount ts = v.getRowCount (min ts c) := by
  rw [getRowCount_eq (v := v.upTo c) (hsorted.filter _), getRowCount_eq hsorted]
  simp only [upTo, filter_filter, ← Bool.decide_and, ← Nat.le_min]

theorem checkDelete_upTo (v : BlockVersion) (c offset ts : Nat) :
    (v.upTo c).checkDelete offset ts = v.checkDelete offset (min ts c) := by
  simp only [checkDelete, upTo, getElem?_map]
  cases v.deleted[offset]? with
  | none => rfl
  | some old => by_cases h : old ≤ c <;> simp [h]

theorem lt_of_checkDelete {offset ts : Nat} (h : v.checkDelete offset ts = true) : offset < v.deleted.length := by
  by_contra hge
  simp [checkDelete, getElem?_eq_none (not_lt.mp hge)] at h

end BlockVersion

end Infinity.Block
