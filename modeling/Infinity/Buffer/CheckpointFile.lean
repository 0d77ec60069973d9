import Infinity.Buffer.VersionObj

/-! What a checkpoint leaves at the path of a block version.

A save is meant to leave the version as of its checkpoint, no append and no delete after
it. Writing from memory does (`BlockVersion.loadFromFile_saveToFile`). Moving the spill
file does not, unless the version has nothing after the checkpoint: a spill file has all
of the version. The same goes for doing nothing because the file has all of it already.

`saved_as_of_checkpoint` is exact: in every state reached, a save leaves the version as of
its checkpoint if and only if the object is ephemeral or has nothing after the checkpoint.
`saved_ahead_of_checkpoint` is a run in which the file runs ahead. -/
namespace Infinity.Buffer

open Block Lib List

/-! ### Contents of versions -/

/-- The same appends and deletes. -/
def SameContent (v w : BlockVersion) : Prop := v.created = w.created ∧ v.deleted = w.deleted

variable {v w : BlockVersion}

theorem SameContent.bounded (h : SameContent v w) {ts : Nat} (hw : w.Bounded ts) : v.Bounded ts := by
  rwa [BlockVersion.Bounded, h.1, h.2]

theorem SameContent.append (h : SameContent v w) (commitTs rowCount : Nat) :
    SameContent (v.append commitTs rowCount) (w.append commitTs rowCount) :=
  ⟨by rw [BlockVersion.append, h.1]; rfl, h.2⟩

/-- What all changes of a block keep to: appends come in the order of their timestamps, and
each adds a row. -/
structure Sound (v : BlockVersion) (maxTs rowCount capacity : Nat) : Prop where
  sorted : v.created.Pairwise fun f g => f.createTs ≤ g.createTs
  bounded : v.Bounded maxTs
  stamp : maxTs < 2 ^ 64
  created : v.created.length ≤ rowCount
  rows : ∀ f ∈ v.created, f.rowCount ≤ capacity
  deleted : v.deleted.length = capacity
  full : rowCount ≤ capacity
  narrow : capacity < 2 ^ 16

variable {maxTs rowCount capacity : Nat}

theorem Sound.representable (h : Sound v maxTs rowCount capacity) : v.Representable where
  created := lt_of_le_of_lt (le_trans h.created h.full) h.narrow
  deleted := by
    rw [h.deleted]
    exact h.narrow
  fields := fun f hf =>
    ⟨lt_of_le_of_lt (h.bounded.1 f hf) h.stamp, lt_of_le_of_lt (h.rows f hf) (lt_trans h.narrow (by decide))⟩
  stamps := fun t ht => lt_of_le_of_lt (h.bounded.2 t ht) h.stamp

theorem sound_new (h : capacity < 2 ^ 16) : Sound (BlockVersion.new capacity) 0 0 capacity where
  sorted := .nil
  bounded := ⟨fun f hf => (by cases hf), fun t ht => Nat.le_of_eq (eq_of_mem_replicate ht)⟩
  stamp := by decide
  created := Nat.le_refl 0
  rows := fun f hf => by cases hf
  deleted := length_replicate
  full := Nat.zero_le _
  narrow := h

theorem Sound.append {maxTs rowCount capacity commitTs rowCount' : Nat}
    (h : Sound v maxTs rowCount capacity) (hts : maxTs ≤ commitTs) (hstamp : commitTs < 2 ^ 64)
    (hmore : rowCount < rowCount') (hfull : rowCount' ≤ capacity) :
    Sound (v.append commitTs rowCount') commitTs rowCount' capacity where
  sorted := by
    refine pairwise_append.mpr ⟨h.sorted, pairwise_singleton _ _, fun f hf g hg => ?_⟩
    rw [mem_singleton.mp hg]
    exact le_trans (h.bounded.1 f hf) hts
  bounded := by
    refine ⟨fun f hf => ?_, fun t ht => le_trans (h.bounded.2 t ht) hts⟩
    rcases mem_append.mp hf with hf | hf
    · exact le_trans (h.bounded.1 f hf) hts
    · rw [mem_singleton.mp hf]
  stamp := hstamp
  created := by
    simp only [BlockVersion.append, length_append, length_singleton]
    have := h.created
    omega
  rows := by
    intro f hf
    rcases mem_append.mp hf with hf | hf
    · exact h.rows f hf
    · rwa [mem_singleton.mp hf]
  deleted := h.deleted
  full := hfull
  narrow := h.narrow

theorem Sound.congr (h : Sound w maxTs rowCount capacity)
    (hvw : SameContent v w) : Sound v maxTs rowCount capacity where
  sorted := by
    rw [hvw.1]
    exact h.sorted
  bounded := hvw.bounded h.bounded
  stamp := h.stamp
  created := by
    rw [hvw.1]
    exact h.created
  rows := by
    rw [hvw.1]
    exact h.rows
  deleted := by
    rw [hvw.2]
    exact h.deleted
  full := h.full
  narrow := h.narrow

theorem upTo_congr (h : SameContent v w) (c : Nat) : v.upTo c = w.upTo c := by
  rw [BlockVersion.upTo, BlockVersion.upTo, h.1, h.2]

variable {c : Nat}

variable {v' : BlockVersion}

/-! ### Deleting rows -/

theorem delete_congr (h : SameContent v w) {offset commitTs : Nat}
    (hv : v.delete offset commitTs = .ok v') : ∃ w', w.delete offset commitTs = .ok w' ∧ SameContent v' w' := by
  simp only [BlockVersion.delete, h.2] at hv ⊢
  split at hv
  · cases hv
  split at hv
  · cases hv
  cases hv
  rename_i hzero
  rw [if_neg hzero]
  exact ⟨_, rfl, h.1, rfl⟩

variable {rows : List Nat} {commitTs : Nat}

theorem deleteRows_congr (h : SameContent v w)
    (hv : v.deleteRows commitTs rows = .ok v') : ∃ w', w.deleteRows commitTs rows = .ok w' ∧ SameContent v' w' := by
  induction rows generalizing v w with
  | nil =>
    cases hv
    exact ⟨w, rfl, h⟩
  | cons offset rows ih =>
    simp only [BlockVersion.deleteRows] at hv ⊢
    split at hv
    · cases hv
    rename_i v₁ hv₁
    obtain ⟨w₁, hw₁, h₁⟩ := delete_congr h hv₁
    rw [hw₁]
    exact ih h₁ hv

theorem Sound.deleteRows (h : Sound v maxTs rowCount capacity) (hts : maxTs ≤ commitTs) (hstamp : commitTs < 2 ^ 64)
    (hv : v.deleteRows commitTs rows = .ok v') : Sound v' commitTs rowCount capacity := by
  have hm := BlockVersion.deleteRows_marked hv
  have hc := hm.created
  refine ⟨by rw [hc]; exact h.sorted, ⟨fun f hf => ?_, fun t ht => ?_⟩, hstamp, by rw [hc]; exact h.created,
    by rw [hc]; exact h.rows, hm.length.trans h.deleted, h.full, h.narrow⟩
  · rw [hc] at hf
    exact le_trans (h.bounded.1 f hf) hts
  · rcases hm.mem ht with ht | rfl
    · exact le_trans (h.bounded.2 t ht) hts
    · exact le_rfl

/-! ### The invariant of the object -/

/-- The file holds all of the version. -/
def HoldsAll (file : Option (List UInt8)) (truth : BlockVersion) : Prop :=
  ∃ bytes, file = some bytes ∧ BlockVersion.loadFromFile bytes = some {truth with latestChangeTs := 0}

/-- What the status and the type of an object say of its memory and its files. -/
structure ObjInv (o : VersionObj) (truth : BlockVersion) : Prop where
  new : o.status = .new → o.data = none ∧ o.type = .ephemeral ∧ SameContent (BlockVersion.new o.capacity) truth
  freed : o.status = .freed → o.data = none ∧ o.type ≠ .ephemeral
  memory : o.status = .loaded ∨ o.status = .unloaded → ∃ v, o.data = some v ∧ SameContent v truth ∧
    (o.type = .ephemeral → v.Bounded v.latestChangeTs)
  temp : o.type = .temp → HoldsAll o.spill truth
  persistent : o.type = .persistent → HoldsAll o.file truth

theorem HoldsAll.congr {file : Option (List UInt8)} (h : HoldsAll file v) (hvw : SameContent v w) :
    HoldsAll file w := by
  obtain ⟨bytes, hb, hload⟩ := h
  exact ⟨bytes, hb, by rw [hload, hvw.1, hvw.2]⟩

theorem objInv_memory {o : VersionObj} {truth v : BlockVersion} (hs : o.status = .loaded ∨ o.status = .unloaded)
    (hv : o.data = some v) (hsame : SameContent v truth) (heph : o.type = .ephemeral → v.Bounded v.latestChangeTs)
    (htemp : o.type = .temp → HoldsAll o.spill truth) (hpers : o.type = .persistent → HoldsAll o.file truth) :
    ObjInv o truth where
  new := fun h => by rcases hs with hs | hs <;> rw [hs] at h <;> cases h
  freed := fun h => by rcases hs with hs | hs <;> rw [hs] at h <;> cases h
  memory := fun _ => ⟨v, hv, hsame, heph⟩
  temp := htemp
  persistent := hpers

variable {o o' : VersionObj} {truth : BlockVersion}

theorem load_spec (h : ObjInv o truth) (ho : o.load = .ok o') : ObjInv o' truth ∧ o'.status = .loaded ∧
    o'.capacity = o.capacity := by
  simp only [VersionObj.load] at ho
  split at ho
  · rename_i hs
    cases ho
    obtain ⟨v, hv, hsame, heph⟩ := h.memory (.inl hs)
    exact ⟨objInv_memory (.inl rfl) hv hsame heph h.temp h.persistent, rfl, rfl⟩
  · rename_i hs
    cases ho
    obtain ⟨v, hv, hsame, heph⟩ := h.memory (.inr hs)
    exact ⟨objInv_memory (.inl rfl) hv hsame heph h.temp h.persistent, rfl, rfl⟩
  · rename_i hs
    obtain ⟨hdata, htype⟩ := h.freed hs
    have hfile : HoldsAll (if decide (o.type ≠ .persistent) then o.spill else o.file) truth := by
      cases ht : o.type with
      | persistent => exact h.persistent ht
      | ephemeral => exact absurd ht htype
      | temp => exact h.temp ht
    obtain ⟨bytes, hb, hload⟩ := hfile
    rw [if_neg htype] at ho
    simp only [VersionObj.readFromFile, hb, hdata, hload, Option.isSome_none, Bool.false_eq_true, if_false] at ho
    cases ho
    exact ⟨objInv_memory (.inl rfl) rfl ⟨rfl, rfl⟩ (fun he => absurd he htype) h.temp h.persistent, rfl, rfl⟩
  · rename_i hs
    obtain ⟨hdata, htype, hsame⟩ := h.new hs
    simp only [VersionObj.allocateInMemory, hdata, Option.isSome_none, Bool.false_eq_true, if_false] at ho
    split at ho
    · cases ho
    rename_i o₁ ho₁
    split at ho₁
    · cases ho₁
    cases ho₁
    cases ho
    refine ⟨objInv_memory (.inl rfl) rfl hsame (fun _ => ⟨fun f hf => (by cases hf), fun t ht => ?_⟩) h.temp
      h.persistent, rfl, rfl⟩
    exact Nat.le_of_eq (eq_of_mem_replicate ht)

theorem unloadInner_spec (ho : o.unloadInner = .ok o') : o.status = .loaded ∧
    (o'.status = .loaded ∨ o'.status = .unloaded) ∧ o'.type = o.type ∧ o'.data = o.data ∧ o'.spill = o.spill ∧
      o'.file = o.file ∧ o'.capacity = o.capacity := by
  simp only [VersionObj.unloadInner] at ho
  split at ho
  · cases ho
  rename_i hs
  have hs' := not_not.mp hs
  split at ho
  · cases ho
    exact ⟨hs', .inr rfl, rfl, rfl, rfl, rfl, rfl⟩
  · cases ho
    exact ⟨hs', .inl hs', rfl, rfl, rfl, rfl, rfl⟩

theorem inv_unloadInner (h : ObjInv o truth) (ho : o.unloadInner = .ok o') : ObjInv o' truth := by
  obtain ⟨hs, hs', htype, hdata, hspill, hfile, -⟩ := unloadInner_spec ho
  obtain ⟨v, hv, hsame, heph⟩ := h.memory (.inl hs)
  refine objInv_memory hs' (hdata.trans hv) hsame ?_ ?_ ?_
  · rwa [htype]
  · rw [htype, hspill]
    exact h.temp
  · rw [htype, hfile]
    exact h.persistent

theorem getMutPointer_spec (ho : o.getMutPointer = .ok o') : o'.type = .ephemeral ∧ o'.status = o.status ∧
    o'.data = o.data ∧ o'.capacity = o.capacity := by
  simp only [VersionObj.getMutPointer] at ho
  split at ho
  · cases ho
  rename_i o₁ ho₁
  cases ho
  split at ho₁
  · simp only [VersionObj.removeTemp] at ho₁
    split at ho₁
    · cases ho₁
    cases ho₁
    exact ⟨rfl, rfl, rfl, rfl⟩
  · cases ho₁
    exact ⟨rfl, rfl, rfl, rfl⟩

/-- A change is made to a version with the content of the object. It leaves an ephemeral
object in memory, which is fine if the version knows its latest change. -/
theorem withDataMut_spec (h : ObjInv o truth) {change : BlockVersion → Except VersionFault BlockVersion}
    (ho : o.withDataMut change = .ok o') :
    ∃ v v', SameContent v truth ∧ change v = .ok v' ∧ o'.capacity = o.capacity ∧
      ∀ truth', SameContent v' truth' → v'.Bounded v'.latestChangeTs → ObjInv o' truth' := by
  simp only [VersionObj.withDataMut] at ho
  split at ho
  · cases ho
  rename_i o₁ ho₁
  obtain ⟨h₁, hs₁, hcap₁⟩ := load_spec h ho₁
  obtain ⟨v, hv, hsame, -⟩ := h₁.memory (.inl hs₁)
  split at ho
  · cases ho
  rename_i o₂ ho₂
  obtain ⟨htype₂, -, hdata₂, hcap₂⟩ := getMutPointer_spec ho₂
  rw [hdata₂.trans hv] at ho
  dsimp only at ho
  split at ho
  · cases ho
  rename_i v' hv'
  obtain ⟨-, hs', htype', hdata', -, -, hcap'⟩ := unloadInner_spec ho
  have heph : o'.type = .ephemeral := htype'.trans htype₂
  refine ⟨v, v', hsame, hv', hcap'.trans (hcap₂.trans hcap₁), fun truth' hsame' hbound => ?_⟩
  refine objInv_memory hs' hdata' hsame' (fun _ => hbound) (fun ht => ?_) (fun ht => ?_)
  · rw [heph] at ht
    cases ht
  · rw [heph] at ht
    cases ht

theorem inv_free (h : ObjInv o truth) (hrep : ∀ v, SameContent v truth → v.Representable) (ho : o.free = .ok o') :
    ObjInv o' truth ∧ o'.capacity = o.capacity := by
  simp only [VersionObj.free] at ho
  split at ho
  · cases ho
  rename_i hs
  obtain ⟨v, hv, hsame, -⟩ := h.memory (.inr (not_not.mp hs))
  split at ho
  · cases ho
  rename_i o₁ ho₁
  have hspilled : o₁.type ≠ .ephemeral ∧ o₁.capacity = o.capacity ∧
      (o₁.type = .temp → HoldsAll o₁.spill truth) ∧ (o₁.type = .persistent → HoldsAll o₁.file truth) := by
    simp only [VersionObj.spillEphemeral] at ho₁
    split at ho₁
    · rename_i ht
      cases ho₁
      exact ⟨by rw [ht]; exact fun h => (by cases h), rfl, h.temp, h.persistent⟩
    · rename_i ht
      cases ho₁
      exact ⟨by rw [ht]; exact fun h => (by cases h), rfl, h.temp, h.persistent⟩
    · simp only [VersionObj.writeSpill, hv, VersionObj.addTemp] at ho₁
      split at ho₁
      · cases ho₁
      cases ho₁
      refine ⟨fun h => (by cases h), rfl, fun _ => HoldsAll.congr ?_ hsame, fun h => (by cases h)⟩
      exact ⟨_, rfl, BlockVersion.loadFromFile_spillToFile (hrep v hsame)⟩
  obtain ⟨htype, hcap, htemp, hpers⟩ := hspilled
  simp only [VersionObj.freeInMemory] at ho
  split at ho
  · cases ho
  rename_i o₂ ho₂
  split at ho₂
  · cases ho₂
  cases ho₂
  cases ho
  exact ⟨⟨fun h => (by cases h), fun _ => ⟨rfl, htype⟩, fun h => (by rcases h with h | h <;> cases h), htemp, hpers⟩,
    hcap⟩

/-- The file that a save leaves is `checkpointFile`: the version as of the checkpoint from an
ephemeral object, and all of it from any other. -/
theorem save_spec (h : ObjInv o truth) (hsound : Sound truth maxTs rowCount capacity)
    (ho : o.save c = .ok o') : ObjInv o' truth ∧ o'.capacity = o.capacity ∧ ∃ bytes, o'.file = some bytes ∧
      BlockVersion.loadFromFile bytes = some (truth.savedAt c (decide (o.type ≠ .ephemeral))) := by
  have hmemory (ht : o.type = .ephemeral) (hs : o.status = .loaded ∨ o.status = .unloaded) :
      ObjInv o' truth ∧ o'.capacity = o.capacity ∧
        ∃ bytes, o'.file = some bytes ∧ BlockVersion.loadFromFile bytes = some (truth.upTo c) := by
    obtain ⟨v, hv, hsame, heph⟩ := h.memory hs
    have hv' := hsound.congr hsame
    have hload : BlockVersion.loadFromFile (v.saveToFile c) = some (truth.upTo c) := by
      rw [BlockVersion.loadFromFile_saveToFile hv'.representable hv'.sorted, upTo_congr hsame]
    have hw : (if decide (v.latestChangeTs ≤ c) then {o with file := some (v.saveToFile c), type := .persistent}
        else {o with file := some (v.saveToFile c)}) = o' := by
      rcases hs with hst | hst <;> simpa [VersionObj.save, ht, hst, VersionObj.writeFile, hv] using ho
    subst hw
    split
    · rename_i hall
      have hbound : truth.Bounded c := by
        refine ⟨fun f hf => le_trans ((heph ht).1 f ?_) (of_decide_eq_true hall),
          fun t hmem => le_trans ((heph ht).2 t ?_) (of_decide_eq_true hall)⟩
        · rwa [hsame.1]
        · rwa [hsame.2]
      refine ⟨objInv_memory hs hv hsame (fun h => (by cases h)) (fun h => (by cases h)) (fun _ => ⟨_, rfl, ?_⟩), rfl, _,
        rfl, hload⟩
      rw [hload, BlockVersion.upTo_eq hbound]
    · exact ⟨objInv_memory hs hv hsame heph (fun h' => by rw [ht] at h'; cases h') (fun h' => by rw [ht] at h'; cases h'),
        rfl, _, rfl, hload⟩
  cases ht : o.type with
  | ephemeral =>
    cases hst : o.status with
    | loaded => exact hmemory ht (.inl hst)
    | unloaded => exact hmemory ht (.inr hst)
    | freed => exact absurd ht (h.freed hst).2
    | new => simp [VersionObj.save, ht, hst] at ho
  | temp =>
    have hne : o.type ≠ .ephemeral := by simp [ht]
    obtain ⟨bytes, hb, hload⟩ := h.temp ht
    simp only [VersionObj.save, ht, VersionObj.moveTemp] at ho
    split at ho
    · cases ho
    rename_i o₁ ho₁
    split at ho₁
    · cases ho₁
    cases ho₁
    simp only [VersionObj.moveFile, hb] at ho
    cases ho
    refine ⟨⟨fun hs => ?_, fun hs => ⟨(h.freed hs).1, fun h => (by cases h)⟩, fun hs => ?_, fun h => (by cases h),
      fun _ => ⟨bytes, rfl, hload⟩⟩, rfl, bytes, rfl, hload⟩
    · exact absurd (h.new hs).2.1 hne
    · obtain ⟨v, hv, hsame, -⟩ := h.memory hs
      exact ⟨v, hv, hsame, fun h => by cases h⟩
  | persistent =>
    simp only [VersionObj.save, ht] at ho
    cases ho
    exact ⟨h, rfl, h.persistent ht⟩

theorem inv_cleanupTempFile (h : ObjInv o truth) (ho : o.cleanupTempFile = .ok o') :
    ObjInv o' truth ∧ o'.capacity = o.capacity := by
  simp only [VersionObj.cleanupTempFile] at ho
  split at ho
  · cases ho
    exact ⟨⟨h.new, h.freed, h.memory, h.temp, h.persistent⟩, rfl⟩
  rename_i ht
  split at ho
  · cases ho
  cases ho
  exact ⟨⟨h.new, h.freed, h.memory, fun h => absurd h ht, h.persistent⟩, rfl⟩

/-! ### Whole runs -/

structure Inv (s : System) : Prop where
  obj : ObjInv s.obj s.truth
  sound : Sound s.truth s.maxRowTs s.blockRowCount s.rowCapacity
  capacity : s.obj.capacity = s.rowCapacity

/-- The states a block starts in: new, or with a file that holds a version. -/
inductive Start : System → Prop
  | new {capacity : Nat} (h : capacity < 2 ^ 16) : Start (newBlock capacity)
  | replayed {truth : BlockVersion} {maxTs minTs rowCount capacity : Nat} {file : List UInt8}
      (sound : Sound truth maxTs rowCount capacity)
      (file_eq : BlockVersion.loadFromFile file = some {truth with latestChangeTs := 0}) :
      Start ⟨VersionObj.get capacity file, rowCount, capacity, minTs, maxTs, truth⟩

variable {s : System}

theorem Start.inv (h : Start s) : Inv s := by
  cases h with
  | new h =>
    refine ⟨⟨fun _ => ⟨rfl, rfl, rfl, rfl⟩, fun h => (by cases h), fun h => (by rcases h with h | h <;> cases h),
      fun h => (by cases h), fun h => (by cases h)⟩, sound_new h, rfl⟩
  | replayed sound file_eq =>
    exact ⟨⟨fun h => (by cases h), fun _ => ⟨rfl, fun h => (by cases h)⟩, fun h => (by rcases h with h | h <;> cases h),
      fun h => (by cases h), fun _ => ⟨_, rfl, file_eq⟩⟩, sound, rfl⟩

variable {s' : System}

theorem inv_appendData (h : Inv s) {commitTs appendRows : Nat}
    (he : enabled s (.appendData commitTs appendRows)) (hs : appendData s commitTs appendRows = .ok s') : Inv s' := by
  obtain ⟨hrows, hroom, hstamp⟩ := he
  have hcount : s.blockRowCount < s.rowCountAfter appendRows ∧ s.rowCountAfter appendRows ≤ s.rowCapacity := by
    simp only [System.rowCountAfter]
    split <;> omega
  simp only [appendData] at hs
  split at hs
  · cases hs
  rename_i obj hobj
  split at hs
  · cases hs
  cases hs
  have hsound := h.sound.append (by omega) hstamp hcount.1 hcount.2
  obtain ⟨v, v', hsame, hv, hcap, hinv⟩ := withDataMut_spec h.obj hobj
  cases hv
  have hsame' := hsame.append commitTs (s.rowCountAfter appendRows)
  exact ⟨hinv _ hsame' (hsame'.bounded hsound.bounded), hsound, hcap.trans h.capacity⟩

theorem inv_deleteData (h : Inv s)
    (he : enabled s (.deleteData commitTs rows)) (hs : deleteData s commitTs rows = .ok s') : Inv s' := by
  obtain ⟨hne, hstamp⟩ := he
  simp only [deleteData] at hs
  split at hs
  · cases hs
  rename_i obj hobj
  split at hs
  · cases hs
  obtain ⟨v, v', hsame, hv, hcap, hinv⟩ := withDataMut_spec h.obj hobj
  obtain ⟨truth', htruth, hsame'⟩ := deleteRows_congr hsame hv
  rw [htruth] at hs
  cases hs
  have hsound := h.sound.deleteRows (by omega) hstamp htruth
  have hlatest : v'.latestChangeTs = commitTs :=
    (BlockVersion.deleteRows_marked hv).latest.trans (if_neg hne)
  exact ⟨hinv _ hsame' (by rw [hlatest]; exact hsame'.bounded hsound.bounded), hsound, hcap.trans h.capacity⟩

theorem inv_withObj (h : Inv s) {r : Except BufferFault VersionObj}
    (hr : ∀ o, r = .ok o → ObjInv o s.truth ∧ o.capacity = s.obj.capacity) (hs : withObj s r = .ok s') : Inv s' := by
  cases r with
  | error e => cases hs
  | ok o =>
    cases hs
    obtain ⟨hinv, hcap⟩ := hr o rfl
    exact ⟨hinv, h.sound, hcap.trans h.capacity⟩

theorem inv_step (h : Inv s) {c : Call} (he : enabled s c) (hs : step s c = .ok s') : Inv s' := by
  cases c with
  | appendData commitTs appendRows => exact inv_appendData h he hs
  | deleteData commitTs rows => exact inv_deleteData h he hs
  | load =>
    refine inv_withObj h (fun o ho => ?_) hs
    obtain ⟨hinv, -, hcap⟩ := load_spec h.obj ho
    exact ⟨hinv, hcap⟩
  | unload => exact inv_withObj h (fun o ho => ⟨inv_unloadInner h.obj ho, (unloadInner_spec ho).2.2.2.2.2.2⟩) hs
  | free => exact inv_withObj h (fun o ho => inv_free h.obj (fun v hv => (h.sound.congr hv).representable) ho) hs
  | save c =>
    refine inv_withObj h (fun o ho => ?_) hs
    obtain ⟨hinv, hcap, -⟩ := save_spec h.obj h.sound ho
    exact ⟨hinv, hcap⟩
  | cleanupTempFile => exact inv_withObj h (fun o ho => inv_cleanupTempFile h.obj ho) hs

theorem inv_run {s₀ s : System} {calls : List Call} (h₀ : Start s₀) (h : versionMachine.Run s₀ calls s) : Inv s :=
  h.invariant (I := Inv) (fun _ _ _ hi he hs => inv_step hi he hs) h₀.inv

/-- The file, loaded, has no create or delete timestamp after the checkpoint, and has every one
of the version's up to it. -/
def AsOfCheckpoint (file : Option (List UInt8)) (truth : BlockVersion) (c : Nat) : Prop :=
  ∃ bytes v, file = some bytes ∧ BlockVersion.loadFromFile bytes = some v ∧ v.Bounded c ∧
    (∀ f ∈ truth.created, f.createTs ≤ c → f ∈ v.created) ∧
    ∀ i t : Nat, truth.deleted[i]? = some t → t ≤ c → v.deleted[i]? = some t

theorem asOfCheckpoint_upTo {bytes : List UInt8} {truth : BlockVersion}
    (h : BlockVersion.loadFromFile bytes = some (truth.upTo c)) : AsOfCheckpoint (some bytes) truth c := by
  refine ⟨bytes, _, rfl, h, ⟨fun f hf => ?_, fun t ht => ?_⟩, fun f hf hle => ?_, fun i t hi hle => ?_⟩
  · exact of_decide_eq_true (mem_filter.mp hf).2
  · obtain ⟨old, -, rfl⟩ := mem_map.mp ht
    split <;> omega
  · exact mem_filter.mpr ⟨hf, decide_eq_true hle⟩
  · simp only [BlockVersion.upTo, getElem?_map, hi, Option.map_some, if_pos hle]

/-- **A save leaves the version as of its checkpoint exactly when it writes from memory or there
is nothing after the checkpoint to leave out.** -/
theorem saved_as_of_checkpoint {s₀ s s' : System} {calls : List Call} (h₀ : Start s₀) (h : versionMachine.Run s₀ calls s)
    {c : Nat} (hs : step s (.save c) = .ok s') :
    AsOfCheckpoint s'.obj.file s.truth c ↔ (s.obj.type = .ephemeral ∨ s.truth.Bounded c) := by
  have hinv := inv_run h₀ h
  cases ho : s.obj.save c with
  | error e =>
    simp only [step, ho, withObj] at hs
    cases hs
  | ok o =>
    simp only [step, ho, withObj] at hs
    cases hs
    obtain ⟨-, -, bytes, hfile, hload⟩ := save_spec hinv.obj hinv.sound ho
    show AsOfCheckpoint o.file s.truth c ↔ _
    rw [hfile]
    constructor
    · rintro ⟨bytes', v, hb, hv, hbound, -⟩
      cases hb
      by_cases htype : s.obj.type = .ephemeral
      · exact .inl htype
      · rw [decide_eq_true htype] at hload
        cases hload.symm.trans hv
        exact .inr hbound
    · intro hcond
      rw [BlockVersion.savedAt_eq_upTo fun hevicted => hcond.resolve_left (of_decide_eq_true hevicted)] at hload
      exact asOfCheckpoint_upTo hload

/-- A block with rows of timestamps 4 and 10 that is evicted before the checkpoint of 5: the
file has the row of timestamp 10. -/
theorem saved_ahead_of_checkpoint : ∃ s s', versionMachine.Run (newBlock 2) [.appendData 4 1, .appendData 10 1, .free] s ∧
    step s (.save 5) = .ok s' ∧ ¬ AsOfCheckpoint s'.obj.file s.truth 5 := by
  refine ⟨_, _, .cons ⟨by decide, by decide, by decide⟩ rfl <| .cons ⟨by decide, by decide, by decide⟩ rfl <|
    .cons rfl rfl <| .nil _, rfl, ?_⟩
  rintro ⟨bytes, v, hb, hv, hbound, -⟩
  cases hb
  have hload : v = ⟨[⟨4, 1⟩, ⟨10, 2⟩], [0, 0], 0⟩ := (Option.some.inj hv).symm
  exact absurd (hbound.1 ⟨10, 2⟩ (by rw [hload]; decide)) (by decide)

/-- The same block, saved while it is in memory. -/
theorem saved_as_of_checkpoint_memory : ∃ s s', versionMachine.Run (newBlock 2)
      [.appendData 4 1, .appendData 10 1, .free, .deleteData 12 [0]] s ∧
    step s (.save 5) = .ok s' ∧ AsOfCheckpoint s'.obj.file s.truth 5 := by
  have hrun : versionMachine.Run (newBlock 2) [.appendData 4 1, .appendData 10 1, .free, .deleteData 12 [0]] _ :=
    .cons ⟨by decide, by decide, by decide⟩ rfl <| .cons ⟨by decide, by decide, by decide⟩ rfl <|
      .cons rfl rfl <| .cons ⟨by decide, by decide⟩ rfl <| .nil _
  exact ⟨_, _, hrun, rfl, (saved_as_of_checkpoint (.new (by decide)) hrun rfl).mpr (.inl rfl)⟩

/-- **Nothing is lost in the buffer.** Whatever was evicted, spilled and saved before, a handle
can be taken, and it has every append and delete made so far. -/
theorem load_complete {s₀ s : System} {calls : List Call} (h₀ : Start s₀) (h : versionMachine.Run s₀ calls s)
    (hcap : s.rowCapacity ≠ 0) : ∃ o v, s.obj.load = .ok o ∧ o.data = some v ∧ SameContent v s.truth := by
  obtain ⟨hi, -, heq⟩ := inv_run h₀ h
  obtain ⟨o, ho⟩ : ∃ o, s.obj.load = .ok o := by
    cases hst : s.obj.status with
    | loaded | unloaded => simp [VersionObj.load, hst]
    | new => simp [VersionObj.load, hst, VersionObj.allocateInMemory, (hi.new hst).1, heq, hcap]
    | freed =>
      -- the file the object was evicted to holds the whole version
      obtain ⟨hdata, htype⟩ := hi.freed hst
      cases ht : s.obj.type with
      | ephemeral => exact absurd ht htype
      | temp =>
        obtain ⟨b, hb, hl⟩ := hi.temp ht
        simp [VersionObj.load, hst, ht, VersionObj.readFromFile, hb, hdata, hl]
      | persistent =>
        obtain ⟨b, hb, hl⟩ := hi.persistent ht
        simp [VersionObj.load, hst, ht, VersionObj.readFromFile, hb, hdata, hl]
  obtain ⟨hinv, hloaded, -⟩ := load_spec hi ho
  obtain ⟨v, hv, hsame, -⟩ := hinv.memory (.inl hloaded)
  exact ⟨o, v, ho, hv, hsame⟩

theorem load_complete_evicted : ∃ s o v, versionMachine.Run (newBlock 2) [.appendData 4 1, .free] s ∧
    s.obj.load = .ok o ∧ o.data = some v ∧ SameContent v s.truth := by
  have h : versionMachine.Run (newBlock 2) [.appendData 4 1, .free] _ :=
    .cons ⟨by decide, by decide, by decide⟩ rfl <| .cons rfl rfl <| .nil _
  obtain ⟨o, v, hload⟩ := load_complete (.new (by decide)) h (by decide)
  exact ⟨_, o, v, h, hload⟩

end Infinity.Buffer
