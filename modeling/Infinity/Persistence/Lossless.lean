import Infinity.Persistence.Manager

/-! What is persisted can be read back.

The invariant `Inv` ties the three things the manager keeps: the mapping from paths to
parts, the object files and the ranges that are deleted. It is stated of a mapping that
need not be the manager's own, since `Persist` cleans up the part of a path before it
replaces the mapping: in between, the invariant holds of the mapping without the path.

From the invariant no call fails but for an empty local path and for one reason more: the
room in the current object is looked up before the current size is rounded up, so an
append can reach the limit. `composition_lossless` says that parts can be read back and
are apart in every state reached, and when exactly an append stops the engine. -/
namespace Infinity.Persistence

open Lib List Function

/-! ### Alignment -/

theorem le_align (n : Nat) : n ≤ align n := by
  simp only [align, objAlignment]
  omega

theorem align_mono {m n : Nat} (h : m ≤ n) : align m ≤ align n := by
  simp only [align, objAlignment]
  omega

variable {addr : ObjAddr}

theorem slot_nonempty (h : 0 < addr.partSize) : addr.slot.start < addr.slot.stop :=
  lt_of_lt_of_le (Nat.lt_add_of_pos_right h) (le_align _)

/-! ### The invariant -/

/-- The supply has made the key. -/
def Created (keys : KeySupply) (m : Manager) (key : Key) : Prop := ∃ n < m.created, key = keys.objCreate n

/-- A part holds the bytes, and none of the part is deleted. -/
structure Part (m : Manager) (addr : ObjAddr) (bytes : Bytes) : Prop where
  nonempty : 0 < addr.partSize
  within : (addr.objKey = m.currentObjectKey ∧ addr.partOffset + addr.partSize ≤ m.currentObjectSize) ∨
    ∃ stat, m.objects addr.objKey = some stat ∧ addr.partOffset + addr.partSize ≤ stat.objSize ∧
      ∀ r ∈ stat.deletedRanges, r.intersect addr.slot = false
  read : m.readPart addr = some bytes

structure Inv (keys : KeySupply) (m : Manager) (paths : Path → Option ObjAddr) (persisted : Path → Option Bytes)
    (drops : List Key) : Prop where
  live : ∀ p addr, paths p = some addr → ∃ bytes, persisted p = some bytes ∧
    ((addr = ⟨keyEmpty, 0, 0⟩ ∧ bytes = []) ∨ Part m addr bytes)
  known : ∀ p bytes, persisted p = some bytes → ∃ addr, paths p = some addr
  apart : ∀ p q a b, paths p = some a → paths q = some b → p ≠ q → a.objKey = b.objKey → a.slot.intersect b.slot = false
  objects : ∀ key stat, m.objects key = some stat → Created keys m key ∧ key ≠ m.currentObjectKey ∧
    Separated stat.deletedRanges ∧ stat.refCount = 0
  current : Created keys m m.currentObjectKey
  currentFile : ((m.files m.currentObjectKey).getD []).length = m.currentObjectSize
  unreferenced : m.currentObjectRefCount = 0
  fresh : ∀ n, m.created ≤ n → m.files (keys.objCreate n) = none ∧ m.objects (keys.objCreate n) = none
  emptyFile : m.files keyEmpty = some []
  dropped : ∀ key ∈ drops, Created keys m key ∧ key ≠ m.currentObjectKey ∧ m.objects key = none

variable {cfg : Config} {keys : KeySupply} {m : Manager} {paths : Path → Option ObjAddr}
  {persisted : Path → Option Bytes} {drops : List Key}

theorem inv_init : Inv keys (init keys) (fun _ => none) (fun _ => none) [] where
  live := fun p addr h => by cases h
  known := fun p bytes h => by cases h
  apart := fun p q a b h => by cases h
  objects := fun key stat h => by cases h
  current := ⟨0, Nat.zero_lt_one, rfl⟩
  currentFile := by simp [init, update_of_ne (keys.ne_keyEmpty 0)]
  unreferenced := rfl
  fresh := fun n _ => by simp [init, update_of_ne (keys.ne_keyEmpty n)]
  emptyFile := by simp [init]
  dropped := fun key h => by cases h

variable {key : Key}

theorem Created.ne_keyEmpty (h : Created keys m key) : key ≠ keyEmpty := by
  obtain ⟨n, -, rfl⟩ := h
  exact keys.ne_keyEmpty n

theorem Created.ne_objCreate (h : Created keys m key) {n : Nat} (hn : m.created ≤ n) : key ≠ keys.objCreate n := by
  obtain ⟨k, hk, rfl⟩ := h
  intro heq
  have := keys.injective heq
  omega

variable {bytes : Bytes}

theorem Part.created (hp : Part m addr bytes) (h : Inv keys m paths persisted drops) : Created keys m addr.objKey := by
  rcases hp.within with ⟨hk, -⟩ | ⟨stat, hs, -⟩
  · rw [hk]
    exact h.current
  · exact (h.objects _ _ hs).1

theorem Inv.forget (h : Inv keys m paths persisted drops) (p : Path) :
    Inv keys m (update paths p none) (update persisted p none) drops := by
  refine {h with live := fun q addr hq => ?_, known := fun q bytes hq => ?_, apart := fun q q' a b hq hq' => ?_}
  · obtain ⟨hqp, hq⟩ := update_none_eq_some.mp hq
    rw [update_of_ne hqp]
    exact h.live q addr hq
  · obtain ⟨hqp, hq⟩ := update_none_eq_some.mp hq
    rw [update_of_ne hqp]
    exact h.known q bytes hq
  · exact h.apart q q' a b (update_none_eq_some.mp hq).2 (update_none_eq_some.mp hq').2

variable {p : Path}

theorem Inv.setPath (h : Inv keys m paths persisted drops)
    (hnew : (addr = ⟨keyEmpty, 0, 0⟩ ∧ bytes = []) ∨ Part m addr bytes)
    (hapart : ∀ q b, q ≠ p → paths q = some b → b.objKey = addr.objKey → b.slot.intersect addr.slot = false) :
    Inv keys m (update paths p (some addr)) (update persisted p (some bytes)) drops := by
  refine {h with live := fun q a hq => ?_, known := fun q bs hq => ?_, apart := fun q q' a b hq hq' hne hkey => ?_}
  · obtain ⟨rfl, ha⟩ | ⟨hqp, hq⟩ := update_cases hq
    · cases ha
      exact ⟨bytes, update_self .., hnew⟩
    · rw [update_of_ne hqp]
      exact h.live q a hq
  · obtain ⟨rfl, -⟩ | ⟨hqp, hq⟩ := update_cases hq
    · exact ⟨addr, update_self ..⟩
    · rw [update_of_ne hqp]
      exact h.known q bs hq
  · obtain ⟨rfl, ha⟩ | ⟨hqp, ha⟩ := update_cases hq <;> obtain ⟨rfl, hb⟩ | ⟨hqp', hb⟩ := update_cases hq'
    · exact absurd rfl hne
    · cases ha
      rw [Range.intersect_comm]
      exact hapart q' b hqp' hb hkey.symm
    · cases hb
      exact hapart q a hqp ha hkey
    · exact h.apart q q' a b ha hb hne hkey

variable {m' : Manager}

theorem Inv.live_of (h : Inv keys m paths persisted drops)
    (hpart : ∀ p addr bytes, paths p = some addr → Part m addr bytes → Part m' addr bytes) (p : Path)
    (addr : ObjAddr) (hp : paths p = some addr) :
    ∃ bytes, persisted p = some bytes ∧ ((addr = ⟨keyEmpty, 0, 0⟩ ∧ bytes = []) ∨ Part m' addr bytes) := by
  obtain ⟨bytes, hb, hempty | hlive⟩ := h.live p addr hp
  · exact ⟨bytes, hb, .inl hempty⟩
  · exact ⟨bytes, hb, .inr (hpart p addr bytes hp hlive)⟩

theorem Inv.withPaths (h : Inv keys m paths persisted drops) (f : Path → Option ObjAddr) :
    Inv keys {m with localPathObj := f} paths persisted drops :=
  ⟨h.live_of fun _ _ _ _ hp => ⟨hp.nonempty, hp.within, hp.read⟩, h.known, h.apart, h.objects, h.current, h.currentFile,
    h.unreferenced, h.fresh, h.emptyFile, h.dropped⟩

theorem readPart_congr {m m' : Manager} (h : m'.files addr.objKey = m.files addr.objKey) :
    m'.readPart addr = m.readPart addr := by
  simp only [Manager.readPart, h]

theorem readPart_eq_some : m.readPart addr = some bytes ↔ ∃ file, m.files addr.objKey = some file ∧
      addr.partOffset + addr.partSize ≤ file.length ∧ (file.drop addr.partOffset).take addr.partSize = bytes := by
  simp only [Manager.readPart]
  cases m.files addr.objKey with
  | none => simp
  | some file => simp

theorem readPart_grow {m m' : Manager} (more : Bytes)
    (hfile : m'.files addr.objKey = some ((m.files addr.objKey).getD [] ++ more))
    (h : m.readPart addr = some bytes) : m'.readPart addr = some bytes := by
  obtain ⟨file, hf, hle, hread⟩ := readPart_eq_some.mp h
  rw [hf, Option.getD_some] at hfile
  refine readPart_eq_some.mpr ⟨_, hfile, ?_, ?_⟩
  · rw [length_append]
    exact Nat.le_add_right_of_le hle
  · rw [drop_append_of_le_length (by omega), take_append_of_le_length, hread]
    rw [length_drop]
    omega

theorem Created.mono (h : Created keys m key) (hle : m.created ≤ m'.created) : Created keys m' key := by
  obtain ⟨n, hn, hk⟩ := h
  exact ⟨n, lt_of_lt_of_le hn hle, hk⟩

variable {stat : ObjStat}

/-! ### Finalizing the current object -/

theorem inv_finalized (h : Inv keys m paths persisted drops)
    (hstat : stat.objSize = m.currentObjectSize ∧ stat.refCount = m.currentObjectRefCount ∧ stat.deletedRanges = [])
    (hobjects : m'.objects = update m.objects m.currentObjectKey (some stat))
    (hread : ∀ addr bytes, m.readPart addr = some bytes → m'.readPart addr = some bytes)
    (hfiles : ∀ key, key ≠ m.currentObjectKey → m'.files key = m.files key)
    (hkey : m'.currentObjectKey = keys.objCreate m.created) (hcreated : m'.created = m.created + 1)
    (hsize : m'.currentObjectSize = 0) (href : m'.currentObjectRefCount = 0) :
    Inv keys m' paths persisted drops := by
  have hlt : m.created ≤ m'.created := by omega
  have hold : ∀ {key}, Created keys m key → key ≠ m'.currentObjectKey := by
    intro key hc
    rw [hkey]
    exact hc.ne_objCreate le_rfl
  have hcur : ∀ n, m.created ≤ n → keys.objCreate n ≠ m.currentObjectKey := fun n hn => (h.current.ne_objCreate hn).symm
  refine ⟨h.live_of fun p addr bytes _ hp => ?_, h.known, h.apart, fun key st hs => ?_, ?_, ?_, href,
    fun n hn => ?_, ?_, fun key hd => ?_⟩
  · refine ⟨hp.nonempty, .inr ?_, hread addr bytes hp.read⟩
    rw [hobjects]
    rcases hp.within with ⟨hk, hle⟩ | ⟨st, hst, hle, hdel⟩
    · refine ⟨stat, by rw [hk, update_self], by rwa [hstat.1], fun r hr => ?_⟩
      simp [hstat.2.2] at hr
    · exact ⟨st, by rwa [update_of_ne (h.objects _ _ hst).2.1], hle, hdel⟩
  · rw [hobjects] at hs
    obtain ⟨rfl, hst⟩ | ⟨hk, hs⟩ := update_cases hs
    · cases hst
      rw [hstat.2.2, hstat.2.1]
      exact ⟨h.current.mono hlt, hold h.current, ⟨.nil, fun r hr => by cases hr⟩, h.unreferenced⟩
    · obtain ⟨hc, -, hrest⟩ := h.objects key st hs
      exact ⟨hc.mono hlt, hold hc, hrest⟩
  · rw [hkey]
    exact ⟨m.created, by omega, rfl⟩
  · rw [hkey, hfiles _ (hcur _ le_rfl), (h.fresh _ le_rfl).1, hsize]
    rfl
  · have hn' : m.created ≤ n := by omega
    rw [hfiles _ (hcur n hn'), hobjects, update_of_ne (hcur n hn')]
    exact h.fresh n hn'
  · rw [hfiles _ h.current.ne_keyEmpty.symm]
    exact h.emptyFile
  · obtain ⟨hc, hk, hnone⟩ := h.dropped key hd
    rw [hobjects, update_of_ne hk]
    exact ⟨hc.mono hlt, hold hc, hnone⟩

theorem finalize_spec (h : Inv keys m paths persisted drops) (r : WriteResult) :
    ∃ m' r', m.currentObjFinalizeNoLock keys r = .ok (m', r') ∧ Inv keys m' paths persisted drops ∧
      r'.dropFromRemoteKeys = r.dropFromRemoteKeys ∧ m'.localPathObj = m.localPathObj ∧ m'.currentObjectSize = 0 ∧
      (0 < m.currentObjectSize → m'.currentObjectKey ≠ m.currentObjectKey) := by
  have hcur : m.objects m.currentObjectKey = none :=
    Option.eq_none_iff_forall_ne_some.mpr fun stat hc => absurd rfl (h.objects _ _ hc).2.1
  by_cases hsize : m.currentObjectSize > 0
  · simp only [Manager.currentObjFinalizeNoLock, if_pos hsize, putNew, hcur]
    refine ⟨_, _, rfl, ?_, rfl, rfl, rfl, fun _ => (h.current.ne_objCreate le_rfl).symm⟩
    refine inv_finalized h ⟨rfl, rfl, rfl⟩ rfl (fun addr bytes hread => ?_) (fun key hk => ?_) rfl rfl rfl rfl
    · by_cases hparts : m.currentObjectParts > 1
      · by_cases hk : addr.objKey = m.currentObjectKey
        · refine readPart_grow composeFormat ?_ hread
          simp only [if_pos hparts, hk, update_self]
        · rwa [readPart_congr (m := m) (by simp only [if_pos hparts, update_of_ne hk])]
      · rwa [readPart_congr (m := m) (by simp [if_neg hparts])]
    · by_cases hparts : m.currentObjectParts > 1
      · simp only [if_pos hparts, update_of_ne hk]
      · simp [if_neg hparts]
  · rw [Manager.currentObjFinalizeNoLock, if_neg hsize]
    exact ⟨m, r, rfl, h, rfl, rfl, by omega, fun h => absurd h hsize⟩

/-! ### Appending to the current object -/

theorem padded_eq (old : Bytes) (size : Nat) :
    (if old.length < size then old ++ replicate (size - old.length) 0 else old) =
      old ++ replicate (size - old.length) 0 := by
  split
  · rfl
  · rw [Nat.sub_eq_zero_of_le (by omega), replicate_zero, append_nil]

/-- The part that is appended, and where it is put. -/
def Manager.appendedAddr (m : Manager) (src : Bytes) : ObjAddr :=
  ⟨m.currentObjectKey, align m.currentObjectSize, src.length⟩

variable {src : Bytes}

theorem inv_appended (h : Inv keys m paths persisted drops) (hsrc : 0 < src.length)
    {pad : Nat} (hpad : m.currentObjectSize + pad = align m.currentObjectSize) (p : Path)
    (hfiles : m'.files = update m.files m.currentObjectKey
      (some ((m.files m.currentObjectKey).getD [] ++ replicate pad 0 ++ src)))
    (hobjects : m'.objects = m.objects) (hkey : m'.currentObjectKey = m.currentObjectKey)
    (hcreated : m'.created = m.created) (hsize : m'.currentObjectSize = align m.currentObjectSize + src.length)
    (href : m'.currentObjectRefCount = m.currentObjectRefCount) :
    Inv keys m' (update paths p (some (m.appendedAddr src))) (update persisted p (some src)) drops := by
  have hle := le_align m.currentObjectSize
  have hcr : ∀ {key}, Created keys m key → Created keys m' key := fun hc => hc.mono (by omega)
  have hpart : ∀ addr bytes, Part m addr bytes → Part m' addr bytes := by
    intro addr bytes hp
    refine ⟨hp.nonempty, ?_, ?_⟩
    · rw [hkey, hobjects]
      rcases hp.within with ⟨hk, hw⟩ | hw
      · exact .inl ⟨hk, by omega⟩
      · exact .inr hw
    · by_cases hk : addr.objKey = m.currentObjectKey
      · refine readPart_grow (replicate pad 0 ++ src) ?_ hp.read
        rw [hfiles, hk, update_self, append_assoc]
      · rw [readPart_congr (m := m) (by rw [hfiles, update_of_ne hk])]
        exact hp.read
  have hmoved : Inv keys m' paths persisted drops := by
    refine ⟨h.live_of fun _ addr bytes _ => hpart addr bytes, h.known, h.apart, fun key st hs => ?_, ?_, ?_,
      href.trans h.unreferenced, fun n hn => ?_, ?_, fun key hd => ?_⟩
    · rw [hobjects] at hs
      obtain ⟨hc, hk, hrest⟩ := h.objects key st hs
      exact ⟨hcr hc, by rwa [hkey], hrest⟩
    · rw [hkey]
      exact hcr h.current
    · have hlen := h.currentFile
      rw [hkey, hfiles, update_self, Option.getD_some, hsize, length_append, length_append, length_replicate]
      omega
    · have hn' : m.created ≤ n := by omega
      rw [hfiles, update_of_ne (h.current.ne_objCreate hn').symm, hobjects]
      exact h.fresh n hn'
    · rw [hfiles, update_of_ne h.current.ne_keyEmpty.symm]
      exact h.emptyFile
    · rw [hkey, hobjects]
      obtain ⟨hc, hrest⟩ := h.dropped key hd
      exact ⟨hcr hc, hrest⟩
  refine hmoved.setPath (.inr ⟨hsrc, .inl ⟨hkey.symm, by rw [hsize]; exact le_rfl⟩, ?_⟩) ?_
  · have hlen : ((m.files m.currentObjectKey).getD [] ++ replicate pad 0).length = align m.currentObjectSize := by
      rw [length_append, length_replicate, h.currentFile, hpad]
    refine readPart_eq_some.mpr ⟨_, by rw [hfiles]; exact update_self _ _ _, ?_, ?_⟩
    · rw [length_append, hlen]
      exact le_rfl
    · show (drop (align m.currentObjectSize) _).take src.length = src
      rw [← hlen, drop_left, take_length]
  · intro q b _ hq hbk
    -- the other parts of the current object end before the current size
    have hbk' : b.objKey = m.currentObjectKey := hbk
    obtain ⟨bytes, -, ⟨rfl, -⟩ | hb⟩ := h.live q b hq
    · exact absurd hbk'.symm h.current.ne_keyEmpty
    have hend : b.partOffset + b.partSize ≤ m.currentObjectSize := by
      rcases hb.within with ⟨-, hw⟩ | ⟨st, hs, -⟩
      · exact hw
      · exact absurd hbk' (h.objects _ _ hs).2.1
    have hstop : b.slot.stop ≤ (m.appendedAddr src).slot.start := align_mono hend
    rw [← Bool.not_eq_true, Range.intersect_eq_true]
    omega

/-- Rounding the current size up and appending: the limit is the only thing that can fail. -/
theorem append_spec (cfg : Config) (h : Inv keys m paths persisted drops) (hsrc : 0 < src.length) (p : Path) :
    (align m.currentObjectSize + src.length < cfg.objectSizeLimit ∧
      ∃ m', {m with currentObjectSize := align m.currentObjectSize}.currentObjAppendNoLock cfg src = .ok m' ∧
        m'.localPathObj = m.localPathObj ∧
        Inv keys (m'.setPath p (m.appendedAddr src)) (update paths p (some (m.appendedAddr src)))
          (update persisted p (some src)) drops) ∨
    (cfg.objectSizeLimit ≤ align m.currentObjectSize + src.length ∧
      {m with currentObjectSize := align m.currentObjectSize}.currentObjAppendNoLock cfg src =
        .error (.exceedsLimit m.currentObjectKey (align m.currentObjectSize + src.length) cfg.objectSizeLimit)) := by
  rcases lt_or_ge (align m.currentObjectSize + src.length) cfg.objectSizeLimit with hlt | hge
  · refine .inl ⟨hlt, ?_⟩
    simp only [Manager.currentObjAppendNoLock, if_neg (Nat.not_le_of_lt hlt), padded_eq, copyFile_eq]
    refine ⟨_, rfl, rfl, inv_appended h hsrc ?_ p rfl rfl rfl rfl rfl rfl⟩
    have := le_align m.currentObjectSize
    rw [h.currentFile]
    omega
  · refine .inr ⟨hge, ?_⟩
    simp only [Manager.currentObjAppendNoLock, if_pos hge]

/-! ### Cleaning up a part -/

theorem inv_updateObject (h : Inv keys m paths persisted drops)
    (hstat : m.objects key = some stat) {o : Option ObjStat} {drops' : List Key}
    (hlive : ∀ q b, paths q = some b → b.objKey = key → ∃ st, o = some st ∧ st.objSize = stat.objSize ∧
      ∀ a ∈ st.deletedRanges, a.intersect b.slot = false)
    (hok : ∀ st, o = some st → Separated st.deletedRanges ∧ st.refCount = 0)
    (hdrops : ∀ k ∈ drops', k ∈ drops ∨ (k = key ∧ o = none)) :
    Inv keys {m with objects := update m.objects key o} paths persisted drops' := by
  obtain ⟨hcreated, hkey, -⟩ := h.objects key stat hstat
  refine ⟨h.live_of fun q b bytes hq hp => ⟨hp.nonempty, ?_, hp.read⟩, h.known, h.apart, fun k st hs => ?_, h.current,
    h.currentFile, h.unreferenced, fun n hn => ⟨(h.fresh n hn).1, ?_⟩, h.emptyFile, fun k hd => ?_⟩
  · rcases hp.within with hw | ⟨st, hs, hend, hdel⟩
    · exact .inl hw
    · refine .inr ?_
      by_cases hk : b.objKey = key
      · rw [hk, hstat] at hs
        cases hs
        obtain ⟨st, ho, hsize, hdel'⟩ := hlive q b hq hk
        exact ⟨st, by simp only [hk, update_self, ho], by rwa [hsize], hdel'⟩
      · exact ⟨st, by simp only [update_of_ne hk, hs], hend, hdel⟩
  · obtain ⟨rfl, hst⟩ | ⟨hk, hs⟩ := update_cases hs
    · exact ⟨hcreated, hkey, hok st hst⟩
    · exact h.objects k st hs
  · simp only [update_of_ne (hcreated.ne_objCreate hn).symm]
    exact (h.fresh n hn).2
  · rcases hdrops k hd with hd | ⟨rfl, ho⟩
    · obtain ⟨hc, hk, hnone⟩ := h.dropped k hd
      have hne : k ≠ key := fun he => by rw [he, hstat] at hnone; cases hnone
      exact ⟨hc, hk, by simp only [update_of_ne hne, hnone]⟩
    · exact ⟨hcreated, hkey, by simp [ho]⟩

variable {r : WriteResult}

section
variable (h : Inv keys m paths persisted (drops ++ r.dropFromRemoteKeys))
include h

theorem deleteRange_spec (hstat : m.objects addr.objKey = some stat) (hsize : 0 < addr.partSize)
    (hdel : ∀ a ∈ stat.deletedRanges, a.intersect addr.slot = false)
    (hapart : ∀ q b, paths q = some b → b.objKey = addr.objKey → b.slot.intersect addr.slot = false)
    (checkRefCount : Bool) :
    ∃ m' r', m.deleteRange addr stat r checkRefCount = .ok (m', r') ∧
      Inv keys m' paths persisted (drops ++ r'.dropFromRemoteKeys) ∧ m'.localPathObj = m.localPathObj ∧
      m'.currentObjectSize = m.currentObjectSize := by
  obtain ⟨hcreated, hkey, hsep, href⟩ := h.objects _ _ hstat
  obtain ⟨l', merged, hins, hsep', hmem, hcov⟩ := insertMerging_spec hsep (slot_nonempty hsize) hdel
  have hpart : ∀ q b, paths q = some b → b.objKey = addr.objKey → 0 < b.partSize ∧
      b.partOffset + b.partSize ≤ stat.objSize ∧ ∀ a ∈ stat.deletedRanges, a.intersect b.slot = false := by
    intro q b hq hk
    obtain ⟨bytes, -, ⟨rfl, -⟩ | hp⟩ := h.live q b hq
    · exact absurd hk.symm hcreated.ne_keyEmpty
    rcases hp.within with ⟨hk', -⟩ | ⟨st, hs, hend, hdel'⟩
    · exact absurd (hk.symm.trans hk') hkey
    rw [hk, hstat] at hs
    cases hs
    exact ⟨hp.nonempty, hend, hdel'⟩
  -- no byte of a part that is still live is deleted, before or now
  have hfree : ∀ q b, paths q = some b → b.objKey = addr.objKey → ∀ x, b.slot.Contains x → ¬ Covered l' x := by
    intro q b hq hk x hx hc
    rcases (hcov x).mp hc with ⟨a, ha, hax⟩ | hax
    · exact Range.not_contains_both ((hpart q b hq hk).2.2 a ha) hax hx
    · exact Range.not_contains_both (hapart q b hq hk) hx hax
  have hkept : Inv keys {m with objects := update m.objects addr.objKey (some {stat with deletedRanges := l'})}
      paths persisted (drops ++ r.dropFromRemoteKeys) := by
    refine inv_updateObject h hstat (fun q b hq hk => ⟨_, rfl, rfl, fun a ha => ?_⟩) (fun st hs => ?_) (fun k hk => .inl hk)
    · rw [← Bool.not_eq_true]
      intro hi
      obtain ⟨x, hax, hbx⟩ := Range.exists_contains_both hi (hsep'.nonempty a ha) (slot_nonempty (hpart q b hq hk).1)
      exact hfree q b hq hk x hbx ⟨a, ha, hax⟩
    · cases hs
      exact ⟨hsep', href⟩
  simp only [Manager.deleteRange, hins]
  split
  · rename_i hall
    have hnil : addr.objKey ≠ [] := by
      obtain ⟨n, -, hn⟩ := hcreated
      rw [hn]
      exact keys.ne_nil n
    rw [if_neg hnil, if_neg (fun hc => by omega)]
    refine ⟨_, _, rfl, ?_, rfl, rfl⟩
    refine inv_updateObject h hstat (fun q b hq hk => ?_) (fun st hs => by cases hs) (fun k hk => ?_)
    · -- a live part of the object would have a byte outside the deleted range
      obtain ⟨hpos, hend, -⟩ := hpart q b hq hk
      refine absurd ⟨merged, hmem, ?_⟩ (hfree q b hq hk b.partOffset ⟨le_rfl, slot_nonempty hpos⟩)
      have := le_align stat.objSize
      exact ⟨by omega, by omega⟩
    · rcases mem_append.mp hk with hk | hk
      · exact .inl (mem_append_left _ hk)
      · rcases mem_append.mp hk with hk | hk
        · exact .inl (mem_append_right _ hk)
        · exact .inr ⟨mem_singleton.mp hk, rfl⟩
  · exact ⟨_, _, rfl, hkept, rfl, rfl⟩

theorem cleanupFinalized_spec (hp : paths p = some addr) (hstat : m.objects addr.objKey = some stat)
    (checkRefCount : Bool) :
    ∃ m' r', m.deleteRange addr stat r checkRefCount = .ok (m', r') ∧
      Inv keys m' (update paths p none) (update persisted p none) (drops ++ r'.dropFromRemoteKeys) ∧
      m'.localPathObj = m.localPathObj ∧ m'.currentObjectSize = m.currentObjectSize := by
  obtain ⟨hcreated, hkey, -⟩ := h.objects _ _ hstat
  obtain ⟨bytes, -, ⟨rfl, -⟩ | hpart⟩ := h.live p addr hp
  · exact absurd rfl hcreated.ne_keyEmpty
  rcases hpart.within with ⟨hk, -⟩ | ⟨st, hs, -, hdel⟩
  · exact absurd hk hkey
  rw [hstat] at hs
  cases hs
  refine deleteRange_spec (h.forget p) hstat hpart.nonempty hdel (fun q b hq hk => ?_) checkRefCount
  obtain ⟨hqp, hq⟩ := update_none_eq_some.mp hq
  exact h.apart q p b addr hq hp hqp hk

/-- The current size once the part at the address has been cleaned up: a part of the current
object takes the object with it. -/
def Manager.sizeWithout (m : Manager) (addr : ObjAddr) : Nat :=
  if addr.objKey = m.currentObjectKey then 0 else m.currentObjectSize

theorem cleanupNoLock_spec (hp : paths p = some addr) (checkRefCount : Bool) :
    ∃ m' r', m.cleanupNoLock keys addr r checkRefCount = .ok (m', r') ∧
      Inv keys m' (update paths p none) (update persisted p none) (drops ++ r'.dropFromRemoteKeys) ∧
      m'.localPathObj = m.localPathObj ∧ m'.currentObjectSize = m.sizeWithout addr := by
  obtain ⟨bytes, -, hpart⟩ := h.live p addr hp
  cases hstat : m.objects addr.objKey with
  | some stat =>
    obtain ⟨m', r', hok, hinv, hpaths, hsize⟩ := cleanupFinalized_spec h hp hstat checkRefCount
    simp only [Manager.cleanupNoLock, hstat]
    exact ⟨m', r', hok, hinv, hpaths, by rw [hsize, Manager.sizeWithout, if_neg (h.objects _ _ hstat).2.1]⟩
  | none =>
    simp only [Manager.cleanupNoLock, hstat]
    rcases hpart with ⟨rfl, -⟩ | hpart
    · exact ⟨m, r, if_pos rfl, h.forget p, rfl, by rw [Manager.sizeWithout, if_neg h.current.ne_keyEmpty.symm]⟩
    rcases hpart.within with ⟨hk, hend⟩ | ⟨st, hs, -⟩
    · have hpos : 0 < m.currentObjectSize := lt_of_lt_of_le (by have := hpart.nonempty; omega) hend
      obtain ⟨m₁, r₁, hfin, hinv₁, hdrops, hpaths₁, hsize₁, hkey₁⟩ := finalize_spec h r
      rw [if_neg (by rw [hk]; exact h.current.ne_keyEmpty), if_pos hk, hfin]
      rw [← hdrops] at hinv₁
      obtain ⟨bytes', -, ⟨rfl, -⟩ | hpart₁⟩ := hinv₁.live p addr hp
      · exact absurd hk.symm h.current.ne_keyEmpty
      rcases hpart₁.within with ⟨hk', -⟩ | ⟨st, hs, -⟩
      · exact absurd (hk'.symm.trans hk) (hkey₁ hpos)
      obtain ⟨m', r', hok, hinv, hpaths, hsize⟩ := cleanupFinalized_spec hinv₁ hp hs checkRefCount
      simp only [hs]
      exact ⟨m', r', hok, hinv, hpaths.trans hpaths₁, by rw [hsize, hsize₁, Manager.sizeWithout, if_pos hk]⟩
    · simp [hstat] at hs

end

/-! ### An object of its own -/

theorem inv_dedicated (h : Inv keys m paths persisted drops) (hsrc : 0 < src.length) (p : Path)
    (hobjects : m'.objects = update m.objects (keys.objCreate m.created) (some ⟨src.length, 1, 0, []⟩))
    (hfiles : m'.files = update m.files (keys.objCreate m.created) (some src))
    (hkey : m'.currentObjectKey = m.currentObjectKey) (hcreated : m'.created = m.created + 1)
    (hsize : m'.currentObjectSize = m.currentObjectSize) (href : m'.currentObjectRefCount = m.currentObjectRefCount) :
    Inv keys m' (update paths p (some ⟨keys.objCreate m.created, 0, src.length⟩))
      (update persisted p (some src)) drops := by
  have hne : ∀ {key}, Created keys m key → key ≠ keys.objCreate m.created := fun hc => hc.ne_objCreate le_rfl
  have hcr : ∀ {key}, Created keys m key → Created keys m' key := fun hc => hc.mono (by omega)
  have hmoved : Inv keys m' paths persisted drops := by
    refine ⟨h.live_of fun q b bytes hq hp => ?_, h.known, h.apart, fun k st hs => ?_, ?_, ?_, href.trans h.unreferenced,
      fun n hn => ?_, ?_, fun k hd => ?_⟩
    · have hk := hne (hp.created h)
      refine ⟨hp.nonempty, ?_, ?_⟩
      · rw [hkey, hsize, hobjects, update_of_ne hk]
        exact hp.within
      · rw [readPart_congr (m := m) (by rw [hfiles, update_of_ne hk])]
        exact hp.read
    · rw [hobjects] at hs
      obtain ⟨rfl, hst⟩ | ⟨hk, hs⟩ := update_cases hs
      · cases hst
        rw [hkey]
        exact ⟨⟨m.created, by omega, rfl⟩, (hne h.current).symm, ⟨.nil, fun r hr => by cases hr⟩, rfl⟩
      · obtain ⟨hc, hrest⟩ := h.objects k st hs
        exact ⟨hcr hc, by rwa [hkey]⟩
    · rw [hkey]
      exact hcr h.current
    · rw [hkey, hfiles, update_of_ne (hne h.current), hsize]
      exact h.currentFile
    · have hn' : keys.objCreate n ≠ keys.objCreate m.created := fun he => by
        have := keys.injective he
        omega
      rw [hfiles, hobjects, update_of_ne hn', update_of_ne hn']
      exact h.fresh n (by omega)
    · rw [hfiles, update_of_ne (keys.ne_keyEmpty _).symm]
      exact h.emptyFile
    · obtain ⟨hc, hk, hnone⟩ := h.dropped k hd
      rw [hkey, hobjects, update_of_ne (hne hc)]
      exact ⟨hcr hc, hk, hnone⟩
  refine hmoved.setPath (.inr ⟨hsrc, .inr ?_, ?_⟩) (fun q b _ hq hk => ?_)
  · exact ⟨_, by rw [hobjects]; exact update_self _ _ _, by simp, fun r hr => by cases hr⟩
  · refine readPart_eq_some.mpr ⟨src, by rw [hfiles]; exact update_self _ _ _, by simp, by simp⟩
  · obtain ⟨bytes, -, ⟨rfl, -⟩ | hb⟩ := h.live q b hq
    · exact absurd hk.symm (keys.ne_keyEmpty _)
    · exact absurd hk (hne (hb.created h))

theorem dedicated_spec (h : Inv keys m paths persisted (drops ++ r.dropFromRemoteKeys)) (p : Path)
    (hsrc : 0 < src.length) :
    ∃ m' r' addr, m.persistDedicated keys p src r = .ok (m', r') ∧
      m'.localPathObj = update m.localPathObj p (some addr) ∧
      Inv keys m' (update paths p (some addr)) (update persisted p (some src)) (drops ++ r'.dropFromRemoteKeys) := by
  have hnone := (h.fresh m.created le_rfl).2
  simp only [Manager.persistDedicated, putNew, hnone]
  refine ⟨_, _, _, rfl, rfl, ?_⟩
  exact inv_dedicated h hsrc p rfl rfl rfl rfl rfl rfl

/-! ### Whole calls -/

/-- The current size that `Persist` sees, after it has cleaned up the path. -/
def Manager.sizeSeen (m : Manager) (localPath : Path) : Nat :=
  match m.localPathObj localPath with
  | some addr => m.sizeWithout addr
  | none => m.currentObjectSize

theorem cleanupOld_spec (h : Inv keys m m.localPathObj persisted drops) (p : Path) :
    ∃ m' r', m.cleanupOld keys p = .ok (m', r') ∧ m'.localPathObj = m.localPathObj ∧
      Inv keys m' (update m.localPathObj p none) (update persisted p none)
        (drops ++ r'.dropFromRemoteKeys) ∧ m'.currentObjectSize = m.sizeSeen p := by
  cases hp : m.localPathObj p with
  | none =>
    simp only [Manager.cleanupOld, Manager.sizeSeen, hp]
    exact ⟨m, {}, rfl, rfl, by rw [append_nil]; exact h.forget p, rfl⟩
  | some addr =>
    simp only [Manager.cleanupOld, Manager.sizeSeen, hp]
    obtain ⟨m', r', hok, hinv, hpaths, hsize⟩ := cleanupNoLock_spec (r := {}) (by rwa [append_nil]) hp false
    exact ⟨m', r', hok, hpaths, hinv, hsize⟩

/-- The composing branch finds room: it starts a new object, or the file fits behind the
padding. -/
def RoomFor (cfg : Config) (size : Nat) (src : Bytes) : Prop :=
  (toInt cfg.objectSizeLimit - toInt size).sle (toInt src.length) = true ∨ align size + src.length < cfg.objectSizeLimit

theorem composed_spec (h : Inv keys m paths persisted (drops ++ r.dropFromRemoteKeys)) (p : Path)
    (hsrc : 0 < src.length) (hlimit : src.length < cfg.objectSizeLimit) :
    (RoomFor cfg m.currentObjectSize src ∧ ∃ m' r' addr, m.persistComposed cfg keys p src r = .ok (m', r') ∧
      m'.localPathObj = update m.localPathObj p (some addr) ∧
      Inv keys m' (update paths p (some addr)) (update persisted p (some src)) (drops ++ r'.dropFromRemoteKeys)) ∨
    (¬ RoomFor cfg m.currentObjectSize src ∧ ∃ key size,
      m.persistComposed cfg keys p src r = .error (.exceedsLimit key size cfg.objectSizeLimit)) := by
  by_cases hroom : (m.currentObjRoomNoLock cfg).sle (toInt src.length) = true
  · left
    refine ⟨.inl hroom, ?_⟩
    obtain ⟨m₁, r₁, hfin, hinv, hdrops, hpaths, hsize, -⟩ := finalize_spec h r
    rw [← hdrops] at hinv
    have hfits : align m₁.currentObjectSize + src.length < cfg.objectSizeLimit := by
      rw [hsize]
      simpa [align, objAlignment] using hlimit
    rcases append_spec cfg hinv hsrc p with ⟨-, m', hok, hpaths', hinv'⟩ | ⟨hge, -⟩
    · simp only [Manager.persistComposed, if_pos hroom, hfin, hok]
      refine ⟨_, _, _, rfl, ?_, hinv'⟩
      simp only [Manager.setPath, hpaths', hpaths]
      rfl
    · omega
  · have hiff : RoomFor cfg m.currentObjectSize src ↔ align m.currentObjectSize + src.length < cfg.objectSizeLimit :=
      or_iff_right hroom
    rw [hiff]
    rcases append_spec cfg h hsrc p with ⟨hlt, m', hok, hpaths, hinv⟩ | ⟨hge, herr⟩
    · left
      refine ⟨hlt, ?_⟩
      simp only [Manager.persistComposed, if_neg hroom, hok]
      refine ⟨_, _, _, rfl, ?_, hinv⟩
      simp only [Manager.setPath, hpaths]
      rfl
    · right
      refine ⟨Nat.not_lt_of_le hge, ?_⟩
      simp only [Manager.persistComposed, if_neg hroom, herr]
      exact ⟨_, _, rfl⟩

/-- A call of `Persist` gets past the room check: it does not reach the append, or there is
room for the file. -/
def HasRoom (cfg : Config) (m : Manager) (filePath : Path) (src : Bytes) (tryCompose : Bool) : Prop :=
  removePrefix cfg filePath = [] ∨ src.length = 0 ∨ tryCompose = false ∨ cfg.objectSizeLimit ≤ src.length ∨
    RoomFor cfg (m.sizeSeen (removePrefix cfg filePath)) src

/-- `Persist` keeps the invariant, or finds no local path, or finds no room. -/
theorem persist_spec (cfg : Config) (h : Inv keys m m.localPathObj persisted drops) (filePath : Path) (src : Bytes) (tryCompose : Bool) :
    (removePrefix cfg filePath = [] ∧ m.persist cfg keys filePath src tryCompose = .error (.noLocalPath [])) ∨
    (HasRoom cfg m filePath src tryCompose ∧ ∃ m' r', m.persist cfg keys filePath src tryCompose = .ok (m', r') ∧
      Inv keys m' m'.localPathObj (update persisted (removePrefix cfg filePath) (some src))
        (drops ++ r'.dropFromRemoteKeys)) ∨
    (¬ HasRoom cfg m filePath src tryCompose ∧ ∃ key size,
      m.persist cfg keys filePath src tryCompose = .error (.exceedsLimit key size cfg.objectSizeLimit)) := by
  by_cases hpath : removePrefix cfg filePath = []
  · exact .inl ⟨hpath, by simp [Manager.persist, hpath]⟩
  right
  obtain ⟨m₁, r₁, hold, hpaths₁, hinv₁, hsize₁⟩ := cleanupOld_spec h (removePrefix cfg filePath)
  rw [← hpaths₁] at hinv₁
  simp only [Manager.persist, if_neg hpath, hold]
  by_cases hzero : src.length = 0
  · left
    refine ⟨.inr (.inl hzero), ?_⟩
    rw [if_pos hzero]
    refine ⟨_, _, rfl, ?_⟩
    have hset := (hinv₁.withPaths (m₁.setPath (removePrefix cfg filePath) ⟨keyEmpty, 0, 0⟩).localPathObj).setPath
      (p := removePrefix cfg filePath) (.inl ⟨rfl, eq_nil_of_length_eq_zero hzero⟩) (fun q b _ hq hk => ?_)
    · rw [update_idem, update_idem] at hset
      exact hset
    · -- whatever lies in the object of the empty files is empty
      obtain ⟨bytes, -, ⟨rfl, -⟩ | hb⟩ := hinv₁.live q b hq
      · rfl
      · exact absurd hk (hb.created hinv₁).ne_keyEmpty
  · rw [if_neg hzero]
    have hsrc : 0 < src.length := pos_of_ne_zero hzero
    by_cases hown : !tryCompose ∨ src.length ≥ cfg.objectSizeLimit
    · left
      refine ⟨?_, ?_⟩
      · rcases hown with hown | hown
        · exact .inr (.inr (.inl (by simpa using hown)))
        · exact .inr (.inr (.inr (.inl hown)))
      · obtain ⟨m', r', addr, hok, hpaths, hinv⟩ := dedicated_spec hinv₁ (removePrefix cfg filePath) hsrc
        rw [if_pos hown]
        rw [update_idem, update_idem, ← hpaths] at hinv
        exact ⟨m', r', hok, hinv⟩
    · rw [if_neg hown]
      obtain ⟨hcompose, hlimit⟩ := not_or.mp hown
      have hlimit' : src.length < cfg.objectSizeLimit := Nat.lt_of_not_le hlimit
      have hiff : HasRoom cfg m filePath src tryCompose ↔ RoomFor cfg m₁.currentObjectSize src := by
        have hc : ¬ tryCompose = false := by simpa using hcompose
        simp only [HasRoom, hpath, hzero, hc, Nat.not_le_of_lt hlimit', Bool.true_eq_false, false_or, hsize₁]
      rw [hiff]
      rcases composed_spec hinv₁ (removePrefix cfg filePath) hsrc hlimit' with ⟨hroom, m', r', addr, hok, hpaths, hinv⟩ | herr
      · rw [update_idem, update_idem, ← hpaths] at hinv
        exact .inl ⟨hroom, m', r', hok, hinv⟩
      · exact .inr herr

theorem cleanup_spec (cfg : Config) (h : Inv keys m m.localPathObj persisted drops) (filePath : Path) :
    m.cleanup cfg keys filePath = .error (.noLocalPath []) ∨
    ∃ m' r', m.cleanup cfg keys filePath = .ok (m', r') ∧
      Inv keys m' m'.localPathObj (update persisted (removePrefix cfg filePath) none)
        (drops ++ r'.dropFromRemoteKeys) := by
  by_cases hpath : removePrefix cfg filePath = []
  · exact .inl (by simp [Manager.cleanup, hpath])
  right
  simp only [Manager.cleanup, if_neg hpath]
  cases hp : m.localPathObj (removePrefix cfg filePath) with
  | none =>
    refine ⟨m, {}, rfl, ?_⟩
    have hforget := h.forget (removePrefix cfg filePath)
    rw [← hp, update_eq_self] at hforget
    rwa [append_nil]
  | some addr =>
    obtain ⟨m', r', hok, hinv, hpaths, -⟩ := cleanupNoLock_spec (r := {}) (by rwa [append_nil]) hp true
    simp only [hok]
    refine ⟨_, _, rfl, ?_⟩
    rw [← hpaths] at hinv
    exact hinv.withPaths _

/-! ### Whole runs -/

def SystemInv (keys : KeySupply) (s : System) : Prop := Inv keys s.pm s.pm.localPathObj s.persisted s.drops

theorem inv_deleteFileBG (h : Inv keys m paths persisted drops) (hkey : key ∈ drops) :
    Inv keys {m with files := update m.files key none} paths persisted (drops.erase key) := by
  obtain ⟨hc, hk, hnone⟩ := h.dropped key hkey
  refine ⟨h.live_of fun q b bytes hq hp => ⟨hp.nonempty, hp.within, ?_⟩, h.known, h.apart, h.objects, h.current, ?_,
    h.unreferenced, fun n hn => ⟨?_, (h.fresh n hn).2⟩, ?_, fun k hd => h.dropped k (mem_of_mem_erase hd)⟩
  · have hne : b.objKey ≠ key := by
      rintro rfl
      rcases hp.within with ⟨hk', -⟩ | ⟨st, hs, -⟩
      · exact hk hk'
      · simp [hnone] at hs
    rw [readPart_congr (m := m) (by simp [update_of_ne hne])]
    exact hp.read
  · simp only [update_of_ne hk.symm]
    exact h.currentFile
  · simp only [update_of_ne (hc.ne_objCreate hn).symm]
    exact (h.fresh n hn).1
  · simp only [update_of_ne hc.ne_keyEmpty.symm]
    exact h.emptyFile

theorem inv_step {s s' : System} (h : SystemInv keys s) {c : Call} (he : enabled s c) (hs : step cfg keys s c = .ok s') :
    SystemInv keys s' := by
  cases c with
  | persist filePath src tryCompose =>
    simp only [step] at hs
    rcases persist_spec cfg h filePath src tryCompose with ⟨-, herr⟩ | ⟨-, m', r', hok, hinv⟩ | ⟨-, _, _, herr⟩
    · simp [herr] at hs
    · rw [hok] at hs
      cases hs
      exact hinv
    · simp [herr] at hs
  | currentObjFinalize =>
    obtain ⟨m', r', hok, hinv, hdrops, hpaths, -⟩ := finalize_spec h {}
    simp only [step, hok, hdrops] at hs
    cases hs
    rw [← hpaths] at hinv
    simpa only [SystemInv, append_nil] using hinv
  | cleanup filePath =>
    simp only [step] at hs
    rcases cleanup_spec cfg h filePath with herr | ⟨m', r', hok, hinv⟩
    · simp [herr] at hs
    rw [hok] at hs
    cases hs
    exact hinv
  | deleteFileBG key =>
    cases hs
    exact inv_deleteFileBG h he

variable {s : System}

theorem inv_run {calls : List Call} (h : (persistMachine cfg keys).Run (start keys) calls s) : SystemInv keys s :=
  h.invariant (I := SystemInv keys) (fun _ _ _ hi he hs => inv_step hi he hs) inv_init

/-- The live paths are those persisted and not cleaned up since, and the bytes of the part
of a path are those last persisted for it. -/
structure Lossless (s : System) : Prop where
  live : ∀ p, (s.pm.localPathObj p).isSome = (s.persisted p).isSome
  bytes : ∀ p addr, s.pm.localPathObj p = some addr → s.pm.readPart addr = s.persisted p

/-- The parts of two paths in one object have no byte in common. -/
def PartsApart (s : System) : Prop :=
  ∀ p q a b, p ≠ q → s.pm.localPathObj p = some a → s.pm.localPathObj q = some b → a.objKey = b.objKey →
    ∀ x, a.partOffset ≤ x ∧ x < a.partOffset + a.partSize → ¬ (b.partOffset ≤ x ∧ x < b.partOffset + b.partSize)

theorem SystemInv.lossless (h : SystemInv keys s) : Lossless s where
  live := by
    intro p
    cases hp : s.pm.localPathObj p with
    | some addr =>
      obtain ⟨bytes, hb, -⟩ := h.live p addr hp
      rw [hb]
      rfl
    | none =>
      cases hb : s.persisted p with
      | none => rfl
      | some bytes =>
        obtain ⟨addr, ha⟩ := h.known p bytes hb
        simp [hp] at ha
  bytes := by
    intro p addr hp
    obtain ⟨bytes, hb, ⟨rfl, rfl⟩ | hpart⟩ := h.live p addr hp
    · rw [hb]
      exact readPart_eq_some.mpr ⟨[], h.emptyFile, le_rfl, rfl⟩
    · rw [hb]
      exact hpart.read

theorem SystemInv.apart (h : SystemInv keys s) : PartsApart s := by
  intro p q a b hne ha hb hkey x hxa hxb
  have hslot := Inv.apart h p q a b ha hb hne hkey
  exact Range.not_contains_both hslot (x := x) ⟨hxa.1, lt_of_lt_of_le hxa.2 (le_align _)⟩
    ⟨hxb.1, lt_of_lt_of_le hxb.2 (le_align _)⟩

/-- `HasRoom` of the calls that append, nothing of the others. -/
def CallHasRoom (cfg : Config) (s : System) : Call → Prop
  | .persist filePath src tryCompose => HasRoom cfg s.pm filePath src tryCompose
  | _ => True

theorem SystemInv.exceeds_iff (h : SystemInv keys s) (c : Call) :
    (∀ key size limit, step cfg keys s c ≠ .error (.exceedsLimit key size limit)) ↔ CallHasRoom cfg s c := by
  cases c with
  | persist filePath src tryCompose =>
    simp only [step, CallHasRoom]
    rcases persist_spec cfg h filePath src tryCompose with ⟨hp, herr⟩ | ⟨hroom, m', r', hok, -⟩ | ⟨hroom, key, size, herr⟩
    · rw [herr]
      exact ⟨fun _ => .inl hp, fun _ _ _ _ hc => by cases hc⟩
    · rw [hok]
      exact ⟨fun _ => hroom, fun _ _ _ _ hc => by cases hc⟩
    · rw [herr]
      exact ⟨fun hno => absurd rfl (hno key size _), fun hr => absurd hr hroom⟩
  | currentObjFinalize =>
    obtain ⟨m', r', hok, -⟩ := finalize_spec h {}
    simp only [step, hok]
    exact ⟨fun _ => trivial, fun _ _ _ _ hc => by cases hc⟩
  | cleanup filePath =>
    simp only [step]
    rcases cleanup_spec cfg h filePath with herr | ⟨m', r', hok, -⟩
    · rw [herr]
      exact ⟨fun _ => trivial, fun _ _ _ _ hc => by cases hc⟩
    · rw [hok]
      exact ⟨fun _ => trivial, fun _ _ _ _ hc => by cases hc⟩
  | deleteFileBG key => exact ⟨fun _ => trivial, fun _ _ _ _ hc => by cases hc⟩

/-- **In every state that a run reaches, every live path can be read back and the parts of an
object are apart; and a call runs into the size limit exactly when it has no room.** -/
theorem composition_lossless (cfg : Config) (keys : KeySupply) {calls : List Call} {s : System}
    (hrun : (persistMachine cfg keys).Run (start keys) calls s) :
    Lossless s ∧ PartsApart s ∧
      ∀ c, (∀ key size limit, step cfg keys s c ≠ .error (.exceedsLimit key size limit)) ↔ CallHasRoom cfg s c :=
  ⟨(inv_run hrun).lossless, (inv_run hrun).apart, (inv_run hrun).exceeds_iff⟩

/-- Keys of ten characters and more, told apart by their length. -/
def sampleKeys : KeySupply where
  objCreate := fun n => List.replicate (n + 10) 'k'
  injective := by
    intro m n h
    have := congrArg List.length h
    simpa using this
  ne_keyEmpty := by
    intro n h
    have := congrArg List.length h
    simp [keyEmpty] at this
  ne_nil := by
    intro n h
    cases h

def sampleConfig : Config := ⟨['/', 'd'], 20⟩

/-- With a limit of 20 and 9 bytes in the current object, a file of 10 bytes is less than the
room of 11; but it is put at offset 16, and 26 bytes are too many. -/
theorem exceeds_limit_reached : ∃ s, (persistMachine sampleConfig sampleKeys).Run (start sampleKeys)
      [.persist ['a'] (List.replicate 9 7) true] s ∧
    step sampleConfig sampleKeys s (.persist ['b'] (List.replicate 10 8) true) =
      .error (.exceedsLimit (sampleKeys.objCreate 0) 26 20) :=
  ⟨_, .cons trivial rfl (.nil _), rfl⟩

/-- A small file, a second version of it, a large file and a cleanup. -/
theorem composition_lossless_rewrite : ∃ s, (persistMachine sampleConfig sampleKeys).Run (start sampleKeys)
      [.persist ['a'] (List.replicate 9 7) true, .persist ['/', 'd', '/', 'a'] [1, 2] true,
        .persist ['b'] (List.replicate 30 8) true, .deleteFileBG (sampleKeys.objCreate 0), .cleanup ['a']] s ∧
    Lossless s ∧ PartsApart s ∧ ∀ c, (∀ key size limit,
      step sampleConfig sampleKeys s c ≠ .error (.exceedsLimit key size limit)) ↔ CallHasRoom sampleConfig s c := by
  have hrun : (persistMachine sampleConfig sampleKeys).Run (start sampleKeys)
      [.persist ['a'] (replicate 9 7) true, .persist ['/', 'd', '/', 'a'] [1, 2] true,
        .persist ['b'] (replicate 30 8) true, .deleteFileBG (sampleKeys.objCreate 0), .cleanup ['a']] _ :=
    .cons trivial rfl <| .cons trivial rfl <| .cons trivial rfl <|
      .cons (mem_singleton_self (sampleKeys.objCreate 0)) rfl <| .cons trivial rfl <| .nil _
  exact ⟨_, hrun, composition_lossless sampleConfig sampleKeys hrun⟩

end Infinity.Persistence
