import Infinity.Persistence.Lossless

/-! Objects are dropped when all their parts are cleaned up.

The manager does not count the parts of an object. It keeps the cleaned ranges, each rounded
up to where the next part may start, and drops the object when one range is all of it. The
`Ledger` writes down what the manager does not: every part ever stored and every part cleaned
up. The parts of an object tile it, so the cleaned ranges are all of it exactly when all the
parts are cleaned up: `garbage_exact`. -/
namespace Infinity.Persistence

open Lib List Function

/-! ### The ledger -/

/-- The size of an object, the current one included. -/
def Manager.objectSize (m : Manager) (key : Key) : Option Nat :=
  if key = m.currentObjectKey then some m.currentObjectSize else (m.objects key).map ObjStat.objSize

structure Ledger (keys : KeySupply) (m : Manager) (paths : Path → Option ObjAddr) (stored cleaned : List ObjAddr) :
    Prop where
  nonempty : ∀ a ∈ stored, 0 < a.partSize
  made : ∀ a ∈ stored, Created keys m a.objKey
  apart : stored.Pairwise fun a b => a.objKey = b.objKey → a.slot.intersect b.slot = false
  past : ∀ a ∈ cleaned, a ∈ stored ∧ a.objKey ≠ m.currentObjectKey
  live : ∀ a ∈ stored, a ∉ cleaned ↔ ∃ p, paths p = some a
  known : ∀ p a, paths p = some a → 0 < a.partSize → a ∈ stored
  tiled : ∀ key size, m.objectSize key = some size → ∀ x, x < align size ↔ ∃ a ∈ stored, a.objKey = key ∧ a.slot.Contains x
  deleted : ∀ key stat, m.objects key = some stat →
    ∀ x, Covered stat.deletedRanges x ↔ ∃ a ∈ cleaned, a.objKey = key ∧ a.slot.Contains x
  kept : ∀ key stat, m.objects key = some stat → ∃ a ∈ stored, a.objKey = key ∧ a ∉ cleaned
  dropped : ∀ a ∈ stored, m.objects a.objKey = none → a.objKey ≠ m.currentObjectKey → a ∈ cleaned

variable {cfg : Config} {keys : KeySupply} {m m' : Manager} {paths : Path → Option ObjAddr}
  {persisted : Path → Option Bytes} {drops : List Key} {stored cleaned : List ObjAddr}

theorem ledger_init : Ledger keys (init keys) (fun _ => none) [] [] where
  nonempty := nofun
  made := nofun
  apart := .nil
  past := nofun
  live := nofun
  known := nofun
  tiled key size h x := by
    have hsize : size = 0 := by
      rw [Manager.objectSize] at h
      split at h
      · cases h
        rfl
      · cases h
    simp [hsize, align, objAlignment]
  deleted := nofun
  kept := nofun
  dropped := nofun

theorem Ledger.eq_of_contains (h : Ledger keys m paths stored cleaned) {a b : ObjAddr} (ha : a ∈ stored) (hb : b ∈ stored)
    (hkey : a.objKey = b.objKey) {x : Nat} (hax : a.slot.Contains x) (hbx : b.slot.Contains x) : a = b := by
  by_contra hne
  have : Std.Symm fun a b : ObjAddr => a.objKey = b.objKey → a.slot.intersect b.slot = false :=
    ⟨fun a b hab hba => by rw [Range.intersect_comm]; exact hab hba.symm⟩
  exact Range.not_contains_both (h.apart.forall ha hb hne hkey) hax hbx

theorem contains_partOffset {a : ObjAddr} (h : 0 < a.partSize) : a.slot.Contains a.partOffset :=
  ⟨le_rfl, slot_nonempty h⟩

variable {r r' : WriteResult}

/-! ### Finalizing -/

theorem ledger_finalize (hI : Inv keys m paths persisted drops)
    (h : Ledger keys m paths stored cleaned) (hok : m.currentObjFinalizeNoLock keys r = .ok (m', r')) :
    Ledger keys m' paths stored cleaned := by
  rw [Manager.currentObjFinalizeNoLock] at hok
  split at hok
  · rename_i hsize
    have hnone : m.objects m.currentObjectKey = none :=
      Option.eq_none_iff_forall_ne_some.mpr fun stat hc => absurd rfl (hI.objects _ _ hc).2.1
    simp only [putNew, hnone] at hok
    cases hok
    have hnew {key : Key} (hk : Created keys m key) : key ≠ keys.objCreate m.created := hk.ne_objCreate le_rfl
    refine ⟨h.nonempty, fun a ha => (h.made a ha).mono (Nat.le_succ _), h.apart,
      fun a ha => ⟨(h.past a ha).1, hnew (h.made a (h.past a ha).1)⟩, h.live, h.known, fun key size hs x => ?_,
      fun key stat hs x => ?_, fun key stat hs => ?_, fun a ha hobj _ => ?_⟩
    · rw [Manager.objectSize] at hs
      by_cases hk : key = keys.objCreate m.created
      · rw [if_pos hk] at hs
        cases hs
        refine ⟨fun hx => absurd hx (by simp [align, objAlignment]), ?_⟩
        rintro ⟨a, ha, hak, -⟩
        exact absurd (hak.trans hk) (hnew (h.made a ha))
      · rw [if_neg hk] at hs
        refine h.tiled key size ?_ x
        rw [Manager.objectSize]
        by_cases hc : key = m.currentObjectKey
        · simpa [hc] using hs
        · simpa [hc] using hs
    · obtain ⟨rfl, hst⟩ | ⟨-, hs⟩ := update_cases hs
      · cases hst
        simp only [covered_nil, false_iff]
        rintro ⟨a, ha, hak, -⟩
        exact (h.past a ha).2 hak
      · exact h.deleted key stat hs x
    · obtain ⟨rfl, -⟩ | ⟨-, hs⟩ := update_cases hs
      · obtain ⟨a, ha, hak, -⟩ := (h.tiled m.currentObjectKey _ (if_pos rfl) 0).mp (hsize.trans_le (le_align _))
        exact ⟨a, ha, hak, fun hcl => (h.past a hcl).2 hak⟩
      · exact h.kept key stat hs
    · by_cases hc : a.objKey = m.currentObjectKey
      · simp [hc] at hobj
      · simp only [update_of_ne hc] at hobj
        exact h.dropped a ha hobj hc
  · cases hok
    exact h

/-! ### Cleaning up -/

theorem objectSize_update {key : Key} {stat stat' : ObjStat} (hstat : m.objects key = some stat)
    (hsize : stat'.objSize = stat.objSize) (k : Key) :
    {m with objects := update m.objects key (some stat')}.objectSize k = m.objectSize k := by
  simp only [Manager.objectSize]
  by_cases hk : k = key
  · simp [hk, hstat, hsize]
  · rw [update_of_ne hk]

variable {p : Path} {addr : ObjAddr}

theorem Ledger.forget (h : Ledger keys m paths stored cleaned) (hI : Inv keys m paths persisted drops)
    (hp : paths p = some addr) (hpos : 0 < addr.partSize) (a : ObjAddr) (ha : a ∈ stored) :
    a ∉ cleaned ++ [addr] ↔ ∃ q, update paths p none q = some a := by
  rw [mem_append, not_or, mem_singleton, h.live a ha]
  constructor
  · rintro ⟨⟨q, hq⟩, hne⟩
    refine ⟨q, ?_⟩
    rw [update_of_ne]
    · exact hq
    · rintro rfl
      exact hne (Option.some.inj (hq.symm.trans hp))
  · rintro ⟨q, hq⟩
    obtain ⟨hqp, hq⟩ := update_none_eq_some.mp hq
    refine ⟨⟨q, hq⟩, ?_⟩
    rintro rfl
    have hx := contains_partOffset hpos
    exact Range.not_contains_both (hI.apart q p a a hq hp hqp rfl) hx hx

theorem ledger_deleteRange {check : Bool} (hI : Inv keys m paths persisted drops)
    (h : Ledger keys m paths stored cleaned) (hp : paths p = some addr)
    (hpos : 0 < addr.partSize) {stat : ObjStat} (hstat : m.objects addr.objKey = some stat)
    (hok : m.deleteRange addr stat r check = .ok (m', r')) :
    Ledger keys m' (update paths p none) stored (cleaned ++ [addr]) := by
  obtain ⟨-, hkey, hsep, -⟩ := hI.objects _ _ hstat
  have haddr := h.known p addr hp hpos
  have hdel : ∀ a ∈ stat.deletedRanges, a.intersect addr.slot = false := by
    obtain ⟨bytes, -, ⟨rfl, -⟩ | hpart⟩ := hI.live p addr hp
    · cases hpos
    obtain ⟨hk, -⟩ | ⟨st, hs, -, hdel⟩ := hpart.within
    · exact absurd hk hkey
    rw [hstat] at hs
    cases hs
    exact hdel
  obtain ⟨l', merged, hins, hsep', hmem, hcov⟩ := insertMerging_spec hsep (slot_nonempty hpos) hdel
  have hcov' (x : Nat) : Covered l' x ↔ ∃ a ∈ cleaned ++ [addr], a.objKey = addr.objKey ∧ a.slot.Contains x := by
    rw [hcov, h.deleted _ _ hstat]
    simp [or_and_right, exists_or]
  have hpast (a : ObjAddr) (ha : a ∈ cleaned ++ [addr]) : a ∈ stored ∧ a.objKey ≠ m.currentObjectKey := by
    obtain ha | ha := mem_append.mp ha
    · exact h.past a ha
    · rw [mem_singleton.mp ha]
      exact ⟨haddr, hkey⟩
  have hmore {a : ObjAddr} (ha : a ∈ cleaned) : a ∈ cleaned ++ [addr] := mem_append_left _ ha
  have hknown (q : Path) (a : ObjAddr) (hq : update paths p none q = some a) (ha : 0 < a.partSize) : a ∈ stored :=
    h.known q a (update_none_eq_some.mp hq).2 ha
  have hother {k : Key} (hk : k ≠ addr.objKey) (x : Nat) :
      (∃ a ∈ cleaned ++ [addr], a.objKey = k ∧ a.slot.Contains x) ↔ ∃ a ∈ cleaned, a.objKey = k ∧ a.slot.Contains x := by
    simp [or_and_right, exists_or, Ne.symm hk]
  have hkept {k : Key} {st : ObjStat} (hk : k ≠ addr.objKey) (hs : m.objects k = some st) :
      ∃ a ∈ stored, a.objKey = k ∧ a ∉ cleaned ++ [addr] := by
    obtain ⟨a, ha, hak, hac⟩ := h.kept k st hs
    refine ⟨a, ha, hak, fun hmem => ?_⟩
    obtain hmem | hmem := mem_append.mp hmem
    · exact hac hmem
    · exact hk (hak ▸ congrArg ObjAddr.objKey (mem_singleton.mp hmem))
  have hsize : m.objectSize addr.objKey = some stat.objSize := by simp [Manager.objectSize, hkey, hstat]
  simp only [Manager.deleteRange, hins] at hok
  split at hok
  · rename_i hall
    split at hok
    · cases hok
    split at hok
    · cases hok
    cases hok
    refine ⟨h.nonempty, h.made, h.apart, hpast, h.forget hI hp hpos, hknown, fun k size hs x => ?_,
      fun k st hs x => ?_, fun k st hs => ?_, fun a ha hobj hcur => ?_⟩
    · have hk : k ≠ addr.objKey := by
        rintro rfl
        simp [Manager.objectSize, hkey] at hs
      refine h.tiled k size ?_ x
      simpa only [Manager.objectSize, update_of_ne hk] using hs
    · obtain ⟨hk, hs⟩ := update_none_eq_some.mp hs
      rw [hother hk]
      exact h.deleted k st hs x
    · obtain ⟨hk, hs⟩ := update_none_eq_some.mp hs
      exact hkept hk hs
    · by_cases hk : a.objKey = addr.objKey
      · -- the range that was put in has every byte of the object, those of the part among them
        have hx := contains_partOffset (h.nonempty a ha)
        have hlt := (h.tiled _ _ hsize a.partOffset).mpr ⟨a, ha, hk, hx⟩
        obtain ⟨b, hb, hbk, hbx⟩ := (hcov' a.partOffset).mp
          ⟨merged, hmem, by simp only [Range.Contains]; omega⟩
        rwa [h.eq_of_contains ha (hpast b hb).1 (hk.trans hbk.symm) hx hbx]
      · exact hmore (h.dropped a ha (by simpa only [update_of_ne hk] using hobj) hcur)
  · rename_i hall
    cases hok
    refine ⟨h.nonempty, h.made, h.apart, hpast, h.forget hI hp hpos, hknown, fun k size hs x => ?_,
      fun k st hs x => ?_, fun k st hs => ?_, fun a ha hobj hcur => ?_⟩
    · have hsame := objectSize_update hstat (show {stat with deletedRanges := l'}.objSize = stat.objSize from rfl) k
      exact h.tiled k size (hsame.symm.trans hs) x
    · obtain ⟨rfl, hst⟩ | ⟨hk, hs⟩ := update_cases hs
      · cases hst
        exact hcov' x
      · rw [hother hk]
        exact h.deleted k st hs x
    · obtain ⟨rfl, -⟩ | ⟨hk, hs⟩ := update_cases hs
      · by_contra hno
        have hfull (x : Nat) : Covered l' x ↔ x < align stat.objSize := by
          rw [hcov', h.tiled _ _ hsize]
          constructor
          · rintro ⟨a, ha, hax⟩
            exact ⟨a, (hpast a ha).1, hax⟩
          · rintro ⟨a, ha, hak, hax⟩
            refine ⟨a, ?_, hak, hax⟩
            by_contra hc
            exact hno ⟨a, ha, hak, hc⟩
        obtain ⟨hstart, hstop⟩ := hsep'.eq_of_covered hfull hmem
        exact hall ⟨hstart, hstop, hkey⟩
      · exact hkept hk hs
    · have hk : a.objKey ≠ addr.objKey := by
        intro hk
        simp [hk] at hobj
      exact hmore (h.dropped a ha (by simpa only [update_of_ne hk] using hobj) hcur)

/-- The ledger does not look at the mapping of the manager, nor at the files. -/
theorem Ledger.of_same (h : Ledger keys m paths stored cleaned) (hobjects : m'.objects = m.objects)
    (hkey : m'.currentObjectKey = m.currentObjectKey) (hsize : m'.currentObjectSize = m.currentObjectSize)
    (hcreated : m'.created = m.created) : Ledger keys m' paths stored cleaned := by
  have hof (key : Key) : m'.objectSize key = m.objectSize key := by
    simp only [Manager.objectSize, hobjects, hkey, hsize]
  refine ⟨h.nonempty, fun a ha => (h.made a ha).mono hcreated.ge, h.apart, ?_, h.live, h.known, ?_, ?_, ?_, ?_⟩
  · rw [hkey]
    exact h.past
  · exact fun key size hs => h.tiled key size (hof key ▸ hs)
  · rw [hobjects]
    exact h.deleted
  · rw [hobjects]
    exact h.kept
  · rw [hobjects, hkey]
    exact h.dropped

theorem Ledger.repath (h : Ledger keys m paths stored cleaned) {o : Option ObjAddr}
    (hold : ∀ a, paths p = some a → a.partSize = 0) (hnew : ∀ a, o = some a → a.partSize = 0) :
    Ledger keys m (update paths p o) stored cleaned := by
  have hiff (a : ObjAddr) (ha : 0 < a.partSize) (q : Path) : update paths p o q = some a ↔ paths q = some a := by
    by_cases hq : q = p
    · rw [hq, update_self]
      constructor
      · exact fun hc => absurd (hnew a hc) (ne_of_gt ha)
      · exact fun hc => absurd (hold a hc) (ne_of_gt ha)
    · rw [update_of_ne hq]
  refine {h with live := fun a ha => ?_, known := fun q a hq ha => h.known q a ((hiff a ha q).mp hq) ha}
  rw [h.live a ha]
  exact exists_congr fun q => (hiff a (h.nonempty a ha) q).symm

/-- What the ledger enters for an address: the object of the empty files has no parts. -/
def ObjAddr.part (addr : ObjAddr) : List ObjAddr := if addr.partSize = 0 then [] else [addr]

theorem part_of_pos (h : 0 < addr.partSize) : addr.part = [addr] := if_neg (ne_of_gt h)

theorem ledger_cleanupNoLock {check : Bool} (hI : Inv keys m paths persisted drops)
    (h : Ledger keys m paths stored cleaned) (hp : paths p = some addr)
    (hok : m.cleanupNoLock keys addr r check = .ok (m', r')) :
    Ledger keys m' (update paths p none) stored (cleaned ++ addr.part) := by
  obtain ⟨bytes, -, ⟨rfl, -⟩ | hpart⟩ := hI.live p addr hp
  · have hnone : m.objects keyEmpty = none :=
      Option.eq_none_iff_forall_ne_some.mpr fun stat hc => absurd rfl (hI.objects _ _ hc).1.ne_keyEmpty
    simp only [Manager.cleanupNoLock, hnone] at hok
    cases hok
    rw [show ObjAddr.part ⟨keyEmpty, 0, 0⟩ = [] from rfl, append_nil]
    refine h.repath (fun a ha => ?_) fun a ha => by cases ha
    rw [← Option.some.inj (hp.symm.trans ha)]
  · have hpos := hpart.nonempty
    rw [part_of_pos hpos]
    cases hstat : m.objects addr.objKey with
    | some stat =>
      simp only [Manager.cleanupNoLock, hstat] at hok
      exact ledger_deleteRange hI h hp hpos hstat hok
    | none =>
      have hne : addr.objKey ≠ keyEmpty := (hpart.created hI).ne_keyEmpty
      simp only [Manager.cleanupNoLock, hstat, if_neg hne] at hok
      split at hok
      · obtain ⟨m₁, r₁, hfin, hI₁, -⟩ := finalize_spec hI r
        simp only [hfin] at hok
        have h₁ := ledger_finalize hI h hfin
        split at hok
        · rename_i stat hstat₁
          exact ledger_deleteRange hI₁ h₁ hp hpos hstat₁ hok
        · cases hok
      · cases hok

/-! ### Storing -/

theorem Ledger.store (h : Ledger keys m paths stored cleaned) (hfree : paths p = none)
    (hpos : 0 < addr.partSize) (hmade : Created keys m' addr.objKey) (hcreated : m.created ≤ m'.created)
    (hkey : m'.currentObjectKey = m.currentObjectKey)
    (hapart : ∀ a ∈ stored, a.objKey = addr.objKey → a.slot.intersect addr.slot = false)
    (htiled : ∀ key size, m'.objectSize key = some size →
      ∀ x, x < align size ↔ ∃ a ∈ stored ++ [addr], a.objKey = key ∧ a.slot.Contains x)
    (hobjects : ∀ key stat, m'.objects key = some stat → m.objects key = some stat ∨
      (key = addr.objKey ∧ stat.deletedRanges = [] ∧ ∀ a ∈ stored, a.objKey ≠ key))
    (hgone : ∀ key, m'.objects key = none → key ≠ addr.objKey ∨ key = m.currentObjectKey)
    (hkeep : ∀ key, m'.objects key = none → m.objects key = none) :
    Ledger keys m' (update paths p (some addr)) (stored ++ [addr]) cleaned := by
  have hx := contains_partOffset hpos
  have hnew : addr ∉ stored := fun hc => Range.not_contains_both (hapart addr hc rfl) hx hx
  have hclean : addr ∉ cleaned := fun hc => hnew (h.past addr hc).1
  have hpath (q : Path) (a : ObjAddr) (ha : a ≠ addr) : update paths p (some addr) q = some a ↔ paths q = some a := by
    by_cases hq : q = p
    · rw [hq, update_self, hfree]
      simp [ha.symm]
    · rw [update_of_ne hq]
  have hmem {a : ObjAddr} (ha : a ∈ stored ++ [addr]) : a ∈ stored ∨ a = addr := by simpa using ha
  refine ⟨fun a ha => ?_, fun a ha => ?_, ?_, fun a ha => ?_, fun a ha => ?_, fun q a hq ha => ?_, htiled,
    fun key stat hs x => ?_, fun key stat hs => ?_, fun a ha hobj hcur => ?_⟩
  · obtain ha | rfl := hmem ha
    · exact h.nonempty a ha
    · exact hpos
  · obtain ha | rfl := hmem ha
    · exact (h.made a ha).mono hcreated
    · exact hmade
  · refine pairwise_append.mpr ⟨h.apart, pairwise_singleton _ _, fun a ha b hb => ?_⟩
    rw [mem_singleton.mp hb]
    exact hapart a ha
  · rw [hkey]
    exact ⟨mem_append_left _ (h.past a ha).1, (h.past a ha).2⟩
  · obtain ha | rfl := hmem ha
    · rw [h.live a ha]
      exact exists_congr fun q => (hpath q a (fun hc => hnew (hc ▸ ha))).symm
    · exact iff_of_true hclean ⟨p, update_self _ _ _⟩
  · by_cases haddr : a = addr
    · simp [haddr]
    · exact mem_append_left _ (h.known q a ((hpath q a haddr).mp hq) ha)
  · obtain hs | ⟨-, hnil, hno⟩ := hobjects key stat hs
    · exact h.deleted key stat hs x
    · rw [hnil]
      simp only [covered_nil, false_iff]
      rintro ⟨a, ha, hak, -⟩
      exact hno a (h.past a ha).1 hak
  · obtain hs | ⟨rfl, -⟩ := hobjects key stat hs
    · obtain ⟨a, ha, hak, hac⟩ := h.kept key stat hs
      exact ⟨a, mem_append_left _ ha, hak, hac⟩
    · exact ⟨addr, by simp, rfl, hclean⟩
  · rw [hkey] at hcur
    obtain ha | rfl := hmem ha
    · exact h.dropped a ha (hkeep _ hobj) hcur
    · obtain hne | hc := hgone _ hobj
      · exact absurd rfl hne
      · exact absurd hc hcur

variable {src : Bytes}

/-- Behind the last part of the current object, where it is rounded up to. -/
theorem ledger_append (hI : Inv keys m paths persisted drops) (h : Ledger keys m paths stored cleaned)
    (hfree : paths p = none) (hpos : 0 < src.length) (hobjects : m'.objects = m.objects)
    (hkey : m'.currentObjectKey = m.currentObjectKey) (hcreated : m'.created = m.created)
    (hsize : m'.currentObjectSize = align m.currentObjectSize + src.length) :
    Ledger keys m' (update paths p (some (m.appendedAddr src))) (stored ++ [m.appendedAddr src]) cleaned := by
  have hcur := h.tiled m.currentObjectKey _ (if_pos rfl)
  refine h.store hfree hpos (hI.current.mono hcreated.ge) hcreated.ge hkey (fun a ha hak => ?_) (fun key size hs x => ?_)
    (fun key stat hs => .inl (hobjects ▸ hs)) (fun key hs => ?_) (fun key hs => hobjects ▸ hs)
  · have hlast := (hcur (a.slot.stop - 1)).mpr ⟨a, ha, hak, by
      have := slot_nonempty (h.nonempty a ha)
      simp only [Range.Contains]
      omega⟩
    have hstart : (m.appendedAddr src).slot.start = align m.currentObjectSize := rfl
    rw [← Bool.not_eq_true, Range.intersect_eq_true]
    omega
  · simp only [mem_append, mem_singleton, or_and_right, exists_or, exists_eq_left]
    by_cases hk : key = m.currentObjectKey
    · rw [Manager.objectSize, hkey, if_pos hk, hsize] at hs
      cases hs
      rw [hk, ← hcur]
      have hle : align m.currentObjectSize ≤ align (align m.currentObjectSize + src.length) :=
        (Nat.le_add_right _ _).trans (le_align _)
      constructor
      · intro hx
        by_cases hlt : x < align m.currentObjectSize
        · exact .inl hlt
        · exact .inr ⟨rfl, Nat.le_of_not_lt hlt, hx⟩
      · rintro (hx | ⟨-, -, hx⟩)
        · omega
        · exact hx
    · have hs' : m.objectSize key = some size := by
        rw [← hs]
        simp only [Manager.objectSize, hkey, hobjects, if_neg hk]
      rw [h.tiled key size hs']
      exact (or_iff_left fun hc => hk hc.1.symm).symm
  · by_cases hk : key = m.currentObjectKey
    · exact .inr hk
    · exact .inl hk

theorem ledger_dedicated (hI : Inv keys m paths persisted drops) (h : Ledger keys m paths stored cleaned)
    (hfree : paths p = none) (hpos : 0 < src.length)
    (hobjects : m'.objects = update m.objects (keys.objCreate m.created) (some ⟨src.length, 1, 0, []⟩))
    (hkey : m'.currentObjectKey = m.currentObjectKey) (hcreated : m'.created = m.created + 1)
    (hsize : m'.currentObjectSize = m.currentObjectSize) :
    Ledger keys m' (update paths p (some ⟨keys.objCreate m.created, 0, src.length⟩))
      (stored ++ [⟨keys.objCreate m.created, 0, src.length⟩]) cleaned := by
  have hnew {a : ObjAddr} (ha : a ∈ stored) : a.objKey ≠ keys.objCreate m.created := (h.made a ha).ne_objCreate le_rfl
  have hcur : keys.objCreate m.created ≠ m.currentObjectKey := (hI.current.ne_objCreate le_rfl).symm
  refine h.store hfree hpos ⟨m.created, by omega, rfl⟩ (by omega) hkey (fun a ha hak => absurd hak (hnew ha))
    (fun key size hs x => ?_) (fun key stat hs => ?_) (fun key hs => ?_) (fun key hs => ?_)
  · simp only [mem_append, mem_singleton, or_and_right, exists_or, exists_eq_left]
    by_cases hk : key = keys.objCreate m.created
    · have hlen : src.length = size := by simpa [Manager.objectSize, hkey, hk, hcur, hobjects] using hs
      rw [or_iff_right]
      · subst hk
        show x < align size ↔ _ = _ ∧ (0 ≤ x ∧ x < align (0 + src.length))
        rw [Nat.zero_add, hlen]
        exact ⟨fun hx => ⟨rfl, Nat.zero_le _, hx⟩, fun hx => hx.2.2⟩
      · rintro ⟨a, ha, hak, -⟩
        exact hnew ha (hak.trans hk)
    · have hs' : m.objectSize key = some size := by
        rw [← hs]
        simp only [Manager.objectSize, hkey, hsize, hobjects, update_of_ne hk]
      rw [h.tiled key size hs']
      exact (or_iff_left fun hc => hk hc.1.symm).symm
  · rw [hobjects] at hs
    obtain ⟨hk, hst⟩ | ⟨-, hs⟩ := update_cases hs
    · cases hst
      exact .inr ⟨hk, rfl, fun a ha hak => hnew ha (hak.trans hk)⟩
    · exact .inl hs
  · refine .inl ?_
    rintro rfl
    simp [hobjects] at hs
  · by_cases hk : key = keys.objCreate m.created
    · rw [hk]
      exact (hI.fresh _ le_rfl).2
    · rwa [hobjects, update_of_ne hk] at hs

/-! ### Whole calls -/

/-- The parts that a path is mapped to: one, or none. -/
def Manager.partsAt (m : Manager) (p : Path) : List ObjAddr := (m.localPathObj p).toList.flatMap ObjAddr.part

theorem partsAt_none (h : m.localPathObj p = none) : m.partsAt p = [] := by
  rw [Manager.partsAt, h]
  rfl

theorem partsAt_some (h : m.localPathObj p = some addr) : m.partsAt p = addr.part := by
  rw [Manager.partsAt, h]
  exact append_nil _

theorem ledger_cleanupOld (hI : Inv keys m m.localPathObj persisted drops)
    (h : Ledger keys m m.localPathObj stored cleaned) (hok : m.cleanupOld keys p = .ok (m', r')) :
    Ledger keys m' (update m.localPathObj p none) stored (cleaned ++ m.partsAt p) := by
  rw [Manager.cleanupOld] at hok
  cases hp : m.localPathObj p with
  | none =>
    simp only [hp] at hok
    cases hok
    rwa [partsAt_none hp, ← hp, update_eq_self, append_nil]
  | some addr =>
    simp only [hp] at hok
    rw [partsAt_some hp]
    exact ledger_cleanupNoLock hI h hp hok

theorem ledger_persistDedicated (hI : Inv keys m paths persisted drops)
    (h : Ledger keys m paths stored cleaned) (hfree : paths p = none) (hpos : 0 < src.length)
    (hok : m.persistDedicated keys p src r = .ok (m', r')) :
    ∃ addr, m'.localPathObj = update m.localPathObj p (some addr) ∧
      Ledger keys m' (update paths p (some addr)) (stored ++ addr.part) cleaned := by
  simp only [Manager.persistDedicated, putNew, (hI.fresh m.created le_rfl).2] at hok
  cases hok
  refine ⟨_, rfl, ?_⟩
  rw [part_of_pos (show 0 < (ObjAddr.mk (keys.objCreate m.created) 0 src.length).partSize from hpos)]
  exact ledger_dedicated hI h hfree hpos rfl rfl rfl rfl

theorem ledger_persistComposed (hI : Inv keys m paths persisted drops)
    (h : Ledger keys m paths stored cleaned) (hfree : paths p = none) (hpos : 0 < src.length)
    (hok : m.persistComposed cfg keys p src r = .ok (m', r')) :
    ∃ addr, m'.localPathObj = update m.localPathObj p (some addr) ∧
      Ledger keys m' (update paths p (some addr)) (stored ++ addr.part) cleaned := by
  -- from the object that the file is put into on
  have happend (m₁ m₂ : Manager) (hI₁ : Inv keys m₁ paths persisted drops) (h₁ : Ledger keys m₁ paths stored cleaned)
      (hpaths : m₁.localPathObj = m.localPathObj)
      (hadd : {m₁ with currentObjectSize := align m₁.currentObjectSize}.currentObjAppendNoLock cfg src = .ok m₂) :
      (m₂.setPath p (m₁.appendedAddr src)).localPathObj = update m.localPathObj p (some (m₁.appendedAddr src)) ∧
        Ledger keys (m₂.setPath p (m₁.appendedAddr src)) (update paths p (some (m₁.appendedAddr src)))
          (stored ++ (m₁.appendedAddr src).part) cleaned := by
    simp only [Manager.currentObjAppendNoLock] at hadd
    split at hadd
    · cases hadd
    cases hadd
    refine ⟨by simp only [Manager.setPath, hpaths], ?_⟩
    rw [part_of_pos (show 0 < (m₁.appendedAddr src).partSize from hpos)]
    exact ledger_append hI₁ h₁ hfree hpos rfl rfl rfl rfl
  obtain ⟨m₁, r₁, hfin, hI₁, -, hpaths, -⟩ := finalize_spec hI r
  rw [Manager.persistComposed] at hok
  by_cases hroom : (m.currentObjRoomNoLock cfg).sle (toInt src.length) = true
  · simp only [if_pos hroom, hfin] at hok
    split at hok
    · cases hok
    rename_i m₂ hadd
    cases hok
    exact ⟨_, happend m₁ m₂ hI₁ (ledger_finalize hI h hfin) hpaths hadd⟩
  · simp only [if_neg hroom] at hok
    split at hok
    · cases hok
    rename_i m₂ hadd
    cases hok
    exact ⟨_, happend m m₂ hI h rfl hadd⟩

theorem ledger_persist {filePath : Path} {tryCompose : Bool}
    (hI : Inv keys m m.localPathObj persisted drops) (h : Ledger keys m m.localPathObj stored cleaned)
    (hok : m.persist cfg keys filePath src tryCompose = .ok (m', r')) :
    Ledger keys m' m'.localPathObj (stored ++ m'.partsAt (removePrefix cfg filePath))
      (cleaned ++ m.partsAt (removePrefix cfg filePath)) := by
  have hset (addr : ObjAddr) (hpaths : m'.localPathObj = update m.localPathObj (removePrefix cfg filePath) (some addr))
      (hl : Ledger keys m' (update m.localPathObj (removePrefix cfg filePath) (some addr))
        (stored ++ addr.part) (cleaned ++ m.partsAt (removePrefix cfg filePath))) :
      Ledger keys m' m'.localPathObj (stored ++ m'.partsAt (removePrefix cfg filePath))
        (cleaned ++ m.partsAt (removePrefix cfg filePath)) := by
    rw [← hpaths] at hl
    rwa [partsAt_some (hpaths ▸ update_self _ _ _)]
  rw [Manager.persist] at hok
  by_cases hpath : removePrefix cfg filePath = []
  · simp [if_pos hpath] at hok
  obtain ⟨m₁, r₁, hold, hpaths₁, hI₁, -⟩ := cleanupOld_spec hI (removePrefix cfg filePath)
  have h₁ := ledger_cleanupOld hI h hold
  have hfree : update m.localPathObj (removePrefix cfg filePath) none (removePrefix cfg filePath) = none :=
    update_self _ _ _
  simp only [if_neg hpath, hold] at hok
  by_cases hzero : src.length = 0
  · simp only [if_pos hzero] at hok
    cases hok
    refine hset ⟨keyEmpty, 0, 0⟩ (by simp only [Manager.setPath, hpaths₁]) ?_
    rw [show ObjAddr.part ⟨keyEmpty, 0, 0⟩ = [] from rfl, append_nil]
    have hl := h₁.repath (p := removePrefix cfg filePath) (o := some ⟨keyEmpty, 0, 0⟩)
      (fun a ha => by rw [hfree] at ha; cases ha) (fun a ha => by cases ha; rfl)
    rw [update_idem] at hl
    exact hl.of_same rfl rfl rfl rfl
  · have hpos : 0 < src.length := pos_of_ne_zero hzero
    simp only [if_neg hzero] at hok
    split at hok
    · obtain ⟨addr, hpaths, hl⟩ := ledger_persistDedicated hI₁ h₁ hfree hpos hok
      rw [update_idem] at hl
      exact hset addr (hpaths₁ ▸ hpaths) hl
    · obtain ⟨addr, hpaths, hl⟩ := ledger_persistComposed hI₁ h₁ hfree hpos hok
      rw [update_idem] at hl
      exact hset addr (hpaths₁ ▸ hpaths) hl

theorem ledger_cleanup {filePath : Path} (hI : Inv keys m m.localPathObj persisted drops)
    (h : Ledger keys m m.localPathObj stored cleaned) (hok : m.cleanup cfg keys filePath = .ok (m', r')) :
    Ledger keys m' m'.localPathObj stored (cleaned ++ m.partsAt (removePrefix cfg filePath)) := by
  rw [Manager.cleanup] at hok
  by_cases hpath : removePrefix cfg filePath = []
  · simp [if_pos hpath] at hok
  simp only [if_neg hpath] at hok
  cases hp : m.localPathObj (removePrefix cfg filePath) with
  | none =>
    simp only [hp] at hok
    cases hok
    rwa [partsAt_none hp, append_nil]
  | some addr =>
    have hI' : Inv keys m m.localPathObj persisted (drops ++ ({} : WriteResult).dropFromRemoteKeys) := by
      rwa [append_nil]
    obtain ⟨m₁, r₁, hcl, -, hpaths, -⟩ := cleanupNoLock_spec hI' hp true
    simp only [hp, hcl] at hok
    cases hok
    have hl := ledger_cleanupNoLock hI h hp hcl
    rw [← hpaths] at hl
    rw [partsAt_some hp]
    exact hl.of_same rfl rfl rfl rfl

/-! ### Whole runs -/

/-- The system with every part stored and every part cleaned up so far. -/
structure Recorded where
  sys : System
  stored : List ObjAddr
  cleaned : List ObjAddr

/-- A path that is persisted again has its old part cleaned up. -/
def Recorded.enter (cfg : Config) (h : Recorded) (s : System) : Call → Recorded
  | .persist filePath _ _ =>
    ⟨s, h.stored ++ s.pm.partsAt (removePrefix cfg filePath), h.cleaned ++ h.sys.pm.partsAt (removePrefix cfg filePath)⟩
  | .cleanup filePath => ⟨s, h.stored, h.cleaned ++ h.sys.pm.partsAt (removePrefix cfg filePath)⟩
  | _ => ⟨s, h.stored, h.cleaned⟩

def recordedMachine (cfg : Config) (keys : KeySupply) : Machine Recorded Call PersistFault where
  enabled h c := enabled h.sys c
  step h c :=
    match step cfg keys h.sys c with
    | .error e => .error e
    | .ok s => .ok (h.enter cfg s c)

/-- The object was dropped from the object map. -/
def Invalidated (m : Manager) (key : Key) : Prop := m.objects key = none ∧ key ≠ m.currentObjectKey ∧ key ≠ keyEmpty

/-- The errors of a call that are not those of `CleanupNoLock`: no local path, and no room in
the current object. -/
def NotOfCleanup : PersistFault → Prop
  | .noLocalPath _ | .exceedsLimit _ _ _ => True
  | _ => False

theorem SystemInv.notOfCleanup {s : System} (h : SystemInv keys s) {c : Call} {e : PersistFault}
    (he : step cfg keys s c = .error e) : NotOfCleanup e := by
  cases c with
  | persist filePath src tryCompose =>
    simp only [step] at he
    obtain ⟨-, herr⟩ | ⟨-, m', r', hok, -⟩ | ⟨-, _, _, herr⟩ := persist_spec cfg h filePath src tryCompose
    · rw [herr] at he
      cases he
      trivial
    · simp [hok] at he
    · rw [herr] at he
      cases he
      trivial
  | currentObjFinalize =>
    obtain ⟨m', r', hok, -⟩ := finalize_spec h {}
    simp [step, hok] at he
  | cleanup filePath =>
    simp only [step] at he
    obtain herr | ⟨m', r', hok, -⟩ := cleanup_spec cfg h filePath
    · rw [herr] at he
      cases he
      trivial
    · simp [hok] at he
  | deleteFileBG key => cases he

def LedgerInv (keys : KeySupply) (h : Recorded) : Prop :=
  SystemInv keys h.sys ∧ Ledger keys h.sys.pm h.sys.pm.localPathObj h.stored h.cleaned

theorem ledger_step {h h' : Recorded} {c : Call} (hi : LedgerInv keys h) (he : enabled h.sys c)
    (hs : (recordedMachine cfg keys).step h c = .ok h') : LedgerInv keys h' := by
  obtain ⟨hI, hL⟩ := hi
  simp only [recordedMachine] at hs
  split at hs
  · cases hs
  rename_i s hstep
  cases hs
  have hI' := inv_step hI he hstep
  cases c with
  | persist filePath src tryCompose =>
    simp only [step] at hstep
    split at hstep
    · cases hstep
    rename_i m' r' hok
    cases hstep
    exact ⟨hI', ledger_persist hI hL hok⟩
  | currentObjFinalize =>
    obtain ⟨m', r', hok, -, -, hpaths, -⟩ := finalize_spec hI {}
    simp only [step, hok] at hstep
    cases hstep
    refine ⟨hI', ?_⟩
    have hL' := ledger_finalize hI hL hok
    rw [← hpaths] at hL'
    exact hL'
  | cleanup filePath =>
    simp only [step] at hstep
    split at hstep
    · cases hstep
    rename_i m' r' hok
    cases hstep
    exact ⟨hI', ledger_cleanup hI hL hok⟩
  | deleteFileBG key =>
    cases hstep
    exact ⟨hI', hL.of_same rfl rfl rfl rfl⟩

/-- **The deleted ranges are those of the parts cleaned up, and an object is dropped exactly
when all its parts are.** In every state that a run reaches the ranges of an object are in
order, apart and not adjacent; no live path is mapped to a dropped object; and the errors of
`CleanupNoLock` are not reached. -/
theorem garbage_exact (cfg : Config) (keys : KeySupply) {calls : List Call} {h : Recorded}
    (hrun : (recordedMachine cfg keys).Run ⟨start keys, [], []⟩ calls h) :
    (∀ key stat, h.sys.pm.objects key = some stat → Separated stat.deletedRanges ∧
      ∀ x, Covered stat.deletedRanges x ↔ ∃ a ∈ h.cleaned, a.objKey = key ∧ a.slot.Contains x) ∧
    (∀ a ∈ h.stored, Invalidated h.sys.pm a.objKey ↔ ∀ b ∈ h.stored, b.objKey = a.objKey → b ∈ h.cleaned) ∧
    (∀ p a, h.sys.pm.localPathObj p = some a → ¬ Invalidated h.sys.pm a.objKey ∧ (a.objKey = keyEmpty → a.partSize = 0)) ∧
    (∀ c e, step cfg keys h.sys c = .error e → NotOfCleanup e) := by
  obtain ⟨hI, hL⟩ := hrun.invariant (I := LedgerInv keys) (fun _ _ _ hi he hs => ledger_step hi he hs)
    ⟨inv_init, ledger_init⟩
  refine ⟨fun key stat hs => ⟨(hI.objects key stat hs).2.2.1, hL.deleted key stat hs⟩, fun a ha => ⟨?_, fun hall => ?_⟩,
    fun p a hp => ?_, fun c e he => hI.notOfCleanup he⟩
  · rintro ⟨hnone, hcur, -⟩ b hb hba
    exact hL.dropped b hb (hba ▸ hnone) (hba ▸ hcur)
  · refine ⟨?_, (hL.past a (hall a ha rfl)).2, (hL.made a ha).ne_keyEmpty⟩
    cases hs : h.sys.pm.objects a.objKey with
    | none => rfl
    | some stat =>
      obtain ⟨b, hb, hba, hbc⟩ := hL.kept _ _ hs
      exact absurd (hall b hb hba) hbc
  · obtain ⟨bytes, -, ⟨rfl, -⟩ | hpart⟩ := hI.live p a hp
    · exact ⟨fun hinv => hinv.2.2 rfl, fun _ => rfl⟩
    · refine ⟨?_, fun hk => absurd hk (hpart.created hI).ne_keyEmpty⟩
      rintro ⟨hnone, hcur, -⟩
      obtain ⟨hk, -⟩ | ⟨stat, hs, -⟩ := hpart.within
      · exact hcur hk
      · rw [hnone] at hs
        cases hs

/-- Two files in one object; the object goes with the second one. -/
theorem garbage_exact_pair : ∃ h, (recordedMachine sampleConfig sampleKeys).Run ⟨start sampleKeys, [], []⟩
      [.persist ['a'] [1, 2] true, .persist ['b'] [3] true, .cleanup ['a'], .cleanup ['b']] h ∧
    Invalidated h.sys.pm (sampleKeys.objCreate 0) := by
  have hrun : ∃ h, (recordedMachine sampleConfig sampleKeys).Run ⟨start sampleKeys, [], []⟩
      [.persist ['a'] [1, 2] true, .persist ['b'] [3] true, .cleanup ['a'], .cleanup ['b']] h ∧
      h.stored = [⟨sampleKeys.objCreate 0, 0, 2⟩, ⟨sampleKeys.objCreate 0, 8, 1⟩] ∧
      h.cleaned = [⟨sampleKeys.objCreate 0, 0, 2⟩, ⟨sampleKeys.objCreate 0, 8, 1⟩] :=
    ⟨_, .cons trivial rfl <| .cons trivial rfl <| .cons trivial rfl <| .cons trivial rfl <| .nil _, rfl, rfl⟩
  obtain ⟨h, hr, hstored, hcleaned⟩ := hrun
  refine ⟨h, hr, ((garbage_exact sampleConfig sampleKeys hr).2.1 ⟨sampleKeys.objCreate 0, 0, 2⟩ ?_).mpr ?_⟩
  · rw [hstored]
    exact mem_cons_self
  · intro b hb _
    rwa [hcleaned, ← hstored]

end Infinity.Persistence
