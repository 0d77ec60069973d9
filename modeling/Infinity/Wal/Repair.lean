import Infinity.Wal.Replay

/-! Repairing the log before it is replayed.

`PurgeBadEntriesAfterLatestCheckpoint` reads the files from the newest on, each from its
beginning to the first entry that is corrupted or cut off, until a file with a checkpoint.
A file with a bad entry is truncated there, or deleted if nothing precedes it, and the
files newer than it are taken off the list. They are not deleted: they stay on disk.

`repair_exact` says what follows. What is read after the repair is the log up to its
first bad entry. A second recovery, on the files the first one left, reads the same if
and only if no file newer than one with a bad entry begins with an intact entry; otherwise
it reads entries from behind the gap (`second_recovery_differs`). -/
namespace Infinity.Wal

open Lib List

/-- A log file, `wal.log` without a name and the others by theirs. A record that is
corrupted or cut off is `none`. -/
structure WalFile where
  name : Option Nat
  records : List (Option WalEntry)
  deriving DecidableEq, Repr

/-- The forward pass over a file: whether an entry is a checkpoint, and the place of the
first bad record. -/
def scan : List (Option WalEntry) → Nat → Bool → Bool × Option Nat
  | [], _, foundCheckpoint => (foundCheckpoint, none)
  | none :: _, offset, foundCheckpoint => (foundCheckpoint, some offset)
  | some e :: rest, offset, foundCheckpoint => scan rest (offset + 1) (foundCheckpoint || e.isCheckPoint.isSome)

/-- One turn of the loop. `popped` are the files taken off the list, which stay on disk;
`kept` are those of the list that were looked at. -/
def purgeFile (popped kept : List WalFile) (f : WalFile) : List WalFile × List WalFile :=
  match (scan f.records 0 false).2 with
  | none => (popped, kept ++ [f])
  | some badOffset =>
    (popped ++ kept, if badOffset = 0 then [] else [{f with records := f.records.take badOffset}])

/-- `PurgeBadEntriesAfterLatestCheckpoint`: the list the entries are then read from, and
the files on disk, both from the newest on. -/
def purgeBadEntries (popped kept : List WalFile) : List WalFile → List WalFile × List WalFile
  | [] => (kept, popped ++ kept)
  | f :: rest =>
    let purged := purgeFile popped kept f
    if (scan f.records 0 false).1 then (purged.2 ++ rest, purged.1 ++ purged.2 ++ rest)
    else purgeBadEntries purged.1 purged.2 rest

/-- The order of recovery: `wal.log`, then by name, largest first. -/
def recoveryOrder (dir : List WalFile) : List WalFile :=
  dir.filter (·.name.isNone) ++ (dir.filter (·.name.isSome)).mergeSort fun a b => decide (b.name.getD 0 ≤ a.name.getD 0)

/-- What the list iterator gives, newest record first. -/
def iterate (files : List WalFile) : List (Option WalEntry) := files.flatMap fun f => f.records.reverse

/-- A recovery on a directory: the records it reads and the files it leaves. -/
def recover (dir : List WalFile) : List (Option WalEntry) × List WalFile :=
  let (walList, disk) := purgeBadEntries [] [] (recoveryOrder dir)
  (iterate walList, disk)

/-! ### One file -/

/-- The records before the first bad one. -/
def WalFile.intact (f : WalFile) : List (Option WalEntry) := f.records.takeWhile Option.isSome

/-- Some record is bad. -/
abbrev WalFile.Bad (f : WalFile) : Prop := none ∈ f.records

/-- A checkpoint stands before the first bad record. -/
def WalFile.HasCheckpoint (f : WalFile) : Prop := ∃ e, some e ∈ f.intact ∧ e.isCheckPoint.isSome = true

theorem takeWhile_isSome_eq_self {l : List (Option WalEntry)} : l.takeWhile Option.isSome = l ↔ none ∉ l := by
  rw [takeWhile_eq_self_iff]
  constructor
  · intro h hn
    cases h none hn
  · intro h r hr
    cases r with
    | none => exact absurd hr h
    | some e => rfl

theorem none_notMem_takeWhile (l : List (Option WalEntry)) : none ∉ l.takeWhile Option.isSome := by
  intro h
  cases mem_takeWhile_imp h

theorem scan_spec (l : List (Option WalEntry)) (offset : Nat) (found : Bool) : ((scan l offset found).1 = true ↔
      found = true ∨ ∃ e, some e ∈ l.takeWhile Option.isSome ∧ e.isCheckPoint.isSome = true) ∧
    (scan l offset found).2 = if none ∈ l then some (offset + (l.takeWhile Option.isSome).length) else none := by
  induction l generalizing offset found with
  | nil => simp [scan]
  | cons r l ih =>
    cases r with
    | none => simp [scan]
    | some e =>
      obtain ⟨hfound, hbad⟩ := ih (offset + 1) (found || e.isCheckPoint.isSome)
      constructor
      · rw [scan, hfound, Bool.or_eq_true, or_assoc]
        simp only [Option.isSome_some, takeWhile_cons_of_pos, mem_cons, Option.some.injEq, or_and_right,
          exists_or, exists_eq_left]
      · rw [scan, hbad]
        simp only [mem_cons, reduceCtorEq, false_or, Option.isSome_some, takeWhile_cons_of_pos, length_cons]
        split
        · exact congrArg some (by omega)
        · rfl

theorem WalFile.found_iff (f : WalFile) : (scan f.records 0 false).1 = true ↔ f.HasCheckpoint := by
  rw [(scan_spec f.records 0 false).1]
  simp [WalFile.HasCheckpoint, WalFile.intact]

theorem WalFile.intact_eq (f : WalFile) (h : ¬ f.Bad) : f.intact = f.records := takeWhile_isSome_eq_self.mpr h

/-- What is left of a file on disk: nothing if it begins with a bad record. -/
def WalFile.repaired (f : WalFile) : Option WalFile :=
  if none ∈ f.records ∧ f.intact = [] then none else some {f with records := f.intact}

theorem purgeFile_eq (popped kept : List WalFile) (f : WalFile) :
    (f.Bad → purgeFile popped kept f = (popped ++ kept, f.repaired.toList)) ∧
      (¬ f.Bad → purgeFile popped kept f = (popped, kept ++ [f]) ∧ f.repaired = some f) := by
  have hbad := (scan_spec f.records 0 false).2
  rw [zero_add] at hbad
  constructor
  · intro h
    rw [if_pos h] at hbad
    simp only [purgeFile, hbad, WalFile.repaired, h, true_and, length_eq_zero_iff, WalFile.intact]
    split
    · rfl
    · have htake := (prefix_iff_eq_take.mp (List.takeWhile_prefix Option.isSome (l := f.records))).symm
      rw [htake]
      rfl
  · intro h
    rw [if_neg h] at hbad
    refine ⟨by simp only [purgeFile, hbad], ?_⟩
    simp only [WalFile.repaired, f.intact_eq h, h, false_and, if_false]

theorem WalFile.repaired_records (f : WalFile) : f.repaired.toList.flatMap WalFile.records = f.intact := by
  simp only [WalFile.repaired]
  split
  · rename_i h
    simp [h.2]
  · simp

theorem WalFile.repaired_name {f g : WalFile} (h : f.repaired = some g) : g.name = f.name ∧ g.records = f.intact := by
  simp only [WalFile.repaired] at h
  split at h
  · cases h
  cases h
  exact ⟨rfl, rfl⟩

/-! ### The log across files -/

/-- The records of a list of files from the newest on, oldest record first. -/
def contents (files : List WalFile) : List (Option WalEntry) := files.reverse.flatMap WalFile.records

@[simp] theorem contents_nil : contents [] = [] := rfl

@[simp] theorem contents_cons (f : WalFile) (files : List WalFile) :
    contents (f :: files) = contents files ++ f.records := by
  simp [contents]

theorem contents_append (files files' : List WalFile) : contents (files ++ files') = contents files' ++ contents files := by
  simp [contents]

theorem iterate_eq (files : List WalFile) : iterate files = (contents files).reverse := by
  induction files with
  | nil => rfl
  | cons f files ih => rw [contents_cons, reverse_append, ← ih, iterate, flatMap_cons, iterate]

theorem mem_contents {files : List WalFile} {r : Option WalEntry} :
    r ∈ contents files ↔ ∃ f ∈ files, r ∈ f.records := by
  simp [contents]

theorem takeWhile_isSome_append (l l' : List (Option WalEntry)) : (l ++ l').takeWhile Option.isSome =
      if none ∈ l then l.takeWhile Option.isSome else l ++ l'.takeWhile Option.isSome := by
  induction l with
  | nil => simp
  | cons r l ih =>
    cases r with
    | none => simp
    | some e =>
      rw [cons_append, takeWhile_cons_of_pos rfl, ih]
      simp only [mem_cons, reduceCtorEq, false_or]
      split <;> rfl

theorem takeWhile_append_takeWhile (l l' : List (Option WalEntry)) :
    (l ++ l'.takeWhile Option.isSome).takeWhile Option.isSome = (l ++ l').takeWhile Option.isSome := by
  rw [takeWhile_isSome_append, takeWhile_isSome_append, takeWhile_isSome_eq_self.mpr (none_notMem_takeWhile l')]

/-! ### The loop -/

/-- One file: what is on the list afterwards is the log up to the first bad record. -/
theorem purgeFile_spec (popped : List WalFile) (f : WalFile) {kept : List WalFile} (hk : none ∉ contents kept) :
    contents (purgeFile popped kept f).2 = (contents (kept ++ [f])).takeWhile Option.isSome ∧
      (purgeFile popped kept f).1 ++ (purgeFile popped kept f).2 = popped ++ kept ++ f.repaired.toList := by
  have hcontents : contents (kept ++ [f]) = f.records ++ contents kept := by simp [contents_append]
  rw [hcontents, takeWhile_isSome_append]
  by_cases hf : f.Bad
  · rw [(purgeFile_eq popped kept f).1 hf, if_pos hf]
    refine ⟨?_, rfl⟩
    have hone : f.repaired.toList.reverse = f.repaired.toList := by cases f.repaired <;> rfl
    rw [contents, hone, f.repaired_records]
    rfl
  · obtain ⟨heq, hrep⟩ := (purgeFile_eq popped kept f).2 hf
    rw [heq, if_neg hf, takeWhile_isSome_eq_self.mpr hk, hrep]
    exact ⟨hcontents, by simp⟩

theorem purgeBadEntries_newer (newer rest popped kept : List WalFile) (hn : ∀ f ∈ newer, ¬ f.HasCheckpoint)
    (hk : none ∉ contents kept) : ∃ popped' kept',
      purgeBadEntries popped kept (newer ++ rest) = purgeBadEntries popped' kept' rest ∧
      contents kept' = (contents (kept ++ newer)).takeWhile Option.isSome ∧
      popped' ++ kept' = popped ++ kept ++ newer.filterMap WalFile.repaired := by
  induction newer generalizing popped kept with
  | nil => exact ⟨popped, kept, rfl, by rw [append_nil, takeWhile_isSome_eq_self.mpr hk], by simp⟩
  | cons f newer ih =>
    obtain ⟨hcontents, hdisk⟩ := purgeFile_spec popped f hk
    have hk' : none ∉ contents (purgeFile popped kept f).2 := by
      rw [hcontents]
      exact none_notMem_takeWhile _
    obtain ⟨popped', kept', hrun, hlist, hleft⟩ :=
      ih (purgeFile popped kept f).1 (purgeFile popped kept f).2 (fun g hg => hn g (mem_cons_of_mem _ hg)) hk'
    refine ⟨popped', kept', ?_, ?_, ?_⟩
    · have hnot : ¬ (scan f.records 0 false).1 = true := fun h => hn f mem_cons_self (f.found_iff.mp h)
      rw [cons_append, purgeBadEntries, if_neg hnot, hrun]
    · rw [hlist, contents_append, hcontents, takeWhile_append_takeWhile, ← contents_append, append_assoc,
        singleton_append]
    · rw [hleft, hdisk]
      cases hf : f.repaired <;> simp [hf]

theorem filterMap_repaired_of_intact {files : List WalFile} (h : ∀ f ∈ files, ¬ f.Bad) :
    files.filterMap WalFile.repaired = files := by
  induction files with
  | nil => rfl
  | cons f files ih =>
    have hf := ((purgeFile_eq [] [] f).2 (h f mem_cons_self)).2
    rw [filterMap_cons_some hf, ih fun g hg => h g (mem_cons_of_mem _ hg)]

/-- The whole loop, where only files from the one with the newest checkpoint on have bad
records: the list has the log up to its first bad record, and every file is left with what
is intact of it. -/
theorem purgeBadEntries_spec {newer older : List WalFile} {f : WalFile} (hn : ∀ g ∈ newer, ¬ g.HasCheckpoint)
    (hf : f.HasCheckpoint) (ho : ∀ g ∈ older, ¬ g.Bad) :
    contents (purgeBadEntries [] [] (newer ++ f :: older)).1 =
        (contents (newer ++ f :: older)).takeWhile Option.isSome ∧
      (purgeBadEntries [] [] (newer ++ f :: older)).2 = (newer ++ f :: older).filterMap WalFile.repaired := by
  obtain ⟨popped, kept, hrun, hlist, hleft⟩ := purgeBadEntries_newer newer (f :: older) [] [] hn (by simp)
  have hk : none ∉ contents kept := by
    rw [hlist]
    exact none_notMem_takeWhile _
  obtain ⟨hcontents, hdisk⟩ := purgeFile_spec popped f hk
  rw [hrun, purgeBadEntries, if_pos (f.found_iff.mpr hf)]
  have holder : none ∉ contents older := by
    rw [mem_contents]
    exact fun ⟨g, hg, hnone⟩ => ho g hg hnone
  constructor
  · calc contents ((purgeFile popped kept f).2 ++ older)
        = contents older ++ (f.records ++ contents kept).takeWhile Option.isSome := by
          rw [contents_append, hcontents, contents_append, contents_cons, contents_nil, nil_append]
      _ = (contents older ++ (f.records ++ contents kept)).takeWhile Option.isSome := by
          rw [takeWhile_isSome_append (contents older), if_neg holder]
      _ = (contents (newer ++ f :: older)).takeWhile Option.isSome := by
          rw [hlist, nil_append, ← append_assoc, takeWhile_append_takeWhile, contents_append, contents_cons]
  · rw [hdisk, hleft, filterMap_append, filterMap_cons]
    cases hr : f.repaired <;> simp [filterMap_repaired_of_intact ho]

theorem purgeBadEntries_intact {files : List WalFile} (h : ∀ f ∈ files, ¬ f.Bad) (popped kept : List WalFile) :
    (purgeBadEntries popped kept files).1 = kept ++ files := by
  induction files generalizing popped kept with
  | nil => simp [purgeBadEntries]
  | cons f files ih =>
    have hf := ((purgeFile_eq popped kept f).2 (h f mem_cons_self)).1
    rw [purgeBadEntries, hf]
    split
    · simp
    · rw [ih fun g hg => h g (mem_cons_of_mem _ hg)]
      simp

/-! ### The order of the files -/

/-- `wal.log` is newer than every swapped file, which are newer the larger their names. -/
def NewerName : Option Nat → Option Nat → Prop
  | none, some _ => True
  | some a, some b => b < a
  | _, none => False

theorem newerName_asymm {a b : Option Nat} (h : NewerName a b) : ¬ NewerName b a := by
  cases a <;> cases b <;> simp_all [NewerName]
  omega

theorem recoveryOrder_perm (dir : List WalFile) : (recoveryOrder dir).Perm dir := by
  refine ((Perm.refl _).append (mergeSort_perm _ _)).trans ?_
  have hsplit := filter_append_perm (fun f : WalFile => f.name.isNone) dir
  have hnot : (fun f : WalFile => !f.name.isNone) = fun f => f.name.isSome := by
    funext f
    cases f.name <;> rfl
  rwa [hnot] at hsplit

theorem recoveryOrder_pairwise {dir : List WalFile} (h : (dir.map WalFile.name).Nodup) :
    (recoveryOrder dir).Pairwise fun f g => NewerName f.name g.name := by
  have hne : dir.Pairwise fun f g => f.name ≠ g.name := pairwise_map.mp h
  refine pairwise_append.mpr ⟨?_, ?_, ?_⟩
  · refine (hne.filter _).imp_of_mem fun {f g} hf hg hfg => ?_
    have hf' := (mem_filter.mp hf).2
    have hg' := (mem_filter.mp hg).2
    rw [Option.isNone_iff_eq_none] at hf' hg'
    exact absurd (hf'.trans hg'.symm) hfg
  · have hsorted : ((dir.filter (·.name.isSome)).mergeSort fun a b => decide (b.name.getD 0 ≤ a.name.getD 0)).Pairwise
        fun a b => decide (b.name.getD 0 ≤ a.name.getD 0) = true :=
      pairwise_mergeSort (fun a b c hab hbc => by simp only [decide_eq_true_eq] at *; omega)
        (fun a b => by simp only [Bool.or_eq_true, decide_eq_true_eq]; omega) _
    have hperm := mergeSort_perm (dir.filter (·.name.isSome))
      fun a b => decide (b.name.getD 0 ≤ a.name.getD 0)
    have hdistinct := (hperm.pairwise_iff fun {f g} (hfg : f.name ≠ g.name) => hfg.symm).mpr (hne.filter _)
    refine (hsorted.and hdistinct).imp_of_mem fun {f g} hf hg ⟨hle, hfg⟩ => ?_
    obtain ⟨a, ha⟩ := Option.isSome_iff_exists.mp (mem_filter.mp (hperm.mem_iff.mp hf)).2
    obtain ⟨b, hb⟩ := Option.isSome_iff_exists.mp (mem_filter.mp (hperm.mem_iff.mp hg)).2
    rw [ha, hb] at hle hfg ⊢
    exact lt_of_le_of_ne (of_decide_eq_true hle) fun heq => hfg (congrArg some heq.symm)
  · intro f hf g hg
    have hf' := (mem_filter.mp hf).2
    have hg' := (mem_filter.mp ((mergeSort_perm _ _).mem_iff.mp hg)).2
    rw [Option.isNone_iff_eq_none] at hf'
    obtain ⟨n, hn⟩ := Option.isSome_iff_exists.mp hg'
    rw [hf', hn]
    trivial

/-- Files already in recovery order are found in it, however the directory is listed. -/
theorem recoveryOrder_eq {dir files : List WalFile} (hp : dir.Perm files)
    (hf : files.Pairwise fun f g => NewerName f.name g.name) : recoveryOrder dir = files := by
  have hnodup : (dir.map WalFile.name).Nodup := by
    rw [(hp.map _).nodup_iff, Nodup, pairwise_map]
    refine hf.imp fun {f g} h heq => ?_
    rw [heq] at h
    exact newerName_asymm h h
  refine ((recoveryOrder_perm dir).trans hp).eq_of_pairwise ?_ (recoveryOrder_pairwise hnodup) hf
  exact fun f g _ _ h h' => absurd h' (newerName_asymm h)

/-! ### Two recoveries in a row -/

/-- The log with any number of bad records, all after the newest intact checkpoint. -/
def NewestCheckpoint (log : List (Option WalEntry)) : Prop :=
  ∃ pre e post, log = pre ++ some e :: post ∧ none ∉ pre ∧ e.isCheckPoint.isSome = true ∧
    ∀ x, some x ∈ post → x.isCheckPoint = none

/-- The file with that checkpoint: older ones have no bad record, newer ones no checkpoint. -/
theorem NewestCheckpoint.split {files : List WalFile} (h : NewestCheckpoint (contents files)) :
    ∃ newer f older, files = newer ++ f :: older ∧ (∀ g ∈ newer, ¬ g.HasCheckpoint) ∧ f.HasCheckpoint ∧
      ∀ g ∈ older, ¬ g.Bad := by
  obtain ⟨pre, e, post, hlog, hpre, he, hpost⟩ := h
  induction files generalizing post with
  | nil => simp at hlog
  | cons f files ih =>
    -- the checkpoint is in the newest file, or further back
    have hhere : ∀ a, pre = contents files ++ a → f.records = a ++ some e :: post →
        ∃ newer g older, f :: files = newer ++ g :: older ∧ (∀ g ∈ newer, ¬ g.HasCheckpoint) ∧ g.HasCheckpoint ∧
          ∀ g ∈ older, ¬ g.Bad := by
      intro a ha hrecords
      refine ⟨[], f, files, rfl, by simp, ⟨e, ?_, he⟩, fun g hg hbad => ?_⟩
      · have hnone : none ∉ a := fun hm => hpre (ha ▸ mem_append_right _ hm)
        rw [WalFile.intact, hrecords, takeWhile_isSome_append, if_neg hnone]
        simp
      · exact hpre (ha ▸ mem_append_left _ (mem_contents.mpr ⟨g, hg, hbad⟩))
    rw [contents_cons] at hlog
    rcases append_eq_append_iff.mp hlog with ⟨a, ha, hrecords⟩ | ⟨c, hc, hrest⟩
    · exact hhere a ha hrecords
    cases c with
    | nil => exact hhere [] (by simpa using hc.symm) (by simpa using hrest.symm)
    | cons r c =>
      obtain ⟨rfl, rfl⟩ := hrest
      obtain ⟨newer, g, older, rfl, hn, hg, ho⟩ := ih c hc fun x hx => hpost x (mem_append_left _ hx)
      refine ⟨f :: newer, g, older, rfl, fun k hk => ?_, hg, ho⟩
      rcases mem_cons.mp hk with rfl | hk
      · rintro ⟨x, hx, hcheck⟩
        have hmem : some x ∈ k.records := takeWhile_subset _ hx
        rw [hpost x (mem_append_right _ hmem)] at hcheck
        cases hcheck
      · exact hn k hk

/-- No file newer than one with a bad record begins with an intact record. -/
def NothingBehindBad (files : List WalFile) : Prop := files.Pairwise fun newer older => older.Bad → newer.intact = []

/-- What is intact of the single files, put together, is more than the log up to its first
bad record unless there is nothing behind that. -/
theorem contents_repaired (files : List WalFile) :
    (contents files).takeWhile Option.isSome <+: contents (files.filterMap WalFile.repaired) ∧
      (contents (files.filterMap WalFile.repaired) = (contents files).takeWhile Option.isSome ↔
        NothingBehindBad files) := by
  induction files with
  | nil => exact ⟨prefix_refl _, iff_of_true rfl .nil⟩
  | cons f files ih =>
    obtain ⟨hinit, hiff⟩ := ih
    have hcons : contents ((f :: files).filterMap WalFile.repaired) =
        contents (files.filterMap WalFile.repaired) ++ f.intact := by
      rw [← f.repaired_records]
      cases hr : f.repaired <;> simp [hr]
    rw [hcons, contents_cons, takeWhile_isSome_append, NothingBehindBad, pairwise_cons, ← NothingBehindBad, ← hiff]
    by_cases hbad : none ∈ contents files
    · obtain ⟨g, hg, hgbad⟩ := mem_contents.mp hbad
      have hall : (∀ g ∈ files, g.Bad → f.intact = []) ↔ f.intact = [] := ⟨fun h => h g hg hgbad, fun h _ _ _ => h⟩
      rw [if_pos hbad, hall]
      refine ⟨hinit.trans (prefix_append _ _), ?_⟩
      constructor
      · intro heq
        have hlen := congrArg length heq
        have hle := hinit.length_le
        rw [length_append] at hlen
        have hempty : f.intact = [] := length_eq_zero_iff.mp (by omega)
        rw [hempty, append_nil] at heq
        exact ⟨hempty, heq⟩
      · rintro ⟨hempty, heq⟩
        rw [hempty, append_nil, heq]
    · have hintact : ∀ g ∈ files, ¬ g.Bad := fun g hg hgbad => hbad (mem_contents.mpr ⟨g, hg, hgbad⟩)
      rw [if_neg hbad, filterMap_repaired_of_intact hintact, takeWhile_isSome_eq_self.mpr hbad]
      exact ⟨prefix_refl _, iff_of_true rfl ⟨fun g hg hgbad => absurd hgbad (hintact g hg), rfl⟩⟩

/-- **Repair.** For any directory whose log has its bad records after the newest intact
checkpoint: a recovery reads the log up to the first bad record, so nothing that followed
one; and a second recovery on what the first left on disk reads the same if and only if no
file newer than one with a bad record begins with an intact record. -/
theorem repair_exact {dir : List WalFile} (hnames : (dir.map WalFile.name).Nodup)
    (hlog : NewestCheckpoint (contents (recoveryOrder dir))) :
    (recover dir).1 = ((contents (recoveryOrder dir)).takeWhile Option.isSome).reverse ∧
      ∀ dir' : List WalFile, dir'.Perm (recover dir).2 →
        ((recover dir').1 = (recover dir).1 ↔ NothingBehindBad (recoveryOrder dir)) := by
  obtain ⟨newer, f, older, hfiles, hn, hf, ho⟩ := hlog.split
  obtain ⟨hlist, hdisk⟩ := purgeBadEntries_spec hn hf ho
  rw [← hfiles] at hlist hdisk
  have hfirst : (recover dir).1 = ((contents (recoveryOrder dir)).takeWhile Option.isSome).reverse := by
    rw [← hlist, ← iterate_eq]
    rfl
  refine ⟨hfirst, fun dir' hperm => ?_⟩
  have hleft : (recover dir).2 = (recoveryOrder dir).filterMap WalFile.repaired := hdisk
  rw [hleft] at hperm
  have horder : recoveryOrder dir' = (recoveryOrder dir).filterMap WalFile.repaired := by
    refine recoveryOrder_eq hperm (pairwise_filterMap.mpr ?_)
    refine (recoveryOrder_pairwise hnames).imp fun {f g} h f' hf' g' hg' => ?_
    rwa [(WalFile.repaired_name hf').1, (WalFile.repaired_name hg').1]
  have hintact : ∀ g ∈ (recoveryOrder dir).filterMap WalFile.repaired, ¬ g.Bad := by
    intro g hg hbad
    obtain ⟨f, -, hfg⟩ := mem_filterMap.mp hg
    rw [WalFile.Bad, (WalFile.repaired_name hfg).2] at hbad
    exact none_notMem_takeWhile _ hbad
  have hsecond : (recover dir').1 = (contents ((recoveryOrder dir).filterMap WalFile.repaired)).reverse := by
    have hall := purgeBadEntries_intact hintact [] []
    rw [← horder, nil_append] at hall
    rw [← iterate_eq, ← horder, ← hall]
    rfl
  rw [hsecond, hfirst, reverse_inj]
  exact (contents_repaired _).2

/-- A checkpoint, then a bad record in the same file; `wal.log` has one more transaction. -/
def gapDir : List WalFile := [⟨none, [some ⟨3, 6, [.other 0]⟩]⟩, ⟨some 4, [some ⟨1, 2, [.checkpoint 1 true]⟩, none]⟩]

/-- The first recovery reads the checkpoint only. The second one, on the files the first
left, also reads the transaction behind the gap. -/
theorem second_recovery_differs : (gapDir.map WalFile.name).Nodup ∧ NewestCheckpoint (contents (recoveryOrder gapDir)) ∧
    (recover gapDir).1 = [some ⟨1, 2, [.checkpoint 1 true]⟩] ∧
    (recover (recover gapDir).2).1 = [some ⟨3, 6, [.other 0]⟩, some ⟨1, 2, [.checkpoint 1 true]⟩] := by
  have horder : recoveryOrder gapDir = gapDir := recoveryOrder_eq (.refl _) (by simp [gapDir, NewerName])
  have hleft : recover gapDir = ([some ⟨1, 2, [.checkpoint 1 true]⟩],
      [⟨none, [some ⟨3, 6, [.other 0]⟩]⟩, ⟨some 4, [some ⟨1, 2, [.checkpoint 1 true]⟩]⟩]) := by
    simp only [recover, horder]
    decide
  have horder' := recoveryOrder_eq (.refl [⟨none, [some ⟨3, 6, [.other 0]⟩]⟩,
    ⟨some 4, [some ⟨1, 2, [.checkpoint 1 true]⟩]⟩]) (by simp [NewerName])
  refine ⟨by decide, ⟨[], ⟨1, 2, [.checkpoint 1 true]⟩, [none, some ⟨3, 6, [.other 0]⟩], ?_, by simp, rfl, ?_⟩, ?_, ?_⟩
  · rw [horder]
    decide
  · simp only [mem_cons, reduceCtorEq, Option.some.injEq, not_mem_nil, or_false, false_or]
    rintro x rfl
    rfl
  · rw [hleft]
  · rw [hleft]
    simp only [recover, horder']
    decide

/-- A bad record in the last swapped file, another at the beginning of `wal.log`. -/
def tornDir : List WalFile :=
  [⟨some 2, [some ⟨1, 2, [.checkpoint 1 true]⟩]⟩, ⟨none, [none, some ⟨4, 8, [.other 0]⟩]⟩,
    ⟨some 6, [some ⟨2, 4, [.other 0]⟩, none, some ⟨3, 6, [.other 0]⟩]⟩]

theorem repair_exact_torn : (recover tornDir).1 = [some ⟨2, 4, [.other 0]⟩, some ⟨1, 2, [.checkpoint 1 true]⟩] ∧
    (recover (recover tornDir).2).1 = (recover tornDir).1 := by
  have horder : recoveryOrder tornDir = [⟨none, [none, some ⟨4, 8, [.other 0]⟩]⟩,
      ⟨some 6, [some ⟨2, 4, [.other 0]⟩, none, some ⟨3, 6, [.other 0]⟩]⟩,
      ⟨some 2, [some ⟨1, 2, [.checkpoint 1 true]⟩]⟩] :=
    recoveryOrder_eq (by decide) (by simp [NewerName])
  have hlog : NewestCheckpoint (contents (recoveryOrder tornDir)) := by
    refine ⟨[], ⟨1, 2, [.checkpoint 1 true]⟩, [some ⟨2, 4, [.other 0]⟩, none, some ⟨3, 6, [.other 0]⟩, none,
      some ⟨4, 8, [.other 0]⟩], by rw [horder]; rfl, by simp, rfl, ?_⟩
    simp [WalEntry.isCheckPoint, maxCheckpoint]
  obtain ⟨hfirst, hsecond⟩ := repair_exact (by decide : (tornDir.map WalFile.name).Nodup) hlog
  refine ⟨?_, (hsecond _ (.refl _)).mpr ?_⟩
  · rw [hfirst, horder]
    decide
  · rw [horder]
    simp [NothingBehindBad, WalFile.intact, WalFile.Bad]

/-! ### The coarser reading of a file

`Infinity.Wal.purge` knows of a file only what precedes its first bad record. -/

def WalFile.toLogFile (f : WalFile) : LogFile := ⟨f.intact.filterMap id, decide (none ∈ f.records)⟩

theorem WalFile.toLogFile_entries_nil (f : WalFile) : f.toLogFile.entries = [] ↔ f.intact = [] := by
  constructor
  · intro h
    cases hi : f.intact with
    | nil => rfl
    | cons r l =>
      have hr : r.isSome = true := mem_takeWhile_imp (l := f.records) (by rw [← WalFile.intact, hi]; simp)
      obtain ⟨e, rfl⟩ := Option.isSome_iff_exists.mp hr
      simp [WalFile.toLogFile, hi] at h
  · intro h
    simp [WalFile.toLogFile, h]

theorem WalFile.found_eq (f : WalFile) : (scan f.records 0 false).1 = f.toLogFile.hasCheckpoint := by
  rw [Bool.eq_iff_iff, f.found_iff, LogFile.hasCheckpoint, any_eq_true]
  constructor
  · rintro ⟨e, he, hcheck⟩
    exact ⟨e, mem_filterMap.mpr ⟨_, he, rfl⟩, hcheck⟩
  · rintro ⟨e, he, hcheck⟩
    obtain ⟨r, hr, rfl⟩ := mem_filterMap.mp he
    exact ⟨e, hr, hcheck⟩

theorem WalFile.toLogFile_truncated (f : WalFile) :
    ({f with records := f.intact} : WalFile).toLogFile = ⟨f.toLogFile.entries, false⟩ := by
  have hintact : ({f with records := f.intact} : WalFile).intact = f.intact :=
    takeWhile_isSome_eq_self.mpr (none_notMem_takeWhile _)
  have hnone : none ∉ f.intact := none_notMem_takeWhile _
  simp [WalFile.toLogFile, hintact, hnone]

theorem purge_toLogFile (rest popped kept : List WalFile) : (purgeBadEntries popped kept rest).1.map WalFile.toLogFile =
      purge (kept.map WalFile.toLogFile) (rest.map WalFile.toLogFile) := by
  induction rest generalizing popped kept with
  | nil => rfl
  | cons f rest ih =>
    simp only [purgeBadEntries, map_cons, purge, f.found_eq, f.toLogFile_entries_nil]
    by_cases hbad : f.Bad
    · have htorn : f.toLogFile.torn = true := decide_eq_true hbad
      rw [if_pos htorn, (purgeFile_eq popped kept f).1 hbad]
      by_cases hnil : f.intact = []
      · have hnot : f.toLogFile.hasCheckpoint = false := by
          rw [LogFile.hasCheckpoint, f.toLogFile_entries_nil.mpr hnil]
          rfl
        have hgone : f.repaired = none := if_pos ⟨hbad, hnil⟩
        rw [if_pos hnil, hnot, if_neg Bool.false_ne_true, ih, hgone]
        rfl
      · have hrep : f.repaired = some {f with records := f.intact} := if_neg fun h => hnil h.2
        rw [hrep]
        split
        · simp [WalFile.toLogFile_truncated]
        · simp [ih, WalFile.toLogFile_truncated]
    · have htorn : ¬ f.toLogFile.torn = true := fun h => hbad (of_decide_eq_true h)
      rw [((purgeFile_eq popped kept f).2 hbad).1]
      split
      · simp
      · simp [ih]

end Infinity.Wal
