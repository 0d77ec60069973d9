import Infinity.Lib.Lists
import Infinity.Wal.WalLog

/-! What is replayed after a crash.

The invariant places every entry: the log is the swapped files one after another and then
`wal.log`, the timestamps grow along it, and an entry is not above the name of its file. A
recycled file is named after a timestamp that some checkpoint covers, and checkpoints
that are logged one at a time cover more and more. So no entry above the newest
checkpoint was in a recycled file, and reading backwards meets them all before any other. -/
namespace Infinity.Wal

open Lib List

@[simp] theorem isCheckPoint_checkpoint (txnId commitTs maxCommitTs : Nat) (isFull : Bool) (h : 0 < maxCommitTs) :
    (WalEntry.mk txnId commitTs [.checkpoint maxCommitTs isFull]).isCheckPoint = some maxCommitTs := by
  simp only [WalEntry.isCheckPoint, maxCheckpoint, h, if_true]
  exact if_pos (by omega)

theorem maxCheckpoint_other (infos : List Nat) (ts : Nat) : maxCheckpoint (infos.map .other) ts = ts := by
  induction infos with
  | nil => rfl
  | cons _ _ ih => exact ih

@[simp] theorem isCheckPoint_other (txnId commitTs : Nat) (infos : List Nat) :
    (WalEntry.mk txnId commitTs (infos.map .other)).isCheckPoint = none := by
  simp [WalEntry.isCheckPoint, maxCheckpoint_other]

/-- No checkpoint is chosen while another is chosen and not logged. -/
def OneAtATime (s : System) : Call → Prop
  | .chooseFull _ | .chooseDelta _ _ => s.pending = []
  | _ => True

/-! ### The invariant -/

/-- Of the log and the files. -/
structure Placed (s : System) : Prop where
  split : s.logged = s.swapped.flatMap Prod.snd ++ s.current.getD []
  increasing : s.logged.Pairwise fun a b => a.commitTs < b.commitTs
  bounded : ∀ e ∈ s.logged, e.commitTs ≤ s.maxCommitTs
  names : s.swapped.Pairwise fun f g => f.1 < g.1
  named : ∀ f ∈ s.swapped, f.1 ≤ s.lastSwapWalTs ∧ ∀ e ∈ f.2, e.commitTs ≤ f.1
  files : s.files = s.swapped.filter fun f => decide (f.1 ∉ s.recycled)

/-- Of the checkpoints. `covered` is a timestamp not below any that was chosen. -/
structure Covered (s : System) : Prop where
  lags : ∀ e ∈ s.logged, ∀ M, e.isCheckPoint = some M → M < e.commitTs
  ordered : s.logged.Pairwise fun a b => ∀ M N, a.isCheckPoint = some M → b.isCheckPoint = some N → M ≤ N
  last : ∀ e ∈ s.logged, ∀ M, e.isCheckPoint = some M → ∃ ts, s.lastCkpTs = some ts ∧ M ≤ ts
  pending : s.pending = [] ∨ ∃ M isFull, s.pending = [(M, isFull)] ∧ s.lastCkpTs = some M ∧ 0 < M ∧ M ≤ s.maxCommitTs
  recycled : ∀ name ∈ s.recycled, ∃ e ∈ s.logged, ∃ M, e.isCheckPoint = some M ∧ name ≤ M

structure Inv (s : System) : Prop where
  placed : Placed s
  covered : Covered s

theorem inv_start : Inv start where
  placed := ⟨rfl, .nil, by simp [start], .nil, by simp [start], rfl⟩
  covered := ⟨by simp [start], .nil, by simp [start], .inl rfl, by simp [start]⟩

variable {s s' : System} {e : WalEntry}

/-! ### One call at a time -/

theorem writeEntry_ok (h : writeEntry s e = .ok s') : ∃ entries, s.current = some entries ∧ s.maxCommitTs < e.commitTs ∧
      s' = {s with current := some (entries ++ [e]), maxCommitTs := e.commitTs, logged := s.logged ++ [e]} := by
  unfold writeEntry at h
  split at h
  · cases h
  rename_i entries hc
  split at h
  · cases h
  cases h
  exact ⟨entries, hc, by omega, rfl⟩

theorem Placed.write (hI : Placed s) (h : writeEntry s e = .ok s') : Placed s' := by
  obtain ⟨entries, hc, hts, rfl⟩ := writeEntry_ok h
  have hbefore : ∀ a ∈ s.logged, a.commitTs < e.commitTs := fun a ha => lt_of_le_of_lt (hI.bounded a ha) hts
  refine ⟨?_, ?_, ?_, hI.names, hI.named, hI.files⟩
  · simp only [Option.getD_some, hI.split, hc, append_assoc]
  · refine pairwise_append.mpr ⟨hI.increasing, pairwise_singleton _ _, ?_⟩
    simpa using hbefore
  · intro a ha
    rcases mem_append.mp ha with ha | ha
    · exact (hbefore a ha).le
    · exact (mem_singleton.mp ha) ▸ le_rfl

/-- An entry that is no checkpoint, or one of the last `max_commit_ts` chosen. -/
theorem Covered.write (hI : Covered s) (h : writeEntry s e = .ok s')
    (he : ∀ M, e.isCheckPoint = some M → s.lastCkpTs = some M ∧ M ≤ s.maxCommitTs) : Covered s' := by
  obtain ⟨entries, hc, hts, rfl⟩ := writeEntry_ok h
  refine ⟨?_, ?_, ?_, ?_, ?_⟩
  · intro a ha M hM
    rcases mem_append.mp ha with ha | ha
    · exact hI.lags a ha M hM
    · obtain rfl := mem_singleton.mp ha
      exact lt_of_le_of_lt (he M hM).2 hts
  · refine pairwise_append.mpr ⟨hI.ordered, pairwise_singleton _ _, ?_⟩
    intro a ha b hb M N hM hN
    obtain rfl := mem_singleton.mp hb
    obtain ⟨ts, hlast, hle⟩ := hI.last a ha M hM
    rw [(he N hN).1] at hlast
    cases hlast
    exact hle
  · intro a ha M hM
    rcases mem_append.mp ha with ha | ha
    · exact hI.last a ha M hM
    · obtain rfl := mem_singleton.mp ha
      exact ⟨M, (he M hM).1, le_rfl⟩
  · refine hI.pending.imp_right ?_
    rintro ⟨M, isFull, hp, hlast, hpos, hle⟩
    exact ⟨M, isFull, hp, hlast, hpos, hle.trans hts.le⟩
  · intro name hname
    obtain ⟨a, ha, hM⟩ := hI.recycled name hname
    exact ⟨a, mem_append_left _ ha, hM⟩

theorem Inv.swapRename (hI : Inv s) (h : swapRename s = .ok s') : Inv s' := by
  unfold Wal.swapRename at h
  split at h
  · cases h
    exact hI
  rename_i hnew
  split at h
  · cases h
  rename_i entries hc
  split at h
  · cases h
  cases h
  obtain ⟨hP, hC⟩ := hI
  refine ⟨⟨?_, hP.increasing, hP.bounded, ?_, ?_, ?_⟩, ⟨hC.lags, hC.ordered, hC.last, hC.pending, hC.recycled⟩⟩
  · simp [hP.split, hc]
  · refine pairwise_append.mpr ⟨hP.names, pairwise_singleton _ _, ?_⟩
    intro f hf g hg
    obtain rfl := mem_singleton.mp hg
    exact lt_of_le_of_lt (hP.named f hf).1 (by omega)
  · intro f hf
    rcases mem_append.mp hf with hf | hf
    · exact ⟨(hP.named f hf).1.trans (Nat.le_of_not_le hnew), (hP.named f hf).2⟩
    obtain rfl := mem_singleton.mp hf
    refine ⟨le_rfl, fun e he => hP.bounded e ?_⟩
    rw [hP.split, hc]
    exact mem_append_right _ he
  · -- a checkpoint lags the log, so the new name was not recycled
    have hfresh : s.maxCommitTs ∉ s.recycled := by
      intro hmem
      obtain ⟨e, he, M, hM, hle⟩ := hC.recycled _ hmem
      have := hC.lags e he M hM
      have := hP.bounded e he
      omega
    simp [hP.files, hfresh]

theorem Inv.swapCreate (hI : Inv s) (h : swapCreate s = .ok s') : Inv s' := by
  unfold Wal.swapCreate at h
  split at h
  · rename_i hc
    cases h
    obtain ⟨hP, hC⟩ := hI
    exact ⟨⟨by simp [hP.split, hc], hP.increasing, hP.bounded, hP.names, hP.named, hP.files⟩,
      ⟨hC.lags, hC.ordered, hC.last, hC.pending, hC.recycled⟩⟩
  · cases h
    exact hI

variable {M : Nat}

theorem Inv.chosen (hI : Inv s) (isFull : Bool) (full : Option Nat) (hpos : 0 < M)
    (hle : M ≤ s.maxCommitTs) (hlast : ∀ ts, s.lastCkpTs = some ts → ts ≤ M) (hnone : s.pending = []) :
    Inv {s with pending := s.pending ++ [(M, isFull)], lastCkpTs := some M, lastFullCkpTs := full} := by
  obtain ⟨hP, hC⟩ := hI
  refine ⟨⟨hP.split, hP.increasing, hP.bounded, hP.names, hP.named, hP.files⟩,
    ⟨hC.lags, hC.ordered, ?_, .inr ⟨M, isFull, by simp [hnone], rfl, hpos, hle⟩, hC.recycled⟩⟩
  intro e he N hN
  obtain ⟨ts, hts, hN⟩ := hC.last e he N hN
  exact ⟨M, rfl, hN.trans (hlast ts hts)⟩

theorem Inv.chooseFull (hI : Inv s) (hpos : 0 < M) (hle : M ≤ s.maxCommitTs)
    (hnone : s.pending = []) (h : chooseFull s M = .ok s') : Inv s' := by
  unfold Wal.chooseFull at h
  split at h
  · cases h
    exact hI
  split at h
  · cases h
  rename_i hguard
  cases h
  refine hI.chosen true _ hpos hle ?_ hnone
  intro ts hts
  simp only [hts, Option.any_some, decide_eq_true_eq, not_or, not_lt] at hguard
  exact hguard.2

theorem Inv.chooseDelta {seen M : Nat} (hI : Inv s) (hle : M ≤ s.maxCommitTs)
    (hnone : s.pending = []) (h : chooseDelta s seen M = .ok s') : Inv s' := by
  unfold Wal.chooseDelta at h
  split at h
  · cases h
    exact hI
  rename_i ts hts
  split at h
  · cases h
    exact hI
  split at h
  · cases h
  split at h
  · cases h
    exact hI
  split at h
  · cases h
  cases h
  refine hI.chosen false _ (by omega) hle ?_ hnone
  intro ts' hts'
  rw [hts] at hts'
  cases hts'
  omega

theorem Inv.logCheckpoint {txnId commitTs M : Nat} {isFull : Bool} (hI : Inv s) (hmem : (M, isFull) ∈ s.pending)
    (h : writeEntry {s with pending := s.pending.erase (M, isFull)} ⟨txnId, commitTs, [.checkpoint M isFull]⟩ = .ok s') :
    Inv s' := by
  obtain ⟨hP, hC⟩ := hI
  rcases hC.pending with hp | ⟨N, full, hp, hlast, hpos, hle⟩
  · simp [hp] at hmem
  rw [hp] at hmem
  cases mem_singleton.mp hmem
  have hP' : Placed {s with pending := s.pending.erase (M, isFull)} :=
    ⟨hP.split, hP.increasing, hP.bounded, hP.names, hP.named, hP.files⟩
  have hC' : Covered {s with pending := s.pending.erase (M, isFull)} :=
    ⟨hC.lags, hC.ordered, hC.last, .inl (by simp [hp]), hC.recycled⟩
  refine ⟨hP'.write h, hC'.write h ?_⟩
  intro N hN
  rw [isCheckPoint_checkpoint _ _ _ _ hpos] at hN
  cases hN
  exact ⟨hlast, hle⟩

theorem Inv.recycle {name : Nat} (hI : Inv s) (hcov : ∃ e ∈ s.logged, ∃ M, e.isCheckPoint = some M ∧ name ≤ M) :
    Inv {s with files := s.files.filter (fun f => f.1 != name), recycled := s.recycled ++ [name]} := by
  obtain ⟨hP, hC⟩ := hI
  refine ⟨⟨hP.split, hP.increasing, hP.bounded, hP.names, hP.named, ?_⟩, ⟨hC.lags, hC.ordered, hC.last, hC.pending, ?_⟩⟩
  · simp only [hP.files, filter_filter]
    refine filter_congr fun f _ => ?_
    by_cases hn : f.1 = name <;> simp [hn]
  · intro n hn
    rcases mem_append.mp hn with hn | hn
    · exact hC.recycled n hn
    · exact (mem_singleton.mp hn) ▸ hcov

theorem inv_step (c : Call) (hI : Inv s) (he : (walMachine.restrict OneAtATime).enabled s c)
    (h : walMachine.step s c = .ok s') : Inv s' := by
  obtain ⟨he, hone⟩ := he
  cases c with
  | commit txnId commitTs infos =>
    exact ⟨hI.placed.write h, hI.covered.write h (by simp)⟩
  | swapRename => exact hI.swapRename h
  | swapCreate => exact hI.swapCreate h
  | chooseFull M => exact hI.chooseFull he.1 he.2 hone h
  | chooseDelta seen M => exact hI.chooseDelta he.2 hone h
  | logCheckpoint txnId commitTs M isFull => exact hI.logCheckpoint he h
  | recycle name =>
    cases h
    exact hI.recycle he

theorem inv_run {calls : List Call} (run : (walMachine.restrict OneAtATime).Run start calls s) : Inv s :=
  run.invariant (fun _ c _ hI he h => inv_step c hI he h) inv_start

/-! ### Reading the files -/

theorem purge_clean (kept files : List LogFile) (h : ∀ f ∈ files, f.torn = false) :
    purge kept files = kept ++ files := by
  induction files generalizing kept with
  | nil => simp [purge]
  | cons f rest ih =>
    have hf : f.torn = false := h f mem_cons_self
    simp only [purge, hf, Bool.false_eq_true, if_false]
    split
    · rfl
    · rw [ih _ fun g hg => h g (mem_cons_of_mem f hg)]
      simp

theorem backward_append (files files' : List LogFile) :
    backward (files ++ files') = backward files ++ backward files' := by simp [backward]

theorem backward_clean (files : List (Nat × List WalEntry)) :
    backward ((files.map fun f => LogFile.mk f.2 false).reverse) = (files.flatMap Prod.snd).reverse.map some := by
  induction files with
  | nil => rfl
  | cons f rest ih =>
    rw [map_cons, reverse_cons, backward_append, ih]
    simp [backward]

theorem backward_purge (temp : LogFile) (files : List LogFile) (h : ∀ f ∈ files, f.torn = false) :
    backward (purge [] (temp :: files)) = temp.entries.reverse.map some ++ backward files := by
  cases ht : temp.torn
  · have hall : ∀ f ∈ temp :: files, f.torn = false := by simpa [ht] using h
    simp [purge_clean _ _ hall, backward, ht]
  · simp only [purge, ht, if_true]
    split
    · rename_i hempty
      simp [purge_clean _ _ h, hempty]
    · split
      · simp [backward]
      · simp [purge_clean _ _ h, backward]

/-- The files that are left, oldest first. -/
def surviving (s : System) : List WalEntry := s.files.flatMap Prod.snd ++ s.current.getD []

variable {d : Disk}

theorem mergeSort_files (hP : Placed s) (hd : CrashOf s d) :
    d.files.mergeSort (fun a b => decide (b.1 ≤ a.1)) = (s.files.map fun f => (f.1, LogFile.mk f.2 false)).reverse := by
  have hnames : (s.files.map fun f => (f.1, LogFile.mk f.2 false)).Pairwise fun f g => f.1 < g.1 := by
    rw [pairwise_map, hP.files]
    exact hP.names.filter _
  have hsorted : (d.files.mergeSort fun a b => decide (b.1 ≤ a.1)).Pairwise
      fun a b => decide (b.1 ≤ a.1) = true := by
    refine pairwise_mergeSort ?_ ?_ d.files
    · intro a b c hab hbc
      simp only [decide_eq_true_eq] at *
      exact hbc.trans hab
    · intro a b
      simpa using le_total b.1 a.1
  have hperm := (mergeSort_perm d.files fun a b => decide (b.1 ≤ a.1)).trans hd.files
  refine Perm.eq_of_pairwise ?_ hsorted ?_ (hperm.trans (reverse_perm _).symm)
  · intro a b ha hb hab hba
    by_contra hne
    rcases pairwise_or hnames (hperm.mem_iff.mp ha) (mem_reverse.mp hb) hne with hlt | hlt <;>
      simp only [decide_eq_true_eq] at hab hba <;> omega
  · rw [pairwise_reverse]
    exact hnames.imp fun h => by simpa using h.le

theorem backward_walList (hP : Placed s) (hd : CrashOf s d) :
    backward (purge [] (walList d)) = (surviving s).reverse.map some := by
  have hfiles := mergeSort_files hP hd
  have hmap : (d.files.mergeSort fun a b => decide (b.1 ≤ a.1)).map Prod.snd =
      (s.files.map fun f => LogFile.mk f.2 false).reverse := by
    simp [hfiles]
  have hclean : ∀ f ∈ (s.files.map fun f => LogFile.mk f.2 false).reverse, f.torn = false := by
    intro f hf
    obtain ⟨g, _, rfl⟩ := mem_map.mp (mem_reverse.mp hf)
    rfl
  have htemp := hd.temp
  simp only [walList, hmap, surviving, reverse_append, map_append]
  cases ht : d.temp with
  | none =>
    have hc : s.current = none := by simpa [ht] using htemp.symm
    simp [purge_clean _ _ hclean, backward_clean, hc]
  | some temp =>
    have hc : s.current = some temp.entries := by simpa [ht] using htemp.symm
    simp only [Option.toList_some, singleton_append, hc, Option.getD_some]
    rw [backward_purge _ _ hclean, backward_clean]

/-! ### The two phases -/

theorem phase1_spec (entries : List WalEntry) (e : WalEntry) (M : Nat) (rest : List (Option WalEntry))
    (hn : ∀ a ∈ entries, a.isCheckPoint = none) (he : e.isCheckPoint = some M) :
    phase1 (entries.map some ++ some e :: rest) = .ok (entries, some (M, e.commitTs), rest) := by
  induction entries with
  | nil => simp [phase1, he]
  | cons a entries ih =>
    have ha := hn a mem_cons_self
    simp [phase1, ha, ih fun b hb => hn b (mem_cons_of_mem a hb)]

theorem phase2_spec (M : Nat) (above below : List WalEntry) (ha : ∀ e ∈ above, M < e.commitTs)
    (hb : ∀ e ∈ below, e.commitTs ≤ M) : phase2 M (above.map some ++ below.map some) = .ok above := by
  induction above with
  | nil =>
    cases below with
    | nil => rfl
    | cons e _ =>
      have he := hb e mem_cons_self
      exact if_neg (by omega)
  | cons a above ih =>
    have hts := ha a mem_cons_self
    simp [phase2, hts, ih fun b hb => ha b (mem_cons_of_mem a hb)]

theorem checkOrder_ok (M : Nat) (entries : List WalEntry) (h : ∀ e ∈ entries, M < e.commitTs) :
    checkOrder M entries = .ok () := by
  induction entries with
  | nil => rfl
  | cons a entries ih =>
    have hts : ¬ a.commitTs < M := Nat.lt_asymm (h a mem_cons_self)
    simp [checkOrder, hts, ih fun b hb => h b (mem_cons_of_mem a hb)]

/-- The result for files with entries the checkpoint covers, entries it does not, its own
and those after it. -/
theorem replayWalFile_of_split {below above post : List WalEntry}
    (mode : StorageMode) (hP : Placed s) (crash : CrashOf s d) (hs : surviving s = below ++ (above ++ e :: post))
    (he : e.isCheckPoint = some M) (hn : ∀ a ∈ post, a.isCheckPoint = none) (hself : M < e.commitTs)
    (habove : ∀ a ∈ above, M < a.commitTs) (hpost : ∀ a ∈ post, M < a.commitTs)
    (hbelow : ∀ a ∈ below, a.commitTs ≤ M) : replayWalFile mode d = .ok (some (above ++ post)) := by
  have hread : backward (purge [] (walList d)) =
      post.reverse.map some ++ some e :: (above.reverse.map some ++ below.reverse.map some) := by
    rw [backward_walList hP crash, hs]
    simp
  have hne : walList d ≠ [] := by
    intro hnil
    simp [hnil, purge, backward] at hread
  have h1 := fun rest => phase1_spec post.reverse e M rest (by simpa using hn) he
  have h2 := phase2_spec M above.reverse below.reverse (by simpa using habove) (by simpa using hbelow)
  have hlist : (post.reverse ++ above.reverse).reverse = above ++ post := by simp
  have horder := checkOrder_ok M (above ++ post) fun a ha => (mem_append.mp ha).elim (habove a) (hpost a)
  have hpositive : e.commitTs ≠ 0 := by omega
  simp only [replayWalFile, hne, if_false, hread, h1, h2, hpositive, hlist, horder]

/-! ### No entry is lost with a recycled file -/

theorem surviving_sublist (hP : Placed s) : (surviving s).Sublist s.logged := by
  rw [surviving, hP.split, hP.files]
  exact (filter_sublist.flatMap Prod.snd).append_right _

theorem filter_surviving (hP : Placed s) (h : ∀ name ∈ s.recycled, name ≤ M) :
    (surviving s).filter (fun e => decide (M < e.commitTs)) = s.logged.filter fun e => decide (M < e.commitTs) := by
  rw [surviving, hP.split, hP.files, filter_append, filter_append]
  congr 1
  have hnamed := hP.named
  generalize s.swapped = files at hnamed
  induction files with
  | nil => rfl
  | cons f rest ih =>
    have hrest := ih fun g hg => hnamed g (mem_cons_of_mem f hg)
    by_cases hf : f.1 ∈ s.recycled
    · have hgone : f.2.filter (fun e => decide (M < e.commitTs)) = [] := by
        refine filter_eq_nil_iff.mpr fun e he => ?_
        have := (hnamed f mem_cons_self).2 e he
        have := h f.1 hf
        simp only [decide_eq_true_eq]
        omega
      rw [filter_cons_of_neg (by simpa using hf), flatMap_cons, filter_append, hgone, hrest, nil_append]
    · rw [filter_cons_of_pos (by simpa using hf), flatMap_cons, flatMap_cons, filter_append, filter_append, hrest]

theorem recycled_le (hC : Covered s) {pre post : List WalEntry}
    (hl : s.logged = pre ++ e :: post) (he : e.isCheckPoint = some M)
    (hn : ∀ a ∈ post, a.isCheckPoint = none) : ∀ name ∈ s.recycled, name ≤ M := by
  intro name hname
  obtain ⟨a, ha, N, hN, hle⟩ := hC.recycled name hname
  refine hle.trans ?_
  rw [hl] at ha
  have hord := hC.ordered
  rw [hl] at hord
  rcases mem_append.mp ha with ha | ha
  · exact (pairwise_append.mp hord).2.2 a ha e mem_cons_self N M hN he
  rcases mem_cons.mp ha with rfl | ha
  · rw [he] at hN
    cases hN
    exact le_rfl
  · rw [hn a ha] at hN
    cases hN

/-- **After a crash exactly what the newest checkpoint does not cover is replayed.** Whatever
was logged, swapped, checkpointed and recycled before, `ReplayWalFile` collects the entries
above the `max_commit_ts` of the newest checkpoint other than its own, each once and in
the order of their timestamps. -/
theorem replay_collects_uncovered {calls : List Call} {s : System} {d : Disk} {pre post : List WalEntry}
    {e : WalEntry} {M : Nat} (mode : StorageMode) (run : (walMachine.restrict OneAtATime).Run start calls s)
    (crash : CrashOf s d) (hl : s.logged = pre ++ e :: post) (he : e.isCheckPoint = some M)
    (hn : ∀ a ∈ post, a.isCheckPoint = none) :
    replayWalFile mode d = .ok (some ((pre ++ post).filter fun a => decide (M < a.commitTs))) ∧
      ((pre ++ post).filter fun a => decide (M < a.commitTs)).Pairwise fun a b => a.commitTs < b.commitTs := by
  obtain ⟨hP, hC⟩ := inv_run run
  have hinc := hP.increasing
  rw [hl] at hinc
  have hafter : ∀ a ∈ post, M < a.commitTs := by
    intro a ha
    have hlt := rel_of_pairwise_cons (pairwise_append.mp hinc).2.1 ha
    exact (hC.lags e (by simp [hl]) M he).trans hlt
  have hself : M < e.commitTs := hC.lags e (by simp [hl]) M he
  have hpost : post.filter (fun a => decide (M < a.commitTs)) = post :=
    filter_eq_self.mpr fun a ha => decide_eq_true (hafter a ha)
  refine ⟨?_, (hinc.sublist ((sublist_cons_self e post).append_left pre)).filter _⟩
  -- the surviving entries: those the checkpoint covers, then the others
  have hsplit : surviving s = (surviving s).filter (fun a => !decide (M < a.commitTs)) ++
      (pre.filter (fun a => decide (M < a.commitTs)) ++ e :: post) := by
    have hmono : (surviving s).Pairwise fun a b => decide (M < a.commitTs) → decide (M < b.commitTs) :=
      (hP.increasing.sublist (surviving_sublist hP)).imp fun hlt ha => by
        simp only [decide_eq_true_eq] at ha ⊢
        omega
    have habove := filter_surviving hP (recycled_le hC hl he hn)
    rw [hl, filter_append, filter_cons_of_pos (by simpa using hself), hpost] at habove
    rw [← habove]
    exact (filter_not_append_filter hmono).symm
  have hbelow : ∀ a ∈ (surviving s).filter (fun a => !decide (M < a.commitTs)), a.commitTs ≤ M := by simp
  rw [replayWalFile_of_split mode hP crash hsplit he hn hself (by simp) hafter hbelow, filter_append, hpost]

/-- A swap, a recycled file, and a commit after the checkpoint. -/
def recycledSample : System where
  maxCommitTs := 13
  lastSwapWalTs := 8
  lastCkpTs := some 8
  lastFullCkpTs := some 8
  pending := []
  files := []
  current := some [⟨3, 10, []⟩, ⟨4, 12, [.checkpoint 8 true]⟩, ⟨5, 13, []⟩]
  logged := [⟨1, 2, []⟩, ⟨2, 8, []⟩, ⟨3, 10, []⟩, ⟨4, 12, [.checkpoint 8 true]⟩, ⟨5, 13, []⟩]
  swapped := [(8, [⟨1, 2, []⟩, ⟨2, 8, []⟩])]
  recycled := [8]

theorem recycledSample_run : (walMachine.restrict OneAtATime).Run start
    [.commit 1 2 [], .commit 2 8 [], .swapRename, .swapCreate, .commit 3 10 [], .chooseFull 8,
      .logCheckpoint 4 12 8 true, .recycle 8, .commit 5 13 []] recycledSample :=
  .cons ⟨trivial, trivial⟩ rfl <| .cons ⟨trivial, trivial⟩ rfl <| .cons ⟨trivial, trivial⟩ rfl <|
  .cons ⟨trivial, trivial⟩ rfl <| .cons ⟨trivial, trivial⟩ rfl <| .cons ⟨⟨by decide, by decide⟩, rfl⟩ rfl <|
  .cons ⟨mem_singleton_self _, trivial⟩ rfl <|
  .cons ⟨⟨⟨4, 12, [.checkpoint 8 true]⟩, by decide, 8, rfl, by decide⟩, trivial⟩ rfl <|
  .cons ⟨trivial, trivial⟩ rfl <| .nil _

theorem replay_collects_uncovered_recycled :
    replayWalFile .readable ⟨some ⟨[⟨3, 10, []⟩, ⟨4, 12, [.checkpoint 8 true]⟩, ⟨5, 13, []⟩], true⟩, []⟩ =
        .ok (some [⟨3, 10, []⟩, ⟨5, 13, []⟩]) ∧
      [WalEntry.mk 3 10 [], ⟨5, 13, []⟩].Pairwise fun a b => a.commitTs < b.commitTs := by
  have hl : recycledSample.logged = [⟨1, 2, []⟩, ⟨2, 8, []⟩, ⟨3, 10, []⟩] ++
    ⟨4, 12, [.checkpoint 8 true]⟩ :: [⟨5, 13, []⟩] := rfl
  exact replay_collects_uncovered .readable recycledSample_run ⟨rfl, .nil⟩ hl rfl (by decide)

/-- A checkpoint may lag behind the entry of an older one, which is then collected too;
phase 3 passes over it. -/
theorem older_checkpoint_collected : ∃ s d,
    (walMachine.restrict OneAtATime).Run start
      [.commit 1 2 [], .commit 2 8 [], .commit 3 10 [], .chooseFull 8, .logCheckpoint 4 12 8 true,
        .chooseDelta 10 10, .logCheckpoint 5 14 10 false] s ∧ CrashOf s d ∧
    s.logged = [⟨1, 2, []⟩, ⟨2, 8, []⟩, ⟨3, 10, []⟩, ⟨4, 12, [.checkpoint 8 true]⟩] ++
      [⟨5, 14, [.checkpoint 10 false]⟩] ∧
    replayWalFile .writable d = .ok (some [⟨4, 12, [.checkpoint 8 true]⟩]) ∧
    (WalEntry.mk 4 12 [.checkpoint 8 true]).isCheckPoint = some 8 := by
  refine ⟨_, ⟨some ⟨[⟨1, 2, []⟩, ⟨2, 8, []⟩, ⟨3, 10, []⟩, ⟨4, 12, [.checkpoint 8 true]⟩,
      ⟨5, 14, [.checkpoint 10 false]⟩], false⟩, []⟩,
    .cons ⟨trivial, trivial⟩ rfl <| .cons ⟨trivial, trivial⟩ rfl <| .cons ⟨trivial, trivial⟩ rfl <|
    .cons ⟨⟨by decide, by decide⟩, rfl⟩ rfl <| .cons ⟨mem_singleton_self _, trivial⟩ rfl <|
    .cons ⟨⟨by decide, by decide⟩, rfl⟩ rfl <| .cons ⟨mem_singleton_self _, trivial⟩ rfl <| .nil _,
    ⟨rfl, .nil⟩, rfl, ?_, rfl⟩
  decide +kernel

/-- **Recycling deletes nothing that is needed**: every entry logged is in `wal.log` or a file
that is still there, or a logged checkpoint covers it. -/
theorem recycled_covered {calls : List Call} {s : System} (run : (walMachine.restrict OneAtATime).Run start calls s)
    {e : WalEntry} (he : e ∈ s.logged) : e ∈ s.files.flatMap Prod.snd ++ s.current.getD [] ∨
      ∃ a ∈ s.logged, ∃ M, a.isCheckPoint = some M ∧ e.commitTs ≤ M := by
  obtain ⟨hP, hC⟩ := inv_run run
  rw [hP.split, mem_append, mem_flatMap] at he
  rcases he with ⟨f, hf, hef⟩ | he
  · by_cases hr : f.1 ∈ s.recycled
    · obtain ⟨a, ha, M, hM, hle⟩ := hC.recycled _ hr
      exact .inr ⟨a, ha, M, hM, ((hP.named f hf).2 e hef).trans hle⟩
    · refine .inl (mem_append_left _ (mem_flatMap.mpr ⟨f, ?_, hef⟩))
      rw [hP.files]
      exact mem_filter.mpr ⟨hf, decide_eq_true hr⟩
  · exact .inl (mem_append_right _ he)

theorem recycled_covered_sample : ∃ a ∈ recycledSample.logged, ∃ M, a.isCheckPoint = some M ∧ 2 ≤ M :=
  (recycled_covered recycledSample_run (e := ⟨1, 2, []⟩) (by decide)).resolve_left (by decide)

end Infinity.Wal
