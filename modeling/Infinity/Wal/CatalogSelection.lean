import Infinity.Lib.Lists
import Infinity.Wal.CatalogFiles
import Infinity.Wal.Replay

/-! What recovery finds of the catalog files.

Files are written in the order of their timestamps, except that a full checkpoint may have
the timestamp of the delta checkpoint before it; so the delta files written after a full
file are those with a larger timestamp (`History`). What is not in the directory was
deleted for a full checkpoint that supersedes it (`Kept`). Together they give
`selection_complete`: at or after every full checkpoint that files were deleted for, the
selection from the directory is what is needed of all that was ever written. Before it
there is no such promise (`older_selection_gone`). -/
namespace Infinity.Wal

open Lib List

/-! ### What holds between any two calls -/

/-- The order in which files are written: timestamps grow, except that a full checkpoint may
have the timestamp of the delta checkpoint before it. -/
def Before (a b : CatalogFile) : Prop := a.maxCommitTs < b.maxCommitTs ∨ ∃ ts, a = .delta ts ∧ b = .full ts

/-- What `RecycleCatalogFile` for the full checkpoint `ts` deletes. -/
def Superseded (ts : Nat) : CatalogFile → Prop
  | .full older => older < ts
  | .delta older => older ≤ ts

/-- Of the files ever written. -/
structure History (s : Store) : Prop where
  ordered : s.saved.Pairwise Before
  last : ∀ f ∈ s.saved, ∃ ts, s.wal.lastCkpTs = some ts ∧ f.maxCommitTs ≤ ts
  lastFull : ∀ ts, .full ts ∈ s.saved → ∃ last, s.wal.lastFullCkpTs = some last ∧ ts ≤ last
  base : ∀ last, s.wal.lastCkpTs = some last → ∃ ts, .full ts ∈ s.saved ∧ ts ≤ last
  based : ∀ f ∈ s.saved, ∃ ts, .full ts ∈ s.saved ∧ ts ≤ f.maxCommitTs
  pending : ∀ c ∈ s.wal.pending, .ofCheckpoint c.1 c.2 ∈ s.saved
  logged : ∀ ts isFull, Logged s ts isFull → .ofCheckpoint ts isFull ∈ s.saved

/-- Of the files in the directory. -/
structure Kept (s : Store) : Prop where
  fulls : s.fullInfos.Pairwise (· < ·)
  deltas : s.deltaInfos.Pairwise (· < ·)
  full : ∀ ts, .full ts ∈ s.saved ↔ ts ∈ s.fullInfos ∨ ∃ c, (c, .full ts) ∈ s.deleted
  delta : ∀ ts, .delta ts ∈ s.saved ↔ ts ∈ s.deltaInfos ∨ ∃ c, (c, .delta ts) ∈ s.deleted
  deleted : ∀ d ∈ s.deleted, .full d.1 ∈ s.saved ∧ Superseded d.1 d.2
  jobs : ∀ job ∈ s.recycling, .full job.maxCommitTs ∈ s.saved ∧
    (∀ ts ∈ job.fullInfos, .full ts ∈ s.saved ∧ ts < job.maxCommitTs) ∧
    ∀ ts ∈ job.deltaInfos, .delta ts ∈ s.saved ∧ ts ≤ job.maxCommitTs

theorem history_start : History .start where
  ordered := .nil
  last := fun _ h => by cases h
  lastFull := fun _ h => by cases h
  base := fun _ h => by cases h
  based := fun _ h => by cases h
  pending := fun _ h => by cases h
  logged := by
    rintro ts isFull ⟨e, h, -⟩
    cases h

theorem kept_start : Kept .start where
  fulls := .nil
  deltas := .nil
  full := by simp [Store.start]
  delta := by simp [Store.start]
  deleted := fun _ h => by cases h
  jobs := fun _ h => by cases h

/-! ### One call at a time -/

variable {w w' : System}

/-- Calls of the log manager other than the choice of a checkpoint leave what was chosen,
and log only what was pending. -/
theorem step_checkpoints {c : Call} (hfull : ∀ M, c ≠ .chooseFull M)
    (hdelta : ∀ seen M, c ≠ .chooseDelta seen M) (he : enabled w c) (hs : step w c = .ok w') :
    w'.lastCkpTs = w.lastCkpTs ∧ w'.lastFullCkpTs = w.lastFullCkpTs ∧ (∀ p ∈ w'.pending, p ∈ w.pending) ∧
      ∀ e ∈ w'.logged, ∀ M isFull, .checkpoint M isFull ∈ e.cmds → (∃ e' ∈ w.logged, .checkpoint M isFull ∈ e'.cmds) ∨
        (M, isFull) ∈ w.pending := by
  have hsame : ∀ e ∈ w.logged, ∀ M isFull, .checkpoint M isFull ∈ e.cmds →
      (∃ e' ∈ w.logged, .checkpoint M isFull ∈ e'.cmds) ∨ (M, isFull) ∈ w.pending :=
    fun e he M isFull hm => .inl ⟨e, he, hm⟩
  cases c with
  | commit txnId commitTs infos =>
    obtain ⟨entries, -, -, rfl⟩ := writeEntry_ok hs
    refine ⟨rfl, rfl, fun p hp => hp, fun e hmem M isFull hm => ?_⟩
    rcases mem_append.mp hmem with hmem | hmem
    · exact hsame e hmem M isFull hm
    · rw [mem_singleton.mp hmem] at hm
      simp at hm
  | swapRename =>
    simp only [step, swapRename] at hs
    split at hs
    · cases hs
      exact ⟨rfl, rfl, fun p hp => hp, hsame⟩
    split at hs
    · cases hs
    split at hs
    · cases hs
    · cases hs
      exact ⟨rfl, rfl, fun p hp => hp, hsame⟩
  | swapCreate =>
    simp only [step, swapCreate] at hs
    split at hs <;> cases hs <;> exact ⟨rfl, rfl, fun p hp => hp, hsame⟩
  | chooseFull M => exact absurd rfl (hfull M)
  | chooseDelta seen M => exact absurd rfl (hdelta seen M)
  | logCheckpoint txnId commitTs M isFull =>
    obtain ⟨entries, -, -, rfl⟩ := writeEntry_ok hs
    refine ⟨rfl, rfl, fun p hp => mem_of_mem_erase hp, fun e hmem M' isFull' hm => ?_⟩
    rcases mem_append.mp hmem with hmem | hmem
    · exact hsame e hmem M' isFull' hm
    · rw [mem_singleton.mp hmem] at hm
      obtain ⟨rfl, rfl⟩ : M' = M ∧ isFull' = isFull := by simpa using hm
      exact .inr he
  | recycle name =>
    cases hs
    exact ⟨rfl, rfl, fun p hp => hp, hsame⟩

variable {s : Store}

theorem history_wal {c : Call} (h : History s) (hfull : ∀ M, c ≠ .chooseFull M)
    (hdelta : ∀ seen M, c ≠ .chooseDelta seen M) (he : enabled s.wal c) (hs : step s.wal c = .ok w) :
    History {s with wal := w} := by
  obtain ⟨hlast, hlastFull, hpending, hlogged⟩ := step_checkpoints hfull hdelta he hs
  refine ⟨h.ordered, ?_, ?_, ?_, h.based, fun c hc => h.pending c (hpending c hc), ?_⟩
  · simp only [hlast]
    exact h.last
  · simp only [hlastFull]
    exact h.lastFull
  · simp only [hlast]
    exact h.base
  · rintro ts isFull ⟨e, hmem, hm⟩
    rcases hlogged e hmem ts isFull hm with hl | hp
    · exact h.logged ts isFull hl
    · exact h.pending _ hp

theorem kept_wal (h : Kept s) (w : System) : Kept {s with wal := w} :=
  ⟨h.fulls, h.deltas, h.full, h.delta, h.deleted, h.jobs⟩

variable {M : Nat}

/-- A full checkpoint that is not skipped is above the last full one and not below the last one. -/
theorem chooseFull_ok (hskip : w.lastFullCkpTs ≠ some M) (hs : chooseFull w M = .ok w') :
    w' = {w with pending := w.pending ++ [(M, true)], lastCkpTs := some M, lastFullCkpTs := some M} ∧
      (∀ ts, w.lastFullCkpTs = some ts → ts < M) ∧ ∀ ts, w.lastCkpTs = some ts → ts ≤ M := by
  simp only [chooseFull, if_neg hskip] at hs
  split at hs
  · cases hs
  rename_i hok
  cases hs
  refine ⟨rfl, fun ts hts => ?_, fun ts hts => ?_⟩
  · simp only [hts, Option.any_some, decide_eq_true_eq] at hok
    exact Nat.lt_of_not_ge fun hge => hok (.inl hge)
  · simp only [hts, Option.any_some, decide_eq_true_eq] at hok
    exact Nat.le_of_not_gt fun hgt => hok (.inr hgt)

/-- A delta checkpoint that takes effect is above the last one, and there is one. -/
theorem chooseDelta_ok {seen M : Nat} (hs : chooseDelta w seen M = .ok w') (hnew : w'.lastCkpTs ≠ w.lastCkpTs) :
    w' = {w with pending := w.pending ++ [(M, false)], lastCkpTs := some M} ∧
      ∃ ts, w.lastCkpTs = some ts ∧ ts < M := by
  simp only [chooseDelta] at hs
  split at hs
  · cases hs
    exact absurd rfl hnew
  rename_i last hlast
  split at hs
  · cases hs
    exact absurd rfl hnew
  split at hs
  · cases hs
  split at hs
  · cases hs
    exact absurd rfl hnew
  rename_i hlt
  split at hs
  · cases hs
  cases hs
  exact ⟨rfl, last, hlast, Nat.lt_of_not_ge hlt⟩

theorem History.save {isFull : Bool} (h : History s) (fulls deltas : List Nat)
    (hbefore : ∀ a ∈ s.saved, Before a (.ofCheckpoint M isFull)) (hlast : w.lastCkpTs = some M)
    (hlastFull : w.lastFullCkpTs = if isFull then some M else s.wal.lastFullCkpTs)
    (hbase : isFull = true ∨ ∃ ts, .full ts ∈ s.saved ∧ ts ≤ M)
    (hpending : w.pending = s.wal.pending ++ [(M, isFull)]) (hlogged : w.logged = s.wal.logged) :
    History {s with
      wal := w, fullInfos := fulls, deltaInfos := deltas, saved := s.saved ++ [.ofCheckpoint M isFull]} := by
  have hself : CatalogFile.ofCheckpoint M isFull ∈ s.saved ++ [.ofCheckpoint M isFull] :=
    mem_append_right _ (mem_singleton_self _)
  have hold : ∀ f ∈ s.saved, f ∈ s.saved ++ [.ofCheckpoint M isFull] := fun f hf => mem_append_left _ hf
  have hcases : ∀ f ∈ s.saved ++ [.ofCheckpoint M isFull], f ∈ s.saved ∨ f = .ofCheckpoint M isFull := fun f hf =>
    (mem_append.mp hf).imp id mem_singleton.mp
  have hts : (CatalogFile.ofCheckpoint M isFull).maxCommitTs = M := by cases isFull <;> rfl
  have hle : ∀ f ∈ s.saved, f.maxCommitTs ≤ M := by
    intro f hf
    rcases hbefore f hf with hlt | ⟨ts, rfl, heq⟩
    · exact hlt.le.trans_eq hts
    · rw [heq] at hts
      exact hts.le
  have hbase' : ∃ ts, .full ts ∈ s.saved ++ [.ofCheckpoint M isFull] ∧ ts ≤ M := by
    rcases hbase with rfl | ⟨ts, hmem, hle⟩
    · exact ⟨M, hself, le_refl _⟩
    · exact ⟨ts, hold _ hmem, hle⟩
  refine ⟨?_, ?_, ?_, ?_, ?_, ?_, ?_⟩
  · refine pairwise_append.mpr ⟨h.ordered, pairwise_singleton _ _, fun a ha b hb => ?_⟩
    rw [mem_singleton.mp hb]
    exact hbefore a ha
  · intro f hf
    refine ⟨M, hlast, ?_⟩
    rcases hcases f hf with hf | rfl
    · exact hle f hf
    · exact hts.le
  · intro ts hmem
    cases isFull with
    | true =>
      refine ⟨M, hlastFull, ?_⟩
      rcases hcases _ hmem with hmem | hmem
      · exact hle _ hmem
      · cases hmem
        exact le_refl _
    | false =>
      rcases hcases _ hmem with hmem | hmem
      · rw [if_neg Bool.false_ne_true] at hlastFull
        simpa only [hlastFull] using h.lastFull ts hmem
      · cases hmem
  · intro last hl
    rw [hlast] at hl
    cases hl
    exact hbase'
  · intro f hf
    rcases hcases f hf with hf | rfl
    · obtain ⟨ts, hmem, hle⟩ := h.based f hf
      exact ⟨ts, hold _ hmem, hle⟩
    · rwa [hts]
  · intro c hc
    simp only [hpending] at hc
    rcases mem_append.mp hc with hc | hc
    · exact hold _ (h.pending c hc)
    · rwa [mem_singleton.mp hc]
  · rintro ts full ⟨e, he, hm⟩
    simp only [hlogged] at he
    exact hold _ (h.logged ts full ⟨e, he, hm⟩)

theorem Kept.save {isFull : Bool} (h : Kept s) (w : System)
    (hbefore : ∀ a ∈ s.saved, Before a (.ofCheckpoint M isFull)) :
    Kept {s with
      wal := w
      fullInfos := if isFull then s.fullInfos ++ [M] else s.fullInfos
      deltaInfos := if isFull then s.deltaInfos else s.deltaInfos ++ [M]
      saved := s.saved ++ [.ofCheckpoint M isFull]} := by
  have hold : ∀ f ∈ s.saved, f ∈ s.saved ++ [.ofCheckpoint M isFull] := fun f hf => mem_append_left _ hf
  have hdeleted : ∀ d ∈ s.deleted, .full d.1 ∈ s.saved ++ [.ofCheckpoint M isFull] ∧ Superseded d.1 d.2 :=
    fun d hd => ⟨hold _ (h.deleted d hd).1, (h.deleted d hd).2⟩
  have hjobs : ∀ job ∈ s.recycling, .full job.maxCommitTs ∈ s.saved ++ [.ofCheckpoint M isFull] ∧
      (∀ ts ∈ job.fullInfos, .full ts ∈ s.saved ++ [.ofCheckpoint M isFull] ∧ ts < job.maxCommitTs) ∧
      ∀ ts ∈ job.deltaInfos, .delta ts ∈ s.saved ++ [.ofCheckpoint M isFull] ∧ ts ≤ job.maxCommitTs := by
    intro job hjob
    obtain ⟨hf, hfulls, hdeltas⟩ := h.jobs job hjob
    exact ⟨hold _ hf, fun ts hts => ⟨hold _ (hfulls ts hts).1, (hfulls ts hts).2⟩,
      fun ts hts => ⟨hold _ (hdeltas ts hts).1, (hdeltas ts hts).2⟩⟩
  have hgrow : ∀ {l : List Nat}, l.Pairwise (· < ·) → (∀ ts ∈ l, ts < M) → (l ++ [M]).Pairwise (· < ·) := by
    intro l hl hlt
    refine pairwise_append.mpr ⟨hl, pairwise_singleton _ _, fun a ha b hb => ?_⟩
    rw [mem_singleton.mp hb]
    exact hlt a ha
  cases isFull with
  | true =>
    refine ⟨hgrow h.fulls fun ts hts => ?_, h.deltas, fun ts => ?_, fun ts => ?_, hdeleted, hjobs⟩
    · rcases hbefore _ ((h.full ts).mpr (.inl hts)) with hlt | ⟨_, heq, -⟩
      · exact hlt
      · cases heq
    · simp only [CatalogFile.ofCheckpoint, if_true, mem_append, mem_singleton, CatalogFile.full.injEq, h.full]
      tauto
    · simp only [CatalogFile.ofCheckpoint, if_true, mem_append, mem_singleton, reduceCtorEq, or_false]
      exact h.delta ts
  | false =>
    refine ⟨h.fulls, hgrow h.deltas fun ts hts => ?_, fun ts => ?_, fun ts => ?_, hdeleted, hjobs⟩
    · rcases hbefore _ ((h.delta ts).mpr (.inl hts)) with hlt | ⟨_, -, heq⟩
      · exact hlt
      · cases heq
    · simp only [CatalogFile.ofCheckpoint, Bool.false_eq_true, if_false, mem_append, mem_singleton,
        reduceCtorEq, or_false]
      exact h.full ts
    · simp only [CatalogFile.ofCheckpoint, Bool.false_eq_true, if_false, mem_append, mem_singleton,
        CatalogFile.delta.injEq, h.delta]
      tauto

variable {s' : Store}

theorem inv_fullCheckpoint (h : History s) (hk : Kept s) (hs : fullCheckpoint s M = .ok s') : History s' ∧ Kept s' := by
  simp only [fullCheckpoint] at hs
  split at hs
  · cases hs
  rename_i w hw
  split at hs
  · cases hs
    exact ⟨h, hk⟩
  rename_i hskip
  cases hs
  obtain ⟨rfl, hfull, hlast⟩ := chooseFull_ok hskip hw
  have hbefore : ∀ a ∈ s.saved, Before a (.ofCheckpoint M true) := by
    intro a ha
    cases a with
    | full ts =>
      obtain ⟨last, hl, hle⟩ := h.lastFull ts ha
      exact .inl (hle.trans_lt (hfull last hl))
    | delta ts =>
      obtain ⟨last, hl, hle⟩ := h.last _ ha
      rcases Nat.lt_or_eq_of_le (hle.trans (hlast last hl)) with hlt | heq
      · exact .inl hlt
      · exact .inr ⟨ts, rfl, congrArg CatalogFile.full heq.symm⟩
  exact ⟨h.save _ _ hbefore rfl rfl (.inl rfl) rfl rfl, hk.save _ hbefore⟩

theorem inv_deltaCheckpoint {seen M : Nat} (h : History s) (hk : Kept s)
    (hs : deltaCheckpoint s seen M = .ok s') : History s' ∧ Kept s' := by
  simp only [deltaCheckpoint] at hs
  split at hs
  · cases hs
  rename_i w hw
  split at hs
  · cases hs
    exact ⟨h, hk⟩
  rename_i hnew
  cases hs
  obtain ⟨rfl, last, hlast, hlt⟩ := chooseDelta_ok hw hnew
  have hbefore : ∀ a ∈ s.saved, Before a (.ofCheckpoint M false) := by
    intro a ha
    obtain ⟨ts, hts, hle⟩ := h.last a ha
    rw [hlast] at hts
    cases hts
    exact .inl (hle.trans_lt hlt)
  obtain ⟨ts, hmem, hle⟩ := h.base last hlast
  exact ⟨h.save _ _ hbefore rfl rfl (.inr ⟨ts, hmem, hle.trans hlt.le⟩) rfl rfl, hk.save _ hbefore⟩

variable {fulls deltas : List Nat}

/-! ### Recycling -/

theorem inv_recycleCatalogFile (h : History s) (hk : Kept s)
    (hM : Logged s M true) (hf : fulls.Perm s.fullInfos) (hd : deltas.Perm s.deltaInfos) :
    History (recycleCatalogFile s M fulls deltas) ∧ Kept (recycleCatalogFile s M fulls deltas) := by
  refine ⟨⟨h.ordered, h.last, h.lastFull, h.base, h.based, h.pending, h.logged⟩,
    ⟨hk.fulls, hk.deltas, hk.full, hk.delta, hk.deleted, fun job hjob => ?_⟩⟩
  rcases mem_append.mp hjob with hjob | hjob
  · exact hk.jobs job hjob
  rw [mem_singleton.mp hjob]
  refine ⟨h.logged M true hM, fun ts hts => ?_, fun ts hts => ?_⟩
  · obtain ⟨hmem, hlt⟩ := mem_filter.mp hts
    exact ⟨(hk.full ts).mpr (.inl (hf.mem_iff.mp hmem)), of_decide_eq_true hlt⟩
  · obtain ⟨hmem, hle⟩ := mem_filter.mp hts
    exact ⟨(hk.delta ts).mpr (.inl (hd.mem_iff.mp hmem)), of_decide_eq_true hle⟩

variable {saved : List CatalogFile} {infos : List Nat}

/-- What was written is in the directory or recorded as deleted, also after a deletion. -/
theorem saved_iff_of_delete {deleted : List (Nat × CatalogFile)}
    {c ts : Nat} {file : Nat → CatalogFile} (hinj : ∀ x, file x = file ts → x = ts)
    (h : ∀ x, file x ∈ saved ↔ x ∈ infos ∨ ∃ c, (c, file x) ∈ deleted) (hts : file ts ∈ saved) (x : Nat) :
    file x ∈ saved ↔ x ∈ infos.filter (· ≠ ts) ∨ ∃ c', (c', file x) ∈ deleted ++ [(c, file ts)] := by
  by_cases hx : x = ts
  · subst hx
    exact iff_of_true hts (.inr ⟨c, mem_append_right _ (mem_singleton_self _)⟩)
  · have hne : file x ≠ file ts := fun heq => hx (hinj x heq)
    simp [h, hx, hne]

/-- A running call of `RecycleCatalogFile` goes on with what is left of it. -/
theorem mem_advance {jobs : List Recycle} {job rest job' : Recycle} (h : job' ∈ jobs.erase job ++ [rest]) :
    job' ∈ jobs ∨ job' = rest :=
  (mem_append.mp h).imp mem_of_mem_erase mem_singleton.mp

theorem inv_deleteNext {job : Recycle} (h : History s) (hk : Kept s) (hjob : job ∈ s.recycling)
    (hs : deleteNext s job = .ok s') : History s' ∧ Kept s' := by
  have hhistory : ∀ fulls deltas recycling deleted, History {s with
      fullInfos := fulls, deltaInfos := deltas, recycling := recycling, deleted := deleted} :=
    fun _ _ _ _ => ⟨h.ordered, h.last, h.lastFull, h.base, h.based, h.pending, h.logged⟩
  obtain ⟨hself, hfulls, hdeltas⟩ := hk.jobs job hjob
  simp only [deleteNext] at hs
  split at hs
  · rename_i ts rest hrest
    cases hs
    rw [hrest] at hfulls
    obtain ⟨hmem, hlt⟩ := hfulls ts mem_cons_self
    refine ⟨hhistory _ _ _ _, ⟨hk.fulls.filter _, hk.deltas, ?_, fun x => ?_, fun d hd => ?_, fun job' hjob' => ?_⟩⟩
    · exact saved_iff_of_delete (fun x heq => by cases heq; rfl) hk.full hmem
    · simpa using hk.delta x
    · rcases mem_append.mp hd with hd | hd
      · exact hk.deleted d hd
      · rw [mem_singleton.mp hd]
        exact ⟨hself, hlt⟩
    · rcases mem_advance hjob' with hjob' | rfl
      · exact hk.jobs job' hjob'
      · exact ⟨hself, fun x hx => hfulls x (mem_cons_of_mem _ hx), hdeltas⟩
  · split at hs
    · cases hs
    · split at hs
      · rename_i ts rest hrest
        cases hs
        rw [hrest] at hdeltas
        obtain ⟨hmem, hle⟩ := hdeltas ts mem_cons_self
        refine ⟨hhistory _ _ _ _, ⟨hk.fulls, hk.deltas.filter _, fun x => ?_, ?_, fun d hd => ?_, fun job' hjob' => ?_⟩⟩
        · simpa using hk.full x
        · exact saved_iff_of_delete (fun x heq => by cases heq; rfl) hk.delta hmem
        · rcases mem_append.mp hd with hd | hd
          · exact hk.deleted d hd
          · rw [mem_singleton.mp hd]
            exact ⟨hself, hle⟩
        · rcases mem_advance hjob' with hjob' | rfl
          · exact hk.jobs job' hjob'
          · exact ⟨hself, hfulls, fun x hx => hdeltas x (mem_cons_of_mem _ hx)⟩
      · cases hs
        exact ⟨hhistory _ _ _ _, ⟨hk.fulls, hk.deltas, hk.full, hk.delta, hk.deleted,
          fun job' hjob' => hk.jobs job' (mem_of_mem_erase hjob')⟩⟩

theorem catalog_inv_step (c : CatalogCall) (h : History s ∧ Kept s) (he : catalogEnabled s c)
    (hs : catalogStep s c = .ok s') : History s' ∧ Kept s' := by
  obtain ⟨h, hk⟩ := h
  cases c with
  | wal call =>
    simp only [catalogStep] at hs
    split at hs
    · cases hs
    rename_i w hw
    cases hs
    refine ⟨history_wal h (c := call) ?_ ?_ ?_ hw, kept_wal hk w⟩
    · rintro M rfl
      exact he
    · rintro seen M rfl
      exact he
    · cases call with
      | chooseFull M => exact he.elim
      | chooseDelta seen M => exact he.elim
      | _ => exact he
  | fullCheckpoint M => exact inv_fullCheckpoint h hk hs
  | deltaCheckpoint seen M => exact inv_deltaCheckpoint h hk hs
  | recycleCatalogFile M fulls deltas =>
    cases hs
    exact inv_recycleCatalogFile h hk he.1 he.2.1 he.2.2
  | deleteNext job => exact inv_deleteNext h hk he hs

theorem catalog_inv_run {calls : List CatalogCall} (run : catalogMachine.Run .start calls s) : History s ∧ Kept s :=
  run.invariant (I := fun s => History s ∧ Kept s) (fun _ c _ h he hs => catalog_inv_step c h he hs)
    ⟨history_start, kept_start⟩

variable {ts : Nat}

/-! ### Selecting the files -/

theorem mem_sortInfos : ts ∈ sortInfos infos ↔ ts ∈ infos := (mergeSort_perm infos _).mem_iff

theorem sortInfos_pairwise (h : infos.Nodup) : (sortInfos infos).Pairwise (· < ·) := by
  have hsorted : (sortInfos infos).Pairwise (fun a b => decide (a ≤ b) = true) :=
    pairwise_mergeSort (fun a b c => by simpa using le_trans) (fun a b => by simpa using le_total a b) infos
  have hnodup : (sortInfos infos).Nodup := (mergeSort_perm infos _).nodup_iff.mpr h
  exact hsorted.imp₂ (fun a b hle hne => lt_of_le_of_ne (of_decide_eq_true hle) hne) hnodup

variable {max : Nat}

theorem parseValidCheckpointFilenames_eq (hf : fulls.Nodup) (hd : deltas.Nodup) :
    parseValidCheckpointFilenames fulls deltas max =
      ((sortInfos fulls).filter fun ts => decide (ts ≤ max)).getLast?.map fun last =>
        (last, (sortInfos deltas).filter fun ts => decide (ts ≤ max) && decide (last < ts)) := by
  have hnot : ∀ m ts : Nat, (!decide (ts > m)) = decide (ts ≤ m) := fun m ts => by
    rw [Bool.eq_iff_iff]
    simp
  have hback : ∀ {l : List Nat}, l.Pairwise (· < ·) →
      l.rdropWhile (fun ts => decide (ts > max)) = l.filter fun ts => decide (ts ≤ max) := by
    intro l hl
    rw [rdropWhile_eq_filter (hl.imp fun {a b} hab h => by simp at h ⊢; omega)]
    simp [hnot]
  simp only [parseValidCheckpointFilenames, hback (sortInfos_pairwise hf), hback (sortInfos_pairwise hd)]
  cases ((sortInfos fulls).filter fun ts => decide (ts ≤ max)).getLast? with
  | none => rfl
  | some last =>
    have hfront : ((sortInfos deltas).filter fun ts => decide (ts ≤ max)).Pairwise
        fun a b => decide (b ≤ last) = true → decide (a ≤ last) = true :=
      ((sortInfos_pairwise hd).filter _).imp fun {a b} hab h => decide_eq_true (hab.le.trans (of_decide_eq_true h))
    simp only [Option.map_some]
    rw [dropWhile_eq_filter hfront, filter_filter]
    refine congrArg (fun l => some (last, l)) (filter_congr fun ts _ => ?_)
    rw [Bool.eq_iff_iff]
    simp [and_comm]

/-- What is written after a full file is exactly what has a larger timestamp. -/
theorem mem_writtenAfter {ts d : Nat} (hs : saved.Pairwise Before)
    (hts : .full ts ∈ saved) : .delta d ∈ writtenAfter (.full ts) saved ↔ .delta d ∈ saved ∧ ts < d := by
  induction hs with
  | nil => cases hts
  | @cons f saved hf hs ih =>
    by_cases heq : f = .full ts
    · subst heq
      have hafter : writtenAfter (.full ts) (.full ts :: saved) = saved := by simp [writtenAfter]
      rw [hafter, mem_cons]
      constructor
      · intro hmem
        rcases hf _ hmem with hlt | ⟨_, h, -⟩
        · exact ⟨.inr hmem, hlt⟩
        · cases h
      · rintro ⟨hmem | hmem, -⟩
        · cases hmem
        · exact hmem
    · have hafter : writtenAfter (.full ts) (f :: saved) = writtenAfter (.full ts) saved := by simp [writtenAfter, heq]
      have hmem : .full ts ∈ saved := (mem_cons.mp hts).resolve_left fun h => heq h.symm
      rw [hafter, ih hmem, mem_cons]
      constructor
      · exact fun h => ⟨.inr h.1, h.2⟩
      · rintro ⟨rfl | h, hlt⟩
        · -- a delta file before a full file is not above it
          rcases hf _ hmem with h | ⟨x, h₁, h₂⟩
          · exact absurd (h.trans hlt) (lt_irrefl _)
          cases h₁
          cases h₂
          exact absurd hlt (lt_irrefl _)
        · exact ⟨h, hlt⟩

theorem pairwise_filterMap_full (hs : saved.Pairwise Before) :
    (saved.filterMap CatalogFile.full?).Pairwise (· < ·) := by
  rw [pairwise_filterMap]
  refine hs.imp fun {a b} hab x hx y hy => ?_
  cases a with
  | delta ts => cases hx
  | full ts =>
    cases b with
    | delta ts' => cases hy
    | full ts' =>
      cases hx
      cases hy
      rcases hab with hlt | ⟨_, h, -⟩
      · exact hlt
      · cases h

theorem pairwise_filterMap_delta (hs : saved.Pairwise Before) :
    (saved.filterMap CatalogFile.delta?).Pairwise (· < ·) := by
  rw [pairwise_filterMap]
  refine hs.imp fun {a b} hab x hx y hy => ?_
  cases a with
  | full ts => cases hx
  | delta ts =>
    cases b with
    | full ts' => cases hy
    | delta ts' =>
      cases hx
      cases hy
      rcases hab with hlt | ⟨_, -, h⟩
      · exact hlt
      · cases h

theorem mem_filterMap_full : ts ∈ saved.filterMap CatalogFile.full? ↔ .full ts ∈ saved := by
  rw [mem_filterMap]
  constructor
  · rintro ⟨f, hf, h⟩
    cases f with
    | full ts' =>
      cases h
      exact hf
    | delta ts' => cases h
  · exact fun h => ⟨_, h, rfl⟩

theorem mem_filterMap_delta : ts ∈ saved.filterMap CatalogFile.delta? ↔ .delta ts ∈ saved := by
  rw [mem_filterMap]
  constructor
  · rintro ⟨f, hf, h⟩
    cases f with
    | full ts' => cases h
    | delta ts' =>
      cases h
      exact hf
  · exact fun h => ⟨_, h, rfl⟩

theorem needed_eq_some (hs : saved.Pairwise Before) : needed saved max = some (ts, deltas) ↔
      (.full ts ∈ saved ∧ ts ≤ max ∧ ∀ x, .full x ∈ saved → x ≤ max → x ≤ ts) ∧ deltas.Pairwise (· < ·) ∧
        ∀ d, d ∈ deltas ↔ .delta d ∈ saved ∧ ts < d ∧ d ≤ max := by
  have hlast : ∀ x, ((saved.filterMap CatalogFile.full?).filter fun ts => decide (ts ≤ max)).getLast? = some x ↔
      .full x ∈ saved ∧ x ≤ max ∧ ∀ y, .full y ∈ saved → y ≤ max → y ≤ x := by
    intro x
    rw [getLast?_eq_some_iff_max ((pairwise_filterMap_full hs).filter _)]
    simp only [mem_filter, mem_filterMap_full, decide_eq_true_eq, and_imp, and_assoc]
  have hdeltas : .full ts ∈ saved →
      (((writtenAfter (.full ts) saved).filterMap CatalogFile.delta?).filter fun d => decide (d ≤ max)).Pairwise (· < ·) ∧
        ∀ d, d ∈ ((writtenAfter (.full ts) saved).filterMap CatalogFile.delta?).filter (fun d => decide (d ≤ max)) ↔
          .delta d ∈ saved ∧ ts < d ∧ d ≤ max := by
    intro hts
    refine ⟨?_, fun d => ?_⟩
    · refine (pairwise_filterMap_delta (hs.sublist ?_)).filter _
      exact (tail_sublist _).trans (dropWhile_sublist _)
    · rw [mem_filter, mem_filterMap_delta, mem_writtenAfter hs hts, decide_eq_true_eq, and_assoc]
  unfold needed
  cases hl : ((saved.filterMap CatalogFile.full?).filter fun ts => decide (ts ≤ max)).getLast? with
  | none =>
    simp only [reduceCtorEq, false_iff]
    rintro ⟨h, -⟩
    simp [(hlast ts).mpr h] at hl
  | some x =>
    simp only [Option.some.injEq, Prod.mk.injEq]
    constructor
    · rintro ⟨rfl, rfl⟩
      have hx := (hlast x).mp hl
      exact ⟨hx, hdeltas hx.1⟩
    · rintro ⟨h, hsorted, hmem⟩
      have hx := (hlast ts).mpr h
      rw [hl] at hx
      cases hx
      obtain ⟨hsorted', hmem'⟩ := hdeltas h.1
      exact ⟨rfl, hsorted'.eq_of_mem_iff hsorted fun d => (hmem' d).trans (hmem d).symm⟩

/-! ### The selection finds what is needed -/

/-- Where nothing was deleted for a full checkpoint above `max`, the directory still has all
that is needed. -/
theorem select_eq_needed (h : History s) (hk : Kept s)
    (hc : CrashDir s fulls deltas) (hdel : ∀ d ∈ s.deleted, d.1 ≤ max) :
    parseValidCheckpointFilenames fulls deltas max = needed s.saved max := by
  rw [parseValidCheckpointFilenames_eq hc.fullNodup hc.deltaNodup]
  have hlast := getLast?_eq_some_iff_max ((sortInfos_pairwise hc.fullNodup).filter fun ts => decide (ts ≤ max))
  simp only [mem_filter, mem_sortInfos, decide_eq_true_eq, and_imp, and_assoc] at hlast
  cases hn : needed s.saved max with
  | none =>
    rw [Option.map_eq_none_iff, getLast?_eq_none_iff, filter_eq_nil_iff]
    intro ts hts hle
    have hsome : ((s.saved.filterMap CatalogFile.full?).filter fun ts => decide (ts ≤ max)).getLast? ≠ none := by
      rw [ne_eq, getLast?_eq_none_iff, filter_eq_nil_iff]
      exact fun hall => hall ts (mem_filterMap_full.mpr (hc.full ts (mem_sortInfos.mp hts))) hle
    unfold needed at hn
    split at hn
    · rename_i heq
      exact hsome heq
    · cases hn
  | some p =>
    obtain ⟨ts, needs⟩ := p
    obtain ⟨⟨hts, hle, hmax⟩, hsorted, hmem⟩ := (needed_eq_some h.ordered).mp hn
    -- the newest full file is not deleted: what supersedes it would be needed instead
    have hpresent : ts ∈ fulls := by
      rcases hc.fullKept ts hts with hin | ⟨c, hcd⟩
      · exact hin
      · obtain ⟨hcs, hsup⟩ := hk.deleted _ hcd
        exact absurd (hmax c hcs (hdel _ hcd)) (not_le.mpr hsup)
    rw [(hlast ts).mpr ⟨hpresent, hle, fun x hx => hmax x (hc.full x hx)⟩]
    refine congrArg (fun l => some (ts, l)) ?_
    refine ((sortInfos_pairwise hc.deltaNodup).filter _).eq_of_mem_iff hsorted fun d => ?_
    rw [mem_filter, mem_sortInfos, hmem, Bool.and_eq_true, decide_eq_true_eq, decide_eq_true_eq]
    constructor
    · exact fun ⟨hin, hdle, hlt⟩ => ⟨hc.delta d hin, hlt, hdle⟩
    · rintro ⟨hds, hlt, hdle⟩
      rcases hc.deltaKept d hds with hin | ⟨c, hcd⟩
      · exact ⟨hin, hdle, hlt⟩
      · obtain ⟨hcs, hsup⟩ := hk.deleted _ hcd
        exact absurd (hsup.trans (hmax c hcs (hdel _ hcd))) (not_le.mpr hlt)

/-- **Catalog files.** Take any state that checkpoints, logging and recycling lead to, and any
directory a crash leaves of it. A recovery at the timestamp of a logged checkpoint not
below any full checkpoint that files were deleted for selects the newest full file ever
written not above it, and the delta files written after that up to it. And no file
deleted for a full checkpoint is needed at or after that checkpoint. -/
theorem selection_complete {calls : List CatalogCall} {s : Store} (run : catalogMachine.Run .start calls s) :
    (∀ maxCheckpointTs isFull, Logged s maxCheckpointTs isFull → (∀ d ∈ s.deleted, d.1 ≤ maxCheckpointTs) →
      ∀ fulls deltas, CrashDir s fulls deltas →
        needed s.saved maxCheckpointTs ≠ none ∧
          parseValidCheckpointFilenames fulls deltas maxCheckpointTs = needed s.saved maxCheckpointTs) ∧
      ∀ c file, (c, file) ∈ s.deleted → ∀ maxCheckpointTs, c ≤ maxCheckpointTs → ∀ ts deltas,
        needed s.saved maxCheckpointTs = some (ts, deltas) → file ≠ .full ts ∧ ∀ d ∈ deltas, file ≠ .delta d := by
  obtain ⟨h, hk⟩ := catalog_inv_run run
  constructor
  · intro max isFull hlogged hdel fulls deltas hc
    refine ⟨fun hnone => ?_, select_eq_needed h hk hc hdel⟩
    obtain ⟨ts, hts, hle⟩ := h.based _ (h.logged max isFull hlogged)
    have hle' : ts ≤ max := by cases isFull <;> exact hle
    unfold needed at hnone
    split at hnone
    · rename_i heq
      rw [getLast?_eq_none_iff, filter_eq_nil_iff] at heq
      exact heq ts (mem_filterMap_full.mpr hts) (decide_eq_true hle')
    · cases hnone
  · intro c file hdel max hle ts deltas hn
    obtain ⟨hcs, hsup⟩ := hk.deleted _ hdel
    obtain ⟨⟨-, -, hmax⟩, -, hmem⟩ := (needed_eq_some h.ordered).mp hn
    have hc := hmax c hcs hle
    constructor
    · rintro rfl
      exact absurd (hc.trans_lt' hsup) (lt_irrefl _)
    · rintro d hd rfl
      exact absurd ((hsup.trans hc).trans_lt ((hmem d).mp hd).2.1) (lt_irrefl _)

/-- A full checkpoint at 5, delta checkpoints at 6 and 7, a full checkpoint at 8, all logged;
recycling for the last one deletes the first two of its files. -/
def recycledPartly : List CatalogCall :=
  [.wal (.commit 1 5 []), .fullCheckpoint 5, .wal (.logCheckpoint 2 6 5 true), .deltaCheckpoint 6 6,
    .wal (.logCheckpoint 3 7 6 false), .deltaCheckpoint 7 7, .wal (.logCheckpoint 4 8 7 false), .fullCheckpoint 8,
    .wal (.logCheckpoint 5 9 8 true), .recycleCatalogFile 8 [8, 5] [6, 7],
    .deleteNext ⟨8, [5], true, [6, 7]⟩, .deleteNext ⟨8, [], true, [6, 7]⟩]

theorem recycledPartly_run : ∃ s, catalogMachine.Run .start recycledPartly s ∧ Logged s 7 false ∧ Logged s 8 true ∧
    s.saved = [.full 5, .delta 6, .delta 7, .full 8] ∧ s.fullInfos = [8] ∧ s.deltaInfos = [7] ∧
    s.deleted = [(8, .full 5), (8, .delta 6)] :=
  ⟨_, .cons trivial rfl <| .cons ⟨by decide, by decide⟩ rfl <| .cons (mem_singleton_self (5, true)) rfl <|
    .cons ⟨by decide, by decide⟩ rfl <| .cons (mem_singleton_self (6, false)) rfl <|
    .cons ⟨by decide, by decide⟩ rfl <| .cons (mem_singleton_self (7, false)) rfl <|
    .cons ⟨by decide, by decide⟩ rfl <| .cons (mem_singleton_self (8, true)) rfl <|
    .cons ⟨⟨⟨5, 9, [.checkpoint 8 true]⟩, by decide, by decide⟩, .swap 5 8 [], .refl [6, 7]⟩ rfl <|
    .cons (mem_singleton_self (Recycle.mk 8 [5] true [6, 7])) rfl <|
    .cons (mem_singleton_self (Recycle.mk 8 [] true [6, 7])) rfl <| .nil _,
    ⟨⟨4, 8, [.checkpoint 7 false]⟩, by decide, by decide⟩, ⟨⟨5, 9, [.checkpoint 8 true]⟩, by decide, by decide⟩,
    rfl, rfl, rfl, rfl⟩

theorem Kept.crashDir (hk : Kept s) : CrashDir s s.fullInfos s.deltaInfos where
  fullNodup := hk.fulls.imp fun h => h.ne
  deltaNodup := hk.deltas.imp fun h => h.ne
  full := fun ts hts => (hk.full ts).mpr (.inl hts)
  delta := fun ts hts => (hk.delta ts).mpr (.inl hts)
  fullKept := fun ts hts => (hk.full ts).mp hts
  deltaKept := fun ts hts => (hk.delta ts).mp hts

/-- At the older checkpoint 7, which is logged too, the files it would need are gone. -/
theorem older_selection_gone : ∃ s, catalogMachine.Run .start recycledPartly s ∧ Logged s 7 false ∧
    CrashDir s [8] [7] ∧ needed s.saved 7 = some (5, [6, 7]) ∧ parseValidCheckpointFilenames [8] [7] 7 = none := by
  obtain ⟨s, run, hlogged, -, hsaved, hfulls, hdeltas, -⟩ := recycledPartly_run
  have hdir := (catalog_inv_run run).2.crashDir
  rw [hfulls, hdeltas] at hdir
  refine ⟨s, run, hlogged, hdir, by rw [hsaved]; decide, ?_⟩
  rw [parseValidCheckpointFilenames_eq (by decide) (by decide)]
  simp [sortInfos]

theorem selection_complete_newest : ∃ s, catalogMachine.Run .start recycledPartly s ∧
    parseValidCheckpointFilenames s.fullInfos s.deltaInfos 8 = some (8, []) := by
  obtain ⟨s, run, -, hlogged, hsaved, -, -, hdeleted⟩ := recycledPartly_run
  have hneeded : needed s.saved 8 = some (8, []) := by
    rw [hsaved]
    decide
  refine ⟨s, run, ?_⟩
  rw [← hneeded]
  exact ((selection_complete run).1 8 true hlogged (by rw [hdeleted]; decide) _ _ (catalog_inv_run run).2.crashDir).2

end Infinity.Wal
