import Infinity.Compaction.LayerSpecs

/-! No segment is lost between the layers and the compactions.

`segments_conserved` is the whole of it, for tables whose callers keep to `Complete`: they
add a segment once and when it is sealed, a compaction that commits has compacted all it was
given, and a manual compaction takes every listed segment and gives all of them back if it
is rolled back. `segment_lost` is a manual compaction that does not. -/
namespace Infinity.Compaction.DBT

open Lib Table List

/-- The callers leave no segment behind. -/
def Complete (m : TableState) : Call → Prop
  | .addSegment s => m.status s = .sealed ∧ s ∉ m.added
  | .commitCompact t compacted => ∀ segments, (t, segments) ∈ m.running →
      ∀ s ∈ segments, m.status s = .sealed → s ∈ compacted
  | .disable groups => ∀ s, s ∈ groups ↔ s ∈ m.alg.listed
  | .rollbackManual compactData => m.manual = some compactData
  | _ => True

namespace TableState

/-- The segments in a layer or with a compaction. -/
def places (m : TableState) : List Nat := m.alg.everything ++ m.manual.getD []

structure Inv (cfg : DBTConfig) (m : TableState) : Prop where
  sound : m.alg.Sound cfg m.rows
  running : m.alg.taken.Perm m.running
  nodup : m.places.Nodup
  inside : ∀ s ∈ m.places, m.status s = .sealed ∧ s ∈ m.added
  kept : ∀ s ∈ m.added, m.status s = .sealed → s ∈ m.places
  closed : ∀ s ∈ m.added, m.status s ≠ .unsealed
  disabled : m.alg.status = .disable ↔ m.manual ≠ none

section

variable {cfg : DBTConfig} {m : TableState} {s t : Nat}

theorem places_perm (hr : m.alg.taken.Perm m.running) : m.places.Perm (m.alg.listed ++ m.compacting) := by
  refine (m.alg.everything_perm.append_right _).trans ?_
  rw [append_assoc]
  exact ((hr.flatMap_right _).append_right _).append_left _

theorem Inv.entry (h : Inv cfg m) {segments : List Nat} (ht : (t, segments) ∈ m.running) :
    (t, segments) ∈ m.alg.taken ∧ ∀ taken, m.alg.taken.Perm ((t, segments) :: taken) →
      taken.Perm (((extract t m.running).map Prod.snd).getD m.running) := by
  have htaken : (t, segments) ∈ m.alg.taken := h.running.mem_iff.mpr ht
  refine ⟨htaken, fun taken hp => ?_⟩
  have hkey : t ∈ m.running.map Prod.fst := mem_map_of_mem ht
  obtain ⟨segments', rest, hx⟩ := extract_of_mem hkey
  have hkeys : (((t, segments') :: rest).map Prod.fst).Nodup :=
    ((extract_perm hx).map Prod.fst).nodup_iff.mp ((h.running.map Prod.fst).nodup_iff.mp h.sound.keys)
  have hsame : (t, segments) = (t, segments') := by
    obtain heq | hr := mem_cons.mp ((extract_perm hx).mem_iff.mp ht)
    · exact heq
    · exact absurd (mem_map_of_mem hr) (nodup_cons.mp hkeys).1
  rw [hx]
  exact (((hp.symm.trans h.running).trans (extract_perm hx)).trans (.of_eq (by rw [hsame]; rfl))).cons_inv

theorem inv_start (h : Start m) : Inv cfg m := by
  have hp : m.places = [] := by
    rw [places, h.alg, h.manual]
    rfl
  refine ⟨?_, ?_, ?_, ?_, ?_, ?_, ?_⟩
  · rw [h.alg]
    exact ⟨.nil, .nil, rfl, nofun, nofun, by decide⟩
  · rw [h.alg, h.running]
    exact .nil
  · rw [hp]
    exact .nil
  · rw [hp]
    nofun
  · rw [h.added]
    nofun
  · rw [h.added]
    nofun
  · rw [h.alg, h.manual]
    decide

theorem Inv.withAlg {a' : DBTCompactionAlg} {running : List (Nat × List Nat)} (h : Inv cfg m)
    (hs : a'.Sound cfg m.rows) (he : a'.everything.Perm m.alg.everything) (ht : a'.taken.Perm running)
    (hd : a'.status = .disable ↔ m.alg.status = .disable) : Inv cfg {m with alg := a', running} := by
  have hp : (places {m with alg := a', running}).Perm m.places := he.append_right _
  exact ⟨hs, ht, hp.nodup_iff.mpr h.nodup, fun s hs => h.inside s (hp.mem_iff.mp hs),
    fun s ha hs => hp.mem_iff.mpr (h.kept s ha hs), h.closed, hd.trans h.disabled⟩

theorem Inv.deprecate {m' : TableState} (gone : List Nat) (h : Inv cfg m) (hp : m.places.Perm (gone ++ m'.places))
    (hs : m'.alg.Sound cfg m'.rows) (hr : m'.alg.taken.Perm m'.running) (ha : m'.added = m.added)
    (hst : ∀ s, m'.status s = if s ∈ gone then .deprecated else m.status s)
    (hd : m'.alg.status = .disable ↔ m'.manual ≠ none) : Inv cfg m' := by
  have hnd := nodup_append.mp (hp.nodup_iff.mp h.nodup)
  refine ⟨hs, hr, hnd.2.1, fun s hin => ?_, fun s hadd hsealed => ?_, fun s hadd => ?_, hd⟩
  · have hnot : s ∉ gone := fun hg => hnd.2.2 s hg s hin rfl
    rw [hst s, if_neg hnot, ha]
    exact h.inside s (hp.mem_iff.mpr (mem_append_right _ hin))
  · rw [hst s] at hsealed
    split at hsealed
    · cases hsealed
    rename_i hnot
    exact (mem_append.mp (hp.mem_iff.mp (h.kept s (ha ▸ hadd) hsealed))).resolve_left hnot
  · rw [hst s]
    split
    · decide
    · exact h.closed s (ha ▸ hadd)

section
variable (h : Inv cfg m)
include h

theorem Inv.taken_eq_nil (hs : m.alg.status ≠ .running) : m.alg.taken = [] := by
  have hn : ¬ 0 < m.alg.runningTaskN := fun hn => hs (h.sound.running.mpr hn)
  rw [h.sound.count] at hn
  exact eq_nil_of_length_eq_zero (by omega)

theorem call_addSegment (hs : m.status s = .sealed) (hnew : s ∉ m.added) :
    ∃ m', call cfg m (.addSegment s) = .ok m' ∧ Inv cfg m' := by
  have hnot : s ∉ m.places := fun hin => hnew (h.inside s hin).2
  obtain ⟨a', hok, hsound, hadd⟩ :=
    DBTCompactionAlg.addSegmentInner_spec h.sound fun hin => hnot (mem_append_left _ hin)
  have hp : (places {m with added := s :: m.added, alg := a'}).Perm (s :: m.places) := hadd.everything.append_right _
  refine ⟨{m with added := s :: m.added, alg := a'}, by simp only [call, hok, TableState.withAlg], hsound,
    (Perm.of_eq hadd.taken).trans h.running, hp.nodup_iff.mpr (nodup_cons.mpr ⟨hnot, h.nodup⟩),
    fun x hx => ?_, fun x hx hsealed => ?_, fun x hx => ?_, ?_⟩
  · obtain rfl | hx := mem_cons.mp (hp.mem_iff.mp hx)
    · exact ⟨hs, mem_cons_self⟩
    · exact ⟨(h.inside x hx).1, mem_cons_of_mem _ (h.inside x hx).2⟩
  · refine hp.mem_iff.mpr ?_
    obtain rfl | hx := mem_cons.mp hx
    · exact mem_cons_self
    · exact mem_cons_of_mem _ (h.kept x hx hsealed)
  · obtain rfl | hx := mem_cons.mp hx
    · show m.status x ≠ .unsealed
      rw [hs]
      decide
    · exact h.closed x hx
  · show a'.status = .disable ↔ m.manual ≠ none
    rw [hadd.status]
    exact h.disabled

theorem call_deleteInSegment : ∃ m', call cfg m (.deleteInSegment s) = .ok m' ∧ Inv cfg m' := by
  obtain ⟨a', hok, hsound, hadd⟩ := DBTCompactionAlg.deleteInSegment_spec (s := s) h.sound
  exact ⟨{m with alg := a'}, by simp only [call, hok, TableState.withAlg],
    h.withAlg hsound hadd.everything ((Perm.of_eq hadd.taken).trans h.running) (by rw [hadd.status])⟩

theorem call_checkCompaction (ht : t ∉ m.running.map Prod.fst) :
    ∃ m', call cfg m (.checkCompaction t) = .ok m' ∧ Inv cfg m' := by
  have ht : t ∉ m.alg.taken.map Prod.fst := fun hx => ht ((h.running.map Prod.fst).mem_iff.mp hx)
  obtain hok | ⟨ret, a', hne, hok, hsound, he, htk, hst, hd⟩ := DBTCompactionAlg.checkCompaction_spec h.sound ht
  · exact ⟨m, by simp only [call, hok], h⟩
  obtain ⟨x, ret, rfl⟩ := exists_cons_of_ne_nil hne
  refine ⟨{m with alg := a', running := (t, x :: ret) :: m.running}, by simp only [call, hok],
    h.withAlg hsound he (htk.trans (h.running.cons _)) ?_⟩
  rw [hst]
  exact iff_of_false (by decide) hd

theorem call_commitCompact {segments compacted : List Nat} (ht : (t, segments) ∈ m.running)
    (hc : ∀ s, s ∈ compacted ↔ s ∈ segments) :
    ∃ m', call cfg m (.commitCompact t compacted) = .ok m' ∧ Inv cfg m' := by
  obtain ⟨htaken, hrest⟩ := h.entry ht
  obtain ⟨a', hok, hsound, he, htk, hst⟩ := DBTCompactionAlg.commitCompact_spec h.sound htaken
  let running := ((extract t m.running).map Prod.snd).getD m.running
  refine ⟨{m.setStatus compacted .deprecated with running, alg := a'}, by simp only [call, hok]; rfl,
    h.deprecate segments ((he.append_right _).trans (.of_eq (append_assoc ..))) hsound (hrest _ htk) rfl
      (fun s => ?_) ?_⟩
  · show (if s ∈ compacted then SegmentStatus.deprecated else m.status s) = _
    simp [hc]
  · have hd : m.alg.status ≠ .disable := by
      rw [h.sound.isRunning htaken]
      decide
    exact iff_of_false hst (mt h.disabled.mpr hd)

theorem call_rollbackCompact {segments : List Nat} (ht : (t, segments) ∈ m.running) :
    ∃ m', call cfg m (.rollbackCompact t) = .ok m' ∧ Inv cfg m' ∧ segments ⊆ m'.alg.listed := by
  obtain ⟨htaken, hrest⟩ := h.entry ht
  obtain ⟨a', hok, hsound, he, htk, hst, hsub⟩ := DBTCompactionAlg.rollbackCompact_spec h.sound htaken
  refine ⟨_, by simp only [call, hok, TableState.withAlg], h.withAlg hsound he.symm (hrest _ htk) ?_, hsub⟩
  refine iff_of_false hst ?_
  rw [h.sound.isRunning htaken]
  decide

theorem call_disable {groups : List Nat} (hs : m.alg.status = .enable) (hnd : groups.Nodup)
    (hg : ∀ s, s ∈ groups ↔ s ∈ m.alg.listed) : ∃ m', call cfg m (.disable groups) = .ok m' ∧ Inv cfg m' := by
  have htaken : m.alg.taken = [] := h.taken_eq_nil (by rw [hs]; decide)
  have hmanual : m.manual = none := by
    by_contra hx
    have := h.disabled.mpr hx
    rw [hs] at this
    cases this
  have hplaces : m.places.Perm groups := by
    have hlisted : m.places.Perm m.alg.listed := by
      have he := m.alg.everything_perm
      rw [htaken, flatMap_nil, append_nil] at he
      rwa [places, hmanual, Option.getD_none, append_nil]
    refine (perm_ext_iff_of_nodup h.nodup hnd).mpr fun s => ?_
    rw [hlisted.mem_iff, hg s]
  have hn : m.alg.runningTaskN = 0 := by
    rw [h.sound.count, htaken]
    rfl
  have hsound : m.alg.disable.Sound cfg m.rows := by
    refine ⟨.nil, .nil, hn, nofun, nofun, iff_of_false nofun ?_⟩
    show ¬ 0 < m.alg.runningTaskN
    omega
  have hrunning : m.running = [] := nil_perm.mp (htaken ▸ h.running)
  exact ⟨_, rfl, hsound, hrunning ▸ .nil, hnd, fun s hin => h.inside s (hplaces.mem_iff.mpr hin),
    fun s ha hsealed => hplaces.mem_iff.mp (h.kept s ha hsealed), h.closed, iff_of_true rfl (Option.some_ne_none _)⟩

theorem call_commitManual (hm : m.manual ≠ none) : ∃ m', call cfg m .commitManual = .ok m' ∧ Inv cfg m' := by
  have htaken := h.taken_eq_nil (by rw [h.disabled.mpr hm]; decide)
  obtain ⟨a', hok, hsound, he, htk, hst⟩ := DBTCompactionAlg.enable_spec [] h.sound h.sound.nodup htaken
  refine ⟨{m.setStatus (m.manual.getD []) .deprecated with manual := none, alg := a'},
    by simp only [call, hok, TableState.withAlg], h.deprecate (m.manual.getD []) ?_ hsound ?_ rfl (fun s => rfl) ?_⟩
  · show (m.alg.everything ++ m.manual.getD []).Perm (m.manual.getD [] ++ (a'.everything ++ []))
    rw [append_nil]
    exact perm_append_comm.trans (he.symm.append_left _)
  · show a'.taken.Perm m.running
    rw [htk, ← htaken]
    exact h.running
  · show a'.status = .disable ↔ (none : Option (List Nat)) ≠ none
    rw [hst]
    decide

theorem call_rollbackManual {groups : List Nat} (hm : m.manual = some groups) :
    ∃ m', call cfg m (.rollbackManual groups) = .ok m' ∧ Inv cfg m' := by
  have hd := h.disabled.mpr (hm ▸ Option.some_ne_none groups)
  have htaken := h.taken_eq_nil (by rw [hd]; decide)
  have hplaces : m.places.Perm (groups ++ m.alg.everything) := by
    rw [places, hm]
    exact perm_append_comm
  obtain ⟨a', hok, hsound, he, htk, hst⟩ :=
    DBTCompactionAlg.enable_spec groups h.sound (hplaces.nodup_iff.mp h.nodup) htaken
  have hp : (places {m with manual := none, alg := a'}).Perm m.places := by
    show (a'.everything ++ []).Perm _
    rw [append_nil]
    exact he.trans hplaces.symm
  refine ⟨{m with manual := none, alg := a'}, by simp only [call, hok, TableState.withAlg], hsound, ?_,
    hp.nodup_iff.mpr h.nodup, fun s hs => h.inside s (hp.mem_iff.mp hs),
    fun s ha hs => hp.mem_iff.mpr (h.kept s ha hs), h.closed, ?_⟩
  · show a'.taken.Perm m.running
    rw [htk, ← htaken]
    exact h.running
  · show a'.status = .disable ↔ (none : Option (List Nat)) ≠ none
    rw [hst]
    decide

theorem call_spec {c : Call} (hc : Allowed m c) (hg : Complete m c) : ∃ m', call cfg m c = .ok m' ∧ Inv cfg m' := by
  cases c with
  | append s n =>
    have hnot : s ∉ m.places := by
      intro hin
      have := (h.inside s hin).1
      rw [hc.1] at this
      cases this
    exact ⟨_, rfl, h.sound.grow fun hin => hnot (mem_append_left _ hin), h.running, h.nodup, h.inside, h.kept,
      h.closed, h.disabled⟩
  | delete s n =>
    exact ⟨_, rfl, h.sound.shrink hc, h.running, h.nodup, h.inside, h.kept, h.closed, h.disabled⟩
  | setSealed s =>
    -- a segment that is not sealed has not been added
    have hne (x : Nat) (hx : x ∈ m.added) : x ∉ [s] := by
      intro hxs
      rw [mem_singleton.mp hxs] at hx
      exact h.closed s hx hc
    have hst (x : Nat) (hx : x ∈ m.added) : (m.setStatus [s] .sealed).status x = m.status x := if_neg (hne x hx)
    refine ⟨_, rfl, h.sound, h.running, h.nodup, fun x hx => ?_, fun x hx hsealed => ?_, fun x hx => ?_, h.disabled⟩
    · rw [hst x (h.inside x hx).2]
      exact h.inside x hx
    · exact h.kept x hx (hst x hx ▸ hsealed)
    · rw [hst x hx]
      exact h.closed x hx
  | addSegment s => exact call_addSegment h hg.1 hg.2
  | deleteInSegment s => exact call_deleteInSegment h
  | checkCompaction t => exact call_checkCompaction h hc
  | commitCompact t compacted =>
    obtain ⟨segments, ht, hsub⟩ := hc
    refine call_commitCompact h ht fun s => ⟨fun hs => hsub hs, fun hs => hg segments ht s hs ?_⟩
    refine (h.inside s ((places_perm h.running).mem_iff.mpr ?_)).1
    exact mem_append_right _ (mem_append_left _ (mem_flatMap.mpr ⟨_, ht, hs⟩))
  | rollbackCompact t =>
    obtain ⟨⟨t, segments⟩, ht, rfl⟩ := mem_map.mp hc
    obtain ⟨m', hok, hinv, -⟩ := call_rollbackCompact h ht
    exact ⟨m', hok, hinv⟩
  | disable groups => exact call_disable h hc.1 hc.2.1 hg
  | commitManual => exact call_commitManual h hc
  | rollbackManual compactData => exact call_rollbackManual h hg

end

end

end TableState

/-! ### Runs -/

/-- **No segment is lost.** In every state reached from a table whose algorithm knows no
segment, by callers that keep to `Complete`: every sealed segment that was added, and is not
deprecated, is in one place, the list of one layer or of one compaction; the counter counts
the compactions that run, and the status says whether it is positive; a rollback puts all
segments of its compaction back into a layer; what `CheckCompaction` returns fits into a
segment; and no call fails. -/
theorem segments_conserved {cfg : DBTConfig} {m m' : TableState} {cs : List Call} (hs : Start m)
    (h : ((bookkeeping cfg).restrict Complete).Run m cs m') :
    (∀ s ∈ m'.added, m'.status s = .sealed → (m'.alg.listed ++ m'.compacting).count s = 1) ∧
    (m'.alg.runningTaskN = m'.running.length ∧ (m'.alg.status = .running ↔ 0 < m'.alg.runningTaskN)) ∧
    (∀ t segments, (t, segments) ∈ m'.running →
      ∃ m'', call cfg m' (.rollbackCompact t) = .ok m'' ∧ segments ⊆ m''.alg.listed) ∧
    (∀ t segments alg, m'.alg.checkCompaction cfg m'.rows t = .ok (segments, alg) →
      (segments.map m'.rows).sum ≤ cfg.maxSegmentCapacity) ∧
    (∀ c, Allowed m' c → Complete m' c → ∃ m'', call cfg m' c = .ok m'') := by
  have keeps (m : TableState) (c : Call) (m' : TableState) (hI : m.Inv cfg)
      (hc : ((bookkeeping cfg).restrict Complete).enabled m c) (hm : call cfg m c = .ok m') : m'.Inv cfg := by
    obtain ⟨m'', hok, hI'⟩ := TableState.call_spec hI hc.1 hc.2
    rw [hok] at hm
    cases hm
    exact hI'
  have hI : m'.Inv cfg := h.invariant keeps (TableState.inv_start hs)
  have hp := TableState.places_perm hI.running
  refine ⟨fun s ha hsealed => ?_, ⟨?_, hI.sound.running⟩, fun t segments ht => ?_,
    fun t segments alg hc => DBTCompactionAlg.checkCompaction_capacity hc, fun c hc hg => ?_⟩
  · rw [← hp.count_eq s]
    exact count_eq_one_of_mem hI.nodup (hI.kept s ha hsealed)
  · rw [hI.sound.count, hI.running.length_eq]
  · obtain ⟨m'', hok, -, hsub⟩ := TableState.call_rollbackCompact hI ht
    exact ⟨m'', hok, hsub⟩
  · obtain ⟨m'', hok, -⟩ := TableState.call_spec hI hc hg
    exact ⟨m'', hok⟩

/-- Two segments make a compaction. -/
def pairs : DBTConfig where
  m := 2
  m_pos := Nat.two_pos
  calculateLayer n := n / 4
  monotone _ _ h := Nat.div_le_div_right h
  maxSegmentCapacity := 12
  nthElement _ _ l := l
  nthElement_perm _ _ _ := .refl _

/-- Segments of three rows, none of them added yet. -/
def threeRows : TableState := ⟨.new, fun _ => .sealed, fun _ => 3, [], [], none⟩

theorem start_threeRows : Start threeRows := ⟨rfl, rfl, rfl, rfl⟩

/-- Three ways to lose count of a segment. A manual compaction of a table with a single
sealed segment and no deletes has nothing to compact, and its commit enables the algorithm
with no segment in any layer. A compaction that was given a segment its transaction does not
see commits without it. And the segment that is not sealed at start-up is added then and
again when it is sealed. -/
theorem segment_lost :
    (∃ m, (bookkeeping pairs).Run threeRows [.addSegment 0, .disable [], .commitManual] m ∧
      0 ∈ m.added ∧ m.status 0 = .sealed ∧ (m.alg.listed ++ m.compacting).count 0 = 0) ∧
    (∃ m, (bookkeeping pairs).Run threeRows [.addSegment 0, .addSegment 1, .checkCompaction 5, .commitCompact 5 [0]] m ∧
      1 ∈ m.added ∧ m.status 1 = .sealed ∧ (m.alg.listed ++ m.compacting).count 1 = 0) ∧
    (∃ m, (bookkeeping pairs).Run {threeRows with status := fun _ => .unsealed}
        [.addSegment 0, .append 0 5, .setSealed 0, .addSegment 0] m ∧
      0 ∈ m.added ∧ m.status 0 = .sealed ∧ (m.alg.listed ++ m.compacting).count 0 = 2) := by
  have hs : SegmentStatus.sealed ≠ .deprecated := by decide
  have hu : SegmentStatus.unsealed ≠ .deprecated := by decide
  refine ⟨⟨_, .cons hs rfl <| .cons ⟨rfl, .nil, nofun⟩ rfl <| .cons (Option.some_ne_none _) rfl <| .nil _, ?_, rfl, ?_⟩,
    ⟨_, .cons hs rfl <| .cons hs rfl <| .cons not_mem_nil rfl <|
      .cons ⟨[1, 0], mem_singleton_self _, by simp⟩ rfl <| .nil _, ?_, rfl, ?_⟩,
    ⟨_, .cons hu rfl <| .cons ⟨rfl, by decide⟩ rfl <| .cons rfl rfl <| .cons hs rfl <| .nil _, ?_, rfl, ?_⟩⟩
  all_goals decide

/-- Two segments are compacted, one is added while the compaction runs. -/
theorem segments_conserved_pair : ∃ m, ((bookkeeping pairs).restrict Complete).Run threeRows
      [.addSegment 0, .addSegment 1, .checkCompaction 5, .addSegment 2, .delete 0 1, .deleteInSegment 0,
        .rollbackCompact 5, .checkCompaction 6] m ∧
    (m.alg.listed ++ m.compacting).count 0 = 1 := by
  have hrun : ∃ m, ((bookkeeping pairs).restrict Complete).Run threeRows
      [.addSegment 0, .addSegment 1, .checkCompaction 5, .addSegment 2, .delete 0 1, .deleteInSegment 0,
        .rollbackCompact 5, .checkCompaction 6] m ∧ 0 ∈ m.added ∧ m.status 0 = .sealed := by
    refine ⟨_, .cons ⟨(by decide : SegmentStatus.sealed ≠ .deprecated), rfl, by decide⟩ rfl <|
      .cons ⟨(by decide : SegmentStatus.sealed ≠ .deprecated), rfl, by decide⟩ rfl <|
      .cons ⟨not_mem_nil, trivial⟩ rfl <|
      .cons ⟨(by decide : SegmentStatus.sealed ≠ .deprecated), rfl, by decide⟩ rfl <|
      .cons ⟨(by decide : 1 ≤ 3), trivial⟩ rfl <| .cons ⟨trivial, trivial⟩ rfl <|
      .cons ⟨mem_singleton_self 5, trivial⟩ rfl <| .cons ⟨not_mem_nil, trivial⟩ rfl <| .nil _, ?_, rfl⟩
    decide
  obtain ⟨m, hrun, hadded, hsealed⟩ := hrun
  exact ⟨m, hrun, (segments_conserved start_threeRows hrun).1 0 hadded hsealed⟩

end Infinity.Compaction.DBT
