import Infinity.Compaction.DBTCompactionAlg
import Infinity.Lib.Lists

/-! What each operation on the layers does to the segments they know of.

A segment the layers know of is in the list of a layer or in the list of a transaction
(`everything_perm`), in one place only (`Sound.nodup`). Each operation has one lemma, which
says that it succeeds, that it keeps `Sound`, and which segments come and go. -/
namespace Infinity.Compaction.DBT

open Lib Table List Function

/-! ### Taking an entry out of a map -/

theorem extract_perm {t : Nat} {l rest : List (Nat × List Nat)} {segments : List Nat}
    (h : extract t l = some (segments, rest)) : l.Perm ((t, segments) :: rest) := by
  induction l generalizing rest with
  | nil => cases h
  | cons entry l ih =>
    obtain ⟨t', segments'⟩ := entry
    rw [extract] at h
    split at h
    · rename_i ht
      cases h
      rw [ht]
    · obtain ⟨⟨found, others⟩, hx, he⟩ := Option.map_eq_some_iff.mp h
      cases he
      exact ((ih hx).cons _).trans (.swap ..)

theorem extract_of_mem {t : Nat} {l : List (Nat × List Nat)} (h : t ∈ l.map Prod.fst) :
    ∃ segments rest, extract t l = some (segments, rest) := by
  induction l with
  | nil => cases h
  | cons entry l ih =>
    obtain ⟨t', segments'⟩ := entry
    rw [extract]
    split
    · exact ⟨_, _, rfl⟩
    · rename_i ht
      obtain ⟨segments, rest, hx⟩ := ih ((mem_cons.mp h).resolve_left (Ne.symm ht))
      exact ⟨segments, (t', segments') :: rest, by rw [hx]; rfl⟩

/-! ### A layer -/

namespace SegmentLayer

/-- All segments a layer knows of. -/
def all (l : SegmentLayer) : List Nat := l.segments ++ l.compactingSegmentsMap.flatMap Prod.snd

variable {l : SegmentLayer}

theorem addSegment_of_notMem {s : Nat} (h : s ∉ l.segments) :
    l.addSegment s = .ok {l with segments := s :: l.segments} := if_neg h

theorem addSegments_of_nodup {segments : List Nat} (h : (segments ++ l.segments).Nodup) :
    l.addSegments segments = .ok {l with segments := segments.reverse ++ l.segments} := by
  induction segments generalizing l with
  | nil => rfl
  | cons s segments ih =>
    have hs : s ∉ l.segments := fun hs => (nodup_cons.mp h).1 (mem_append_right _ hs)
    have hnd : (segments ++ s :: l.segments).Nodup := (perm_middle.nodup_iff).mpr h
    rw [addSegments, addSegment_of_notMem hs]
    show SegmentLayer.addSegments _ segments = _
    rw [ih hnd]
    simp

/-- The chosen segments are taken out of the list, are as many as asked for, and are not too large together. -/
theorem pickCompacting_spec {cfg : DBTConfig} (rows : Nat → Nat) {t : Nat}
    (hm : cfg.m ≤ l.segments.length) (ht : t ∉ l.compactingSegmentsMap.map Prod.fst) :
    l.pickCompacting cfg rows t = .ok ([], l) ∨
    ∃ ret rest, ret ≠ [] ∧ (ret.map rows).sum ≤ cfg.maxSegmentCapacity ∧ l.segments.Perm (ret ++ rest) ∧
      l.pickCompacting cfg rows t = .ok (ret, ⟨rest, (t, ret) :: l.compactingSegmentsMap⟩) := by
  rw [pickCompacting, if_neg (not_lt.mpr hm)]
  by_cases hcap : (((cfg.nthElement cfg.m rows l.segments).take cfg.m).map rows).sum > cfg.maxSegmentCapacity
  · exact .inl (if_pos hcap)
  refine .inr ⟨_, _, ?_, not_lt.mp hcap, ?_, (if_neg hcap).trans (if_neg ht)⟩
  · intro hnil
    have hlen := congrArg length hnil
    rw [length_take, (cfg.nthElement_perm ..).length_eq, length_nil] at hlen
    have := cfg.m_pos
    omega
  · refine (subperm_append_diff_self_of_count_le fun s _ => ?_).symm
    rw [← (cfg.nthElement_perm cfg.m rows l.segments).count_eq s]
    exact (take_sublist ..).count_le s

theorem pickCompacting_capacity {cfg : DBTConfig} {rows : Nat → Nat} {t : Nat} {l l' : SegmentLayer} {ret : List Nat}
    (h : l.pickCompacting cfg rows t = .ok (ret, l')) : (ret.map rows).sum ≤ cfg.maxSegmentCapacity := by
  simp only [pickCompacting] at h
  split at h
  · cases h
  split at h
  · cases h
    exact Nat.zero_le _
  rename_i hcap
  split at h
  · cases h
  cases h
  exact not_lt.mp hcap

end SegmentLayer

/-! ### What the layers keep -/

namespace DBTCompactionAlg

/-- All segments the layers know of. -/
def everything (a : DBTCompactionAlg) : List Nat := a.segmentLayers.flatMap SegmentLayer.all

theorem everything_perm (a : DBTCompactionAlg) : a.everything.Perm (a.listed ++ a.taken.flatMap Prod.snd) := by
  rw [taken, flatMap_assoc]
  exact (flatMap_append_perm ..).symm

structure Sound (cfg : DBTConfig) (rows : Nat → Nat) (a : DBTCompactionAlg) : Prop where
  nodup : a.everything.Nodup
  keys : (a.taken.map Prod.fst).Nodup
  count : a.runningTaskN = a.taken.length
  layer : ∀ t i l, a.segmentLayers[i]? = some l → t ∈ l.compactingSegmentsMap.map Prod.fst → a.txn2Layer t = some i
  /-- Row counts have only shrunk since a segment was listed. -/
  level : ∀ i l, a.segmentLayers[i]? = some l → ∀ s ∈ l.all, cfg.calculateLayer (rows s) ≤ i
  running : a.status = .running ↔ 0 < a.runningTaskN

section Operations

variable {cfg : DBTConfig} {rows : Nat → Nat} {a : DBTCompactionAlg} {i s t : Nat} {l : SegmentLayer}

theorem getElem?_set_cases {α : Type} {xs : List α} {j : Nat} {x y : α} (h : (xs.set i y)[j]? = some x) :
    j = i ∧ x = y ∨ j ≠ i ∧ xs[j]? = some x := by
  rw [getElem?_set] at h
  split at h
  · rename_i hij
    split at h
    · cases h
      exact .inl ⟨hij.symm, rfl⟩
    · cases h
  · rename_i hij
    exact .inr ⟨Ne.symm hij, h⟩

theorem onLayer_ok {f : SegmentLayer → Except Fault SegmentLayer} {l' : SegmentLayer}
    (hl : a.segmentLayers[i]? = some l) (hf : f l = .ok l') :
    a.onLayer i f = .ok {a with segmentLayers := a.segmentLayers.set i l'} := by
  simp only [onLayer, hl, hf]

/-- What `a'` lists in addition to `a`. Compactions are as before. -/
structure Lists (a a' : DBTCompactionAlg) (segmentIds : List Nat) : Prop where
  everything : a'.everything.Perm (segmentIds ++ a.everything)
  taken : a'.taken = a.taken
  status : a'.status = a.status
  runningTaskN : a'.runningTaskN = a.runningTaskN
  length : a.segmentLayers.length ≤ a'.segmentLayers.length

variable {a' : DBTCompactionAlg}

theorem Sound.exchange (l' : SegmentLayer) (h : a.Sound cfg rows)
    (hset : a'.segmentLayers = a.segmentLayers.set i l') (hnd : a'.everything.Nodup)
    (hkeys : (a'.taken.map Prod.fst).Nodup) (hcount : a'.runningTaskN = a'.taken.length)
    (here : ∀ t ∈ l'.compactingSegmentsMap.map Prod.fst, a'.txn2Layer t = some i)
    (there : ∀ t j, j ≠ i → t ∈ a.taken.map Prod.fst → a.txn2Layer t = some j → a'.txn2Layer t = some j)
    (hlev : ∀ s ∈ l'.all, cfg.calculateLayer (rows s) ≤ i)
    (hrun : a'.status = .running ↔ 0 < a'.runningTaskN) : a'.Sound cfg rows := by
  refine ⟨hnd, hkeys, hcount, fun t j l₁ hl₁ ht => ?_, fun j l₁ hl₁ s hs => ?_, hrun⟩
  · rw [hset] at hl₁
    obtain ⟨rfl, rfl⟩ | ⟨hj, hl₁⟩ := getElem?_set_cases hl₁
    · exact here t ht
    have hmem : t ∈ a.taken.map Prod.fst := by
      obtain ⟨entry, he, rfl⟩ := mem_map.mp ht
      exact mem_map_of_mem (mem_flatMap.mpr ⟨l₁, mem_of_getElem? hl₁, he⟩)
    exact there t j hj hmem (h.layer t j l₁ hl₁ ht)
  · rw [hset] at hl₁
    obtain ⟨rfl, rfl⟩ | ⟨-, hl₁⟩ := getElem?_set_cases hl₁
    · exact hlev s hs
    · exact h.level j l₁ hl₁ s hs

theorem Sound.setSegments (h : a.Sound cfg rows) (segments : List Nat) (hl : a.segmentLayers[i]? = some l)
    (hnd : everything {a with segmentLayers := a.segmentLayers.set i {l with segments}} |>.Nodup)
    (hlev : ∀ s ∈ segments, s ∈ l.segments ∨ cfg.calculateLayer (rows s) ≤ i) :
    Sound cfg rows {a with segmentLayers := a.segmentLayers.set i {l with segments}} ∧
      taken {a with segmentLayers := a.segmentLayers.set i {l with segments}} = a.taken := by
  have htaken : taken {a with segmentLayers := a.segmentLayers.set i {l with segments}} = a.taken := by
    show (a.segmentLayers.set i {l with segments}).flatMap SegmentLayer.compactingSegmentsMap = _
    rw [flatMap_def, map_set_same (a := {l with segments}) hl rfl]
    rfl
  refine ⟨h.exchange _ rfl hnd (htaken ▸ h.keys) (htaken ▸ h.count) (fun t ht => h.layer t i l hl ht)
    (fun _ _ _ _ => id) (fun s hs => ?_) h.running, htaken⟩
  obtain hs | hs := mem_append.mp hs
  · obtain hs | hs := hlev s hs
    · exact h.level i l hl s (mem_append_left _ hs)
    · exact hs
  · exact h.level i l hl s (mem_append_right _ hs)

theorem place_spec (h : a.Sound cfg rows) (hs : s ∉ a.everything) (hi : i < a.segmentLayers.length)
    (hlev : cfg.calculateLayer (rows s) ≤ i) :
    ∃ a', a.onLayer i (·.addSegment s) = .ok a' ∧ a'.Sound cfg rows ∧ Lists a a' [s] := by
  obtain ⟨l, hl⟩ : ∃ l, a.segmentLayers[i]? = some l := ⟨_, getElem?_eq_getElem hi⟩
  have hmem : ∀ x ∈ l.segments, x ∈ a.everything := fun x hx =>
    mem_flatMap.mpr ⟨l, mem_of_getElem? hl, mem_append_left _ hx⟩
  obtain ⟨rest, hold, hnew⟩ := flatMap_set_perm SegmentLayer.all hl
  have hperm := hnew {l with segments := s :: l.segments}
  have hall : (SegmentLayer.all {l with segments := s :: l.segments} ++ rest).Perm (s :: a.everything) :=
    (hold.symm.cons s)
  have hnd := ((hperm.trans hall).nodup_iff).mpr (nodup_cons.mpr ⟨hs, h.nodup⟩)
  obtain ⟨hsound, htaken⟩ := h.setSegments (s :: l.segments) hl hnd fun x hx => by
    obtain rfl | hx := mem_cons.mp hx
    · exact .inr hlev
    · exact .inl hx
  refine ⟨_, ?_, hsound, ⟨hperm.trans hall, htaken, rfl, rfl, (length_set ..).ge⟩⟩
  exact onLayer_ok hl (SegmentLayer.addSegment_of_notMem fun hx => hs (hmem s hx))

theorem resize_lists (n : Nat) : Lists a (a.resize n) [] where
  everything := by
    have hnew : SegmentLayer.new.all = [] := rfl
    simp [DBTCompactionAlg.everything, resize, flatMap_replicate, hnew]
  taken := by
    simp [DBTCompactionAlg.taken, resize, SegmentLayer.new]
  status := rfl
  runningTaskN := rfl
  length := by
    simp [resize]

section
variable (h : a.Sound cfg rows)
include h

theorem Sound.resize (n : Nat) : (a.resize n).Sound cfg rows := by
  have hl := resize_lists (a := a) n
  have old (j : Nat) (l : SegmentLayer) (hj : (a.resize n).segmentLayers[j]? = some l) :
      a.segmentLayers[j]? = some l ∨ l = .new := by
    simp only [DBTCompactionAlg.resize] at hj
    rw [getElem?_append] at hj
    split at hj
    · exact .inl hj
    · exact .inr (eq_of_mem_replicate (mem_of_getElem? hj))
  refine ⟨hl.everything.nodup_iff.mpr h.nodup, hl.taken ▸ h.keys, hl.taken ▸ h.count, fun t j l hj ht => ?_,
    fun j l hj s hs => ?_, h.running⟩
  · obtain hj | rfl := old j l hj
    · exact h.layer t j l hj ht
    · cases ht
  · obtain hj | rfl := old j l hj
    · exact h.level j l hj s hs
    · cases hs

theorem addSegmentInner_spec (hs : s ∉ a.everything) :
    ∃ a', a.addSegmentInner cfg rows s = .ok a' ∧ a'.Sound cfg rows ∧ Lists a a' [s] := by
  have hl := resize_lists (a := a) (cfg.calculateLayer (rows s) + 1)
  have hlen : cfg.calculateLayer (rows s) < (a.resize (cfg.calculateLayer (rows s) + 1)).segmentLayers.length := by
    simp only [resize, length_append, length_replicate]
    omega
  obtain ⟨a', hok, hsound, hadd⟩ := place_spec (h.resize _) (fun hx => hs (hl.everything.mem_iff.mp hx)) hlen le_rfl
  exact ⟨a', hok, hsound, hadd.everything.trans (hl.everything.cons s), hadd.taken.trans hl.taken,
    hadd.status, hadd.runningTaskN, hl.length.trans hadd.length⟩

theorem addSegmentsInner_spec {segmentIds : List Nat} (hs : (segmentIds ++ a.everything).Nodup) :
    ∃ a', a.addSegmentsInner cfg rows segmentIds = .ok a' ∧ a'.Sound cfg rows ∧ Lists a a' segmentIds := by
  induction segmentIds generalizing a with
  | nil => exact ⟨a, rfl, h, ⟨.refl _, rfl, rfl, rfl, le_rfl⟩⟩
  | cons s segmentIds ih =>
    obtain ⟨hnot, hnd⟩ := nodup_cons.mp hs
    obtain ⟨a₁, hok, hsound, hadd⟩ := addSegmentInner_spec h fun hx => hnot (mem_append_right _ hx)
    have hmiddle : (segmentIds ++ a₁.everything).Perm (s :: (segmentIds ++ a.everything)) :=
      (hadd.everything.append_left segmentIds).trans perm_middle
    obtain ⟨a', hok', hsound', hadd'⟩ := ih hsound (hmiddle.nodup_iff.mpr hs)
    refine ⟨a', ?_, hsound', hadd'.everything.trans hmiddle, hadd'.taken.trans hadd.taken,
      hadd'.status.trans hadd.status, hadd'.runningTaskN.trans hadd.runningTaskN, hadd.length.trans hadd'.length⟩
    rwa [addSegmentsInner, hok]

theorem remove_spec (hl : a.segmentLayers[i]? = some l) (hs : s ∈ l.segments) :
    ∃ a', a.onLayer i (·.removeSegment s) = .ok a' ∧ a'.Sound cfg rows ∧ a'.taken = a.taken ∧
      a.everything.Perm (s :: a'.everything) ∧ a'.status = a.status ∧ a'.runningTaskN = a.runningTaskN ∧
      a'.segmentLayers.length = a.segmentLayers.length := by
  obtain ⟨rest, hold, hnew⟩ := flatMap_set_perm SegmentLayer.all hl
  have hperm := hnew {l with segments := l.segments.erase s}
  have hall : l.all.Perm (s :: SegmentLayer.all {l with segments := l.segments.erase s}) :=
    (perm_cons_erase hs).append_right _
  have hevery := hold.trans ((hall.append_right rest).trans (hperm.symm.cons s))
  obtain ⟨hsound, htaken⟩ := h.setSegments (l.segments.erase s) hl
    (nodup_cons.mp (hevery.nodup_iff.mp h.nodup)).2 fun x hx => .inl (mem_of_mem_erase hx)
  refine ⟨_, ?_, hsound, htaken, hevery, rfl, rfl, length_set ..⟩
  exact onLayer_ok hl (if_pos hs)

theorem deleteInSegment_spec : ∃ a', a.deleteInSegment cfg rows s = .ok a' ∧ a'.Sound cfg rows ∧ Lists a a' [] := by
  have same : Lists a a [] := ⟨.refl _, rfl, rfl, rfl, le_rfl⟩
  rw [deleteInSegment]
  cases hfind : a.findSegmentAndLayer s with
  | none => exact ⟨a, rfl, h, same⟩
  | some old =>
    obtain ⟨hlt, hmem, -⟩ := findIdx?_eq_some_iff_getElem.mp hfind
    have hl : a.segmentLayers[old]? = some a.segmentLayers[old] := getElem?_eq_getElem hlt
    have hs : s ∈ a.segmentLayers[old].segments := of_decide_eq_true hmem
    have hle : cfg.calculateLayer (rows s) ≤ old := h.level old _ hl s (mem_append_left _ hs)
    by_cases heq : cfg.calculateLayer (rows s) = old
    · exact ⟨a, if_pos heq, h, same⟩
    obtain ⟨a₁, hok, hsound, htaken, hevery, hst, hrun, hlen⟩ := remove_spec h hl hs
    have hnot : s ∉ a₁.everything := (nodup_cons.mp (hevery.nodup_iff.mp h.nodup)).1
    obtain ⟨a', hok', hsound', hadd⟩ := place_spec hsound hnot (i := cfg.calculateLayer (rows s)) (by omega) le_rfl
    refine ⟨a', ?_, hsound', hadd.everything.trans hevery.symm, hadd.taken.trans htaken, hadd.status.trans hst,
      hadd.runningTaskN.trans hrun, hlen.ge.trans hadd.length⟩
    show (if cfg.calculateLayer (rows s) = old then Except.ok a else _) = _
    rwa [if_neg heq, if_neg (by omega), hok]

theorem Sound.pick {ret rest : List Nat} (hl : a.segmentLayers[i]? = some l)
    (ht : t ∉ a.taken.map Prod.fst) (hperm : l.segments.Perm (ret ++ rest))
    (ha : a' =
      { segmentLayers := a.segmentLayers.set i ⟨rest, (t, ret) :: l.compactingSegmentsMap⟩
        status := if a.runningTaskN + 1 = 1 then .running else a.status
        runningTaskN := a.runningTaskN + 1
        txn2Layer := update a.txn2Layer t (some i) }) :
    a'.Sound cfg rows ∧ a'.everything.Perm a.everything ∧ a'.taken.Perm ((t, ret) :: a.taken) ∧
      a'.status = .running := by
  have hset : a'.segmentLayers = a.segmentLayers.set i ⟨rest, (t, ret) :: l.compactingSegmentsMap⟩ := by rw [ha]
  have hall : SegmentLayer.all ⟨rest, (t, ret) :: l.compactingSegmentsMap⟩ |>.Perm l.all :=
    ((perm_append_comm_assoc ..).trans (.of_eq (append_assoc ..).symm)).trans (hperm.symm.append_right _)
  have hevery : a'.everything.Perm a.everything := by
    obtain ⟨others, hold, hnew⟩ := flatMap_set_perm SegmentLayer.all hl
    rw [everything, hset]
    exact (hnew _).trans ((hall.append_right others).trans hold.symm)
  have htaken : a'.taken.Perm ((t, ret) :: a.taken) := by
    obtain ⟨others, hold, hnew⟩ := flatMap_set_perm SegmentLayer.compactingSegmentsMap hl
    rw [taken, hset]
    exact (hnew _).trans (hold.symm.cons _)
  have hnonneg : 0 ≤ a.runningTaskN := h.count ▸ Int.natCast_nonneg _
  have hstatus : a'.status = .running := by
    rw [ha]
    by_cases h0 : a.runningTaskN + 1 = 1
    · exact if_pos h0
    · exact (if_neg h0).trans (h.running.mpr (by omega))
  have htx (t' : Nat) (ht' : t' ∈ a.taken.map Prod.fst) : a'.txn2Layer t' = a.txn2Layer t' := by
    rw [ha]
    exact update_of_ne (ne_of_mem_of_not_mem ht' ht) ..
  refine ⟨h.exchange _ hset (hevery.nodup_iff.mpr h.nodup) ?_ ?_ (fun t' ht' => ?_) (fun t' j _ hmem hj => ?_)
    (fun s hs => h.level i l hl s (hall.mem_iff.mp hs)) ?_, hevery, htaken, hstatus⟩
  · exact (htaken.map Prod.fst).nodup_iff.mpr (nodup_cons.mpr ⟨ht, h.keys⟩)
  · have hlen := htaken.length_eq
    have hn : a'.runningTaskN = a.runningTaskN + 1 := by rw [ha]
    rw [hn, h.count, hlen]
    rfl
  · obtain rfl | ht' := mem_cons.mp ht'
    · rw [ha]
      exact update_self ..
    · obtain ⟨entry, he, rfl⟩ := mem_map.mp ht'
      rw [htx _ (mem_map_of_mem (mem_flatMap.mpr ⟨l, mem_of_getElem? hl, he⟩))]
      exact h.layer _ i l hl ht'
  · rwa [htx t' hmem]
  · refine ⟨fun _ => ?_, fun _ => hstatus⟩
    rw [ha]
    show 0 < a.runningTaskN + 1
    omega

end

variable {n : Nat}

/-- `CheckCompaction` returns nothing and changes nothing, or the segments move from a list
to the transaction. -/
theorem checkLayers_spec (h : a.Sound cfg rows) (ht : t ∉ a.taken.map Prod.fst) (hn : n ≤ a.segmentLayers.length) :
    a.checkLayers cfg rows t n = .ok ([], a) ∨
    ∃ ret a', ret ≠ [] ∧ a.checkLayers cfg rows t n = .ok (ret, a') ∧ a'.Sound cfg rows ∧
      a'.everything.Perm a.everything ∧ a'.taken.Perm ((t, ret) :: a.taken) ∧ a'.status = .running := by
  induction n with
  | zero => exact .inl rfl
  | succ n ih =>
    have hl : a.segmentLayers[n]? = some a.segmentLayers[n] := getElem?_eq_getElem hn
    have below := ih (Nat.le_of_succ_le hn)
    simp only [checkLayers, hl]
    split
    · rename_i hm
      have hkeys : t ∉ a.segmentLayers[n].compactingSegmentsMap.map Prod.fst := by
        intro hx
        obtain ⟨entry, he, rfl⟩ := mem_map.mp hx
        exact ht (mem_map_of_mem (mem_flatMap.mpr ⟨_, mem_of_getElem? hl, he⟩))
      obtain hp | ⟨ret, rest, hne, -, hperm, hp⟩ := SegmentLayer.pickCompacting_spec rows hm hkeys
      · rwa [hp]
      · rw [hp]
        obtain ⟨x, ret, rfl⟩ := exists_cons_of_ne_nil hne
        exact .inr ⟨_, _, hne, rfl, h.pick hl ht hperm rfl⟩
    · exact below

variable {ret : List Nat}

/-- What `CheckCompaction` returns fits into one segment, whatever the state. -/
theorem checkLayers_capacity
    (h : a.checkLayers cfg rows t n = .ok (ret, a')) : (ret.map rows).sum ≤ cfg.maxSegmentCapacity := by
  induction n with
  | zero =>
    cases h
    exact Nat.zero_le _
  | succ n ih =>
    simp only [checkLayers] at h
    split at h
    · cases h
    rename_i l _
    split at h
    · split at h
      · cases h
      · exact ih h
      · rename_i x xs l' hp
        cases h
        exact SegmentLayer.pickCompacting_capacity hp
    · exact ih h

theorem checkCompaction_spec (h : a.Sound cfg rows) (ht : t ∉ a.taken.map Prod.fst) :
    a.checkCompaction cfg rows t = .ok ([], a) ∨
    ∃ ret a', ret ≠ [] ∧ a.checkCompaction cfg rows t = .ok (ret, a') ∧ a'.Sound cfg rows ∧
      a'.everything.Perm a.everything ∧ a'.taken.Perm ((t, ret) :: a.taken) ∧ a'.status = .running ∧
      a.status ≠ .disable := by
  rw [checkCompaction]
  by_cases hd : a.status = .disable
  · exact .inl (if_pos hd)
  rw [if_neg hd]
  obtain hc | ⟨ret, a', hne, hc, hs, he, htk, hst⟩ := checkLayers_spec h ht (Nat.le_refl a.segmentLayers.length)
  · exact .inl hc
  · exact .inr ⟨ret, a', hne, hc, hs, he, htk, hst, hd⟩

theorem checkCompaction_capacity
    (h : a.checkCompaction cfg rows t = .ok (ret, a')) : (ret.map rows).sum ≤ cfg.maxSegmentCapacity := by
  rw [checkCompaction] at h
  split at h
  · cases h
    exact Nat.zero_le _
  · exact checkLayers_capacity h

variable {segments : List Nat}

theorem Sound.find (h : a.Sound cfg rows) (ht : (t, segments) ∈ a.taken) :
    ∃ i l rest, a.txn2Layer t = some i ∧ a.segmentLayers[i]? = some l ∧
      extract t l.compactingSegmentsMap = some (segments, rest) := by
  obtain ⟨l, hmem, he⟩ := mem_flatMap.mp ht
  obtain ⟨i, hl⟩ := getElem?_of_mem hmem
  have hkey : t ∈ l.compactingSegmentsMap.map Prod.fst := mem_map_of_mem he
  obtain ⟨segments', rest, hx⟩ := extract_of_mem hkey
  have hsub : l.compactingSegmentsMap.Sublist a.taken := sublist_flatten_of_mem (mem_map_of_mem hmem)
  have hnd : ((t, segments') :: rest).map Prod.fst |>.Nodup :=
    ((extract_perm hx).map Prod.fst).nodup_iff.mp (h.keys.sublist (hsub.map Prod.fst))
  have hsame : segments = segments' := by
    obtain heq | hr := mem_cons.mp ((extract_perm hx).mem_iff.mp he)
    · exact congrArg Prod.snd heq
    · exact absurd (mem_map_of_mem hr) (nodup_cons.mp hnd).1
  exact ⟨i, l, rest, h.layer t i l hl hkey, hl, hsame ▸ hx⟩

theorem Sound.isRunning (h : a.Sound cfg rows) (ht : (t, segments) ∈ a.taken) : a.status = .running := by
  have hpos := length_pos_of_mem ht
  have hcount := h.count
  exact h.running.mpr (by omega)

/-- A compaction ends: its entry goes, and `f` says what becomes of its segments. -/
theorem endCompact_spec {f : SegmentLayer → Except Fault SegmentLayer} (l' : SegmentLayer)
    (gone : List Nat) {rest : List (Nat × List Nat)} (h : a.Sound cfg rows) (htx : a.txn2Layer t = some i)
    (hl : a.segmentLayers[i]? = some l) (hx : extract t l.compactingSegmentsMap = some (segments, rest))
    (hf : f l = .ok l') (hmap : l'.compactingSegmentsMap = rest) (hall : l.all.Perm (gone ++ l'.all)) :
    ∃ a', a.endCompact t f = .ok a' ∧ a'.Sound cfg rows ∧ a.everything.Perm (gone ++ a'.everything) ∧
      a.taken.Perm ((t, segments) :: a'.taken) ∧ a'.segmentLayers = a.segmentLayers.set i l' ∧ a'.status ≠ .disable := by
  let a' : DBTCompactionAlg :=
    { segmentLayers := a.segmentLayers.set i l'
      status := if a.runningTaskN - 1 = 0 then .enable else a.status
      runningTaskN := a.runningTaskN - 1
      txn2Layer := update a.txn2Layer t none }
  have hevery : a.everything.Perm (gone ++ a'.everything) := by
    obtain ⟨others, hold, hnew⟩ := flatMap_set_perm SegmentLayer.all hl
    refine hold.trans ((hall.append_right others).trans ?_)
    rw [append_assoc]
    exact (hnew l').symm.append_left gone
  have htaken : a.taken.Perm ((t, segments) :: a'.taken) := by
    obtain ⟨others, hold, hnew⟩ := flatMap_set_perm SegmentLayer.compactingSegmentsMap hl
    exact hold.trans (((extract_perm hx).append_right others).trans ((hmap ▸ hnew l').symm.cons _))
  have hkeys := (htaken.map Prod.fst).nodup_iff.mp h.keys
  have hcount : a.runningTaskN - 1 = a'.taken.length := by
    have hlen := htaken.length_eq
    rw [length_cons] at hlen
    have := h.count
    omega
  have hrunning : a.status = .running := h.running.mpr (by omega)
  have hsound : a'.Sound cfg rows := by
    refine h.exchange l' rfl (nodup_append.mp (hevery.nodup_iff.mp h.nodup)).2.1
      (nodup_cons.mp hkeys).2 hcount (fun t' ht' => ?_) (fun t' j hj _ ht' => ?_)
      (fun s hs => h.level i l hl s (hall.mem_iff.mpr (mem_append_right _ hs))) ?_
    · rw [hmap] at ht'
      have hin : t' ∈ l.compactingSegmentsMap.map Prod.fst :=
        ((extract_perm hx).map Prod.fst).mem_iff.mpr (mem_cons_of_mem _ ht')
      have hne : t' ≠ t := by
        obtain ⟨entry, he, rfl⟩ := mem_map.mp ht'
        have hset : l' ∈ a'.segmentLayers :=
          mem_of_getElem? (List.getElem?_set_self (List.getElem?_eq_some_iff.mp hl).1)
        have hmem : entry ∈ a'.taken := mem_flatMap.mpr ⟨l', hset, hmap ▸ he⟩
        exact ne_of_mem_of_not_mem (mem_map_of_mem hmem) (nodup_cons.mp hkeys).1
      rw [← h.layer t' i l hl hin]
      exact update_of_ne hne ..
    · rw [← ht']
      refine update_of_ne (fun heq => hj ?_) ..
      rw [heq, htx] at ht'
      exact (Option.some.inj ht').symm
    · show (if a.runningTaskN - 1 = 0 then CompactionStatus.enable else a.status) = .running ↔ 0 < a.runningTaskN - 1
      split
      · rename_i h0
        simp [h0]
      · exact ⟨fun _ => by omega, fun _ => hrunning⟩
  refine ⟨a', ?_, hsound, hevery, htaken, rfl, ?_⟩
  · simp only [endCompact, htx, onLayer_ok hl hf]
    rfl
  · show (if a.runningTaskN - 1 = 0 then CompactionStatus.enable else a.status) ≠ .disable
    rw [hrunning]
    split <;> decide

theorem commitCompact_spec (h : a.Sound cfg rows) (ht : (t, segments) ∈ a.taken) :
    ∃ a', a.commitCompact t = .ok a' ∧ a'.Sound cfg rows ∧ a.everything.Perm (segments ++ a'.everything) ∧
      a.taken.Perm ((t, segments) :: a'.taken) ∧ a'.status ≠ .disable := by
  obtain ⟨i, l, rest, htx, hl, hx⟩ := h.find ht
  have hall : l.all.Perm (segments ++ SegmentLayer.all {l with compactingSegmentsMap := rest}) :=
    (((extract_perm hx).flatMap_right _).append_left l.segments).trans (perm_append_comm_assoc ..)
  obtain ⟨a', hok, hs, he, htk, -, hst⟩ := endCompact_spec (f := (·.commitCompact t)) _ _ h htx hl hx
    (by rw [SegmentLayer.commitCompact, hx]) rfl hall
  exact ⟨a', (if_neg (not_not.mpr (h.isRunning ht))).trans hok, hs, he, htk, hst⟩

theorem rollbackCompact_spec (h : a.Sound cfg rows) (ht : (t, segments) ∈ a.taken) :
    ∃ a', a.rollbackCompact t = .ok a' ∧ a'.Sound cfg rows ∧ a.everything.Perm a'.everything ∧
      a.taken.Perm ((t, segments) :: a'.taken) ∧ a'.status ≠ .disable ∧ segments ⊆ a'.listed := by
  obtain ⟨i, l, rest, htx, hl, hx⟩ := h.find ht
  have hall : l.all.Perm (segments.reverse ++ l.segments ++ rest.flatMap Prod.snd) := by
    refine (((extract_perm hx).flatMap_right _).append_left l.segments).trans ?_
    refine (perm_append_comm_assoc ..).trans ?_
    rw [append_assoc]
    exact (reverse_perm segments).symm.append_right _
  have hsub : l.all.Sublist a.everything := sublist_flatten_of_mem (mem_map_of_mem (mem_of_getElem? hl))
  have hnd : (segments ++ l.segments).Nodup := by
    have hrev := (nodup_append.mp (hall.nodup_iff.mp (h.nodup.sublist hsub))).1
    exact ((reverse_perm segments).append_right _).nodup_iff.mp hrev
  obtain ⟨a', hok, hs, he, htk, hset, hst⟩ := endCompact_spec (f := (·.rollbackCompact t))
    ⟨segments.reverse ++ l.segments, rest⟩ [] h htx hl hx
    (by rw [SegmentLayer.rollbackCompact, hx]; exact SegmentLayer.addSegments_of_nodup hnd) rfl hall
  refine ⟨a', (if_neg (not_not.mpr (h.isRunning ht))).trans hok, hs, he, htk, hst, fun s hs => ?_⟩
  have hin : (⟨segments.reverse ++ l.segments, rest⟩ : SegmentLayer) ∈ a'.segmentLayers := by
    rw [hset]
    exact mem_of_getElem? (List.getElem?_set_self (List.getElem?_eq_some_iff.mp hl).1)
  exact mem_flatMap.mpr ⟨_, hin, mem_append_left _ (mem_reverse.mpr hs)⟩

theorem enable_spec (segmentIds : List Nat) (h : a.Sound cfg rows) (hs : (segmentIds ++ a.everything).Nodup)
    (h0 : a.taken = []) :
    ∃ a', a.enable cfg rows segmentIds = .ok a' ∧ a'.Sound cfg rows ∧
      a'.everything.Perm (segmentIds ++ a.everything) ∧ a'.taken = [] ∧ a'.status = .enable := by
  obtain ⟨a₁, hok, hsound, hadd⟩ := addSegmentsInner_spec h hs
  have ht : a₁.taken = [] := hadd.taken.trans h0
  have hn : a₁.runningTaskN = 0 := by rw [hsound.count, ht]; rfl
  refine ⟨{a₁ with status := .enable}, ?_, ⟨hsound.nodup, hsound.keys, hsound.count, hsound.layer, hsound.level, ?_⟩,
    hadd.everything, ht, rfl⟩
  · simp only [enable, hok, hn, ne_eq, not_true_eq_false, if_false]
  · show CompactionStatus.enable = .running ↔ 0 < a₁.runningTaskN
    simp [hn]

theorem Sound.shrink (h : a.Sound cfg rows) (hn : n ≤ rows s) : a.Sound cfg (update rows s n) := by
  refine ⟨h.nodup, h.keys, h.count, h.layer, fun i l hl x hx => ?_, h.running⟩
  refine le_trans (cfg.monotone ?_) (h.level i l hl x hx)
  by_cases hxs : x = s
  · rwa [hxs, update_self]
  · rw [update_of_ne hxs]

theorem Sound.grow (h : a.Sound cfg rows) (hs : s ∉ a.everything) : a.Sound cfg (update rows s n) := by
  refine ⟨h.nodup, h.keys, h.count, h.layer, fun i l hl x hx => ?_, h.running⟩
  have hmem : x ∈ a.everything := mem_flatMap.mpr ⟨l, mem_of_getElem? hl, hx⟩
  rw [update_of_ne (ne_of_mem_of_not_mem hmem hs)]
  exact h.level i l hl x hx

end Operations

end DBTCompactionAlg

end Infinity.Compaction.DBT
