import Infinity.Compaction.SegmentLifecycle

/-! No segment stays marked by a transaction that is over.

The errors of the status changes are never reached (`call_succeeds`). What is left behind
depends on how transactions end: `marked_after_rollback` runs two rollbacks that each leave
a mark for good, and `nothing_stuck` says that no other way of ending does. -/
namespace Infinity.Compaction.SegmentLifecycle

open Lib Table Function Finset

/-! ### What holds between the calls -/

/-- What a segment is like by itself. -/
structure Segment.Sane (e : Segment) : Prop where
  busy : e.compactStateData ≠ none → e.Busy
  deprecated : e.status = .deprecated → e.deleteTxns = ∅

/-- What a transaction in phase `p` may rely on at a segment. -/
structure Fits (p : Phase) (txnId segmentId : Nat) (e : Segment) : Prop where
  held : segmentId ∈ p.held → e.Busy
  cleared : segmentId ∈ p.cleared → e.status = .noDelete ∧ e.deleteTxns = ∅ ∧ e.compactStateData = none
  registered : segmentId ∈ p.registered → txnId ∈ e.deleteTxns

structure Inv (m : System) : Prop where
  sane : ∀ s, (m.segments s).Sane
  fits : ∀ t s, Fits (m.phase t) t s (m.segments s)
  once : ∀ s t t', s ∈ (m.phase t).held → s ∈ (m.phase t').held → t = t'

/-- The phase `p` claims no more at the segment than `q` does. -/
structure Within (p q : Phase) (segmentId : Nat) : Prop where
  held : segmentId ∈ p.held → segmentId ∈ q.held
  cleared : segmentId ∈ p.cleared → segmentId ∈ q.cleared
  registered : segmentId ∈ p.registered → segmentId ∈ q.registered

theorem Fits.within {p q : Phase} {t s : Nat} {e : Segment} (h : Fits q t s e) (hw : Within p q s) : Fits p t s e where
  held hs := h.held (hw.held hs)
  cleared hs := h.cleared (hw.cleared hs)
  registered hs := h.registered (hw.registered hs)

variable {m : System} {p : Phase}

/-- A call that changes one segment for one transaction: what the transaction claims there
holds, and what the others claim there still does. -/
theorem Inv.act {t s : Nat} {e : Segment} (h : Inv m) (sane : e.Sane)
    (here : Fits p t s e) (others : ∀ t', t' ≠ t → Fits (m.phase t') t' s e)
    (away : ∀ s', s' ≠ s → Within p (m.phase t) s')
    (alone : s ∈ p.held → ∀ t', t' ≠ t → s ∉ (m.phase t').held) : Inv ((m.put s e).move t p) where
  sane s' := by
    show (update m.segments s e s').Sane
    by_cases hs : s' = s
    · rwa [hs, update_self]
    · rw [update_of_ne hs]
      exact h.sane s'
  fits t' s' := by
    show Fits (update m.phase t p t') t' s' (update m.segments s e s')
    by_cases ht : t' = t
    · rw [ht, update_self]
      by_cases hs : s' = s
      · rwa [hs, update_self]
      · rw [update_of_ne hs]
        exact (h.fits t s').within (away s' hs)
    · rw [update_of_ne ht]
      by_cases hs : s' = s
      · rw [hs, update_self]
        exact others t' ht
      · rw [update_of_ne hs]
        exact h.fits t' s'
  once s' t₁ t₂ := by
    show s' ∈ (update m.phase t p t₁).held → s' ∈ (update m.phase t p t₂).held → t₁ = t₂
    have apart (t' : Nat) (ht : t' ≠ t) (hp : s' ∈ p.held) : s' ∉ (m.phase t').held := by
      intro ht'
      by_cases hs : s' = s
      · rw [hs] at hp ht'
        exact alone hp t' ht ht'
      · exact ht (h.once s' t' t ht' ((away s' hs).held hp))
    intro h₁ h₂
    by_cases ht₁ : t₁ = t <;> by_cases ht₂ : t₂ = t
    · rw [ht₁, ht₂]
    · rw [ht₁, update_self] at h₁
      rw [update_of_ne ht₂] at h₂
      exact absurd h₂ (apart t₂ ht₂ h₁)
    · rw [update_of_ne ht₁] at h₁
      rw [ht₂, update_self] at h₂
      exact absurd h₁ (apart t₁ ht₁ h₂)
    · rw [update_of_ne ht₁] at h₁
      rw [update_of_ne ht₂] at h₂
      exact h.once s' t₁ t₂ h₁ h₂

theorem put_self (m : System) (s : Nat) : m.put s (m.segments s) = m := by
  rw [System.put, update_eq_self]

theorem move_self (m : System) (t : Nat) : m.move t (m.phase t) = m := by
  rw [System.move, update_eq_self]

variable {t : Nat}

theorem Inv.move (h : Inv m) (hw : ∀ s, Within p (m.phase t) s) : Inv (m.move t p) := by
  have hact := h.act (s := 0) (h.sane 0) ((h.fits t 0).within (hw 0)) (fun t' _ => h.fits t' 0) (fun s' _ => hw s')
    (fun hs t' ht ht' => ht (h.once 0 t' t ht' ((hw 0).held hs)))
  rwa [put_self] at hact

theorem setSealed_cases (e : Segment) :
    e.setSealed.2 = e ∨ e.status = .unsealed ∧ e.setSealed.2 = {e with status := .sealed} := by
  by_cases hu : e.status = .unsealed
  · exact .inr ⟨hu, by rw [Segment.setSealed, if_neg (not_not.mpr hu)]⟩
  · exact .inl (by rw [Segment.setSealed, if_pos hu])

theorem inv_start (h : Start m) : Inv m where
  sane s := ⟨fun hd => absurd (h.calm s).2.2 hd, fun _ => (h.calm s).2.1⟩
  fits t s := by
    rw [h.idle t]
    exact ⟨nofun, nofun, nofun⟩
  once s t t' ht := by
    rw [h.idle t] at ht
    cases ht

/-! ### Each call -/

section Calls

variable {m : System} {t s : Nat}

variable {e : Segment}

theorem setNoDelete_of_busy (h : e.Busy) : e.setNoDelete =
      if e.deleteTxns = ∅ then .ok (true, {e with status := .noDelete, compactStateData := none})
      else .ok (false, {e with status := .noDelete}) := by
  have hb : ¬(e.status ≠ .compacting ∧ e.status ≠ .noDelete) := by tauto
  rw [Segment.setNoDelete, if_neg hb, ite_not]

theorem commitSegment_of_mem (h : e.Sane) (ht : t ∈ e.deleteTxns) :
    e.commitSegment t = .ok {e with deleteTxns := e.deleteTxns.erase t} := by
  have hd : e.status ≠ .deprecated := by
    intro hd
    simp [h.deprecated hd] at ht
  have hb := h.busy
  rw [Segment.commitSegment, if_neg hd, if_neg (by tauto)]

theorem Inv.unheld {t' : Nat} (h : Inv m) (hs : s ∈ (m.phase t).held) (ht : t' ≠ t) : s ∉ (m.phase t').held :=
  fun hs' => ht (h.once s t' t hs' hs)

theorem Inv.unheld_of_not_busy (h : Inv m) (hb : ¬(m.segments s).Busy) : s ∉ (m.phase t).held :=
  fun hs => hb ((h.fits t s).held hs)

theorem cleared_subset_held (p : Phase) : p.cleared ⊆ p.held := by
  cases p with
  | applying closed left => exact subset_union_left
  | compacting old => exact empty_subset old
  | _ => exact fun _ h => h

variable {left : Finset Nat}

section
variable (h : Inv m)
include h

theorem call_commitSegment (hp : m.phase t = .committing left) (hs : s ∈ left) : call m (.commitSegment t s) =
      .ok ((m.put s {m.segments s with deleteTxns := (m.segments s).deleteTxns.erase t}).move t
        (.committing (left.erase s))) := by
  have ht : t ∈ (m.segments s).deleteTxns := (h.fits t s).registered (by rwa [hp])
  rw [call, commitSegment_of_mem (h.sane s) ht, hp]
  rfl

theorem call_setNoDelete {closed left : Finset Nat} (hp : m.phase t = .applying closed left) (hs : s ∈ left) :
    call m (.setNoDelete t s) = if (m.segments s).deleteTxns = ∅ then
        .ok ((m.put s {m.segments s with status := .noDelete, compactStateData := none}).move t
          (.applying (insert s closed) (left.erase s)))
      else .ok ((m.put s {m.segments s with status := .noDelete}).move t (.applying ∅ (closed ∪ left))) := by
  have hb : (m.segments s).Busy := (h.fits t s).held (by rw [hp]; exact mem_union_right _ hs)
  rw [call, setNoDelete_of_busy hb, hp]
  by_cases hd : (m.segments s).deleteTxns = ∅
  · rw [if_pos hd, if_pos hd]
    rfl
  · rw [if_neg hd, if_neg hd]
    rfl

theorem call_setDeprecated {ts : Nat} (hp : m.phase t = .deprecating ts left) (hs : s ∈ left) :
    call m (.setDeprecated t s) =
      .ok ((m.put s {m.segments s with status := .deprecated, deprecateTs := some ts}).move t
        (.deprecating ts (left.erase s))) := by
  have hn : (m.segments s).status = .noDelete := ((h.fits t s).cleared (by rwa [hp])).1
  rw [call, Segment.setDeprecated, if_neg (not_not.mpr hn), hp]
  rfl

theorem call_rollbackCompact (hp : m.phase t = .rollingBack left) (hs : s ∈ left) : call m (.rollbackCompact t s) =
      .ok ((m.put s {m.segments s with status := .sealed, deprecateTs := none}).move t
        (.rollingBack (left.erase s))) := by
  have hn : (m.segments s).status = .noDelete := ((h.fits t s).cleared (by rwa [hp])).1
  rw [call, Segment.rollbackCompact, if_neg (not_not.mpr hn), hp]
  rfl

/-- **No error is reached.** Where the invariant holds, every call a transaction may make succeeds. -/
theorem call_succeeds {c : Call} (hc : Allowed m c) : ∃ m', call m c = .ok m' := by
  cases c with
  | setSealed | commitWrite | applyDeletes | compact | commitCompact | rollback | finish => exact ⟨_, rfl⟩
  | delete t deleted =>
    rw [call]
    split <;> exact ⟨_, rfl⟩
  | trySetCompacting t s =>
    rw [call]
    split <;> exact ⟨_, rfl⟩
  | commitSegment t s =>
    obtain ⟨left, hp, hs⟩ := hc
    exact ⟨_, call_commitSegment h hp hs⟩
  | setNoDelete t s =>
    obtain ⟨closed, left, hp, hs⟩ := hc
    rw [call_setNoDelete h hp hs]
    split <;> exact ⟨_, rfl⟩
  | setDeprecated t s =>
    obtain ⟨ts, left, hp, hs⟩ := hc
    exact ⟨_, call_setDeprecated h hp hs⟩
  | rollbackCompact t s =>
    obtain ⟨left, hp, hs⟩ := hc
    exact ⟨_, call_rollbackCompact h hp hs⟩

/-! ### Each call keeps the invariant -/

theorem Inv.setSealed : Inv (m.put s (m.segments s).setSealed.2) := by
  rcases setSealed_cases (m.segments s) with he | ⟨hu, he⟩
  · rwa [he, put_self]
  have hb : ¬(m.segments s).Busy := by rw [Segment.Busy, hu]; decide
  have fits (t : Nat) : Fits (m.phase t) t s {m.segments s with status := .sealed} :=
    { held := fun hs => absurd hs (h.unheld_of_not_busy hb)
      cleared := fun hs => absurd (cleared_subset_held _ hs) (h.unheld_of_not_busy hb)
      registered := (h.fits t s).registered }
  rw [he, ← move_self (m.put s _) 0]
  exact h.act ⟨fun hd => absurd ((h.sane s).busy hd) hb, nofun⟩ (fits 0) (fun t _ => fits t)
    (fun _ _ => ⟨id, id, id⟩) (fun hs => absurd hs (h.unheld_of_not_busy hb))

theorem Inv.register {deleted : Finset Nat} (hopen : ∀ s ∈ deleted, ¬(m.segments s).Closed) :
    Inv (System.move {m with segments := fun s =>
        if s ∈ deleted then {m.segments s with deleteTxns := insert t (m.segments s).deleteTxns} else m.segments s}
      t (.deleting ((m.phase t).registered ∪ deleted))) where
  sane s := by
    show Segment.Sane (if s ∈ deleted then _ else _)
    split
    · rename_i hs
      exact ⟨(h.sane s).busy, fun hd => absurd (.inl hd) (hopen s hs)⟩
    · exact h.sane s
  fits t' s := by
    show Fits (update m.phase t _ t') t' s (if s ∈ deleted then _ else _)
    by_cases htt : t' = t
    · rw [htt, update_self]
      refine ⟨nofun, nofun, fun hs => ?_⟩
      by_cases hd : s ∈ deleted
      · rw [if_pos hd]
        exact mem_insert_self t _
      · rw [if_neg hd]
        exact (h.fits t s).registered ((mem_union.mp hs).resolve_right hd)
    · rw [update_of_ne htt]
      have hf := h.fits t' s
      by_cases hd : s ∈ deleted
      · rw [if_pos hd]
        exact ⟨hf.held, fun hs => absurd (.inr (hf.cleared hs).1) (hopen s hd),
          fun hs => mem_insert_of_mem (hf.registered hs)⟩
      · rwa [if_neg hd]
  once s t₁ t₂ := by
    have back (t' : Nat) {r : Finset Nat} (hs : s ∈ (update m.phase t (.deleting r) t').held) :
        s ∈ (m.phase t').held := by
      by_cases htt : t' = t
      · rw [htt, update_self] at hs
        cases hs
      · rwa [update_of_ne htt] at hs
    exact fun h₁ h₂ => h.once s t₁ t₂ (back t₁ h₁) (back t₂ h₂)

end

variable {m' : System}

theorem Inv.delete {deleted : Finset Nat} (h : Inv m) (hc : call m (.delete t deleted) = .ok m') : Inv m' := by
  by_cases hx : ∃ s ∈ deleted, (m.segments s).Closed
  · rw [call, checkDeleteConflict, if_pos hx] at hc
    cases hc
    exact h.move fun s => ⟨nofun, nofun, id⟩
  · rw [call, checkDeleteConflict, if_neg hx] at hc
    cases hc
    exact h.register fun s hs hclosed => hx ⟨s, hs, hclosed⟩

theorem Inv.commitSegment (h : Inv m) (hp : m.phase t = .committing left) :
    Inv ((m.put s {m.segments s with deleteTxns := (m.segments s).deleteTxns.erase t}).move t
      (.committing (left.erase s))) := by
  refine h.act ⟨(h.sane s).busy, fun hd => ?_⟩ ⟨nofun, nofun, fun hs => absurd hs (notMem_erase s left)⟩
    (fun t' ht => ⟨(h.fits t' s).held, fun hs => ?_, fun hs => ?_⟩) (fun s' hs => ⟨nofun, nofun, fun hr => ?_⟩) nofun
  · show (m.segments s).deleteTxns.erase t = ∅
    rw [(h.sane s).deprecated hd, erase_empty]
  · obtain ⟨hst, hdt, hcd⟩ := (h.fits t' s).cleared hs
    refine ⟨hst, ?_, hcd⟩
    rw [hdt, erase_empty]
  · exact mem_erase.mpr ⟨ht, (h.fits t' s).registered hs⟩
  · rw [hp]
    exact mem_of_mem_erase hr

theorem Inv.trySetCompacting (h : Inv m) (hc : call m (.trySetCompacting t s) = .ok m') : Inv m' := by
  have hw (s : Nat) : Within (.compacting (m.phase t).held) (m.phase t) s := ⟨id, nofun, nofun⟩
  by_cases hs : (m.segments s).status = .sealed
  · have hb : ¬(m.segments s).Busy := by rw [Segment.Busy, hs]; decide
    rw [call, Segment.trySetCompacting, if_neg (not_not.mpr hs)] at hc
    cases hc
    refine h.act ⟨fun _ => .inl rfl, nofun⟩ ⟨fun _ => .inl rfl, nofun, nofun⟩ (fun t' _ => ?_) (fun s' hs' => ?_)
      (fun _ t' _ => h.unheld_of_not_busy hb)
    · exact ⟨fun hx => absurd hx (h.unheld_of_not_busy hb),
        fun hx => absurd (cleared_subset_held _ hx) (h.unheld_of_not_busy hb), (h.fits t' s).registered⟩
    · exact ⟨fun hx => (mem_insert.mp hx).resolve_left hs', nofun, nofun⟩
  · rw [call, Segment.trySetCompacting, if_pos hs] at hc
    cases hc
    exact h.move hw

/-- The holder of a segment that closes it keeps holding it, and nobody else is touched. -/
theorem Inv.setNoDelete {closed left : Finset Nat} (h : Inv m) (hp : m.phase t = .applying closed left)
    (hs : s ∈ left) (hc : call m (.setNoDelete t s) = .ok m') : Inv m' := by
  have held : s ∈ (m.phase t).held := by
    rw [hp]
    exact mem_union_right closed hs
  have others (t' : Nat) (ht : t' ≠ t) {e : Segment} (he : e.deleteTxns = (m.segments s).deleteTxns) :
      Fits (m.phase t') t' s e :=
    ⟨fun hx => absurd hx (h.unheld held ht), fun hx => absurd (cleared_subset_held _ hx) (h.unheld held ht),
      fun hx => he ▸ (h.fits t' s).registered hx⟩
  rw [call_setNoDelete h hp hs] at hc
  split at hc <;> cases hc
  · rename_i hempty
    refine h.act ⟨nofun, nofun⟩ ⟨fun _ => .inr rfl, fun _ => ⟨rfl, hempty, rfl⟩, nofun⟩
      (fun t' ht => others t' ht rfl) (fun s' hs' => ?_) (fun _ t' ht => h.unheld held ht)
    rw [hp]
    refine ⟨fun hx => ?_, fun hx => (mem_insert.mp hx).resolve_left hs', nofun⟩
    obtain hx | hx := mem_union.mp hx
    · exact mem_union_left left ((mem_insert.mp hx).resolve_left hs')
    · exact mem_union_right closed (mem_of_mem_erase hx)
  · refine h.act ⟨fun _ => .inr rfl, nofun⟩ ⟨fun _ => .inr rfl, nofun, nofun⟩
      (fun t' ht => others t' ht rfl) (fun s' hs' => ?_) (fun _ t' ht => h.unheld held ht)
    rw [hp]
    exact ⟨fun hx => by simpa [Phase.held] using hx, nofun, nofun⟩

/-- A holder gives a cleared segment back, in a state in which it is not busy. -/
theorem Inv.release {p : Phase} (h : Inv m) (hs : s ∈ (m.phase t).cleared) (hh : p.held = (m.phase t).held.erase s)
    (hc : p.cleared = (m.phase t).cleared.erase s) (hr : p.registered = ∅)
    (hd : e.deleteTxns = (m.segments s).deleteTxns) (hcd : e.compactStateData = (m.segments s).compactStateData) :
    Inv ((m.put s e).move t p) := by
  obtain ⟨-, hdt, hnone⟩ := (h.fits t s).cleared hs
  have held : s ∈ (m.phase t).held := cleared_subset_held _ hs
  have hp : s ∉ p.held := hh ▸ notMem_erase s _
  have hnone' (s' : Nat) : s' ∉ p.registered := by simp [hr]
  refine h.act ⟨fun hx => absurd (hcd.trans hnone) hx, fun _ => hd.trans hdt⟩
    ⟨fun hx => absurd hx hp, fun hx => absurd (cleared_subset_held _ hx) hp, fun hx => absurd hx (hnone' s)⟩
    (fun t' ht => ?_) (fun s' _ => ?_) (fun hx => absurd hx hp)
  · exact ⟨fun hx => absurd hx (h.unheld held ht), fun hx => absurd (cleared_subset_held _ hx) (h.unheld held ht),
      fun hx => hd ▸ (h.fits t' s).registered hx⟩
  · exact ⟨fun hx => mem_of_mem_erase (hh ▸ hx), fun hx => mem_of_mem_erase (hc ▸ hx), fun hx => absurd hx (hnone' s')⟩

theorem inv_call {c : Call} (h : Inv m) (hc : Allowed m c) (hm : call m c = .ok m') : Inv m' := by
  cases c with
  | setSealed s =>
    cases hm
    exact h.setSealed
  | delete t deleted => exact h.delete hm
  | trySetCompacting t s => exact h.trySetCompacting hm
  | commitSegment t s =>
    obtain ⟨left, hp, hs⟩ := hc
    rw [call_commitSegment h hp hs] at hm
    cases hm
    exact h.commitSegment hp
  | setNoDelete t s =>
    obtain ⟨closed, left, hp, hs⟩ := hc
    exact h.setNoDelete hp hs hm
  | setDeprecated t s =>
    obtain ⟨ts, left, hp, hs⟩ := hc
    rw [call_setDeprecated h hp hs] at hm
    cases hm
    exact h.release (by rwa [hp]) (by rw [hp]; rfl) (by rw [hp]; rfl) rfl rfl rfl
  | rollbackCompact t s =>
    obtain ⟨left, hp, hs⟩ := hc
    rw [call_rollbackCompact h hp hs] at hm
    cases hm
    exact h.release (by rwa [hp]) (by rw [hp]; rfl) (by rw [hp]; rfl) rfl rfl rfl
  | commitWrite t =>
    cases hm
    exact h.move fun s => ⟨nofun, nofun, id⟩
  | applyDeletes t =>
    cases hm
    exact h.move fun s => ⟨fun hx => (empty_union (m.phase t).held) ▸ hx, nofun, nofun⟩
  | compact t =>
    obtain ⟨closed, hp⟩ := hc
    cases hm
    refine h.move fun s => ⟨id, fun hx => ?_, nofun⟩
    rw [hp] at hx ⊢
    exact (union_empty closed) ▸ hx
  | commitCompact t ts =>
    obtain ⟨old, hp⟩ := hc
    cases hm
    refine h.move fun s => ?_
    rw [hp]
    exact ⟨id, id, nofun⟩
  | rollback t =>
    cases hm
    refine h.move fun s => ?_
    have hcd (hx : s ∈ (m.phase t).compactData) : s ∈ (m.phase t).held ∧ s ∈ (m.phase t).cleared := by
      cases hp : m.phase t with
      | compacted old =>
        rw [hp] at hx
        exact ⟨hx, hx⟩
      | _ =>
        rw [hp] at hx
        cases hx
    exact ⟨fun hx => (hcd hx).1, fun hx => (hcd hx).2, nofun⟩
  | finish t =>
    cases hm
    exact h.move fun s => ⟨nofun, nofun, nofun⟩

end Calls

/-! ### Every mark has its owner -/

/-- Whoever is registered is still to commit, and whatever is busy has a holder. -/
structure Tidy (m : System) : Prop where
  owner : ∀ s t, t ∈ (m.segments s).deleteTxns → s ∈ (m.phase t).registered
  holder : ∀ s, (m.segments s).Busy → ∃ t, s ∈ (m.phase t).held

/-- A rollback that finds every segment it has to give back in `compact_data_`: the
transaction is registered nowhere and holds nothing else. -/
def Recorded (m : System) : Call → Prop
  | .rollback t => (m.phase t).registered = ∅ ∧ (m.phase t).held = (m.phase t).compactData
  | _ => True

section Tidy

variable {m : System} {t s : Nat}

variable {p : Phase}

/-- The counterpart of `Inv.act`: the marks on the segment still have their owners. -/
theorem Tidy.act {e : Segment} (h : Tidy m) (hr : ∀ s', s' ≠ s → s' ∈ (m.phase t).registered → s' ∈ p.registered)
    (hh : ∀ s', s' ≠ s → s' ∈ (m.phase t).held → s' ∈ p.held)
    (owner : ∀ t' ∈ e.deleteTxns, t' ∈ (m.segments s).deleteTxns ∧ (t' = t → s ∈ p.registered))
    (holder : e.Busy → s ∈ p.held ∨ (m.segments s).Busy ∧ s ∉ (m.phase t).held) :
    Tidy ((m.put s e).move t p) where
  owner s' t' := by
    show t' ∈ (update m.segments s e s').deleteTxns → s' ∈ (update m.phase t p t').registered
    intro ht
    by_cases hs : s' = s <;> by_cases htt : t' = t
    · rw [hs, htt, update_self] at ht
      rw [hs, htt, update_self]
      exact (owner t ht).2 rfl
    · rw [hs, update_self] at ht
      rw [hs, update_of_ne htt]
      exact h.owner s t' (owner t' ht).1
    · rw [htt, update_of_ne hs] at ht
      rw [htt, update_self]
      exact hr s' hs (h.owner s' t ht)
    · rw [update_of_ne hs] at ht
      rw [update_of_ne htt]
      exact h.owner s' t' ht
  holder s' := by
    show (update m.segments s e s').Busy → ∃ t', s' ∈ (update m.phase t p t').held
    intro hb
    have old (hb : (m.segments s').Busy) (ht : s' ∈ (m.phase t).held → s' ∈ p.held) :
        ∃ t', s' ∈ (update m.phase t p t').held := by
      obtain ⟨t', ht'⟩ := h.holder s' hb
      by_cases htt : t' = t
      · refine ⟨t, ?_⟩
        rw [update_self]
        exact ht (htt ▸ ht')
      · refine ⟨t', ?_⟩
        rwa [update_of_ne htt]
    by_cases hs : s' = s
    · subst hs
      rw [update_self] at hb
      obtain hp | ⟨hb, he⟩ := holder hb
      · refine ⟨t, ?_⟩
        rwa [update_self]
      · exact old hb fun hx => absurd hx he
    · rw [update_of_ne hs] at hb
      exact old hb (hh s' hs)

theorem Tidy.move (h : Tidy m) (hr : (m.phase t).registered ⊆ p.registered)
    (hh : (m.phase t).held ⊆ p.held) : Tidy (m.move t p) := by
  have hact := h.act (t := t) (s := 0) (fun s' _ hx => hr hx) (fun s' _ hx => hh hx)
    (fun t' ht => ⟨ht, fun htt => hr (htt ▸ h.owner 0 t' ht)⟩)
    (fun hb => (em _).imp (fun hx => hh hx) fun hx => ⟨hb, hx⟩)
  rwa [put_self] at hact

theorem tidy_start (h : Start m) : Tidy m where
  owner s t ht := by
    simp [(h.calm s).2.1] at ht
  holder s hb := absurd hb (h.calm s).1

theorem Tidy.setSealed (h : Tidy m) : Tidy (m.put s (m.segments s).setSealed.2) := by
  rcases setSealed_cases (m.segments s) with he | ⟨-, he⟩
  · rwa [he, put_self]
  · rw [he, ← move_self (m.put s _) 0]
    exact h.act (fun _ _ => id) (fun _ _ => id) (fun t' ht => ⟨ht, fun h0 => h0 ▸ h.owner s t' ht⟩)
      (fun hb => by simp [Segment.Busy] at hb)

variable {m' : System}

theorem Tidy.delete {deleted : Finset Nat} (h : Tidy m)
    (ht : m.phase t = .idle ∨ ∃ r, m.phase t = .deleting r) (hc : call m (.delete t deleted) = .ok m') :
    Tidy m' := by
  have held : (m.phase t).held = ∅ := by obtain hp | ⟨r, hp⟩ := ht <;> rw [hp] <;> rfl
  by_cases hx : ∃ s ∈ deleted, (m.segments s).Closed
  · rw [call, checkDeleteConflict, if_pos hx] at hc
    cases hc
    exact h.move (fun _ => id) held.subset
  rw [call, checkDeleteConflict, if_neg hx] at hc
  cases hc
  refine ⟨fun s t' => ?_, fun s => ?_⟩
  · show t' ∈ Segment.deleteTxns (if s ∈ deleted then _ else _) →
      s ∈ (update m.phase t (.deleting ((m.phase t).registered ∪ deleted)) t').registered
    intro ht'
    by_cases htt : t' = t
    · rw [htt, update_self]
      by_cases hs : s ∈ deleted
      · exact mem_union_right _ hs
      · rw [if_neg hs] at ht'
        exact mem_union_left _ (htt ▸ h.owner s t' ht')
    · rw [update_of_ne htt]
      refine h.owner s t' ?_
      split at ht'
      · exact (mem_insert.mp ht').resolve_left htt
      · exact ht'
  · show Segment.Busy (if s ∈ deleted then _ else _) → ∃ t', s ∈ (update m.phase t _ t').held
    intro hb
    have hb : (m.segments s).Busy := by split at hb <;> exact hb
    obtain ⟨t', ht'⟩ := h.holder s hb
    have htt : t' ≠ t := by
      intro htt
      simp [htt, held] at ht'
    refine ⟨t', ?_⟩
    rwa [update_of_ne htt]

theorem Tidy.trySetCompacting (h : Tidy m) (ht : m.phase t = .idle ∨ ∃ old, m.phase t = .compacting old)
    (hc : call m (.trySetCompacting t s) = .ok m') : Tidy m' := by
  have hr : (m.phase t).registered = ∅ := by obtain hp | ⟨r, hp⟩ := ht <;> rw [hp] <;> rfl
  by_cases hs : (m.segments s).status = .sealed
  · rw [call, Segment.trySetCompacting, if_neg (not_not.mpr hs)] at hc
    cases hc
    refine h.act (fun s' _ hx => ?_) (fun _ _ => mem_insert_of_mem) (fun t' ht' => ⟨ht', fun htt => ?_⟩)
      (fun _ => .inl (mem_insert_self s _))
    · simp [hr] at hx
    · have hx := h.owner s t' ht'
      simp [htt, hr] at hx
  · rw [call, Segment.trySetCompacting, if_pos hs] at hc
    cases hc
    exact h.move hr.subset fun _ => id

theorem Tidy.setNoDelete {closed left : Finset Nat} (hi : Inv m) (h : Tidy m)
    (hp : m.phase t = .applying closed left) (hs : s ∈ left) (hc : call m (.setNoDelete t s) = .ok m') :
    Tidy m' := by
  have hr (s' : Nat) : s' ∉ (m.phase t).registered := by
    rw [hp]
    nofun
  have owner (t' : Nat) (ht : t' ∈ (m.segments s).deleteTxns) (p : Phase) : t' = t → s ∈ p.registered :=
    fun htt => absurd (htt ▸ h.owner s t' ht) (hr s)
  rw [call_setNoDelete hi hp hs] at hc
  split at hc <;> cases hc
  · refine h.act (fun s' _ hx => absurd hx (hr s')) (fun s' hs' hx => ?_) (fun t' ht => ⟨ht, owner t' ht _⟩)
      (fun _ => .inl (mem_union_left _ (mem_insert_self s closed)))
    rw [hp] at hx
    obtain hx | hx := mem_union.mp hx
    · exact mem_union_left _ (mem_insert_of_mem hx)
    · exact mem_union_right _ (mem_erase_of_ne_of_mem hs' hx)
  · refine h.act (fun s' _ hx => absurd hx (hr s')) (fun s' hs' hx => ?_) (fun t' ht => ⟨ht, owner t' ht _⟩)
      (fun _ => .inl (mem_union_right _ (mem_union_right closed hs)))
    rw [hp] at hx
    exact mem_union_right _ hx

theorem Tidy.release {e : Segment} (hi : Inv m) (h : Tidy m) (hs : s ∈ (m.phase t).cleared)
    (hr : (m.phase t).registered = ∅) (hh : p.held = (m.phase t).held.erase s)
    (hd : e.deleteTxns = (m.segments s).deleteTxns) (hb : ¬e.Busy) : Tidy ((m.put s e).move t p) := by
  refine h.act (fun s' _ hx => ?_) (fun s' hs' hx => ?_) (fun t' ht => ?_) (fun hx => absurd hx hb)
  · simp [hr] at hx
  · exact hh ▸ mem_erase_of_ne_of_mem hs' hx
  · simp [hd, ((hi.fits t s).cleared hs).2.1] at ht

theorem tidy_call {c : Call} (hi : Inv m) (h : Tidy m) (hc : Allowed m c) (hg : Recorded m c)
    (hm : call m c = .ok m') : Tidy m' := by
  cases c with
  | setSealed s =>
    cases hm
    exact h.setSealed
  | delete t deleted => exact h.delete hc hm
  | trySetCompacting t s => exact h.trySetCompacting hc hm
  | setNoDelete t s =>
    obtain ⟨closed, left, hp, hs⟩ := hc
    exact h.setNoDelete hi hp hs hm
  | commitSegment t s =>
    obtain ⟨left, hp, hs⟩ := hc
    rw [call_commitSegment hi hp hs] at hm
    cases hm
    have hh : (m.phase t).held = ∅ := by rw [hp]; rfl
    refine h.act (fun s' hs' hx => ?_) (fun s' _ hx => ?_) (fun t' ht => ?_) (fun hb => .inr ⟨hb, by rw [hh]; nofun⟩)
    · rw [hp] at hx
      exact mem_erase_of_ne_of_mem hs' hx
    · rw [hh] at hx
      cases hx
    · obtain ⟨hne, ht⟩ := mem_erase.mp ht
      exact ⟨ht, fun htt => absurd htt hne⟩
  | setDeprecated t s =>
    obtain ⟨ts, left, hp, hs⟩ := hc
    rw [call_setDeprecated hi hp hs] at hm
    cases hm
    exact h.release hi (by rwa [hp]) (by rw [hp]; rfl) (by rw [hp]; rfl) rfl (by simp [Segment.Busy])
  | rollbackCompact t s =>
    obtain ⟨left, hp, hs⟩ := hc
    rw [call_rollbackCompact hi hp hs] at hm
    cases hm
    exact h.release hi (by rwa [hp]) (by rw [hp]; rfl) (by rw [hp]; rfl) rfl (by simp [Segment.Busy])
  | commitWrite t =>
    obtain ⟨r, hp⟩ := hc
    cases hm
    exact h.move (fun _ => id) (by rw [hp]; exact fun _ => id)
  | applyDeletes t =>
    obtain ⟨old, hp⟩ := hc
    cases hm
    exact h.move (by rw [hp]; exact fun _ => id) subset_union_right
  | compact t =>
    obtain ⟨closed, hp⟩ := hc
    cases hm
    exact h.move (by rw [hp]; exact fun _ => id) fun _ => id
  | commitCompact t ts =>
    obtain ⟨old, hp⟩ := hc
    cases hm
    exact h.move (by rw [hp]; exact fun _ => id) (by rw [hp]; exact fun _ => id)
  | rollback t =>
    cases hm
    exact h.move hg.1.subset hg.2.subset
  | finish t =>
    cases hm
    have hp : (m.phase t).registered = ∅ ∧ (m.phase t).held = ∅ := by
      obtain hp | hp | ⟨ts, hp⟩ := hc <;> rw [hp] <;> exact ⟨rfl, rfl⟩
    exact h.move hp.1.subset hp.2.subset

end Tidy

/-! ### Runs -/

/-- **Nothing stays stuck.** Start from segments that bear no mark, and let no transaction
be rolled back while it is registered in a segment or holds one that `compact_data_` does
not name. Then in every state reached no call fails, and once all transactions are over no
segment has a transaction in `delete_txns_` or is left compacting or closed to deletes. -/
theorem nothing_stuck {m m' : System} {cs : List Call} (hs : Start m) (h : (lifecycle.restrict Recorded).Run m cs m') :
    (∀ c, Allowed m' c → ∃ m'', call m' c = .ok m'') ∧
    ((∀ t, (m'.phase t).Over) → ∀ s, (m'.segments s).deleteTxns = ∅ ∧
      (m'.segments s).status ≠ .compacting ∧ (m'.segments s).status ≠ .noDelete) := by
  have keeps (m : System) (c : Call) (m' : System) (hI : Inv m ∧ Tidy m)
      (hc : (lifecycle.restrict Recorded).enabled m c) (hm : call m c = .ok m') : Inv m' ∧ Tidy m' :=
    ⟨inv_call hI.1 hc.1 hm, tidy_call hI.1 hI.2 hc.1 hc.2 hm⟩
  obtain ⟨hi, ht⟩ := h.invariant keeps ⟨inv_start hs, tidy_start hs⟩
  refine ⟨fun c hc => call_succeeds hi hc, fun hover s => ⟨?_, ?_⟩⟩
  · refine eq_empty_of_forall_notMem fun t htd => ?_
    have hreg := ht.owner s t htd
    obtain hp | hp := hover t <;> rw [hp] at hreg <;> cases hreg
  · have hb : ¬(m'.segments s).Busy := by
      intro hb
      obtain ⟨t, hheld⟩ := ht.holder s hb
      obtain hp | hp := hover t <;> rw [hp] at hheld <;> cases hheld
    exact ⟨fun hx => hb (.inl hx), fun hx => hb (.inr hx)⟩

/-- Sealed segments that nobody uses. -/
def fresh : System := ⟨fun _ => ⟨.sealed, ∅, none, none⟩, fun _ => .idle⟩

theorem start_fresh : Start fresh := ⟨fun _ => rfl, fun _ => ⟨by simp [fresh, Segment.Busy], rfl, rfl⟩⟩

/-- A transaction that deletes and is rolled back stays in `delete_txns_`, and one that
is rolled back between `TrySetCompacting` and `TxnTableStore::Compact` leaves its segment
compacting. -/
theorem marked_after_rollback :
    (∃ m, lifecycle.Run fresh [.delete 1 {0}, .rollback 1, .finish 1] m ∧ (∀ t, (m.phase t).Over) ∧
      (m.segments 0).deleteTxns = {1}) ∧
    (∃ m, lifecycle.Run fresh [.trySetCompacting 1 0, .rollback 1, .finish 1] m ∧ (∀ t, (m.phase t).Over) ∧
      (m.segments 0).status = .compacting) := by
  have hover (segments : Nat → Segment) (p q : Phase) (t : Nat) :
      (((System.mk segments fun _ => .idle).move 1 p |>.move 1 q |>.move 1 .finished).phase t).Over := by
    by_cases ht : t = 1
    · subst ht
      exact .inr rfl
    · exact .inl (by simp [System.move, ht])
  refine ⟨⟨_, .cons (.inl rfl) rfl <| .cons ?_ rfl <| .cons (.inr (.inl rfl)) rfl <| .nil _, ?_, rfl⟩,
    ⟨_, .cons (.inl rfl) rfl <| .cons ?_ rfl <| .cons (.inr (.inl rfl)) rfl <| .nil _, ?_, rfl⟩⟩
  · exact fun _ _ => ⟨nofun, nofun, nofun, nofun⟩
  · exact fun t => hover _ _ _ t
  · exact fun _ _ => ⟨nofun, nofun, nofun, nofun⟩
  · exact fun t => hover _ _ _ t

/-- A delete that holds up a compaction, both to their ends. -/
def heldUp : List Call :=
  [.delete 1 {0}, .trySetCompacting 2 0, .applyDeletes 2, .setNoDelete 2 0, .commitWrite 1, .commitSegment 1 0,
    .finish 1, .setNoDelete 2 0, .compact 2, .commitCompact 2 9, .setDeprecated 2 0, .finish 2]

theorem nothing_stuck_heldUp : ∃ m, (lifecycle.restrict Recorded).Run fresh heldUp m ∧
    (∀ t, (m.phase t).Over) ∧ (m.segments 0).deleteTxns = ∅ ∧ (m.segments 0).status ≠ .compacting ∧
      (m.segments 0).status ≠ .noDelete := by
  have hrun : ∃ m, (lifecycle.restrict Recorded).Run fresh heldUp m ∧ ∀ t, (m.phase t).Over := by
    refine ⟨_, .cons ⟨.inl rfl, trivial⟩ rfl <| .cons ⟨.inl rfl, trivial⟩ rfl <| .cons ⟨⟨_, rfl⟩, trivial⟩ rfl <|
      .cons ⟨⟨_, _, rfl, by decide⟩, trivial⟩ rfl <| .cons ⟨⟨_, rfl⟩, trivial⟩ rfl <|
      .cons ⟨⟨_, rfl, by decide⟩, trivial⟩ rfl <| .cons ⟨.inl rfl, trivial⟩ rfl <|
      .cons ⟨⟨_, _, rfl, by decide⟩, trivial⟩ rfl <| .cons ⟨⟨_, rfl⟩, trivial⟩ rfl <|
      .cons ⟨⟨_, rfl⟩, trivial⟩ rfl <| .cons ⟨⟨_, _, rfl, by decide⟩, trivial⟩ rfl <|
      .cons ⟨.inr (.inr ⟨_, rfl⟩), trivial⟩ rfl <| .nil _, fun t => ?_⟩
    by_cases h₁ : t = 1
    · subst h₁
      exact .inr rfl
    by_cases h₂ : t = 2
    · subst h₂
      exact .inr rfl
    · exact .inl (by simp [System.move, System.put, fresh, h₁, h₂])
  obtain ⟨m, hrun, hover⟩ := hrun
  exact ⟨m, hrun, hover, (nothing_stuck start_fresh hrun).2 hover 0⟩

/-- **Compactions are alone.** However transactions end, in every state reached a segment is
held by one compaction at most, and no delete is registered in a segment that one has closed. -/
theorem compaction_alone {m m' : System} {cs : List Call} (hs : Start m) (h : lifecycle.Run m cs m') (s t t' : Nat) :
    (s ∈ (m'.phase t).held → s ∈ (m'.phase t').held → t = t') ∧
      (s ∈ (m'.phase t).cleared → s ∉ (m'.phase t').registered) := by
  have hi : Inv m' := h.invariant (fun _ _ _ => inv_call) (inv_start hs)
  refine ⟨hi.once s t t', fun hc hr => ?_⟩
  have hmem := (hi.fits t' s).registered hr
  rw [((hi.fits t s).cleared hc).2.1] at hmem
  cases hmem

theorem compaction_alone_two : ∃ m, lifecycle.Run fresh [.trySetCompacting 1 0, .trySetCompacting 2 0] m ∧
    0 ∈ (m.phase 1).held ∧ 0 ∉ (m.phase 2).held := by
  have h : lifecycle.Run fresh [.trySetCompacting 1 0, .trySetCompacting 2 0] _ :=
    .cons (.inl rfl) rfl <| .cons (.inl rfl) rfl <| .nil _
  exact ⟨_, h, by decide, fun h₂ => absurd ((compaction_alone start_fresh h 0 1 2).1 (by decide) h₂) (by decide)⟩

end Infinity.Compaction.SegmentLifecycle
