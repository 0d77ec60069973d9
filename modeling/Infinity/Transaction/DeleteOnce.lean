import Infinity.Transaction.DeleteConflict

/-! No row is deleted twice, if the buffered lists are orderly.

The argument has three parts. A transaction that starts its checks notes everybody with
a smaller timestamp who is not done, so whoever applies deletes later, and before it, is
noted. A row it has found undeleted can only be deleted by a noted transaction. And the
pairwise check, as far as it can be trusted, says that no noted transaction has its rows.
So the rows of a transaction that has passed stay undeleted until its turn comes.

The scan can be trusted when two lists with a common row have a common record, as
ascending lists do. Nothing in the engine sorts the lists: `delete_twice_reached` is a
run in which two transactions delete the same row and the second stops the engine. -/
namespace Infinity.Transaction.DeleteConflict

open Lib List Function

/-! ### The invariant -/

/-- The delete timestamp of a row, zero for none. -/
def System.deletedAt (s : System) (k : BlockKey) (o : Nat) : Nat :=
  match s.blocks k with
  | some b => b.deleted o
  | none => 0

/-- Nobody before who is not done has a row in common. -/
def System.Apart (s : System) (t c : Nat) : Prop :=
  ∀ t' c', (s.phase t').ts = some c' → c' < c →
    s.phase t' = .done c' ∨ ∀ k o, ¬ ((s.rows t).Has k o ∧ (s.rows t').Has k o)

/-- What a transaction relies on in a phase. -/
def Relies (s : System) (t : Nat) : Phase → Prop
  | .checking c cands rest =>
    ((∀ t' ∈ cands, ∃ c', (s.phase t').ts = some c') ∧
      ∀ t' c', (s.phase t').ts = some c' → c' < c → t' ∈ cands ∨ s.phase t' = .done c') ∧
    (∀ e ∈ rest, e ∈ (s.rows t).rows) ∧ ∀ e ∈ (s.rows t).rows, e ∉ rest → ∀ o ∈ e.2,
      s.deletedAt e.1 o = 0 ∨ ∃ t' ∈ cands, (s.rows t').Has e.1 o
  | .passed c => s.Apart t c ∧ ∀ e ∈ (s.rows t).rows, ∀ o ∈ e.2, s.deletedAt e.1 o = 0
  | .applying c rest => (∀ t' c', (s.phase t').ts = some c' → c' < c → (s.phase t').Settled) ∧ s.Apart t c ∧
    (rest.map Prod.fst).Nodup ∧ ∀ e ∈ rest, e ∈ (s.rows t).rows ∧ ∀ o ∈ e.2, s.deletedAt e.1 o = 0
  | _ => True

/-- What ties buffered deletes, checks and applied deletes together. A transaction that is
checking has noted everybody before it who is not done; a row it has checked is not
deleted, or belongs to a noted transaction; and one that has passed shares no row with
anybody before it who is not done, so its rows stay undeleted until its own turn. -/
structure Inv (s : System) : Prop where
  issued : ∀ t c, (s.phase t).ts = some c → c ≤ s.currentTs
  unique : ∀ t t' c, (s.phase t).ts = some c → (s.phase t').ts = some c → t = t'
  registered : ∀ t c, (s.phase t).ts = some c → s.phase t = .done c ∨ s.committingTxns.find? c = some t
  mapped : ∀ c t, s.committingTxns.find? c = some t → (s.phase t).ts = some c
  stamped : ∀ k o, s.deletedAt k o ≤ s.currentTs
  unsettled : ∀ t c, (s.phase t).ts = some c → ¬ (s.phase t).Settled → ∀ k o, s.deletedAt k o ≤ c
  distinct : ∀ t c, (s.phase t).ts = some c → ∀ e ∈ (s.rows t).rows, e.2.Nodup
  relies : ∀ t, Relies s t (s.phase t)

theorem inv_start (tableName : String) (startTs : Nat) (blocks : BlockKey → Option Block)
    (hold : ∀ k b o, blocks k = some b → b.deleted o ≤ startTs) : Inv (System.start tableName startTs blocks) where
  issued := fun _ _ h => by cases h
  unique := fun _ _ _ h => by cases h
  registered := fun _ _ h => by cases h
  mapped := fun _ _ h => by cases h
  stamped := by
    intro k o
    simp only [System.deletedAt, System.start]
    cases hb : blocks k with
    | none => exact Nat.zero_le _
    | some b => exact hold k b o hb
  unsettled := fun _ _ h => by cases h
  distinct := fun _ _ h => by cases h
  relies := fun _ => trivial

/-! ### One call at a time -/

theorem setPhase_self (s : System) (t : Nat) (p : Phase) : (s.setPhase t p).phase t = p := update_self ..

theorem setPhase_other (s : System) {t t' : Nat} (p : Phase) (h : t' ≠ t) :
    (s.setPhase t p).phase t' = s.phase t' := update_of_ne h ..

section Steps

variable {s s' : System} {t c : Nat}

theorem Inv.at (h : Inv s) {t : Nat} {p : Phase} (hp : s.phase t = p) : Relies s t p := hp ▸ h.relies t

/-- What the others see of a call of `t` that deletes nothing: it keeps its timestamp or takes a
new one, does not become unsettled again, and buffers rows only before it has a timestamp. -/
structure Follows (s s' : System) (t : Nat) : Prop where
  phase : ∀ t' ≠ t, s'.phase t' = s.phase t'
  rows : ∀ t' c, (s.phase t').ts = some c → s'.rows t' = s.rows t'
  current : s.currentTs ≤ s'.currentTs
  deleted : ∀ k o, s'.deletedAt k o = s.deletedAt k o
  keeps : ∀ c, (s.phase t).ts = some c → (s'.phase t).ts = some c ∧
    ((s.phase t).Settled → (s'.phase t).Settled) ∧ (s.phase t = .done c → s'.phase t = .done c)
  takes : ∀ c, (s'.phase t).ts = some c → (s.phase t).ts = some c ∨ s.currentTs < c

theorem Follows.old (hf : Follows s s' t) (t' c : Nat) (hc : (s'.phase t').ts = some c) :
    (s.phase t').ts = some c ∨ s.currentTs < c := by
  by_cases ht : t' = t
  · subst ht
    exact hf.takes c hc
  · rw [hf.phase t' ht] at hc
    exact .inl hc

theorem Follows.kept (hf : Follows s s' t) (t' c : Nat) (hc : (s.phase t').ts = some c) :
    (s'.phase t').ts = some c ∧ ((s.phase t').Settled → (s'.phase t').Settled) ∧
      (s.phase t' = .done c → s'.phase t' = .done c) := by
  by_cases ht : t' = t
  · subst ht
    exact hf.keeps c hc
  · rw [hf.phase t' ht]
    exact ⟨hc, id, id⟩

variable {t' : Nat} {p : Phase}

theorem Relies.follows (hf : Follows s s' t) (hc : ∀ c, p.ts = some c → c ≤ s.currentTs)
    (hrows : ∀ c, p.ts = some c → s'.rows t' = s.rows t') (h : Relies s t' p) : Relies s' t' p := by
  have hold : ∀ c, p.ts = some c → ∀ t₂ c₂, (s'.phase t₂).ts = some c₂ → c₂ < c → (s.phase t₂).ts = some c₂ := by
    intro c hp t₂ c₂ h₂ hlt
    have hle := hc c hp
    exact (hf.old t₂ c₂ h₂).resolve_right (by omega)
  have hapart : ∀ c, p.ts = some c → s.Apart t' c → s'.Apart t' c := by
    intro c hp ha t₂ c₂ h₂ hlt
    have h₂ := hold c hp t₂ c₂ h₂ hlt
    rw [hrows c hp, hf.rows t₂ c₂ h₂]
    exact (ha t₂ c₂ h₂ hlt).imp (hf.kept t₂ c₂ h₂).2.2 id
  cases p with
  | checking c cands rest =>
    obtain ⟨⟨hcands, hnoted⟩, hsub, hchecked⟩ := h
    refine ⟨⟨fun t₂ h₂ => (hcands t₂ h₂).imp fun c₂ hc₂ => (hf.kept t₂ c₂ hc₂).1, fun t₂ c₂ h₂ hlt => ?_⟩, ?_⟩
    · have h₂ := hold c rfl t₂ c₂ h₂ hlt
      exact (hnoted t₂ c₂ h₂ hlt).imp id (hf.kept t₂ c₂ h₂).2.2
    · rw [hrows c rfl]
      refine ⟨hsub, fun e he hne o ho => ?_⟩
      rw [hf.deleted]
      refine (hchecked e he hne o ho).imp id ?_
      rintro ⟨t₂, h₂, hhas⟩
      obtain ⟨c₂, hc₂⟩ := hcands t₂ h₂
      exact ⟨t₂, h₂, by rwa [hf.rows t₂ c₂ hc₂]⟩
  | passed c =>
    simp only [Relies, hrows c rfl, hf.deleted]
    exact ⟨hapart c rfl h.1, h.2⟩
  | applying c rest =>
    refine ⟨fun t₂ c₂ h₂ hlt => ?_, hapart c rfl h.2.1, ?_⟩
    · have h₂ := hold c rfl t₂ c₂ h₂ hlt
      exact (hf.kept t₂ c₂ h₂).2.1 (h.1 t₂ c₂ h₂ hlt)
    · simp only [hrows c rfl, hf.deleted]
      exact h.2.2
  | _ => trivial

/-- What is left to show after such a call is about `t` alone, and about the map. -/
theorem Inv.follows (h : Inv s) (hf : Follows s s' t) (hself : Relies s' t (s'.phase t))
    (hown : ∀ c, (s'.phase t).ts = some c → c ≤ s'.currentTs ∧
      (s'.phase t = .done c ∨ s'.committingTxns.find? c = some t) ∧ ∀ e ∈ (s'.rows t).rows, e.2.Nodup)
    (hmap : ∀ c t', t' ≠ t → (s'.committingTxns.find? c = some t' ↔ s.committingTxns.find? c = some t'))
    (hmapped : ∀ c, s'.committingTxns.find? c = some t → (s'.phase t).ts = some c) : Inv s' := by
  have hrelies (t' : Nat) : Relies s' t' (s'.phase t') := by
    by_cases ht : t' = t
    · rwa [ht]
    · rw [hf.phase t' ht]
      exact (h.relies t').follows hf (h.issued t') (hf.rows t')
  have hnew : ∀ t' c, (s'.phase t').ts = some c → s.currentTs < c → t' = t := by
    intro t' c hc hlt
    by_contra ht
    rw [hf.phase t' ht] at hc
    exact absurd (h.issued t' c hc) (by omega)
  refine ⟨fun t' c hc => ?_, fun t₁ t₂ c h₁ h₂ => ?_, fun t' c hc => ?_, fun c t' hfind => ?_, fun k o => ?_,
    fun t' c hc hs k o => ?_, fun t' c hc => ?_, hrelies⟩
  · by_cases ht : t' = t
    · rw [ht] at hc
      exact (hown c hc).1
    · rw [hf.phase t' ht] at hc
      exact (h.issued t' c hc).trans hf.current
  · rcases hf.old t₁ c h₁ with h₁' | hlt
    · rcases hf.old t₂ c h₂ with h₂' | hlt
      · exact h.unique t₁ t₂ c h₁' h₂'
      · exact absurd (h.issued t₁ c h₁') (by omega)
    · rw [hnew t₁ c h₁ hlt, hnew t₂ c h₂ hlt]
  · by_cases ht : t' = t
    · rw [ht] at hc ⊢
      exact (hown c hc).2.1
    · rw [hf.phase t' ht] at hc ⊢
      exact (h.registered t' c hc).imp id (hmap c t' ht).mpr
  · by_cases ht : t' = t
    · rw [ht] at hfind ⊢
      exact hmapped c hfind
    · rw [hf.phase t' ht]
      exact h.mapped c t' ((hmap c t' ht).mp hfind)
  · rw [hf.deleted]
    exact (h.stamped k o).trans hf.current
  · rw [hf.deleted]
    rcases hf.old t' c hc with hc | hlt
    · exact h.unsettled t' c hc (fun hs' => hs ((hf.kept t' c hc).2.1 hs')) k o
    · exact (h.stamped k o).trans hlt.le
  · by_cases ht : t' = t
    · rw [ht] at hc ⊢
      exact (hown c hc).2.2
    · rw [hf.phase t' ht] at hc
      rw [hf.rows t' c hc]
      exact h.distinct t' c hc

theorem inv_setPhase (h : Inv s) (hc : (s.phase t).ts = some c) (hp : p.ts = some c)
    (hopen : ¬ (s.phase t).Settled) (hrelies : Relies s t p) : Inv (s.setPhase t p) := by
  have hself := setPhase_self s t p
  have hdone : ∀ c', s.phase t ≠ .done c' := fun c' hd => hopen (by rw [hd]; trivial)
  have hf : Follows s (s.setPhase t p) t := by
    refine ⟨fun t' ht => setPhase_other s p ht, fun _ _ _ => rfl, le_rfl, fun _ _ => rfl, fun c' hc' => ?_,
      fun c' hc' => ?_⟩
    · rw [hself]
      exact ⟨(hp.trans hc.symm).trans hc', fun hs => absurd hs hopen, fun hd => absurd hd (hdone c')⟩
    · rw [hself] at hc'
      exact .inl ((hc.trans hp.symm).trans hc')
  refine h.follows hf ?_ (fun c' hc' => ?_) (fun _ _ _ => Iff.rfl) (fun c' hfind => ?_)
  · rw [hself]
    exact hrelies.follows hf (fun c' hc' => h.issued t c' ((hc.trans hp.symm).trans hc')) (fun _ _ => rfl)
  · rw [hself] at hc'
    have hc' := (hc.trans hp.symm).trans hc'
    exact ⟨h.issued t c' hc', .inr ((h.registered t c' hc').resolve_left (hdone c')), h.distinct t c' hc'⟩
  · rw [hself]
    exact (hp.trans hc.symm).trans (h.mapped c' t hfind)

variable {cands : List Nat} {rest : List (BlockKey × List Nat)}

theorem inv_conflicted (h : Inv s)
    (hp : s.phase t = .checking c cands rest) (reason : String) : Inv (s.setPhase t (.conflicted c reason)) :=
  inv_setPhase h (c := c) (by rw [hp]; rfl) rfl (by rw [hp]; exact id) trivial

/-- Everybody with a smaller timestamp who is not done is in the map, hence noted. -/
theorem inv_noteCandidates (h : Inv s) (hp : s.phase t = .committing c) :
    Inv (s.setPhase t (.checking c ((s.committingTxns.entries.filter (fun e => c > e.1)).map Prod.snd)
      (s.rows t).rows)) := by
  refine inv_setPhase h (c := c) (by rw [hp]; rfl) rfl (by rw [hp]; exact id)
    ⟨⟨fun t' ht' => ?_, fun t' c' hc' hlt => ?_⟩, fun e he => he, fun e he hne => absurd he hne⟩
  · obtain ⟨e, he, rfl⟩ := mem_map.mp ht'
    exact ⟨e.1, h.mapped e.1 e.2 ((OrderedMap.mem_entries ..).mp (mem_filter.mp he).1)⟩
  · rcases h.registered t' c' hc' with hd | hr
    · exact .inr hd
    · refine .inl (mem_map.mpr ⟨(c', t'), mem_filter.mpr ⟨?_, decide_eq_true hlt⟩, rfl⟩)
      exact (OrderedMap.mem_entries ..).mpr hr

variable {e : BlockKey × List Nat}

/-- A block without a delete up to the transaction's timestamp has none at all of its
rows: later transactions have not applied anything yet. -/
theorem inv_checkBlock (h : Inv s)
    (hp : s.phase t = .checking c cands (e :: rest)) (hs : step s (.checkBlock t) = .ok s') : Inv s' := by
  simp only [step, hp] at hs
  split at hs
  · cases hs
    exact inv_conflicted h hp _
  rename_i hany
  cases hs
  have hc : (s.phase t).ts = some c := by rw [hp]; rfl
  have hopen : ¬ (s.phase t).Settled := by
    rw [hp]
    exact id
  obtain ⟨hnoted, hsub, hold⟩ := h.at hp
  refine inv_setPhase h hc rfl hopen ⟨hnoted, fun x hx => hsub x (mem_cons_of_mem _ hx), fun x hx hne o ho => ?_⟩
  by_cases hxe : x = e
  · left
    subst hxe
    have hle := h.unsettled t c hc hopen x.1 o
    simp only [System.deletedAt] at hle ⊢
    cases hb : s.blocks x.1 with
    | none => rfl
    | some b =>
      rw [hb] at hle
      simp only [hb, Option.any_some, Bool.not_eq_true, Block.checkDeleteConflict, any_eq_false] at hany
      exact Block.checkDelete_false (by simpa using hany o ho) hle
  · refine hold x hx (fun hmem => ?_) o ho
    rcases mem_cons.mp hmem with hmem | hmem
    · exact hxe hmem
    · exact hne hmem

theorem pairReason_none (h : s.pairReason t cands = none)
    (ht' : t' ∈ cands) : pairConflict (s.rows t) (s.rows t') = none := by
  have := findSome?_eq_none_iff.mp h t' ht'
  rwa [Option.map_eq_none_iff] at this

section
variable (h : Inv s)
include h

theorem inv_checkPairs (hp : s.phase t = .checking c cands [])
    (hord : Orderly s (.checkPairs t)) (hs : step s (.checkPairs t) = .ok s') : Inv s' := by
  simp only [step, hp] at hs
  split at hs
  · cases hs
    exact inv_conflicted h hp _
  rename_i hnone
  cases hs
  have hapart : ∀ t' ∈ cands, ∀ k o, ¬ ((s.rows t).Has k o ∧ (s.rows t').Has k o) := fun t' ht' =>
    pairConflict_complete (hord c cands [] hp t' ht') (pairReason_none hnone ht')
  refine inv_setPhase h (c := c) (by rw [hp]; rfl) rfl (by rw [hp]; exact id)
    ⟨fun t' c' hc' hlt => ?_, fun e he o ho => ?_⟩
  · rcases (h.at hp).1.2 t' c' hc' hlt with hmem | hd
    · exact .inr (hapart t' hmem)
    · exact .inl hd
  · rcases (h.at hp).2.2 e he not_mem_nil o ho with hz | ⟨t', ht', hhas⟩
    · exact hz
    · exact absurd ⟨⟨e.2, he, ho⟩, hhas⟩ (hapart t' ht' e.1 o)

theorem inv_startApply (hp : s.phase t = .passed c)
    (hturn : ∀ t' c', (s.phase t').ts = some c' → c' < c → (s.phase t').Settled)
    (hs : step s (.startApply t) = .ok s') : Inv s' := by
  simp only [step, hp] at hs
  cases hs
  exact inv_setPhase h (c := c) (by rw [hp]; rfl) rfl (by rw [hp]; exact id)
    ⟨hturn, (h.at hp).1, (s.rows t).keys, fun e he => ⟨he, (h.at hp).2 e he⟩⟩

theorem inv_delete (hp : s.phase t = .started) (d : DeleteState) : Inv {s with rows := update s.rows t d} := by
  have hnone : ∀ c, (s.phase t).ts ≠ some c := fun c hc => by
    rw [hp] at hc
    cases hc
  refine h.follows (t := t) ⟨fun _ _ => rfl, fun t' c hc => update_of_ne ?_ _ _, le_rfl, fun _ _ => rfl,
    fun c hc => absurd hc (hnone c), fun c hc => absurd hc (hnone c)⟩ ?_ (fun c hc => absurd hc (hnone c))
    (fun _ _ _ => Iff.rfl) (fun c hfind => h.mapped c t hfind)
  · rintro rfl
    exact hnone c hc
  · show Relies _ t (s.phase t)
    rw [hp]
    trivial

theorem inv_getWriteCommitTS (hp : s.phase t = .started) (hord : ∀ e ∈ (s.rows t).rows, e.2.Nodup) :
    Inv {s.setPhase t (.committing (s.currentTs + 2)) with
      currentTs := s.currentTs + 2
      committingTxns := s.committingTxns.emplace (s.currentTs + 2) t} := by
  have hself := setPhase_self s t (.committing (s.currentTs + 2))
  have hnone : ∀ c, (s.phase t).ts ≠ some c := fun c hc => by
    rw [hp] at hc
    cases hc
  have hfresh : s.committingTxns.find? (s.currentTs + 2) = none :=
    Option.eq_none_iff_forall_ne_some.mpr fun t' hf => absurd (h.issued t' _ (h.mapped _ t' hf)) (by omega)
  have htakes : ∀ c, ((s.setPhase t (.committing (s.currentTs + 2))).phase t).ts = some c → c = s.currentTs + 2 := by
    intro c hc
    rw [hself] at hc
    exact (Option.some.inj hc).symm
  have hfind : ∀ c, (s.committingTxns.emplace (s.currentTs + 2) t).find? c =
      if c = s.currentTs + 2 then some t else s.committingTxns.find? c := by
    intro c
    rw [OrderedMap.find?_emplace, hfresh, Option.getD_none]
  refine h.follows (t := t) ⟨fun t' ht => setPhase_other s _ ht, fun _ _ _ => rfl, Nat.le_add_right _ 2,
    fun _ _ => rfl, fun c hc => absurd hc (hnone c), fun c hc => .inr ?_⟩ ?_ (fun c hc => ?_) (fun c t' ht => ?_)
    (fun c hc => ?_)
  · rw [htakes c hc]
    omega
  · show Relies _ t ((s.setPhase t (.committing (s.currentTs + 2))).phase t)
    rw [hself]
    trivial
  · obtain rfl := htakes c hc
    exact ⟨le_rfl, .inr ((hfind _).trans (if_pos rfl)), hord⟩
  · rw [hfind]
    split
    · rename_i hc
      rw [hc, hfresh]
      exact ⟨fun he => absurd (Option.some.inj he).symm ht, nofun⟩
    · rfl
  · rw [hfind] at hc
    split at hc
    · rename_i hnew
      rw [hnew]
      exact congrArg Phase.ts hself
    · exact absurd (h.mapped c t hc) (hnone c)

/-- While one transaction applies its deletes, everybody else unsettled comes after it. -/
theorem Inv.after_applying (hp : s.phase t = .applying c rest)
    {t' c' : Nat} (hp' : s.phase t' = p) (hc' : p.ts = some c') (hs : ¬ p.Settled)
    (hne : p ≠ .applying c rest) : c < c' := by
  rw [← hp'] at hc' hs hne
  rcases lt_trichotomy c c' with hlt | rfl | hlt
  · exact hlt
  · rw [h.unique t' t c hc' (by rw [hp]; rfl)] at hne
    exact absurd hp hne
  · exact absurd ((h.at hp).1 t' c' hc' hlt) hs

/-- The rows one block gets deleted are nobody else's who still relies on them. -/
theorem inv_deleted
    (hp : s.phase t = .applying c rest) {k : BlockKey} {os : List Nat} (hrow : (k, os) ∈ (s.rows t).rows)
    (hk : k ∉ rest.map Prod.fst) {blocks : BlockKey → Option Block}
    (hdel : ∀ k' o, ({s with blocks := blocks} : System).deletedAt k' o =
      if k' = k ∧ o ∈ os then c else s.deletedAt k' o) : Inv {s with blocks := blocks} := by
  have hct : (s.phase t).ts = some c := by rw [hp]; rfl
  have hnot : s.phase t ≠ .done c := by rw [hp]; nofun
  refine ⟨h.issued, h.unique, h.registered, h.mapped, ?_, ?_, h.distinct, fun t' => ?_⟩
  · intro k' o
    rw [hdel]
    split
    · exact h.issued t c hct
    · exact h.stamped k' o
  · intro t' c' hc' hs k' o
    rw [hdel]
    split
    · rcases lt_or_ge c' c with hlt | hge
      · exact absurd ((h.at hp).1 t' c' hc' hlt) hs
      · exact hge
    · exact h.unsettled t' c' hc' hs k' o
  show Relies _ t' (s.phase t')
  cases hp' : s.phase t' with
  | checking c' cands rest' =>
    obtain ⟨hnoted, h₁, h₂⟩ := h.at hp'
    refine ⟨hnoted, h₁, fun e he hne o ho => ?_⟩
    rw [hdel]
    split
    · rename_i hrow'
      -- the transaction that applies was noted by this one, which is still checking
      have hmem := (hnoted.2 t c hct (h.after_applying hp hp' rfl id nofun)).resolve_right hnot
      exact .inr ⟨t, hmem, os, by rwa [hrow'.1], hrow'.2⟩
    · exact h₂ e he hne o ho
  | passed c' =>
    obtain ⟨hapart, hclear⟩ := h.at hp'
    refine ⟨hapart, fun e he o ho => ?_⟩
    rw [hdel, if_neg ?_]
    · exact hclear e he o ho
    · rintro ⟨hek, hos⟩
      have hdisj := (hapart t c hct (h.after_applying hp hp' rfl id nofun)).resolve_left hnot
      exact hdisj k o ⟨⟨e.2, by rwa [← hek], ho⟩, ⟨os, hrow, hos⟩⟩
  | applying c' rest' =>
    obtain ⟨hturn, hapart, h₁, h₂⟩ := h.at hp'
    have hrest : rest' = rest := by
      by_contra hne
      have hsettled := hturn t c hct (h.after_applying hp hp' rfl id (by rintro ⟨⟩; exact hne rfl))
      rw [hp] at hsettled
      exact hsettled
    refine ⟨hturn, hapart, h₁, fun e he => ⟨(h₂ e he).1, fun o ho => ?_⟩⟩
    rw [hrest] at he
    rw [hdel, if_neg (fun hrow' => hk (by rw [← hrow'.1]; exact mem_map_of_mem he))]
    exact (h₂ e (hrest ▸ he)).2 o ho
  | _ => trivial

/-- What is left of the deletes of one block: they hit undeleted rows, each once. -/
theorem Inv.applyBlock_rows (hp : s.phase t = .applying c (e :: rest)) {b : Block} (hb : s.blocks e.1 = some b) :
    (∀ o ∈ e.2, b.deleted o = 0) ∧ e.2.Nodup := by
  obtain ⟨hmem, hzero⟩ := (h.at hp).2.2.2 e mem_cons_self
  refine ⟨fun o ho => ?_, h.distinct t c (by rw [hp]; rfl) e hmem⟩
  have := hzero o ho
  simpa only [System.deletedAt, hb] using this

theorem inv_applyBlock (hp : s.phase t = .applying c (e :: rest)) (hs : step s (.applyBlock t) = .ok s') : Inv s' := by
  simp only [step, hp] at hs
  cases hb : s.blocks e.1 with
  | none => rw [hb] at hs; cases hs
  | some b =>
    rw [hb] at hs
    obtain ⟨hzero, hnodup⟩ := h.applyBlock_rows hp hb
    have hspec := (Block.deleteData_spec e.1 t c hzero hnodup).2
    dsimp only at hs
    cases hd : b.deleteData e.1 t c e.2 with
    | error err => rw [hd] at hs; cases hs
    | ok b' =>
      rw [hd] at hs
      cases hs
      obtain ⟨hturn, hapart, hkeys, hrows⟩ := h.at hp
      have hmove : Inv (s.setPhase t (.applying c rest)) :=
        inv_setPhase h (c := c) (by rw [hp]; rfl) rfl (by rw [hp]; exact id)
          ⟨hturn, hapart, (nodup_cons.mp hkeys).2, fun x hx => hrows x (mem_cons_of_mem _ hx)⟩
      refine inv_deleted hmove (setPhase_self ..) (hrows e mem_cons_self).1
        (nodup_cons.mp hkeys).1 (fun k' o => ?_)
      show (match update s.blocks e.1 (some b') k' with | some b => b.deleted o | none => 0) = _
      by_cases hk : k' = e.1
      · rw [hk, update_self]
        simp only [hspec b' hd o, true_and, System.deletedAt, System.setPhase, hb]
      · rw [update_of_ne hk, if_neg (fun h => hk h.1)]
        rfl

theorem inv_blocks {blocks : BlockKey → Option Block}
    (hdel : ∀ k o, ({s with blocks := blocks} : System).deletedAt k o = s.deletedAt k o) :
    Inv {s with blocks := blocks} := by
  have hf : Follows s {s with blocks := blocks} 0 :=
    ⟨fun _ _ => rfl, fun _ _ _ => rfl, le_rfl, hdel, fun c hc => ⟨hc, id, id⟩, fun c hc => .inl hc⟩
  exact h.follows hf ((h.relies 0).follows hf (h.issued 0) fun _ _ => rfl)
    (fun c hc => ⟨h.issued 0 c hc, h.registered 0 c hc, h.distinct 0 c hc⟩) (fun _ _ _ => Iff.rfl)
    (fun c hfind => h.mapped c 0 hfind)

theorem inv_finishApply (hp : s.phase t = .applying c []) (hs : step s (.finishApply t) = .ok s') : Inv s' := by
  simp only [step, hp] at hs
  cases hs
  have hmove : Inv (s.setPhase t (.applied c)) :=
    inv_setPhase h (c := c) (by rw [hp]; rfl) rfl (by rw [hp]; exact id) trivial
  refine inv_blocks hmove (fun k o => ?_)
  simp only [System.deletedAt, System.setPhase]
  cases s.blocks k with
  | none => rfl
  | some b =>
    simp only [Option.map_some]
    split <;> rfl

theorem inv_cleanupTxn (hc : (s.phase t).ts = some c) :
    Inv {s.setPhase t (.done c) with committingTxns := s.committingTxns.erase c} := by
  have hself := setPhase_self s t (.done c)
  have hsame : ∀ c', (s.phase t).ts = some c' → c' = c := fun c' hc' => Option.some.inj (hc'.symm.trans hc)
  have hts : ((s.setPhase t (.done c)).phase t).ts = (s.phase t).ts := by rw [hself, hc]; rfl
  refine h.follows (t := t) ⟨fun t' ht => setPhase_other s _ ht, fun _ _ _ => rfl, le_rfl, fun _ _ => rfl,
    fun c' hc' => ⟨hts.trans hc', fun _ => ?_, fun _ => ?_⟩, fun c' hc' => .inl (hts.symm.trans hc')⟩ ?_
    (fun c' hc' => ?_) (fun c' t' ht => ?_) (fun c' hfind => ?_)
  · show ((s.setPhase t (.done c)).phase t).Settled
    rw [hself]
    trivial
  · rwa [hsame c' hc']
  · show Relies _ t ((s.setPhase t (.done c)).phase t)
    rw [hself]
    trivial
  · obtain rfl := hsame c' (hts.symm.trans hc')
    exact ⟨h.issued t c' hc, .inl hself, h.distinct t c' hc⟩
  · rw [OrderedMap.find?_erase]
    split
    · rename_i hcc
      rw [hcc]
      exact ⟨nofun, fun hfind => absurd (h.unique t' t c (h.mapped c t' hfind) hc) ht⟩
    · rfl
  · rw [OrderedMap.find?_erase] at hfind
    split at hfind
    · cases hfind
    · exact hts.trans (h.mapped c' t hfind)

end

end Steps

theorem inv_step (s : System) (a : Call) (s' : System) (h : Inv s) (ha : (deleteMachine.restrict Orderly).enabled s a)
    (hs : (deleteMachine.restrict Orderly).step s a = .ok s') : Inv s' := by
  obtain ⟨ha, hord⟩ := ha
  replace hs : step s a = .ok s' := hs
  cases a with
  | delete t rowIds =>
    simp only [step] at hs
    split at hs
    · cases hs
    cases hs
    exact inv_delete h ha _
  | getWriteCommitTS t =>
    cases hs
    exact inv_getWriteCommitTS h ha hord
  | noteCandidates t =>
    obtain ⟨c, hp⟩ := ha
    simp only [step, hp] at hs
    cases hs
    exact inv_noteCandidates h hp
  | checkBlock t =>
    obtain ⟨c, cands, e, rest, hp⟩ := ha
    exact inv_checkBlock h hp hs
  | checkPairs t =>
    obtain ⟨c, cands, hp⟩ := ha
    exact inv_checkPairs h hp hord hs
  | startApply t =>
    obtain ⟨c, hp, hturn⟩ := ha
    exact inv_startApply h hp hturn hs
  | applyBlock t =>
    obtain ⟨c, e, rest, hp⟩ := ha
    exact inv_applyBlock h hp hs
  | finishApply t =>
    obtain ⟨c, hp⟩ := ha
    exact inv_finishApply h hp hs
  | cleanupTxn t =>
    obtain ⟨c, hc⟩ : ∃ c, (s.phase t).ts = some c := by
      rcases ha with ⟨c, hp⟩ | ⟨c, reason, hp⟩ <;> rw [hp] <;> exact ⟨c, rfl⟩
    simp only [step, hc] at hs
    cases hs
    exact inv_cleanupTxn h hc

theorem bufferDelete_error {d : DeleteState} {rowIds : List RowID} {e : DeleteFault}
    (h : bufferDelete d rowIds = .error e) : e = .rowExceedBlockCapacity := by
  induction rowIds generalizing d with
  | nil => cases h
  | cons row rest ih =>
    simp only [bufferDelete] at h
    split at h
    · cases h
      rfl
    · exact ih h

/-- Only applying deletes can find a row deleted, and under the invariant it does not. -/
theorem Inv.step_ne_deleteTwice {s : System} (h : Inv s) (a : Call) (o c old : Nat) :
    step s a ≠ .error (.version (.deleteTwice o c old)) := by
  intro hs
  cases a with
  | delete t rowIds =>
    simp only [step] at hs
    split at hs
    · rename_i e he
      simp [bufferDelete_error he] at hs
    · cases hs
  | applyBlock t =>
    simp only [step] at hs
    split at hs
    · rename_i c' e rest hp
      cases hb : s.blocks e.1 with
      | none => rw [hb] at hs; cases hs
      | some b =>
        obtain ⟨hzero, hnodup⟩ := h.applyBlock_rows hp hb
        have hspec := (Block.deleteData_spec e.1 t c' hzero hnodup).1
        rw [hb] at hs
        dsimp only at hs
        split at hs
        · rename_i err herr
          cases hs
          exact hspec o c old herr
        · cases hs
    · cases hs
  | getWriteCommitTS t => cases hs
  | noteCandidates t | startApply t | finishApply t | cleanupTxn t =>
    simp only [step] at hs
    split at hs <;> cases hs
  | checkBlock t | checkPairs t =>
    simp only [step] at hs
    split at hs
    · split at hs <;> cases hs
    · cases hs

/-- **No row is deleted twice.** Start from any blocks whose deletes are not from the
future, and let any transactions buffer, check and apply in any interleaving in which the
buffered lists are orderly: whatever call comes next does not find a row deleted. And
whatever the lists, a conflict the pairwise check reports is a row of both transactions. -/
theorem no_row_deleted_twice (tableName : String) (startTs : Nat) (blocks : BlockKey → Option Block)
    (hold : ∀ k b o, blocks k = some b → b.deleted o ≤ startTs) (calls : List Call) (s : System)
    (h : (deleteMachine.restrict Orderly).Run (System.start tableName startTs blocks) calls s) :
    (∀ a o c old, step s a ≠ .error (.version (.deleteTwice o c old))) ∧
      ∀ d d' k o, pairConflict d d' = some (k, o) → d.Has k o ∧ d'.Has k o :=
  ⟨(h.invariant inv_step (inv_start tableName startTs blocks hold)).step_ne_deleteTwice,
    fun _ _ _ _ => pairConflict_sound⟩

/-! ### A conflict the scan misses -/

/-- One block with room for eight rows. -/
def oneBlock (k : BlockKey) : Option Block := if k = ⟨0, 0⟩ then some (.fresh 8) else none

/-- Both transactions delete row 3; the second found row 5 first. -/
def missedConflict : List Call :=
  [.delete 1 [⟨0, 3⟩], .delete 2 [⟨0, 5⟩, ⟨0, 3⟩], .getWriteCommitTS 1, .getWriteCommitTS 2, .noteCandidates 1,
    .checkBlock 1, .checkPairs 1, .noteCandidates 2, .checkBlock 2, .checkPairs 2, .startApply 1, .applyBlock 1,
    .finishApply 1, .startApply 2]

theorem delete_twice_reached : ∃ s, deleteMachine.Run (System.start "t" 0 oneBlock) missedConflict s ∧
    Allowed s (.applyBlock 2) ∧ step s (.applyBlock 2) = .error (.version (.deleteTwice 3 4 2)) := by
  refine ⟨_, .cons rfl rfl <| .cons rfl rfl <| .cons rfl rfl <| .cons rfl rfl <| .cons ⟨_, rfl⟩ rfl <|
    .cons ⟨_, _, _, _, rfl⟩ rfl <| .cons ⟨_, _, rfl⟩ rfl <| .cons ⟨_, rfl⟩ rfl <|
    .cons ⟨_, _, _, _, rfl⟩ rfl <| .cons ⟨_, _, rfl⟩ rfl <| .cons ⟨_, rfl, ?first⟩ rfl <|
    .cons ⟨_, _, _, rfl⟩ rfl <| .cons ⟨_, rfl⟩ rfl <| .cons ⟨_, rfl, ?second⟩ rfl <| .nil _,
    ⟨_, _, _, rfl⟩, rfl⟩
  case first =>
    intro t c hc hlt
    match t with
    | 0 => cases hc
    | 1 =>
      cases hc
      exact absurd hlt (by decide)
    | 2 =>
      cases hc
      exact absurd hlt (by decide)
    | _ + 3 => cases hc
  case second =>
    intro t c hc hlt
    match t with
    | 0 => cases hc
    | 1 => trivial
    | 2 =>
      cases hc
      exact absurd hlt (by decide)
    | _ + 3 => cases hc

/-- The same transactions, with row 5 found last, meet the condition, and the check
reports the second one. -/
theorem no_row_deleted_twice_ascending :
    ∃ s, (deleteMachine.restrict Orderly).Run (System.start "t" 0 oneBlock)
        [.delete 1 [⟨0, 3⟩], .delete 2 [⟨0, 3⟩, ⟨0, 5⟩], .getWriteCommitTS 1, .getWriteCommitTS 2,
          .noteCandidates 1, .checkBlock 1, .checkPairs 1, .noteCandidates 2, .checkBlock 2] s ∧
      pairConflict (s.rows 2) (s.rows 1) = some (⟨0, 0⟩, 3) ∧
      ∀ a o c old, step s a ≠ .error (.version (.deleteTwice o c old)) := by
  have hrun : ∃ s, (deleteMachine.restrict Orderly).Run (System.start "t" 0 oneBlock)
        [.delete 1 [⟨0, 3⟩], .delete 2 [⟨0, 3⟩, ⟨0, 5⟩], .getWriteCommitTS 1, .getWriteCommitTS 2,
          .noteCandidates 1, .checkBlock 1, .checkPairs 1, .noteCandidates 2, .checkBlock 2] s ∧
      pairConflict (s.rows 2) (s.rows 1) = some (⟨0, 0⟩, 3) := by
    refine ⟨_, .cons ⟨rfl, trivial⟩ rfl <| .cons ⟨rfl, trivial⟩ rfl <| .cons ⟨rfl, ?one⟩ rfl <|
      .cons ⟨rfl, ?two⟩ rfl <| .cons ⟨⟨_, rfl⟩, trivial⟩ rfl <| .cons ⟨⟨_, _, _, _, rfl⟩, trivial⟩ rfl <|
      .cons ⟨⟨_, _, rfl⟩, ?pairs⟩ rfl <| .cons ⟨⟨_, rfl⟩, trivial⟩ rfl <|
      .cons ⟨⟨_, _, _, _, rfl⟩, trivial⟩ rfl <| .nil _, rfl⟩
    case one =>
      show ∀ e ∈ [((⟨0, 0⟩ : BlockKey), [3])], e.2.Nodup
      decide
    case two =>
      show ∀ e ∈ [((⟨0, 0⟩ : BlockKey), [3, 5])], e.2.Nodup
      decide
    case pairs =>
      -- the first transaction has nobody before it
      intro c cands rest hp t' ht'
      cases hp
      cases ht'
  obtain ⟨s, hs, hpair⟩ := hrun
  have hfresh : ∀ k b o, oneBlock k = some b → b.deleted o ≤ 0 := by
    intro k b o hb
    unfold oneBlock at hb
    split at hb
    · cases hb
      simp only [Block.deleted, Block.fresh, Block.BlockVersion.new, getElem?_replicate]
      split <;> exact Nat.le_refl 0
    · cases hb
  exact ⟨s, hs, hpair, (no_row_deleted_twice "t" 0 oneBlock hfresh _ s hs).1⟩

end Infinity.Transaction.DeleteConflict
