import Infinity.Hnsw.Build

/-! Concurrent building never gets stuck and leaves a well-formed graph.

A vertex is in lists of a layer only once its own `Build` has selected its neighbours
there (`Passed`). So whatever a thread finds while it searches a layer is further down
than itself, or has returned; and what it finds to connect to was there before it. Each
thread that waits for the lock of an unfinished one therefore waits for one that is
further down, or on the same layer and there for longer, and there is a last one. The
same fact keeps the lists apart: nobody enters a list twice, or its own. -/
namespace Infinity.Hnsw

open Lib List Function

variable {D : Type}

/-! ### Where a thread stands -/

namespace Pc

/-- The vertex may be in lists of this layer: its thread has selected neighbours there, or
is about to begin below. -/
def Passed (layer : Nat) : Pc D → Prop
  | .adding none => True
  | .adding (some (l, _)) => l < layer
  | .nearest l _ => l < layer
  | .nearestRead l _ => l < layer
  | .search l _ _ => l < layer
  | .searchRead l _ _ => l < layer
  | .connect l _ _ => l ≤ layer
  | .connectWrite l _ _ => l ≤ layer
  | .finishing => True
  | .returned => True
  | _ => False

/-- The thread holds the lock of its own vertex. -/
def Owns : Pc D → Prop
  | .idle => False
  | .called => False
  | .returned => False
  | _ => True

/-- The thread has been at the enter point. -/
def Registered : Pc D → Prop
  | .idle => False
  | .called => False
  | .entering => False
  | _ => True

/-- The vertex whose list the thread reads. -/
def reads : Pc D → Option Nat
  | .nearestRead _ c => some c
  | .searchRead _ c _ => some c
  | _ => none

/-- The vertex whose list the thread changes. -/
def writes : Pc D → Option Nat
  | .connectWrite _ n _ => some n
  | _ => none

/-- The thread enters itself into lists of this layer. -/
def ConnectsAt (layer : Nat) : Pc D → Prop
  | .connect l _ _ => l = layer
  | .connectWrite l _ _ => l = layer
  | _ => False

theorem eq_returned_of_passed {layer : Nat} {pc : Pc D} (hp : pc.Passed layer) (ho : ¬ pc.Owns) : pc = .returned := by
  cases pc with
  | returned => rfl
  | idle => exact hp.elim
  | called => exact hp.elim
  | _ => exact absurd trivial ho

theorem Passed.registered {layer : Nat} {pc : Pc D} (hp : pc.Passed layer) : pc.Registered := by
  cases pc with
  | idle => exact hp.elim
  | called => exact hp.elim
  | entering => exact hp.elim
  | _ => trivial

end Pc

namespace Graph

/-- A vertex that a thread may meet on a layer. -/
def Knows (cfg : Config D) (s : Graph D) (layer u : Nat) : Prop := (s.pc u).Passed layer ∧ layer ≤ cfg.layer u

/-- What `v`, connecting on a layer, still has to do: `todo` are neighbours it has
selected, in none of whose lists it is, and those that connect on the same layer began
before it. All its other neighbours have returned. -/
structure Connecting (s : Graph D) (stamp : Nat → Nat) (v layer : Nat) (todo : List Nat) : Prop where
  selected : ∀ n ∈ todo, n ∈ s.neighbors v layer
  nodup : todo.Nodup
  rest : ∀ u ∈ s.neighbors v layer, u ∈ todo ∨ s.pc u = .returned
  nonempty : s.neighbors v layer ≠ []
  fresh : ∀ n ∈ todo, v ∉ s.neighbors n layer
  older : ∀ n ∈ todo, (s.pc n).ConnectsAt layer → stamp n < stamp v

/-- What a thread knows where it stands. -/
def Local (cfg : Config D) (s : Graph D) (stamp : Nat → Nat) (v : Nat) : Prop :=
  match s.pc v with
  | .adding (some (l, ep)) => s.Knows cfg l ep
  | .nearest l cur => cfg.layer v < l ∧ s.Knows cfg l cur
  | .nearestRead l cur => cfg.layer v < l ∧ s.Knows cfg l cur ∧ s.pc cur = .returned
  | .search l c search => l ≤ cfg.layer v ∧ s.Knows cfg l c ∧ search.Good (s.Knows cfg l)
  | .searchRead l c search =>
    l ≤ cfg.layer v ∧ s.Knows cfg l c ∧ search.Good (s.Knows cfg l) ∧ s.pc c = .returned
  | .connect l n todo => l ≤ cfg.layer v ∧ s.Connecting stamp v l (n :: todo)
  | .connectWrite l n todo => l ≤ cfg.layer v ∧ s.Connecting stamp v l (n :: todo) ∧ s.pc n = .returned
  | _ => True

/-- The neighbour lists. -/
structure Lists (cfg : Config D) (s : Graph D) : Prop where
  known : ∀ w l, ∀ u ∈ s.neighbors w l, s.Knows cfg l u
  short : ∀ w l, (s.neighbors w l).length ≤ cfg.mmax l
  nodup : ∀ w l, (s.neighbors w l).Nodup
  notSelf : ∀ w l, w ∉ s.neighbors w l

/-- The lock of a vertex is held alone by its own thread, or by one that changes its list,
and shared by those that read its list. -/
structure Locks (s : Graph D) : Prop where
  writer : ∀ c x, s.writer c = some x ↔ (x = c ∧ (s.pc x).Owns) ∨ (s.pc x).writes = some c
  readers : ∀ c x, x ∈ s.readers c ↔ (s.pc x).reads = some c

/-- The enter point is a vertex of the highest layer. -/
def Entry (cfg : Config D) (s : Graph D) : Prop :=
  match s.entry with
  | none => ∀ v, ¬ (s.pc v).Registered
  | some (l, u) => s.Knows cfg l u ∧ cfg.layer u = l ∧ ∀ v, (s.pc v).Registered → cfg.layer v ≤ l

/-- What every interleaving keeps. `stamp` tells who began to connect first. -/
structure Inv (cfg : Config D) (s : Graph D) (stamp : Nat → Nat) : Prop where
  lists : s.Lists cfg
  locks : s.Locks
  entry : s.Entry cfg
  threads : ∀ v, s.Local cfg stamp v

/-! ### One thread's step, as the others see it -/

/-- The thread of `v` moves on: it is further down than before, and to the lists of
vertices that may be met on a layer it adds itself at most. -/
structure Moves (s s' : Graph D) (stamp stamp' : Nat → Nat) (v : Nat) : Prop where
  other : ∀ x, x ≠ v → s'.pc x = s.pc x
  passed : ∀ l, (s.pc v).Passed l → (s'.pc v).Passed l
  running : s.pc v ≠ .returned
  own : ∀ x, x ≠ v → s.pc x ≠ .returned → s'.neighbors x = s.neighbors x
  adds : ∀ w l u, (s.pc w).Passed l → u ∈ s'.neighbors w l → u = v ∨ u ∈ s.neighbors w l
  stamps : ∀ x, x ≠ v → stamp' x = stamp x
  connects : ∀ l, (s.pc v).Passed l → (s'.pc v).ConnectsAt l → (s.pc v).ConnectsAt l ∧ stamp' v = stamp v

variable {cfg : Config D} {s s' : Graph D} {stamp stamp' : Nat → Nat} {v : Nat}

section
variable (h : Moves s s' stamp stamp' v)
include h

theorem Moves.passed_all {u l : Nat} (hp : (s.pc u).Passed l) : (s'.pc u).Passed l := by
  by_cases hu : u = v
  · rw [hu] at hp ⊢
    exact h.passed l hp
  · rwa [h.other u hu]

theorem Moves.returned {u : Nat} (hu : s.pc u = .returned) : s'.pc u = .returned := by
  have hne : u ≠ v := by
    rintro rfl
    exact h.running hu
  rw [h.other u hne, hu]

theorem Moves.knows {l u : Nat} (hk : s.Knows cfg l u) : s'.Knows cfg l u := ⟨h.passed_all hk.1, hk.2⟩

theorem Moves.connecting (hl : s.Lists cfg) {x l : Nat} {todo : List Nat} (hx : x ≠ v)
    (hrun : s.pc x ≠ .returned) (hc : s.Connecting stamp x l todo) : s'.Connecting stamp' x l todo := by
  have hown : s'.neighbors x l = s.neighbors x l := congrFun (h.own x hx hrun) l
  have hpassed : ∀ n ∈ todo, (s.pc n).Passed l := fun n hn => (hl.known x l n (hc.selected n hn)).1
  refine ⟨?_, hc.nodup, ?_, ?_, ?_, ?_⟩
  · intro n hn
    rw [hown]
    exact hc.selected n hn
  · intro u hu
    rw [hown] at hu
    exact (hc.rest u hu).imp_right h.returned
  · rw [hown]
    exact hc.nonempty
  · intro n hn hmem
    rcases h.adds n l x (hpassed n hn) hmem with rfl | hold
    · exact hx rfl
    · exact hc.fresh n hn hold
  · intro n hn hat
    rw [h.stamps x hx]
    by_cases hnv : n = v
    · subst hnv
      obtain ⟨hat', hst⟩ := h.connects l (hpassed n hn) hat
      rw [hst]
      exact hc.older n hn hat'
    · rw [h.stamps n hnv]
      rw [h.other n hnv] at hat
      exact hc.older n hn hat

/-- **What the other threads know stays true.** -/
theorem Moves.local (hl : s.Lists cfg) {x : Nat} (hx : x ≠ v) (hloc : s.Local cfg stamp x) : s'.Local cfg stamp' x := by
  revert hloc
  unfold Local
  rw [h.other x hx]
  cases hcase : s.pc x with
  | adding old =>
    cases old with
    | none => exact id
    | some p => exact h.knows
  | nearest l cur => exact fun hloc => ⟨hloc.1, h.knows hloc.2⟩
  | nearestRead l cur => exact fun hloc => ⟨hloc.1, h.knows hloc.2.1, h.returned hloc.2.2⟩
  | search l c search => exact fun hloc => ⟨hloc.1, h.knows hloc.2.1, hloc.2.2.mono fun u => h.knows⟩
  | searchRead l c search =>
    exact fun hloc => ⟨hloc.1, h.knows hloc.2.1, hloc.2.2.1.mono fun u => h.knows, h.returned hloc.2.2.2⟩
  | connect l n todo => exact fun hloc => ⟨hloc.1, h.connecting hl hx (by rw [hcase]; nofun) hloc.2⟩
  | connectWrite l n todo =>
    exact fun hloc => ⟨hloc.1, h.connecting hl hx (by rw [hcase]; nofun) hloc.2.1, h.returned hloc.2.2⟩
  | _ => exact id

end

theorem Inv.move (h : s.Inv cfg stamp) (hm : Moves s s' stamp stamp' v) (hlists : s'.Lists cfg) (hlocks : s'.Locks)
    (hentry : s'.Entry cfg) (hv : s'.Local cfg stamp' v) : s'.Inv cfg stamp' where
  lists := hlists
  locks := hlocks
  entry := hentry
  threads := fun x => by
    by_cases hx : x = v
    · rwa [hx]
    · exact hm.local h.lists hx (h.threads x)

theorem Moves.of_neighbors {old pc : Pc D} (hpc : s.pc v = old) (hpc' : s'.pc = update s.pc v pc)
    (hn : s'.neighbors = s.neighbors) (hpassed : ∀ l, old.Passed l → pc.Passed l) (hrun : old ≠ .returned)
    (hconnects : ∀ l, old.Passed l → pc.ConnectsAt l → old.ConnectsAt l) : Moves s s' stamp stamp v := by
  subst hpc
  have hself : s'.pc v = pc := by rw [hpc', update_self]
  exact ⟨fun x hx => by rw [hpc', update_of_ne hx], hself ▸ hpassed, hrun, fun x _ _ => congrFun hn x,
    fun w l u _ hu => .inr (by rwa [hn] at hu), fun _ _ => rfl, fun l hp hc => ⟨hconnects l hp (hself ▸ hc), rfl⟩⟩

/-- Every list is the old one, or again known, short and without repetition. -/
theorem Lists.change (h : s.Lists cfg) (hm : Moves s s' stamp stamp' v)
    (hcases : ∀ w l, s'.neighbors w l = s.neighbors w l ∨ (∀ u ∈ s'.neighbors w l, s'.Knows cfg l u) ∧
      (s'.neighbors w l).length ≤ cfg.mmax l ∧ (s'.neighbors w l).Nodup ∧ w ∉ s'.neighbors w l) : s'.Lists cfg := by
  have hall := fun w l => (hcases w l).elim (fun he => by
    rw [he]
    exact ⟨fun u hu => hm.knows (h.known w l u hu), h.short w l, h.nodup w l, h.notSelf w l⟩) id
  exact ⟨fun w l => (hall w l).1, fun w l => (hall w l).2.1, fun w l => (hall w l).2.2.1, fun w l => (hall w l).2.2.2⟩

theorem Lists.of_neighbors (h : s.Lists cfg) (hm : Moves s s' stamp stamp' v) (hn : s'.neighbors = s.neighbors) :
    s'.Lists cfg := h.change hm fun w l => .inl (by rw [hn])

theorem Entry.of_entry (h : s.Entry cfg) (hm : Moves s s' stamp stamp' v) (he : s'.entry = s.entry)
    (hreg : (s'.pc v).Registered → (s.pc v).Registered) : s'.Entry cfg := by
  have hreg' : ∀ x, (s'.pc x).Registered → (s.pc x).Registered := by
    intro x hx
    by_cases hxv : x = v
    · rw [hxv] at hx ⊢
      exact hreg hx
    · rwa [hm.other x hxv] at hx
  unfold Entry at h ⊢
  rw [he]
  split
  · rename_i hnone
    rw [hnone] at h
    exact fun x hx => h x (hreg' x hx)
  · rename_i l u hsome
    rw [hsome] at h
    exact ⟨hm.knows h.1, h.2.1, fun x hx => h.2.2 x (hreg' x hx)⟩

theorem Locks.move (h : s.Locks) (hother : ∀ x, x ≠ v → s'.pc x = s.pc x)
    (hw : ∀ c x, x ≠ v → (s'.writer c = some x ↔ s.writer c = some x))
    (hwv : ∀ c, s'.writer c = some v ↔ (v = c ∧ (s'.pc v).Owns) ∨ (s'.pc v).writes = some c)
    (hr : ∀ c x, x ≠ v → (x ∈ s'.readers c ↔ x ∈ s.readers c))
    (hrv : ∀ c, v ∈ s'.readers c ↔ (s'.pc v).reads = some c) : s'.Locks where
  writer := fun c x => by
    by_cases hx : x = v
    · rw [hx]
      exact hwv c
    · rw [hw c x hx, hother x hx]
      exact h.writer c x
  readers := fun c x => by
    by_cases hx : x = v
    · rw [hx]
      exact hrv c
    · rw [hr c x hx, hother x hx]
      exact h.readers c x

theorem Locks.keep (h : s.Locks) {old pc : Pc D} (hpc : s.pc v = old) (hpc' : s'.pc = update s.pc v pc)
    (hw : s'.writer = s.writer) (hr : s'.readers = s.readers) (ho : pc.Owns ↔ old.Owns)
    (hws : pc.writes = old.writes) (hrs : pc.reads = old.reads) : s'.Locks := by
  subst hpc
  have hself : s'.pc v = pc := by rw [hpc', update_self]
  exact h.move (fun x hx => by rw [hpc', update_of_ne hx]) (fun c x _ => by rw [hw])
    (fun c => by rw [hself, hw, ho, hws]; exact h.writer c v) (fun c x _ => by rw [hr])
    (fun c => by rw [hself, hr, hrs]; exact h.readers c v)

/-- The lock of a vertex met on a layer is free only when the vertex's thread has returned. -/
theorem Locks.returned_of_free (h : s.Locks) {u l : Nat} (hp : (s.pc u).Passed l) (hfree : s.writer u = none) :
    s.pc u = .returned := by
  apply Pc.eq_returned_of_passed hp
  intro ho
  have := (h.writer u u).mpr (.inl ⟨rfl, ho⟩)
  simp [hfree] at this

@[simp] theorem goto_pc (s : Graph D) (v : Nat) (pc : Pc D) : (s.goto v pc).pc = update s.pc v pc := rfl

@[simp] theorem goto_entry (s : Graph D) (v : Nat) (pc : Pc D) : (s.goto v pc).entry = s.entry := rfl

theorem goto_pc_self (s : Graph D) (v : Nat) (pc : Pc D) : (s.goto v pc).pc v = pc := update_self ..

/-! ### Taking and giving back locks -/

section
variable (h : s.Locks) {c : Nat} {old pc : Pc D} (hpc : s.pc v = old)
include h hpc

theorem Locks.setWriter {w : Option Nat} (hw : ∀ x, x ≠ v → (w = some x ↔ s.writer c = some x))
    (hc : w = some v ↔ (v = c ∧ pc.Owns) ∨ pc.writes = some c)
    (hkeep : ∀ c', c' ≠ c → ((v = c' ∧ old.Owns) ∨ old.writes = some c' ↔ (v = c' ∧ pc.Owns) ∨ pc.writes = some c'))
    (hreads : pc.reads = old.reads) : (goto {s with writer := update s.writer c w} v pc).Locks := by
  subst hpc
  refine h.move (v := v) (fun x hx => update_of_ne hx _ _) ?_ ?_ (fun _ _ _ => Iff.rfl) ?_ <;> intro c'
  · intro x hx
    change update s.writer c w c' = some x ↔ _
    by_cases hc' : c' = c
    · rw [hc', update_self]
      exact hw x hx
    · rw [update_of_ne hc']
  · change update s.writer c w c' = some v ↔ _
    rw [goto_pc, update_self]
    by_cases hc' : c' = c
    · rwa [hc', update_self]
    · rw [update_of_ne hc', h.writer]
      exact hkeep c' hc'
  · rw [goto_pc, update_self, hreads]
    exact h.readers c' v

theorem Locks.lockUnique (hfree : s.writer c = none)
    (hold : ∀ c', (v = c' ∧ old.Owns) ∨ old.writes = some c' → (v = c' ∧ pc.Owns) ∨ pc.writes = some c')
    (hnew : (v = c ∧ pc.Owns) ∨ pc.writes = some c)
    (honly : ∀ c', c' ≠ c → (v = c' ∧ pc.Owns) ∨ pc.writes = some c' → (v = c' ∧ old.Owns) ∨ old.writes = some c')
    (hreads : pc.reads = old.reads) : ((s.lockUnique v c).goto v pc).Locks :=
  h.setWriter hpc (fun x hx => by simp [hfree, hx.symm]) (iff_of_true rfl hnew)
    (fun c' hc => ⟨hold c', honly c' hc⟩) hreads

theorem Locks.unlockUnique (hheld : s.writer c = some v) (hgone : ¬ ((v = c ∧ pc.Owns) ∨ pc.writes = some c))
    (hkeep : ∀ c', c' ≠ c → ((v = c' ∧ old.Owns) ∨ old.writes = some c' ↔ (v = c' ∧ pc.Owns) ∨ pc.writes = some c'))
    (hreads : pc.reads = old.reads) : ((s.unlockUnique c).goto v pc).Locks :=
  h.setWriter hpc (fun x hx => by simp [hheld, hx.symm]) (iff_of_false nofun hgone) hkeep hreads

theorem Locks.setReaders {l : List Nat} (hl : ∀ x, x ≠ v → (x ∈ l ↔ x ∈ s.readers c))
    (hc : v ∈ l ↔ pc.reads = some c) (hkeep : ∀ c', c' ≠ c → (old.reads = some c' ↔ pc.reads = some c'))
    (ho : pc.Owns ↔ old.Owns) (hw : pc.writes = old.writes) :
    (goto {s with readers := update s.readers c l} v pc).Locks := by
  subst hpc
  refine h.move (v := v) (fun x hx => update_of_ne hx _ _) (fun _ _ _ => Iff.rfl) ?_ ?_ ?_ <;> intro c'
  · rw [goto_pc, update_self, ho, hw]
    exact h.writer c' v
  · intro x hx
    change x ∈ update s.readers c l c' ↔ _
    by_cases hc' : c' = c
    · rw [hc', update_self]
      exact hl x hx
    · rw [update_of_ne hc']
  · change v ∈ update s.readers c l c' ↔ _
    rw [goto_pc, update_self]
    by_cases hc' : c' = c
    · rwa [hc', update_self]
    · rw [update_of_ne hc', h.readers]
      exact hkeep c' hc'

theorem Locks.lockShared (hread : old.reads = none) (hread' : pc.reads = some c) (ho : pc.Owns ↔ old.Owns)
    (hw : pc.writes = old.writes) : ((s.lockShared v c).goto v pc).Locks :=
  h.setReaders hpc (fun x hx => by simp [hx]) (iff_of_true mem_cons_self hread')
    (fun c' hc => by simp [hread, hread', hc.symm]) ho hw

theorem Locks.unlockShared (hread : old.reads = some c) (hread' : pc.reads = none) (ho : pc.Owns ↔ old.Owns)
    (hw : pc.writes = old.writes) : ((s.unlockShared v c).goto v pc).Locks :=
  h.setReaders hpc (fun x hx => by simp [hx]) (by simp [hread']) (fun c' hc => by simp [hread, hread', hc.symm]) ho hw

end

/-! ### Each step -/

theorem enterLayer_spec [LinearOrder D] (cfg : Config D) (v l ep : Nat) :
    (∀ l', (enterLayer cfg v l ep).Passed l' ↔ l < l') ∧ (enterLayer cfg v l ep).Owns ∧
      (enterLayer cfg v l ep).reads = none ∧ (enterLayer cfg v l ep).writes = none ∧
      (∀ l', ¬ (enterLayer cfg v l ep).ConnectsAt l') := by
  unfold enterLayer
  split
  · exact ⟨fun _ => Iff.rfl, trivial, rfl, rfl, fun _ h => h⟩
  · exact ⟨fun _ => Iff.rfl, trivial, rfl, rfl, fun _ h => h⟩

theorem local_enterLayer [LinearOrder D] {l ep : Nat} (hpc : s.pc v = enterLayer cfg v l ep) (hk : s.Knows cfg l ep) :
    s.Local cfg stamp v := by
  unfold Local
  rw [hpc]
  by_cases hlt : cfg.layer v < l
  · rw [enterLayer, if_pos hlt]
    exact ⟨hlt, hk⟩
  · rw [enterLayer, if_neg hlt]
    exact ⟨by omega, hk, Search.good_start cfg v hk⟩

section
variable (h : s.Inv cfg stamp)
include h

theorem Inv.quiet {s' : Graph D} {old pc : Pc D} (hpc : s.pc v = old)
    (hpc' : s'.pc = update s.pc v pc) (hn : s'.neighbors = s.neighbors) (he : s'.entry = s.entry)
    (hlocks : s'.Locks) (hreg : pc.Registered → old.Registered) (hrun : old ≠ .returned)
    (hpassed : ∀ l, old.Passed l → pc.Passed l) (hconnects : ∀ l, old.Passed l → pc.ConnectsAt l → old.ConnectsAt l)
    (hlocal : Moves s s' stamp stamp v → s'.Local cfg stamp v) : s'.Inv cfg stamp := by
  have hm : Moves s s' stamp stamp v := .of_neighbors hpc hpc' hn hpassed hrun hconnects
  refine h.move hm (h.lists.of_neighbors hm hn) hlocks (h.entry.of_entry hm he ?_) (hlocal hm)
  rwa [hpc', update_self, hpc]

theorem Inv.build (hidle : s.pc v = .idle) : (s.goto v .called).Inv cfg stamp :=
  h.quiet hidle rfl rfl rfl (h.locks.keep hidle rfl rfl rfl Iff.rfl rfl rfl) id nofun (fun _ hp => hp.elim)
    (fun _ hp => hp.elim) fun _ => by simp only [Local, goto_pc_self]

theorem Inv.called (hpc : s.pc v = .called) (hfree : s.writer v = none) :
    ((s.lockUnique v v).goto v .entering).Inv cfg stamp := by
  refine h.quiet hpc rfl rfl rfl (h.locks.lockUnique hpc hfree ?_ (.inl ⟨rfl, trivial⟩) ?_ rfl) id nofun
    (fun _ hp => hp.elim) (fun _ hp => hp.elim) fun _ => by simp [Local]
  · rintro c' (⟨-, ho⟩ | hw)
    · exact ho.elim
    · cases hw
  · rintro c' hc (⟨he, -⟩ | hw)
    · exact absurd he.symm hc
    · cases hw

theorem Inv.entering (hpc : s.pc v = .entering) :
    ((s.tryUpdateEnterPoint (cfg.layer v) v).goto v (.adding s.entry)).Inv cfg stamp := by
  generalize hs' : (s.tryUpdateEnterPoint (cfg.layer v) v).goto v (.adding s.entry) = s'
  have hsame : s'.pc = update s.pc v (.adding s.entry) ∧ s'.neighbors = s.neighbors ∧
      s'.writer = s.writer ∧ s'.readers = s.readers := by
    rw [← hs']
    unfold tryUpdateEnterPoint
    split
    · split <;> exact ⟨rfl, rfl, rfl, rfl⟩
    · exact ⟨rfl, rfl, rfl, rfl⟩
  obtain ⟨hpc', hn, hw, hr⟩ := hsame
  have hself : s'.pc v = .adding s.entry := by rw [hpc', update_self]
  have hm : Moves s s' stamp stamp v := .of_neighbors hpc hpc' hn (fun _ hp => hp.elim) nofun (fun _ hp => hp.elim)
  have hentry := h.entry
  unfold Entry at hentry
  refine h.move hm (h.lists.of_neighbors hm hn) (h.locks.keep hpc hpc' hw hr Iff.rfl rfl rfl) ?_ ?_
  · -- the enter point is the new vertex when its layer is the highest, and stays otherwise
    unfold Entry
    cases he : s.entry with
    | none =>
      rw [he] at hentry hself
      have hnew : s'.entry = some (cfg.layer v, v) := by
        rw [← hs']
        simp [tryUpdateEnterPoint, he]
      rw [hnew]
      refine ⟨⟨by rw [hself]; trivial, le_rfl⟩, rfl, fun x hx => ?_⟩
      by_cases hxv : x = v
      · exact hxv ▸ le_rfl
      · rw [hm.other x hxv] at hx
        exact absurd hx (hentry x)
    | some p =>
      obtain ⟨l, u⟩ := p
      rw [he] at hentry hself
      obtain ⟨hk, hl, hmax⟩ := hentry
      by_cases hlt : l < cfg.layer v
      · have hnew : s'.entry = some (cfg.layer v, v) := by
          rw [← hs']
          simp [tryUpdateEnterPoint, he, hlt]
        rw [hnew]
        refine ⟨⟨by rwa [hself], le_rfl⟩, rfl, fun x hx => ?_⟩
        by_cases hxv : x = v
        · exact hxv ▸ le_rfl
        · rw [hm.other x hxv] at hx
          exact le_of_lt (lt_of_le_of_lt (hmax x hx) hlt)
      · have hold : s'.entry = some (l, u) := by
          rw [← hs']
          simp [tryUpdateEnterPoint, he, hlt]
        rw [hold]
        refine ⟨hm.knows hk, hl, fun x hx => ?_⟩
        by_cases hxv : x = v
        · rw [hxv]
          omega
        rw [hm.other x hxv] at hx
        exact hmax x hx
  · unfold Local
    rw [hself]
    cases he : s.entry with
    | none => trivial
    | some p =>
      rw [he] at hentry
      exact hm.knows hentry.1

/-- `AddVertex`, after which the thread is done or begins its first layer. -/
theorem Inv.adding {old : Option (Nat × Nat)} (hpc : s.pc v = .adding old) {pc : Pc D}
    (hpassed : ∀ l, (Pc.adding old : Pc D).Passed l → pc.Passed l) (ho : pc.Owns) (hr : pc.reads = none)
    (hw : pc.writes = none) (hc : ∀ l, ¬ pc.ConnectsAt l)
    (hlocal : Moves s ((s.addVertex v).goto v pc) stamp stamp v → ((s.addVertex v).goto v pc).Local cfg stamp v) :
    ((s.addVertex v).goto v pc).Inv cfg stamp := by
  have hself := goto_pc_self (s.addVertex v) v pc
  have hother : ∀ x, x ≠ v → ((s.addVertex v).goto v pc).pc x = s.pc x := fun x hx => update_of_ne hx _ _
  have hempty : ∀ l, ((s.addVertex v).goto v pc).neighbors v l = [] := by
    intro l
    change update s.neighbors v (fun _ => []) v l = []
    rw [update_self]
  have hkeep : ∀ w, w ≠ v → ((s.addVertex v).goto v pc).neighbors w = s.neighbors w := fun w hw => update_of_ne hw _ _
  have hm : Moves s ((s.addVertex v).goto v pc) stamp stamp v := by
    refine ⟨hother, ?_, by rw [hpc]; nofun, fun x hx _ => hkeep x hx, ?_, fun _ _ => rfl, ?_⟩
    · rwa [hself, hpc]
    · intro w l u _ hu
      by_cases hwv : w = v
      · simp [hwv, hempty] at hu
      rw [hkeep w hwv] at hu
      exact .inr hu
    · intro l _ hl
      rw [hself] at hl
      exact absurd hl (hc l)
  have hlists : ((s.addVertex v).goto v pc).Lists cfg := by
    refine h.lists.change hm fun w l => ?_
    by_cases hwv : w = v
    · rw [hwv, hempty]
      exact .inr ⟨nofun, Nat.zero_le _, nodup_nil, nofun⟩
    · rw [hkeep w hwv]
      exact .inl rfl
  refine h.move hm hlists (h.locks.keep hpc rfl rfl rfl ⟨fun _ => trivial, fun _ => ho⟩ hw hr)
    (h.entry.of_entry hm rfl ?_) (hlocal hm)
  rw [hpc]
  exact fun _ => trivial

theorem Inv.nearest {l cur : Nat} (hpc : s.pc v = .nearest l cur) (hfree : s.writer cur = none) :
    ((s.lockShared v cur).goto v (.nearestRead l cur)).Inv cfg stamp := by
  have hloc := h.threads v
  simp only [Local, hpc] at hloc
  have hret := h.locks.returned_of_free hloc.2.1 hfree
  refine h.quiet hpc rfl rfl rfl (h.locks.lockShared hpc rfl rfl Iff.rfl rfl) (fun _ => trivial) nofun
    (fun _ hp => hp) (fun _ _ hl => hl) fun hm => ?_
  simp only [Local, goto_pc_self]
  exact ⟨hloc.1, hm.knows hloc.2, hm.returned hret⟩

theorem Inv.search {l c : Nat} {search : Search D} (hpc : s.pc v = .search l c search)
    (hfree : s.writer c = none) : ((s.lockShared v c).goto v (.searchRead l c search)).Inv cfg stamp := by
  have hloc := h.threads v
  simp only [Local, hpc] at hloc
  have hret := h.locks.returned_of_free hloc.2.1.1 hfree
  refine h.quiet hpc rfl rfl rfl (h.locks.lockShared hpc rfl rfl Iff.rfl rfl) (fun _ => trivial) nofun
    (fun _ hp => hp) (fun _ _ hl => hl) fun hm => ?_
  simp only [Local, goto_pc_self]
  exact ⟨hloc.1, hm.knows hloc.2.1, hloc.2.2.mono fun u => hm.knows, hm.returned hret⟩

theorem Inv.nearestRead [LinearOrder D] {l cur : Nat} (hpc : s.pc v = .nearestRead l cur) :
    (s.act cfg v).Inv cfg stamp := by
  have hloc := h.threads v
  simp only [Local, hpc] at hloc
  obtain ⟨hlt, hk, hret⟩ := hloc
  have hmem := closer_mem cfg v cur (s.neighbors cur l)
  unfold act
  rw [hpc]
  dsimp only
  generalize closer cfg v cur (s.neighbors cur l) = next at hmem ⊢
  cases hcheck : next.2 with
  | true =>
    have hknown : s.Knows cfg l next.1 := by
      rcases hmem with ⟨-, hf⟩ | ⟨hm, -⟩
      · simp [hcheck] at hf
      · exact h.lists.known cur l next.1 hm
    refine h.quiet hpc rfl rfl rfl (h.locks.unlockShared hpc rfl rfl Iff.rfl rfl) (fun _ => trivial) nofun
      (fun _ hp => hp) (fun _ _ hl => hl) fun hm => ?_
    simp only [Local, goto_pc_self]
    exact ⟨hlt, hm.knows hknown⟩
  | false =>
    have heq : next.1 = cur := by
      rcases hmem with ⟨he, -⟩ | ⟨-, hf⟩
      · exact he
      · simp [hcheck] at hf
    rw [heq]
    obtain ⟨hp, ho, hr, hw, hc⟩ := enterLayer_spec cfg v (l - 1) cur
    refine h.quiet hpc rfl rfl rfl (h.locks.unlockShared hpc rfl hr ⟨fun _ => trivial, fun _ => ho⟩ hw)
      (fun _ => trivial) nofun (fun l' hl => (hp l').mpr ?_) (fun l' _ hl => absurd hl (hc l')) fun hm => ?_
    · change l < l' at hl
      omega
    · refine local_enterLayer (goto_pc_self _ _ _) ⟨?_, ?_⟩
      · rw [hm.returned hret]
        trivial
      · have := hk.2
        omega

end

/-! ### Changing a list -/

theorem setNeighbors_self (s : Graph D) (w l : Nat) (list : List Nat) : (s.setNeighbors w l list).neighbors w l = list := by
  change update s.neighbors w (update (s.neighbors w) l list) w l = list
  rw [update_self, update_self]

theorem setNeighbors_layer (s : Graph D) (w : Nat) {l l' : Nat} (hl : l' ≠ l) (list : List Nat) :
    (s.setNeighbors w l list).neighbors w l' = s.neighbors w l' := by
  change update s.neighbors w (update (s.neighbors w) l list) w l' = _
  rw [update_self, update_of_ne hl]

theorem setNeighbors_other (s : Graph D) {w w' : Nat} (hw : w' ≠ w) (l : Nat) (list : List Nat) :
    (s.setNeighbors w l list).neighbors w' = s.neighbors w' :=
  update_of_ne hw _ _

theorem Lists.set (h : s.Lists cfg) (hm : Moves s s' stamp stamp' v) {w l : Nat} {list : List Nat}
    (hn : s'.neighbors = (s.setNeighbors w l list).neighbors) (hknown : ∀ u ∈ list, s'.Knows cfg l u)
    (hshort : list.length ≤ cfg.mmax l) (hnodup : list.Nodup) (hself : w ∉ list) : s'.Lists cfg := by
  refine h.change hm fun w' l' => ?_
  rw [hn]
  by_cases hw : w' = w
  · subst hw
    by_cases hl : l' = l
    · rw [hl, setNeighbors_self]
      exact .inr ⟨hknown, hshort, hnodup, hself⟩
    · exact .inl (by rw [setNeighbors_layer s w' hl])
  · exact .inl (by rw [setNeighbors_other s hw])

/-- The search of a layer is over: the neighbours are selected and connecting begins. It
began after everything selected. -/
theorem Inv.select [LinearOrder D] (h : s.Inv cfg stamp) {l c : Nat} {search search' : Search D}
    (hpc : s.pc v = .searchRead l c search) (hgood : search'.Good (s.Knows cfg l)) :
    ∃ stamp', (((s.unlockShared v c).setNeighbors v l (selectNeighbors cfg search'.result cfg.m)).goto v
      (connectNext cfg v (((s.unlockShared v c).setNeighbors v l (selectNeighbors cfg search'.result cfg.m)).neighbors v)
        l (selectNeighbors cfg search'.result cfg.m))).Inv cfg stamp' := by
  have hloc := h.threads v
  simp only [Local, hpc] at hloc
  obtain ⟨hshort, hnodup, hsub, hne⟩ := selectNeighbors_spec cfg search'.result cfg.m_pos hgood.nodup
  have hne := hne hgood.nonempty
  have hknown : ∀ u ∈ selectNeighbors cfg search'.result cfg.m, s.Knows cfg l u := fun u hu =>
    hgood.known u (hgood.results u (hsub u hu))
  -- the thread itself has not passed the layer, so it has not met itself
  have hnotv : ¬ (s.pc v).Passed l := by
    rw [hpc]
    exact lt_irrefl l
  generalize selectNeighbors cfg search'.result cfg.m = list at *
  obtain ⟨n, todo, rfl⟩ := exists_cons_of_ne_nil hne
  -- later than all that is selected
  let bound := ((n :: todo).map stamp).sum
  have hbound : ∀ m ∈ n :: todo, stamp m ≤ bound := fun m hm => le_sum_of_mem (mem_map_of_mem hm)
  refine ⟨update stamp v (bound + 1), ?_⟩
  change (((s.unlockShared v c).setNeighbors v l (n :: todo)).goto v (.connect l n todo)).Inv cfg _
  generalize hs' : ((s.unlockShared v c).setNeighbors v l (n :: todo)).goto v (.connect l n todo) = s'
  have hself : s'.pc v = .connect l n todo := by
    rw [← hs']
    exact goto_pc_self ..
  have hother : ∀ x, x ≠ v → s'.pc x = s.pc x := by
    rw [← hs']
    exact fun x hx => update_of_ne hx _ _
  have hnew : s'.neighbors = (s.setNeighbors v l (n :: todo)).neighbors := by
    rw [← hs']
    rfl
  have hm : Moves s s' stamp (update stamp v (bound + 1)) v := by
    refine ⟨hother, ?_, by rw [hpc]; nofun, ?_, ?_, fun x hx => update_of_ne hx _ _, ?_⟩
    · rw [hself, hpc]
      exact fun l' hl => le_of_lt hl
    · intro x hx _
      rw [hnew, setNeighbors_other s hx]
    · intro w l' u hw hu
      rw [hnew] at hu
      by_cases hwv : w = v
      · subst hwv
        have hl : l' ≠ l := by
          rintro rfl
          exact hnotv hw
        rw [setNeighbors_layer s w hl] at hu
        exact .inr hu
      · rw [setNeighbors_other s hwv] at hu
        exact .inr hu
    · intro l' hp hc
      rw [hself] at hc
      exact absurd (hc ▸ hp) hnotv
  have hlists : s'.Lists cfg := by
    refine h.lists.set hm hnew (fun u hu => hm.knows (hknown u hu)) ?_ hnodup ?_
    · have := cfg.m_pos
      unfold Config.mmax
      split <;> omega
    · exact fun hv => hnotv (hknown v hv).1
  have hlocks : s'.Locks := by
    have hl : ((s.unlockShared v c).goto v (.connect l n todo)).Locks := h.locks.unlockShared hpc rfl rfl Iff.rfl rfl
    rw [← hs']
    exact ⟨hl.writer, hl.readers⟩
  have hown : s'.neighbors v l = n :: todo := by rw [hnew, setNeighbors_self]
  refine h.move hm hlists hlocks (h.entry.of_entry hm (by rw [← hs']; rfl) ?_) ?_
  · rw [hpc]
    exact fun _ => trivial
  · unfold Local
    rw [hself]
    refine ⟨hloc.1, ?_, hnodup, ?_, ?_, ?_, ?_⟩
    · intro m hmem
      rwa [hown]
    · intro u hu
      rw [hown] at hu
      exact .inl hu
    · rw [hown]
      exact cons_ne_nil _ _
    · intro m hmem hv
      have hmv : m ≠ v := by
        rintro rfl
        exact hnotv (hknown m hmem).1
      rw [hnew, setNeighbors_other s hmv] at hv
      exact hnotv (h.lists.known m l v hv).1
    · intro m hmem _
      have hmv : m ≠ v := by
        rintro rfl
        exact hnotv (hknown m hmem).1
      rw [update_of_ne hmv, update_self]
      exact Nat.lt_succ_of_le (hbound m hmem)

theorem Inv.searchRead [LinearOrder D] (h : s.Inv cfg stamp) {l c : Nat} {search : Search D}
    (hpc : s.pc v = .searchRead l c search) : ∃ stamp', (s.act cfg v).Inv cfg stamp' := by
  have hloc := h.threads v
  simp only [Local, hpc] at hloc
  obtain ⟨hle, hk, hgood, hret⟩ := hloc
  have hgood' := hgood.expand cfg v fun u hu => h.lists.known c l u hu
  unfold act
  rw [hpc]
  dsimp only [popOrSelect]
  cases hpop : (search.expand cfg v (s.neighbors c l)).pop cfg with
  | none =>
    obtain ⟨stamp', hinv⟩ := h.select hpc hgood'
    refine ⟨stamp', ?_⟩
    rwa [setNeighbors_self]
  | some p =>
    obtain ⟨hkc, hg⟩ := hgood'.pop hpop
    refine ⟨stamp, h.quiet hpc rfl rfl rfl (h.locks.unlockShared hpc rfl rfl Iff.rfl rfl) (fun _ => trivial) nofun
      (fun _ hp => hp) (fun _ _ hl => hl) fun hm => ?_⟩
    simp only [Local, goto_pc_self]
    exact ⟨hle, hm.knows hkc, hg.mono fun u => hm.knows⟩

theorem Inv.connect (h : s.Inv cfg stamp) {l n : Nat} {todo : List Nat} (hpc : s.pc v = .connect l n todo)
    (hfree : s.writer n = none) : ((s.lockUnique v n).goto v (.connectWrite l n todo)).Inv cfg stamp := by
  have hloc := h.threads v
  simp only [Local, hpc] at hloc
  obtain ⟨hle, hc⟩ := hloc
  have hk := h.lists.known v l n (hc.selected n (mem_cons_self ..))
  have hret := h.locks.returned_of_free hk.1 hfree
  refine h.quiet hpc rfl rfl rfl (h.locks.lockUnique hpc hfree ?_ (.inr rfl) ?_ rfl) (fun _ => trivial) nofun
    (fun _ hp => hp) (fun _ _ hc => hc) fun hm => ?_
  · rintro c' (hown | hw)
    · exact .inl hown
    · cases hw
  · rintro c' hne (hown | hw)
    · exact .inl hown
    · exact absurd (Option.some.inj hw).symm hne
  · simp only [Local, goto_pc_self]
    have hcase : ∀ x, (((s.lockUnique v n).goto v (.connectWrite l n todo)).pc x).ConnectsAt l → (s.pc x).ConnectsAt l := by
      intro x hx
      by_cases hxv : x = v
      · rw [hxv, hpc]
        exact rfl
      · rwa [hm.other x hxv] at hx
    exact ⟨hle, {hc with
      rest := fun u hu => (hc.rest u hu).imp_right hm.returned
      older := fun m hmem hat => hc.older m hmem (hcase m hat)}, hm.returned hret⟩

theorem connectNext_cases [LinearOrder D] (cfg : Config D) (v : Nat) (own : Nat → List Nat) (l : Nat) (todo : List Nat) :
    (∃ n rest, todo = n :: rest ∧ connectNext cfg v own l todo = .connect l n rest) ∨
      (todo = [] ∧ l = 0 ∧ connectNext cfg v own l todo = .finishing) ∨
      (todo = [] ∧ ∃ l', l = l' + 1 ∧ connectNext cfg v own l todo = enterLayer cfg v l' ((own l).headD 0)) := by
  cases todo with
  | cons n rest => exact .inl ⟨n, rest, rfl, rfl⟩
  | nil =>
    cases l with
    | zero => exact .inr (.inl ⟨rfl, rfl, rfl⟩)
    | succ l' => exact .inr (.inr ⟨rfl, l', rfl, rfl⟩)

/-- Wherever a connecting thread goes next, it is further down and holds its own lock only. -/
theorem connectNext_spec [LinearOrder D] (cfg : Config D) (v : Nat) (own : Nat → List Nat) (l : Nat) (todo : List Nat) :
    (∀ l', l ≤ l' → (connectNext cfg v own l todo).Passed l') ∧ (connectNext cfg v own l todo).Owns ∧
      (connectNext cfg v own l todo).reads = none ∧ (connectNext cfg v own l todo).writes = none ∧
      (∀ l', (connectNext cfg v own l todo).ConnectsAt l' → l' = l) := by
  rcases connectNext_cases cfg v own l todo with ⟨n, rest, -, he⟩ | ⟨-, -, he⟩ | ⟨-, l', rfl, he⟩
  · rw [he]
    exact ⟨fun _ hl => hl, trivial, rfl, rfl, fun _ hl => Eq.symm hl⟩
  · rw [he]
    exact ⟨fun _ _ => trivial, trivial, rfl, rfl, fun _ hl => hl.elim⟩
  · rw [he]
    obtain ⟨hp, ho, hr, hw, hc⟩ := enterLayer_spec cfg v l' ((own (l' + 1)).headD 0)
    exact ⟨fun l'' hl => (hp l'').mpr hl, ho, hr, hw, fun l'' hl => absurd hl (hc l'')⟩

theorem Inv.connectWrite [LinearOrder D] (h : s.Inv cfg stamp) {l n : Nat} {todo : List Nat}
    (hpc : s.pc v = .connectWrite l n todo) : (s.act cfg v).Inv cfg stamp := by
  have hloc := h.threads v
  simp only [Local, hpc] at hloc
  obtain ⟨hle, hc, hret⟩ := hloc
  have hnv : n ≠ v := by
    rintro rfl
    simp [hpc] at hret
  obtain ⟨hshort, hnodup, hsub⟩ := connectOne_spec cfg n l (h.lists.nodup n l)
    (hc.fresh n (mem_cons_self ..))
  have hheld : s.writer n = some v := (h.locks.writer n v).mpr (.inr (by rw [hpc]; rfl))
  have hact : s.act cfg v = ((s.setNeighbors n l (connectOne cfg v n l (s.neighbors n l))).unlockUnique n).goto v
      (connectNext cfg v (s.neighbors v) l todo) := by
    unfold act
    rw [hpc]
    change Graph.goto _ v (connectNext cfg v ((s.setNeighbors n l _).neighbors v) l todo) = _
    rw [setNeighbors_other s (Ne.symm hnv)]
  rw [hact]
  generalize connectOne cfg v n l (s.neighbors n l) = list at *
  obtain ⟨hpassed, howns, hreads, hwrites, hat⟩ := connectNext_spec cfg v (s.neighbors v) l todo
  have hcases := connectNext_cases cfg v (s.neighbors v) l todo
  generalize hpc' : connectNext cfg v (s.neighbors v) l todo = pc at *
  have hlocks : ((s.unlockUnique n).goto v pc).Locks := by
    refine h.locks.unlockUnique hpc hheld ?_ ?_ hreads
    · rw [hwrites]
      rintro (⟨he, -⟩ | he)
      · exact hnv he.symm
      · cases he
    · intro c' hne
      rw [hwrites]
      constructor
      · rintro (⟨he, -⟩ | he)
        · exact .inl ⟨he, howns⟩
        · exact absurd (Option.some.inj he).symm hne
      · rintro (⟨he, -⟩ | he)
        · exact .inl ⟨he, trivial⟩
        · cases he
  generalize hs' : ((s.setNeighbors n l list).unlockUnique n).goto v pc = s'
  have hself : s'.pc v = pc := by
    rw [← hs']
    exact goto_pc_self ..
  have hother : ∀ x, x ≠ v → s'.pc x = s.pc x := by
    rw [← hs']
    exact fun x hx => update_of_ne hx _ _
  have hnew : s'.neighbors = (s.setNeighbors n l list).neighbors := by
    rw [← hs']
    rfl
  have hown : s'.neighbors v = s.neighbors v := by rw [hnew, setNeighbors_other s (Ne.symm hnv)]
  have hm : Moves s s' stamp stamp v := by
    refine ⟨hother, ?_, by rw [hpc]; nofun, ?_, ?_, fun _ _ => rfl, ?_⟩
    · rwa [hself, hpc]
    · intro x _ hx
      have hxn : x ≠ n := by
        rintro rfl
        exact hx hret
      rw [hnew, setNeighbors_other s hxn]
    · intro w l' u _ hu
      rw [hnew] at hu
      by_cases hwn : w = n
      · subst hwn
        by_cases hl : l' = l
        · rw [hl, setNeighbors_self] at hu
          rw [hl]
          exact hsub u hu
        · rw [setNeighbors_layer s w hl] at hu
          exact .inr hu
      · rw [setNeighbors_other s hwn] at hu
        exact .inr hu
    · intro l' _ hl
      rw [hself] at hl
      rw [hpc]
      exact ⟨(hat l' hl).symm, rfl⟩
  have hlists : s'.Lists cfg := by
    refine h.lists.set hm hnew ?_ hshort hnodup ?_
    · intro u hu
      rcases hsub u hu with rfl | hold
      · exact ⟨by rw [hself]; exact hpassed l le_rfl, hle⟩
      · exact hm.knows (h.lists.known n l u hold)
    · intro hmem
      rcases hsub n hmem with he | hold
      · exact hnv he
      · exact h.lists.notSelf n l hold
  refine h.move hm hlists (by rw [← hs']; exact ⟨hlocks.writer, hlocks.readers⟩)
    (h.entry.of_entry hm (by rw [← hs']; rfl) (by rw [hpc]; exact fun _ => trivial)) ?_
  rcases hcases with ⟨n', rest, rfl, he⟩ | ⟨rfl, rfl, he⟩ | ⟨rfl, l', rfl, he⟩
  · unfold Local
    rw [hself, he]
    refine ⟨hle, ?_, hc.nodup.of_cons, ?_, ?_, ?_, ?_⟩
    · intro m hmem
      rw [hown]
      exact hc.selected m (mem_cons_of_mem _ hmem)
    · intro u hu
      rw [hown] at hu
      rcases hc.rest u hu with hmem | hr
      · rcases mem_cons.mp hmem with rfl | hmem
        · exact .inr (hm.returned hret)
        · exact .inl hmem
      · exact .inr (hm.returned hr)
    · rw [hown]
      exact hc.nonempty
    · intro m hmem
      have hmn : m ≠ n := by
        rintro rfl
        exact (nodup_cons.mp hc.nodup).1 hmem
      rw [hnew, setNeighbors_other s hmn]
      exact hc.fresh m (mem_cons_of_mem _ hmem)
    · intro m hmem hat'
      have hmv : m ≠ v := by
        rintro rfl
        exact h.lists.notSelf m l (hc.selected m (mem_cons_of_mem _ hmem))
      rw [hother m hmv] at hat'
      exact hc.older m (mem_cons_of_mem _ hmem) hat'
  · unfold Local
    rw [hself, he]
    trivial
  · -- the next layer begins at a neighbour, and all of them have returned
    rw [he] at hself
    obtain ⟨ep, tail, hlist⟩ := exists_cons_of_ne_nil hc.nonempty
    rw [hlist, headD_cons] at hself
    have hmem : ep ∈ s.neighbors v (l' + 1) := by
      rw [hlist]
      exact mem_cons_self ..
    have hep : s.pc ep = .returned := by
      rcases hc.rest ep hmem with hin | hr
      · rwa [mem_singleton.mp hin]
      · exact hr
    refine local_enterLayer hself ⟨?_, ?_⟩
    · rw [hm.returned hep]
      trivial
    · have := (h.lists.known v (l' + 1) ep hmem).2
      omega

theorem Inv.finishing (h : s.Inv cfg stamp) (hpc : s.pc v = .finishing) :
    ((s.unlockUnique v).goto v .returned).Inv cfg stamp := by
  have hheld : s.writer v = some v := (h.locks.writer v v).mpr (.inl ⟨rfl, by rw [hpc]; trivial⟩)
  refine h.quiet hpc rfl rfl rfl (h.locks.unlockUnique hpc hheld ?_ ?_ rfl) (fun _ => trivial) nofun
    (fun _ _ => trivial) (fun _ _ hc => hc) fun _ => by simp [Local]
  · rintro (⟨-, ho⟩ | hw)
    · exact ho
    · cases hw
  · intro c' hne
    constructor
    · rintro (⟨he, -⟩ | hw)
      · exact absurd he.symm hne
      · cases hw
    · rintro (⟨-, ho⟩ | hw)
      · exact ho.elim
      · cases hw

/-! ### Every interleaving -/

theorem Inv.initial (cfg : Config D) : Inv cfg {} fun _ => 0 where
  lists := ⟨fun _ _ _ hu => absurd hu not_mem_nil, fun _ _ => Nat.zero_le _, fun _ _ => nodup_nil,
    fun _ _ => not_mem_nil⟩
  locks := ⟨fun _ _ => ⟨nofun, fun h => h.elim (fun h => h.2.elim) nofun⟩, fun _ _ => ⟨nofun, nofun⟩⟩
  entry := fun _ hr => hr
  threads := fun _ => trivial

/-- **Every step of every thread keeps the invariant.** -/
theorem Inv.step [LinearOrder D] (h : s.Inv cfg stamp) {e : Event} (ha : s.Allowed cfg e) :
    ∃ stamp', (s.step cfg e).Inv cfg stamp' := by
  cases e with
  | build v =>
    obtain ⟨-, hidle⟩ := ha
    have hpc : s.pc v = .idle := by
      cases hcase : s.pc v with
      | idle => rfl
      | _ =>
        rw [hcase] at hidle
        exact hidle.elim
    exact ⟨stamp, h.build hpc⟩
  | act v =>
    change s.CanAct v at ha
    change ∃ stamp', (s.act cfg v).Inv cfg stamp'
    cases hpc : s.pc v with
    | nearestRead l cur => exact ⟨stamp, h.nearestRead hpc⟩
    | searchRead l c search => exact h.searchRead hpc
    | connectWrite l n todo => exact ⟨stamp, h.connectWrite hpc⟩
    | idle | returned => simp only [CanAct, hpc] at ha
    | called =>
      simp only [CanAct, act, hpc] at ha ⊢
      exact ⟨stamp, h.called hpc ha.1⟩
    | entering =>
      simp only [act, hpc]
      exact ⟨stamp, h.entering hpc⟩
    | adding old =>
      have hloc := h.threads v
      simp only [Local, hpc] at hloc
      simp only [act, hpc]
      cases old with
      | none =>
        refine ⟨stamp, h.adding hpc (fun _ _ => trivial) trivial rfl rfl (fun _ hl => hl) fun _ => ?_⟩
        unfold Local
        rw [goto_pc_self]
        trivial
      | some p =>
        obtain ⟨maxLayer, ep⟩ := p
        obtain ⟨hp, ho, hr, hw, hc⟩ := enterLayer_spec cfg v maxLayer ep
        exact ⟨stamp, h.adding hpc (fun l hl => (hp l).mpr hl) ho hr hw hc fun hm =>
          local_enterLayer (goto_pc_self _ _ _) (hm.knows hloc)⟩
    | nearest l cur =>
      simp only [CanAct, act, hpc] at ha ⊢
      exact ⟨stamp, h.nearest hpc ha⟩
    | search l c search =>
      simp only [CanAct, act, hpc] at ha ⊢
      exact ⟨stamp, h.search hpc ha⟩
    | connect l n todo =>
      simp only [CanAct, act, hpc] at ha ⊢
      exact ⟨stamp, h.connect hpc ha.1⟩
    | finishing =>
      simp only [act, hpc]
      exact ⟨stamp, h.finishing hpc⟩

theorem inv_of_run [LinearOrder D] {es : List Event} (h : (machine cfg).Run {} es s) : ∃ stamp, s.Inv cfg stamp := by
  refine Machine.Run.invariant (I := fun s => ∃ stamp, s.Inv cfg stamp) ?_ h ⟨_, Inv.initial cfg⟩
  rintro s e s' ⟨stamp, hinv⟩ ha hstep
  cases hstep
  exact hinv.step ha

/-! ### Nobody waits for ever -/

/-- A call of `Build` that has not returned. -/
def Running : Pc D → Prop
  | .idle => False
  | .returned => False
  | _ => True

/-- How far a waiting thread has to go. -/
def rank : Pc D → Nat
  | .nearest l _ => 2 * l + 1
  | .search l _ _ => 2 * l + 1
  | .connect l _ _ => 2 * l
  | _ => 0

/-- When nobody can move, a lock that is not free belongs to the thread of its vertex,
which waits itself. -/
theorem Inv.blocked (h : s.Inv cfg stamp) (hstuck : ∀ x, Running (s.pc x) → ¬ s.CanAct x) {c : Nat}
    (hc : ¬ (s.writer c = none ∧ s.readers c = [])) : (s.pc c).Owns := by
  have free : ∀ x, ¬ (Running (s.pc x) ∧ s.CanAct x) := fun x hx => hstuck x hx.1 hx.2
  have noReader : s.readers c = [] := by
    rw [eq_nil_iff_forall_not_mem]
    intro x hx
    have hread := (h.locks.readers c x).mp hx
    apply free x
    unfold CanAct
    cases hpc : s.pc x with
    | nearestRead | searchRead => exact ⟨trivial, trivial⟩
    | _ =>
      rw [hpc] at hread
      cases hread
  cases hw : s.writer c with
  | none => exact absurd ⟨hw, noReader⟩ hc
  | some x =>
    rcases (h.locks.writer c x).mp hw with ⟨rfl, ho⟩ | hwrite
    · exact ho
    refine absurd ?_ (free x)
    unfold CanAct
    cases hpc : s.pc x with
    | connectWrite => exact ⟨trivial, trivial⟩
    | _ =>
      rw [hpc] at hwrite
      cases hwrite

/-- A thread met on a layer that waits is further down, or connects there. -/
theorem rank_of_passed {l x : Nat} (hp : (s.pc x).Passed l) (ho : (s.pc x).Owns) (hwait : ¬ s.CanAct x) :
    Running (s.pc x) ∧ (rank (s.pc x) < 2 * l ∨ rank (s.pc x) = 2 * l ∧ (s.pc x).ConnectsAt l) := by
  unfold CanAct at hwait
  cases hpc : s.pc x with
  | idle | called | returned => rw [hpc] at ho; exact ho.elim
  | nearest l' c | search l' c =>
    rw [hpc] at hp
    have hp : l' < l := hp
    exact ⟨trivial, .inl (by change 2 * l' + 1 < 2 * l; omega)⟩
  | connect l' n todo =>
    rw [hpc] at hp
    rcases Nat.lt_or_eq_of_le (show l' ≤ l from hp) with hlt | heq
    · exact ⟨trivial, .inl (by change 2 * l' < 2 * l; omega)⟩
    · exact ⟨trivial, .inr ⟨by rw [heq]; rfl, heq⟩⟩
  | _ =>
    rw [hpc] at hwait
    exact absurd trivial hwait

/-- **As long as a call is unfinished, some unfinished call does not wait.** -/
theorem Inv.progress (h : s.Inv cfg stamp) (hrun : ∃ v, Running (s.pc v)) : ∃ v, Running (s.pc v) ∧ s.CanAct v := by
  by_contra hnone
  have hstuck : ∀ x, Running (s.pc x) → ¬ s.CanAct x := fun x hr hcan => hnone ⟨x, hr, hcan⟩
  -- whoever waits, waits for a thread that is further down, or connects there for longer
  have key : ∀ k t x, Running (s.pc x) → rank (s.pc x) = k → stamp x = t → False := by
    intro k
    induction k using Nat.strongRecOn with
    | ind k ihk =>
      intro t
      induction t using Nat.strongRecOn with
      | ind t iht =>
        intro x hr hk ht
        have hwait := hstuck x hr
        have hloc := h.threads x
        have waits : ∀ {l c : Nat}, (s.pc c).Passed l → ¬ (s.writer c = none ∧ s.readers c = []) →
            Running (s.pc c) ∧ (rank (s.pc c) < 2 * l ∨ rank (s.pc c) = 2 * l ∧ (s.pc c).ConnectsAt l) := by
          intro l c hp hc
          have ho := h.blocked hstuck hc
          refine rank_of_passed hp ho (hstuck c ?_)
          cases hpc : s.pc c with
          | idle => rw [hpc] at ho; exact ho
          | returned => rw [hpc] at ho; exact ho
          | _ => trivial
        unfold CanAct at hwait
        unfold Local at hloc
        cases hpc : s.pc x with
        | called =>
          rw [hpc] at hwait
          have ho := h.blocked hstuck hwait
          rw [hpc] at ho
          exact ho
        | nearest l cur =>
          rw [hpc] at hwait hloc hk
          have hk : 2 * l + 1 = k := hk
          obtain ⟨hr', hlt | ⟨heq, -⟩⟩ := waits hloc.2.1 (fun hc => hwait hc.1)
          · exact ihk _ (by omega) _ cur hr' rfl rfl
          · exact ihk _ (by omega) _ cur hr' rfl rfl
        | search l c search =>
          rw [hpc] at hwait hloc hk
          have hk : 2 * l + 1 = k := hk
          obtain ⟨hr', hlt | ⟨heq, -⟩⟩ := waits hloc.2.1.1 (fun hc => hwait hc.1)
          · exact ihk _ (by omega) _ c hr' rfl rfl
          · exact ihk _ (by omega) _ c hr' rfl rfl
        | connect l n todo =>
          rw [hpc] at hwait hloc hk
          have hk : 2 * l = k := hk
          have hn := mem_cons_self (a := n) (l := todo)
          obtain ⟨hr', hlt | ⟨heq, hat⟩⟩ := waits (h.lists.known x l n (hloc.2.selected n hn)).1 hwait
          · exact ihk _ (by omega) _ n hr' rfl rfl
          · exact iht _ (ht ▸ hloc.2.older n hn hat) n hr' (by omega) rfl
        | idle => rw [hpc] at hr; exact hr
        | returned => rw [hpc] at hr; exact hr
        | _ =>
          rw [hpc] at hwait
          exact hwait trivial
  obtain ⟨v, hv⟩ := hrun
  exact key _ _ v hv rfl rfl

/-! ### The graph when everything has returned -/

/-- A built graph: the lists are short, hold no vertex twice and not the vertex itself, and
lead to built vertices of the layer; the enter point has the highest layer. -/
structure WellFormed (cfg : Config D) (s : Graph D) : Prop where
  short : ∀ w l, (s.neighbors w l).length ≤ if l = 0 then 2 * cfg.m else cfg.m
  nodup : ∀ w l, (s.neighbors w l).Nodup
  notSelf : ∀ w l, w ∉ s.neighbors w l
  built : ∀ w l, ∀ u ∈ s.neighbors w l, s.pc u = .returned ∧ l ≤ cfg.layer u
  none_built : s.entry = none → ∀ v, s.pc v ≠ .returned
  highest : ∀ l u, s.entry = some (l, u) →
    s.pc u = .returned ∧ cfg.layer u = l ∧ ∀ v, s.pc v = .returned → cfg.layer v ≤ l

theorem Inv.wellFormed (h : s.Inv cfg stamp) (hdone : ∀ v, ¬ Running (s.pc v)) : s.WellFormed cfg := by
  have returned : ∀ {u : Nat}, (s.pc u).Registered → s.pc u = .returned := by
    intro u hr
    have hd := hdone u
    cases hpc : s.pc u with
    | returned => rfl
    | idle => rw [hpc] at hr; exact hr.elim
    | _ => rw [hpc] at hd; exact absurd trivial hd
  have hentry := h.entry
  unfold Entry at hentry
  refine ⟨h.lists.short, h.lists.nodup, h.lists.notSelf, ?_, ?_, ?_⟩
  · intro w l u hu
    obtain ⟨hp, hl⟩ := h.lists.known w l u hu
    exact ⟨returned hp.registered, hl⟩
  · intro he v hv
    rw [he] at hentry
    exact hentry v (by rw [hv]; trivial)
  · intro l u he
    rw [he] at hentry
    obtain ⟨hk, hl, hmax⟩ := hentry
    exact ⟨returned hk.1.registered, hl, fun v hv => hmax v (by rw [hv]; trivial)⟩

/-- **Concurrent building is safe.** Under any interleaving of calls of `Build` for
different vertices, no state is reached in which all unfinished calls wait for a lock, and
once all have returned the graph is well formed. -/
theorem build_safe [LinearOrder D] (cfg : Config D) {es : List Event} {s : Graph D} (h : (machine cfg).Run {} es s) :
    ((∃ v, Running (s.pc v)) → ∃ v, Running (s.pc v) ∧ s.CanAct v) ∧
      ((∀ v, ¬ Running (s.pc v)) → s.WellFormed cfg) := by
  obtain ⟨stamp, hinv⟩ := inv_of_run h
  exact ⟨hinv.progress, hinv.wellFormed⟩

/-- Three vertices, the second one on layer 1. -/
def threeVertices : Config Nat where
  curVecNum := 3
  m := 1
  efConstruction := 2
  layer := fun v => if v = 1 then 1 else 0
  dist := fun a b => (a - b) + (b - a)
  m_pos := Nat.one_pos
  ef_pos := Nat.two_pos

/-- The first vertex is built, then the two others turn by turn for a while. -/
def turns : List Event :=
  [.build 0, .build 1, .build 2] ++ List.replicate 4 (.act 0) ++ [.act 1, .act 2, .act 1, .act 1, .act 1, .act 2, .act 1]

theorem build_safe_three : ∃ s, (machine threeVertices).Run {} turns s ∧
    ((∃ v, Running (s.pc v)) → ∃ v, Running (s.pc v) ∧ s.CanAct v) ∧
      ((∀ v, ¬ Running (s.pc v)) → s.WellFormed threeVertices) := by
  have hexec : ((machine threeVertices).exec {} turns).isSome = true := by decide +kernel
  obtain ⟨s, hs⟩ := Option.isSome_iff_exists.mp hexec
  have h := Machine.run_of_exec hs
  exact ⟨s, h, build_safe threeVertices h⟩

/-- **A graph in the making.** At every moment of any interleaving the lists are short, hold no
vertex twice and not the vertex itself, and lead to vertices that have reached the layer;
locks are held by those who use them; and the enter point has the highest layer so far. -/
theorem lists_while_building [LinearOrder D] {es : List Event} (h : (machine cfg).Run {} es s) :
    s.Lists cfg ∧ s.Locks ∧ s.Entry cfg := by
  obtain ⟨stamp, hinv⟩ := inv_of_run h
  exact ⟨hinv.lists, hinv.locks, hinv.entry⟩

theorem lists_while_building_turns :
    ∃ s, (machine threeVertices).Run {} turns s ∧ ∀ l, (s.neighbors 0 l).length ≤ threeVertices.mmax l := by
  obtain ⟨s, hs⟩ := Option.isSome_iff_exists.mp (by decide +kernel : ((machine threeVertices).exec {} turns).isSome)
  have h := Machine.run_of_exec hs
  exact ⟨s, h, (lists_while_building h).1.short 0⟩

end Graph

end Infinity.Hnsw
