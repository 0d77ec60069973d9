import Infinity.Table.CommitWrite

/-! Replay is what the commit did.

The transaction as it runs pushes all its rows and then marks all its deletes. The replay
of its commands pushes and marks in the order of the commands, with a commit after each.
The deletes are of rows that were there before the transaction, and then the order makes
no difference: the two leave the same rows in the same places, seen alike. -/
namespace Infinity.Table

open Block Lib List Option

variable {ρ : Type} {cap : Capacity} {txnId c : Nat}

/-! ### The store -/

/-- The place of a row. -/
def place (cap : Capacity) (row : RowID) : Place :=
  (row.segmentId, row.segmentOffset / cap.block, row.segmentOffset % cap.block)

namespace TxnTableStore

theorem packBlock_flatten (capacity : Nat) (blocks : List (List ρ)) (input : List ρ) :
    (packBlock capacity blocks input).flatten = blocks.flatten ++ input := by
  unfold packBlock
  rcases eq_nil_or_concat blocks with rfl | ⟨front, last, rfl⟩
  · dsimp only
    split <;> simp
  · simp only [concat_eq_append]
    split <;> simp

theorem addOffset_perm (i o : Nat) (rows : List (Nat × List Nat)) :
    (blockPlaces (addOffset i o rows)).Perm ((i, o) :: blockPlaces rows) := by
  induction rows with
  | nil => exact .refl _
  | cons r rest ih =>
    obtain ⟨id, offsets⟩ := r
    simp only [addOffset]
    split
    · rename_i h
      subst h
      simp only [blockPlaces, flatMap_cons, map_append, append_assoc, map_cons, map_nil]
      exact perm_middle
    · simp only [blockPlaces, flatMap_cons]
      exact (ih.append_left _).trans perm_middle

theorem addRow_perm (id i o : Nat) (deleteState : DeleteState) :
    (places (addRow id i o deleteState)).Perm ((id, i, o) :: places deleteState) := by
  induction deleteState with
  | nil => exact .refl _
  | cons d rest ih =>
    obtain ⟨id', rows⟩ := d
    simp only [addRow]
    split
    · rename_i h
      subst h
      exact ((addOffset_perm i o rows).map _).append_right _
    · rw [places_cons]
      exact (ih.append_left _).trans perm_middle

theorem filed_addOffset {i o : Nat} {rows : List (Nat × List Nat)} (h : ∀ r ∈ rows, r.2 ≠ []) :
    addOffset i o rows ≠ [] ∧ ∀ r ∈ addOffset i o rows, r.2 ≠ [] := by
  induction rows with
  | nil => simp [addOffset]
  | cons r rest ih =>
    obtain ⟨hr, hrest⟩ := forall_mem_cons.mp h
    obtain ⟨_, hadd⟩ := ih hrest
    obtain ⟨id, offsets⟩ := r
    simp only [addOffset]
    split
    · exact ⟨by simp, forall_mem_cons.mpr ⟨by simp, hrest⟩⟩
    · exact ⟨by simp, forall_mem_cons.mpr ⟨hr, hadd⟩⟩

variable {deleteState : DeleteState}

theorem filed_addRow {id i o : Nat} (h : Filed deleteState) : Filed (addRow id i o deleteState) := by
  induction deleteState with
  | nil => simp [Filed, addRow]
  | cons d rest ih =>
    obtain ⟨hd, hrest⟩ := forall_mem_cons.mp h
    simp only [addRow]
    split
    · exact forall_mem_cons.mpr ⟨filed_addOffset hd.2, hrest⟩
    · exact forall_mem_cons.mpr ⟨hd, ih hrest⟩

theorem blockSize_le {capacity : Nat} (id i : Nat) (hnd : (places deleteState).Nodup)
    (hlt : ∀ x ∈ places deleteState, x.2.2 < capacity) : blockSize id i deleteState ≤ capacity := by
  unfold blockSize
  split
  · exact Nat.zero_le _
  rename_i rows hrows
  split
  · exact Nat.zero_le _
  rename_i offsets hoffsets
  have hd : (id, rows) ∈ deleteState := by
    obtain ⟨_, _, rfl, _⟩ := lookup_eq_some_iff.mp hrows
    simp
  have hr : (i, offsets) ∈ rows := by
    obtain ⟨_, _, rfl, _⟩ := lookup_eq_some_iff.mp hoffsets
    simp
  have hrow : (blockPlaces rows).Nodup := ((nodup_flatMap.mp hnd).1 _ hd).of_map _
  have hoff : offsets.Nodup := ((nodup_flatMap.mp hrow).1 _ hr).of_map _
  have hsub : offsets ⊆ range capacity := by
    intro o ho
    refine mem_range.mpr (hlt (id, i, o) ?_)
    exact mem_flatMap.mpr ⟨(id, rows), hd, mem_map.mpr ⟨(i, o),
      mem_flatMap.mpr ⟨(i, offsets), hr, mem_map.mpr ⟨o, ho, rfl⟩⟩, rfl⟩⟩
  simpa using (subperm_of_subset hoff hsub).length_le

theorem deleteRows_spec {deleteState deleteState' : DeleteState} {rows : List RowID}
    (h : deleteRows cap.block deleteState rows = .ok deleteState') :
    (places deleteState').Perm (rows.map (place cap) ++ places deleteState) ∧ (Filed deleteState → Filed deleteState') := by
  induction rows generalizing deleteState with
  | nil =>
    cases h
    exact ⟨.refl _, fun h => h⟩
  | cons row rest ih =>
    simp only [deleteRows] at h
    split at h
    · cases h
    obtain ⟨hperm, hfiled⟩ := ih h
    refine ⟨hperm.trans ?_, fun hf => hfiled (filed_addRow hf)⟩
    exact ((addRow_perm _ _ _ _).append_left _).trans perm_middle

theorem deleteRows_succeeds {rows : List RowID}
    (hnd : (rows.map (place cap) ++ places deleteState).Nodup) (hlt : ∀ x ∈ places deleteState, x.2.2 < cap.block) :
    ∃ deleteState', deleteRows cap.block deleteState rows = .ok deleteState' := by
  induction rows generalizing deleteState with
  | nil => exact ⟨deleteState, rfl⟩
  | cons row rest ih =>
    have hperm := addRow_perm row.segmentId (row.segmentOffset / cap.block) (row.segmentOffset % cap.block) deleteState
    have hnd' : (rest.map (place cap) ++ places (addRow row.segmentId (row.segmentOffset / cap.block)
        (row.segmentOffset % cap.block) deleteState)).Nodup :=
      ((hperm.append_left _).trans perm_middle).nodup_iff.mpr hnd
    have hlt' : ∀ x ∈ places (addRow row.segmentId (row.segmentOffset / cap.block)
        (row.segmentOffset % cap.block) deleteState), x.2.2 < cap.block := by
      intro x hx
      rcases mem_cons.mp (hperm.mem_iff.mp hx) with rfl | hx
      · exact Nat.mod_lt _ cap.block_pos
      · exact hlt x hx
    have hsize := blockSize_le row.segmentId (row.segmentOffset / cap.block)
      (nodup_append.mp hnd').2.1 hlt'
    obtain ⟨ds', hrun⟩ := ih hnd' hlt'
    exact ⟨ds', by simp only [deleteRows, not_lt.mpr hsize, if_false]; exact hrun⟩

end TxnTableStore

/-! ### The two paths -/

/-- The rows a transaction appends, and the places it deletes. -/
def appended : List (WalCmd cap ρ) → List ρ
  | [] => []
  | .append block :: rest => block.rows ++ appended rest
  | .delete _ :: rest => appended rest

def deleted : List (WalCmd cap ρ) → List Place
  | [] => []
  | .append _ :: rest => deleted rest
  | .delete rows :: rest => rows.map (place cap) ++ deleted rest

variable {cmds : List (WalCmd cap ρ)}

theorem runStatements_spec {store store' : TxnTableStore ρ} (h : runStatements cap store cmds = .ok store') :
    store'.blocks.flatten = store.blocks.flatten ++ appended cmds ∧
      (places store'.deleteState).Perm (deleted cmds ++ places store.deleteState) ∧
      (Filed store.deleteState → Filed store'.deleteState) := by
  induction cmds generalizing store with
  | nil =>
    cases h
    exact ⟨by simp [appended], .refl _, fun h => h⟩
  | cons cmd rest ih =>
    cases cmd with
    | append block =>
      obtain ⟨hrows, hperm, hfiled⟩ := ih h
      refine ⟨?_, hperm, hfiled⟩
      rw [hrows]
      simp [TxnTableStore.append, TxnTableStore.packBlock_flatten, appended]
    | delete rows =>
      simp only [runStatements, TxnTableStore.delete] at h
      cases hdel : TxnTableStore.deleteRows cap.block store.deleteState rows with
      | error fault =>
        rw [hdel] at h
        cases h
      | ok ds =>
        rw [hdel] at h
        obtain ⟨hrows, hperm, hfiled⟩ := ih h
        obtain ⟨hperm', hfiled'⟩ := TxnTableStore.deleteRows_spec hdel
        refine ⟨hrows, hperm.trans ?_, fun hf => hfiled (hfiled' hf)⟩
        refine (hperm'.append_left _).trans ?_
        rw [deleted, ← append_assoc]
        exact perm_append_comm.append_right _

theorem TableEntry.setSealed_spec {t t' : TableEntry ρ} {full : List Nat} (h : t.setSealed full = .ok t')
    (hl : t.Left full) (ht : t.Sound cap txnId c) :
    t'.Sound cap txnId c ∧ (∀ ids, t'.view c ids = t.view c ids) ∧
      ∀ touched, t.Pending touched → t'.Pending touched := by
  induction full generalizing t with
  | nil =>
    cases h
    exact ⟨ht, fun _ => rfl, fun _ hp => hp⟩
  | cons id rest ih =>
    obtain ⟨⟨_, hnot⟩, hrest⟩ := forall_mem_cons.mp hl
    simp only [setSealed] at h
    cases hs : t.segmentMap id with
    | none =>
      rw [hs] at h
      exact ih h hrest ht
    | some s =>
      rw [hs] at h
      dsimp only at h
      split at h
      · cases h
      rename_i hst
      rw [not_not] at hst
      have hsid := (ht.ids id s hs).1
      have hsid' : ({s with status := .sealed} : SegmentEntry ρ).segmentId = id := hsid
      have hsound := ht.segments id s hs
      obtain ⟨ht', hview, hpend⟩ := ih h hrest (ht.setSegment hsid' (ht.ids id s hs).2
        ⟨hsound.blocks, hsound.remaining, hsound.maxRowTs⟩ fun hu => absurd hu hnot)
      refine ⟨ht', fun ids => (hview ids).trans ?_, fun touched hp => hpend touched ?_⟩
      · rw [view_setSegment]
        simp only [TableView.set, TableEntry.view, TableView.mk.injEq, and_true]
        funext id'
        by_cases heq : id' = id
        · subst heq
          simp [hsid, hs, SegmentEntry.view, hst]
        · simp [hsid, heq]
      · exact hp.setSegment (fun _ hx => hx) hsid' (by simp) (fun hn => (hp.segments id s hs hn).2)
          fun i b hb ho => (hp.blocks id s hs i b hb ho).2

theorem Filed.exists_place {deleteState : DeleteState} (h : Filed deleteState) {d : Nat × List (Nat × List Nat)}
    (hd : d ∈ deleteState) : ∃ x ∈ places deleteState, x.1 = d.1 := by
  obtain ⟨x, hx⟩ := exists_mem_of_ne_nil _ (blockPlaces_ne_nil (h d hd).1 (h d hd).2)
  exact ⟨(d.1, x), mem_flatMap.mpr ⟨d, hd, mem_map.mpr ⟨x, hx, rfl⟩⟩, rfl⟩

/-- The rows are there to delete. -/
structure Seen (c : Nat) (t : TableEntry ρ) (A : List Place) : Prop where
  has : ∀ x ∈ A, (t.view c []).Has x
  born : ∀ x ∈ A, t.Born c x.1

/-- The transaction as it runs: all rows are pushed, then all deletes are marked. -/
theorem liveCommit_spec {t tL : TableEntry ρ} (hc : 0 < c) (ht : t.Sound cap txnId c)
    (hp : t.Pending []) (hseen : Seen c t (deleted cmds)) (h : liveCommit cap txnId c t cmds = .ok tL) :
    tL.Sound cap txnId c ∧ tL.Pending [] ∧
      tL.view c [] = ((appended cmds).foldl (TableView.push cap c) (t.view c [])).mark c (deleted cmds) ∧
      (deleted cmds).Nodup ∧ ∀ x ∈ deleted cmds, (t.view c []).Alive x := by
  simp only [liveCommit] at h
  cases hstore : runStatements cap .new cmds with
  | error fault =>
    simp [hstore] at h
  | ok store =>
    obtain ⟨hrows, hperm, hfiled⟩ := runStatements_spec hstore
    have hfiled := hfiled (by simp [Filed, TxnTableStore.new])
    simp only [TxnTableStore.new, places, flatMap_nil, append_nil]
      at hrows hperm
    obtain ⟨t₁, touched₁, hrun₁, happ⟩ := TableEntry.appendData_spec store.blocks ⟨[], []⟩ ht
    have hmem : ∀ x, x ∈ places store.deleteState ↔ x ∈ deleted cmds := fun x => hperm.mem_iff
    have hfresh := ht.fresh []
    have hchecks := TableEntry.delete_checks store.deleteState [] touched₁ hc happ.sound hfiled
      (fun d hd => by
        obtain ⟨x, hx, heq⟩ := hfiled.exists_place hd
        exact heq ▸ happ.born _ (hseen.born x ((hmem x).mp hx)))
      (fun x hx => by
        rw [happ.view]
        exact (hseen.has x ((hmem x).mp hx)).foldl_push _ hfresh)
    simp only [hstore, prepareCommit, hrun₁] at h
    cases hrun₂ : t₁.delete txnId c store.deleteState touched₁ with
    | error fault =>
      simp [hrun₂] at h
    | ok r =>
      obtain ⟨t₂, touched₂⟩ := r
      obtain ⟨hnd, halive⟩ := hchecks.condition _ hrun₂
      obtain ⟨hdel, htouched, hfull⟩ := hchecks.result hrun₂
      simp only [hrun₂] at h
      have hleft : t₂.Left touched₂.full := by
        have hl := happ.left (by simp [TableEntry.Left])
        have hnext : t₂.nextSegmentId = t₁.nextSegmentId := congrArg TableView.nextId hdel.view
        have hunsealed : t₂.unsealedId = t₁.unsealedId := congrArg TableView.unsealed hdel.view
        rw [hfull]
        intro id hid
        rw [hnext, hunsealed]
        exact hl id hid
      cases hrun₃ : t₂.setSealed touched₂.full with
      | error fault =>
        simp [hrun₃] at h
      | ok t₃ =>
        obtain ⟨ht₃, hview₃, hpend₃⟩ := TableEntry.setSealed_spec hrun₃ hleft hdel.sound
        simp only [hrun₃] at h
        obtain ⟨t₄, hrun₄, ht₄, hp₄, hview₄, _⟩ := TableEntry.commitWrite_spec touched₂ hc ht₃
          (hpend₃ _ (hdel.pending (happ.pending hp))) hfiled htouched
        rw [hrun₄] at h
        cases h
        refine ⟨ht₄, hp₄, ?_, hperm.nodup_iff.mp hnd, fun x hx => ?_⟩
        · rw [hview₄, hview₃]
          have hview := hdel.view
          rw [nil_append] at hview
          rw [hview, happ.view, hrows]
          exact TableView.mark_congr c hmem _
        · have hx' := halive x ((hmem x).mpr hx)
          rw [happ.view] at hx'
          exact (TableView.alive_foldl_push_iff _ hfresh (hseen.has x hx)).mp hx'

variable {t : TableEntry ρ}

theorem walCmdAppendReplay_spec (block : List ρ) (hc : 0 < c) (ht : t.Sound cap txnId c) (hp : t.Pending []) :
    ∃ t', walCmdAppendReplay cap txnId c t block = .ok t' ∧ t'.Sound cap txnId c ∧ t'.Pending [] ∧
      t'.view c [] = block.foldl (TableView.push cap c) (t.view c []) ∧ ∀ id, t.Born c id → t'.Born c id := by
  have hflat : ((TxnTableStore.new : TxnTableStore ρ).append cap.block block).blocks.flatten = block :=
    TxnTableStore.packBlock_flatten cap.block [] block
  obtain ⟨t₁, touched, hrun, happ⟩ := TableEntry.appendData_spec
    ((TxnTableStore.new : TxnTableStore ρ).append cap.block block).blocks ⟨[], []⟩ ht
  have hfiled : Filed [] := by simp [Filed]
  obtain ⟨t', hcommit, ht', hp', hview, hborn⟩ := TableEntry.commitWrite_spec touched hc happ.sound
    (happ.pending hp) hfiled (by simp)
  refine ⟨t', ?_, ht', hp', ?_, fun id h => hborn id (happ.born id h)⟩
  · simp only [walCmdAppendReplay, hrun]
    exact hcommit
  · rw [hview, map_nil, happ.view, hflat]

theorem walCmdDeleteReplay_spec {rows : List RowID} (hc : 0 < c) (ht : t.Sound cap txnId c)
    (hp : t.Pending []) (hseen : Seen c t (rows.map (place cap))) (hnd : (rows.map (place cap)).Nodup)
    (halive : ∀ x ∈ rows.map (place cap), (t.view c []).Alive x) :
    ∃ t', walCmdDeleteReplay cap txnId c t rows = .ok t' ∧ t'.Sound cap txnId c ∧ t'.Pending [] ∧
      t'.view c [] = (t.view c []).mark c (rows.map (place cap)) ∧ ∀ id, t.Born c id → t'.Born c id := by
  have hndnil : (rows.map (place cap) ++ places []).Nodup := by simpa [places] using hnd
  obtain ⟨ds, hds⟩ := TxnTableStore.deleteRows_succeeds hndnil (by simp [places])
  obtain ⟨hperm, hfiled⟩ := TxnTableStore.deleteRows_spec hds
  have hfiled := hfiled (by simp [Filed])
  simp only [places, flatMap_nil, append_nil] at hperm
  have hmem : ∀ x, x ∈ places ds ↔ x ∈ rows.map (place cap) := fun x => hperm.mem_iff
  have hchecks := TableEntry.delete_checks ds [] ⟨[], []⟩ hc ht hfiled
    (fun d hd => by
      obtain ⟨x, hx, heq⟩ := hfiled.exists_place hd
      exact heq ▸ hseen.born x ((hmem x).mp hx))
    (fun x hx => hseen.has x ((hmem x).mp hx))
  obtain ⟨⟨t₁, touched⟩, hrun, hdel, htouched, _⟩ := hchecks.succeeds
    ⟨hperm.nodup_iff.mpr hnd, fun x hx => halive x ((hmem x).mp hx)⟩
  obtain ⟨t', hcommit, ht', hp', hview, hborn⟩ := TableEntry.commitWrite_spec touched hc hdel.sound
    (hdel.pending hp) hfiled htouched
  refine ⟨t', ?_, ht', hp', ?_, fun id h => hborn id (hdel.born id h)⟩
  · simp only [walCmdDeleteReplay, TxnTableStore.delete, TxnTableStore.new, hds, hrun]
    exact hcommit
  · have hv := hdel.view
    rw [nil_append] at hv
    rw [hview, hv]
    exact TableView.mark_congr c hmem _

/-- The replay: rows are pushed and deletes are marked, command by command. -/
theorem replay_spec (hc : 0 < c) (ht : t.Sound cap txnId c)
    (hp : t.Pending []) (hseen : Seen c t (deleted cmds)) (hnd : (deleted cmds).Nodup)
    (halive : ∀ x ∈ deleted cmds, (t.view c []).Alive x) :
    ∃ tR, replay cap txnId c t cmds = .ok tR ∧ tR.Pending [] ∧
      tR.view c [] = ((appended cmds).foldl (TableView.push cap c) (t.view c [])).mark c (deleted cmds) := by
  induction cmds generalizing t with
  | nil => exact ⟨t, rfl, hp, (TableView.mark_nil c _).symm⟩
  | cons cmd rest ih =>
    have hfresh := ht.fresh []
    cases cmd with
    | append block =>
      obtain ⟨t₁, hrun, ht₁, hp₁, hview, hborn⟩ := walCmdAppendReplay_spec block.rows hc ht hp
      obtain ⟨tR, hrest, hpR, hviewR⟩ := ih ht₁ hp₁
        ⟨fun x hx => hview ▸ (hseen.has x hx).foldl_push _ hfresh, fun x hx => hborn _ (hseen.born x hx)⟩ hnd
        (fun x hx => by
          rw [hview, TableView.alive_foldl_push_iff _ hfresh (hseen.has x hx)]
          exact halive x hx)
      refine ⟨tR, ?_, hpR, ?_⟩
      · simp only [replay, hrun]
        exact hrest
      · rw [hviewR, hview, appended, foldl_append]
        rfl
    | delete rows =>
      obtain ⟨hndA, hndB, hdisj⟩ := nodup_append.mp hnd
      have hA : ∀ x ∈ rows.map (place cap), x ∈ deleted (.delete rows :: rest) := fun x hx => mem_append_left _ hx
      have hB : ∀ x ∈ deleted rest, x ∈ deleted (.delete rows :: rest) := fun x hx => mem_append_right _ hx
      obtain ⟨t₁, hrun, ht₁, hp₁, hview, hborn⟩ := walCmdDeleteReplay_spec hc ht hp
        ⟨fun x hx => hseen.has x (hA x hx), fun x hx => hseen.born x (hA x hx)⟩ hndA fun x hx => halive x (hA x hx)
      obtain ⟨tR, hrest, hpR, hviewR⟩ := ih ht₁ hp₁
        ⟨fun x hx => by
          rw [hview, TableView.has_mark_iff]
          exact hseen.has x (hB x hx), fun x hx => hborn _ (hseen.born x (hB x hx))⟩ hndB
        (fun x hx => by
          rw [hview, TableView.alive_mark_iff hc]
          exact ⟨halive x (hB x hx), fun hmem => hdisj x hmem x hx rfl⟩)
      refine ⟨tR, ?_, hpR, ?_⟩
      · simp only [replay, hrun]
        exact hrest
      · rw [hviewR, hview, TableView.foldl_push_mark _ hfresh fun x hx => hseen.has x (hA x hx), TableView.mark_mark]
        rfl


/-! ### What a reader sees -/

/-- `rowVisible` of a view. -/
def TableView.rowVisible (cap : Capacity) (v : TableView ρ) (row : RowID) (checkTs : Nat) (checkAppend : Bool) : Bool :=
  match v.segments row.segmentId with
  | none => false
  | some s =>
    s.deprecateTs.all (fun ts => decide (checkTs < ts)) && decide (s.commitTs ≤ checkTs) &&
      match s.blocks[row.segmentOffset / cap.block]? with
      | none => false
      | some b =>
        if b.commitTs > checkTs then false
        else if checkAppend ∧ b.countAt checkTs ≤ row.segmentOffset % cap.block then false
        else !(b.deleted (row.segmentOffset % cap.block) != 0 && decide (b.deleted (row.segmentOffset % cap.block) ≤ checkTs))

theorem BlockEntry.checkDelete_view (c : Nat) (b : BlockEntry ρ) (offset checkTs : Nat) :
    b.version.checkDelete offset checkTs =
      ((b.view c).deleted offset != 0 && decide ((b.view c).deleted offset ≤ checkTs)) := by
  simp only [BlockVersion.checkDelete, BlockEntry.view]
  split <;> rename_i h <;> simp [h]

namespace TableEntry

theorem rowAt_view (c : Nat) (t : TableEntry ρ) (id i o : Nat) : t.rowAt id i o = (do
    let s ← (t.view c []).segments id
    let b ← s.blocks[i]?
    b.rows[o]?) := by
  simp only [rowAt, view]
  cases t.segmentMap id with
  | none => rfl
  | some s =>
    simp only [map_some, bind_eq_bind, bind_some, SegmentEntry.view, getElem?_map]
    cases s.blocks[i]? <;> rfl

theorem anyDelete_view (c : Nat) (t : TableEntry ρ) (id checkTs : Nat) : t.anyDelete id checkTs =
    ((t.view c []).segments id).any fun s => s.firstDeleteTs.any fun ts => decide (ts < checkTs) := by
  simp only [anyDelete, view]
  cases t.segmentMap id with
  | none => rfl
  | some s => simp [SegmentEntry.checkAnyDelete, SegmentEntry.view]

theorem rowVisible_view (c : Nat) {t : TableEntry ρ} (hp : t.Pending []) (row : RowID) (checkTs : Nat)
    (checkAppend : Bool) : t.rowVisible cap row checkTs checkAppend =
      (t.view c []).rowVisible cap row checkTs checkAppend := by
  simp only [rowVisible, TableView.rowVisible, view]
  cases hs : t.segmentMap row.segmentId with
  | none => rfl
  | some s =>
    cases hc : s.commitTs with
    | none => simpa using (hp.segments _ s hs hc).2
    | some commitTs =>
      simp only [map_some, SegmentEntry.view, SegmentEntry.checkVisible, SegmentEntry.checkRowVisible, hc,
        getElem?_map, any_some, getD_some]
      congr 1
      cases hb : s.blocks[row.segmentOffset / cap.block]? with
      | none => rfl
      | some b =>
        cases hbc : b.commitTs with
        | none => simpa using (hp.blocks _ s hs _ b hb (.inl hbc)).2
        | some blockTs =>
          simp only [map_some, hbc, all_some, decide_eq_true_eq, BlockEntry.checkRowVisible,
            BlockEntry.checkDelete_view c b]
          simp only [BlockEntry.view, hbc, getD_some]

end TableEntry

/-- A table between transactions, with commits up to `c`. -/
structure TableEntry.Settled (cap : Capacity) (c : Nat) (t : TableEntry ρ) : Prop where
  sound : t.Sound cap 0 c
  committed : t.Pending []

theorem TableEntry.new_settled : (TableEntry.new : TableEntry ρ).Settled cap 0 where
  sound := ⟨fun _ _ h => (by cases h), fun _ _ h => (by cases h), fun _ _ _ h => (by cases h)⟩
  committed := ⟨fun _ _ h => (by cases h), fun _ _ h => (by cases h)⟩

/-- Where nothing is open, the next transaction finds the entries in order. -/
theorem TableEntry.Sound.next {txnId' c₀ : Nat} (h : t.Sound cap txnId c₀) (hp : t.Pending [])
    (hc : c₀ ≤ c) : t.Sound cap txnId' c where
  ids := h.ids
  unsealed := h.unsealed
  segments id s hs := by
    have hsound := h.segments id s hs
    refine ⟨fun b hb => ?_, hsound.remaining, hsound.maxRowTs.trans hc⟩
    obtain ⟨i, hi⟩ := getElem?_of_mem hb
    have hclosed : ¬ b.Open := fun ho => by simpa using (hp.blocks id s hs i b hi ho).2
    have hbs := hsound.blocks b hb
    simp only [BlockEntry.Open, not_or, not_not] at hclosed
    exact ⟨hbs.capacity, hbs.fits, fun f hf => (hbs.created f hf).trans hc, hbs.deleted, hbs.minRowTs,
      hbs.maxRowTs.trans hc, fun hz => absurd hz hclosed.2.2, .inl hclosed.2.1, hbs.dated⟩

/-- The row is in the table, in a segment that a transaction committing at `c` can delete
from. -/
def TableEntry.HasRow (cap : Capacity) (c : Nat) (t : TableEntry ρ) (row : RowID) : Prop :=
  ∃ s m b, t.segmentMap row.segmentId = some s ∧ s.status ≠ .deprecated ∧ s.minRowTs = some m ∧ m ≤ c ∧
    s.blocks[row.segmentOffset / cap.block]? = some b ∧ row.segmentOffset % cap.block < b.rows.length

theorem seen_of_hasRow
    (h : ∀ rows, .delete rows ∈ cmds → ∀ row ∈ rows, t.HasRow cap c row) : Seen c t (deleted cmds) := by
  have hrow : ∀ x ∈ deleted cmds, ∃ row, place cap row = x ∧ t.HasRow cap c row := by
    induction cmds with
    | nil => simp [deleted]
    | cons cmd rest ih =>
      have hrest := ih fun rows hr => h rows (mem_cons_of_mem _ hr)
      cases cmd with
      | append block => exact hrest
      | delete rows =>
        intro x hx
        rcases mem_append.mp hx with hx | hx
        · obtain ⟨row, hr, rfl⟩ := mem_map.mp hx
          exact ⟨row, rfl, h rows mem_cons_self row hr⟩
        · exact hrest x hx
  constructor
  · intro x hx
    obtain ⟨row, rfl, s, _, b, hs, _, _, _, hb, hlt⟩ := hrow x hx
    exact (TableEntry.has_view_iff hs [] _).mpr ⟨b.view c, by simp [SegmentEntry.views, hb], hlt⟩
  · intro x hx
    obtain ⟨row, rfl, s, m, _, hs, hst, hm, hle, _⟩ := hrow x hx
    exact ⟨s, m, hs, hst, hm, hle⟩

theorem liveCommit_settled {t tL : TableEntry ρ} {c₀ : Nat} (ht : t.Settled cap c₀)
    (hlater : c₀ < c) (hrows : ∀ rows, .delete rows ∈ cmds → ∀ row ∈ rows, t.HasRow cap c row)
    (hlive : liveCommit cap txnId c t cmds = .ok tL) : tL.Settled cap c := by
  obtain ⟨hsound, hp, _⟩ := liveCommit_spec (Nat.zero_lt_of_lt hlater) (ht.sound.next ht.committed hlater.le)
    ht.committed (seen_of_hasRow hrows) hlive
  exact ⟨hsound.next hp (Nat.le_refl c), hp⟩

/-- **Replay equals the live commit.** On a table between transactions, a transaction that
commits later, having deleted rows of the table, leaves the same rows in the same
segments and blocks at the same offsets as the replay of its commands, and each is
seen or not at each timestamp alike. -/
theorem replay_eq_liveCommit {t tL : TableEntry ρ} {cmds : List (WalCmd cap ρ)} {c₀ : Nat} (ht : t.Settled cap c₀)
    (hlater : c₀ < c) (hrows : ∀ rows, .delete rows ∈ cmds → ∀ row ∈ rows, t.HasRow cap c row)
    (hlive : liveCommit cap txnId c t cmds = .ok tL) :
    ∃ tR, replay cap txnId c t cmds = .ok tR ∧
      (∀ segmentId blockId blockOffset, tR.rowAt segmentId blockId blockOffset = tL.rowAt segmentId blockId blockOffset) ∧
      (∀ row checkTs checkAppend, tR.rowVisible cap row checkTs checkAppend = tL.rowVisible cap row checkTs checkAppend) ∧
      (∀ segmentId checkTs, tR.anyDelete segmentId checkTs = tL.anyDelete segmentId checkTs) := by
  have hc : 0 < c := Nat.zero_lt_of_lt hlater
  have hsound : t.Sound cap txnId c := ht.sound.next ht.committed hlater.le
  have hseen := seen_of_hasRow hrows
  obtain ⟨_, hpL, hviewL, hnd, halive⟩ := liveCommit_spec hc hsound ht.committed hseen hlive
  obtain ⟨tR, hreplay, hpR, hviewR⟩ := replay_spec hc hsound ht.committed hseen hnd halive
  have hview : tR.view c [] = tL.view c [] := hviewR.trans hviewL.symm
  refine ⟨tR, hreplay, fun id i o => ?_, fun row ts chk => ?_, fun id ts => ?_⟩
  · rw [TableEntry.rowAt_view c, TableEntry.rowAt_view c, hview]
  · rw [TableEntry.rowVisible_view c hpR, TableEntry.rowVisible_view c hpL, hview]
  · rw [TableEntry.anyDelete_view c, TableEntry.anyDelete_view c, hview]

/-- A first transaction, and the table it has put three rows into. -/
def firstCmds : List (WalCmd sampleCapacity Nat) := [.append ⟨[10, 11], by decide⟩, .append ⟨[12], by decide⟩]

def sampleTable : TableEntry Nat :=
  match liveCommit sampleCapacity 1 5 .new firstCmds with
  | .ok t => t
  | .error _ => .new

theorem sampleTable_settled : sampleTable.Settled sampleCapacity 5 := by
  have hfirst : liveCommit sampleCapacity 1 5 .new firstCmds = .ok sampleTable := rfl
  have hnone : ∀ rows, .delete rows ∈ firstCmds → ∀ row ∈ rows,
      (TableEntry.new : TableEntry Nat).HasRow sampleCapacity 5 row := by simp [firstCmds]
  exact liveCommit_settled TableEntry.new_settled (by decide) hnone hfirst

/-- The second transaction fills the segment, opens the next one and deletes the second row. -/
def sampleCmds : List (WalCmd sampleCapacity Nat) :=
  [.append ⟨[13], by decide⟩, .delete [⟨0, 1⟩], .append ⟨[14, 15], by decide⟩]

theorem replay_eq_liveCommit_mixed : ∃ tL tR, liveCommit sampleCapacity 2 7 sampleTable sampleCmds = .ok tL ∧
    replay sampleCapacity 2 7 sampleTable sampleCmds = .ok tR ∧
    (∀ segmentId blockId blockOffset, tR.rowAt segmentId blockId blockOffset = tL.rowAt segmentId blockId blockOffset) ∧
    (∀ row checkTs checkAppend,
      tR.rowVisible sampleCapacity row checkTs checkAppend = tL.rowVisible sampleCapacity row checkTs checkAppend) ∧
    (∀ segmentId checkTs, tR.anyDelete segmentId checkTs = tL.anyDelete segmentId checkTs) := by
  have hrow : sampleTable.HasRow sampleCapacity 7 ⟨0, 1⟩ := ⟨_, _, _, rfl, by decide, rfl, by decide, rfl, by decide⟩
  have hrows : ∀ rows, .delete rows ∈ sampleCmds → ∀ row ∈ rows, sampleTable.HasRow sampleCapacity 7 row := by
    intro rows hmem row hr
    simp [sampleCmds] at hmem
    subst hmem
    exact (mem_singleton.mp hr) ▸ hrow
  have hlive : liveCommit sampleCapacity 2 7 sampleTable sampleCmds = .ok _ := rfl
  obtain ⟨tR, h⟩ := replay_eq_liveCommit sampleTable_settled (by decide) hrows hlive
  exact ⟨_, tR, hlive, h⟩

end Infinity.Table
