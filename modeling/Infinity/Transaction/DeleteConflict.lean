import Infinity.Block.BlockVersion
import Infinity.Common
import Infinity.Lib.Machine
import Infinity.Lib.MergeScan
import Infinity.Lib.OrderedMap

/-! Deleting rows without deleting one twice.

A transaction buffers the rows it deletes, block by block, in whatever order the
executor produced them. At commit it takes a timestamp, notes which transactions with
smaller timestamps are still committing, checks its rows against the deletes already
applied, and then its lists against the lists of the noted transactions. Transactions
without a conflict apply their deletes in timestamp order; `BlockVersion::Delete` stops
the engine if a row is already deleted.

The pairwise check is the two-pointer scan of `Infinity.Lib.mergeScan` over lists that
nobody sorts. It reports real conflicts only (`pairConflict_sound`), and it reports one
whenever the lists have a common record (`pairConflict_complete`). The second half of the
file puts the checks and the blocks under any number of transactions. -/
namespace Infinity.Transaction.DeleteConflict

open Block Lib List

structure RowID where
  segmentId : Nat
  segmentOffset : Nat
  deriving DecidableEq, Repr

structure BlockKey where
  segmentId : Nat
  blockId : Nat
  deriving DecidableEq, Repr

/-- The errors of the delete path. -/
inductive DeleteFault where
  | rowExceedBlockCapacity
  | rowsExceedBlockCapacity
  | version (fault : VersionFault)
  | multipleTransactions (segmentId blockId : Nat)
  | commitTsTooSmall (maxRowTs commitTs : Nat)
  | outOfRange
  deriving DecidableEq, Repr

/-! ### The buffered deletes of a transaction -/

def addRow (k : BlockKey) (o : Nat) : List (BlockKey × List Nat) → List (BlockKey × List Nat)
  | [] => [(k, [o])]
  | e :: rest => if e.1 = k then (k, e.2 ++ [o]) :: rest else e :: addRow k o rest

theorem mem_map_addRow {k k' : BlockKey} {o : Nat} {l : List (BlockKey × List Nat)}
    (h : k' ∈ (addRow k o l).map Prod.fst) : k' = k ∨ k' ∈ l.map Prod.fst := by
  induction l with
  | nil => exact .inl (by simpa [addRow] using h)
  | cons e rest ih =>
    simp only [addRow] at h
    split at h
    · rcases mem_cons.mp h with h | h
      · exact .inl h
      · exact .inr (mem_cons_of_mem _ h)
    · rcases mem_cons.mp h with h | h
      · exact .inr (by rw [h]; exact mem_cons_self)
      · exact (ih h).imp id (mem_cons_of_mem _)

theorem addRow_keys (k : BlockKey) (o : Nat) {l : List (BlockKey × List Nat)} (h : (l.map Prod.fst).Nodup) :
    ((addRow k o l).map Prod.fst).Nodup := by
  induction l with
  | nil => exact nodup_singleton _
  | cons e rest ih =>
    obtain ⟨hne, hrest⟩ := nodup_cons.mp h
    simp only [addRow]
    split
    · rename_i he
      rw [← he]
      exact nodup_cons.mpr ⟨hne, hrest⟩
    rename_i he
    refine nodup_cons.mpr ⟨fun hmem => ?_, ih hrest⟩
    rcases mem_map_addRow hmem with hk | hk
    · exact he hk
    · exact hne hk

/-- `delete_state_.rows_`: the offsets of each block, in the order they came, each block
once. -/
structure DeleteState where
  rows : List (BlockKey × List Nat)
  keys : (rows.map Prod.fst).Nodup

namespace DeleteState

def empty : DeleteState := ⟨[], List.nodup_nil⟩

def add (d : DeleteState) (k : BlockKey) (o : Nat) : DeleteState := ⟨addRow k o d.rows, addRow_keys k o d.keys⟩

def find? (d : DeleteState) (k : BlockKey) : Option (List Nat) := (d.rows.find? (fun e => e.1 = k)).map Prod.snd

/-- The row `o` of block `k` is among the buffered deletes. -/
def Has (d : DeleteState) (k : BlockKey) (o : Nat) : Prop := ∃ os, (k, os) ∈ d.rows ∧ o ∈ os

theorem find?_eq_some {d : DeleteState} {k : BlockKey} {os : List Nat} (h : (k, os) ∈ d.rows) :
    d.find? k = some os := by
  obtain ⟨l, hl⟩ := d
  simp only [find?]
  induction l with
  | nil => cases h
  | cons e l ih =>
    obtain ⟨hne, hl'⟩ := nodup_cons.mp hl
    rcases mem_cons.mp h with rfl | h
    · rw [find?_cons_of_pos (by simp)]
      rfl
    · have he : e.1 ≠ k := fun he => hne (by rw [he]; exact mem_map_of_mem h)
      rw [find?_cons_of_neg (by simpa using he)]
      exact ih hl' h

theorem mem_of_find? {d : DeleteState} {k : BlockKey} {os : List Nat} (h : d.find? k = some os) : (k, os) ∈ d.rows := by
  obtain ⟨e, he, rfl⟩ := Option.map_eq_some_iff.mp h
  have hk : e.1 = k := by simpa using find?_some he
  rw [← hk]
  exact mem_of_find?_eq_some he

end DeleteState

/-- `TxnTableStore::Delete`. -/
def bufferDelete (d : DeleteState) : List RowID → Except DeleteFault DeleteState
  | [] => .ok d
  | row :: rest =>
    let k : BlockKey := ⟨row.segmentId, row.segmentOffset / defaultBlockCapacity⟩
    let d' := d.add k (row.segmentOffset % defaultBlockCapacity)
    if ((d'.find? k).getD []).length > defaultBlockCapacity then .error .rowExceedBlockCapacity
    else bufferDelete d' rest

/-! ### The checks -/

/-- The delete part of `TxnTableStore::CheckConflict` with another transaction. -/
def pairConflict (d d' : DeleteState) : Option (BlockKey × Nat) :=
  d.rows.findSome? (fun e =>
    match d'.find? e.1 with
    | none => none
    | some others => (mergeScan e.2 others).map (fun o => (e.1, o)))

def conflictReason (k : BlockKey) (offset : Nat) : String :=
  s!"Delete conflict: segment_id: {k.segmentId}, block_id: {k.blockId}, block_offset: {offset}"

theorem pairConflict_sound {d d' : DeleteState} {k : BlockKey} {o : Nat}
    (h : pairConflict d d' = some (k, o)) : d.Has k o ∧ d'.Has k o := by
  obtain ⟨e, he, hfound⟩ := exists_of_findSome?_eq_some h
  cases hf : d'.find? e.1 with
  | none => rw [hf] at hfound; cases hfound
  | some others =>
    rw [hf] at hfound
    obtain ⟨o', ho', heq⟩ := Option.map_eq_some_iff.mp hfound
    cases heq
    obtain ⟨h₁, h₂⟩ := mergeScan_mem ho'
    exact ⟨⟨e.2, he, h₁⟩, ⟨others, DeleteState.mem_of_find? hf, h₂⟩⟩

/-- Two transactions with a common row of a block have one that the scan can meet: it is
greater than everything before it in both lists. -/
def Findable (d d' : DeleteState) : Prop :=
  ∀ k os os', (k, os) ∈ d.rows → (k, os') ∈ d'.rows → (∃ o, o ∈ os ∧ o ∈ os') → ∃ o, IsRecord os o ∧ IsRecord os' o

theorem pairConflict_complete {d d' : DeleteState} (hfind : Findable d d') (h : pairConflict d d' = none)
    (k : BlockKey) (o : Nat) : ¬ (d.Has k o ∧ d'.Has k o) := by
  rintro ⟨⟨os, hk, ho⟩, ⟨os', hk', ho'⟩⟩
  have hsome := (mergeScan_isSome_iff os os').mpr (hfind k os os' hk hk' ⟨o, ho, ho'⟩)
  have hnone := findSome?_eq_none_iff.mp h (k, os) hk
  simp only [DeleteState.find?_eq_some hk', Option.map_eq_none_iff] at hnone
  rw [hnone] at hsome
  cases hsome

/-! ### Blocks -/

/-- A block as its deletes see it. -/
structure Block where
  version : BlockVersion
  usingTxnId : Nat
  maxRowTs : Nat

/-- A block nothing was deleted from. -/
def Block.fresh (capacity : Nat) : Block := ⟨.new capacity, 0, 0⟩

/-- The delete timestamp of a row, zero for none, in particular behind the last row. -/
def Block.deleted (b : Block) (o : Nat) : Nat := (b.version.deleted[o]?).getD 0

/-- `BlockEntry::CheckDeleteConflict`. -/
def Block.checkDeleteConflict (b : Block) (offsets : List Nat) (commitTs : Nat) : Bool :=
  offsets.any (fun o => b.version.checkDelete o commitTs)

/-- `BlockEntry::DeleteData`, with the size check of `SegmentEntry::DeleteData` after it. -/
def Block.deleteData (b : Block) (k : BlockKey) (txnId commitTs : Nat) (rows : List Nat) : Except DeleteFault Block :=
  if b.usingTxnId ≠ 0 ∧ b.usingTxnId ≠ txnId then .error (.multipleTransactions k.segmentId k.blockId)
  else
    match b.version.deleteRows commitTs rows with
    | .error e => .error (.version e)
    | .ok version =>
      if b.maxRowTs > commitTs then .error (.commitTsTooSmall b.maxRowTs commitTs)
      -- one timestamp for every row the block has room for
      else if rows.length > version.deleted.length then .error .rowsExceedBlockCapacity
      else .ok ⟨version, txnId, commitTs⟩

/-- A row that passes the check is not deleted, unless by a later transaction. -/
theorem Block.checkDelete_false {b : Block} {o ts : Nat} (h : b.version.checkDelete o ts = false)
    (hle : b.deleted o ≤ ts) : b.deleted o = 0 := by
  unfold BlockVersion.checkDelete at h
  unfold Block.deleted at hle ⊢
  cases hd : b.version.deleted[o]? with
  | none => rfl
  | some old =>
    rw [hd] at h hle
    have hold : old ≤ ts := hle
    simpa [hold] using h

theorem deleteRows_ne_deleteTwice {v : BlockVersion} {commitTs : Nat} {rows : List Nat} (hnodup : rows.Nodup)
    (hzero : ∀ o ∈ rows, (v.deleted[o]?).getD 0 = 0) (o c old : Nat) :
    v.deleteRows commitTs rows ≠ .error (.deleteTwice o c old) := by
  induction rows generalizing v with
  | nil =>
    intro h
    cases h
  | cons x rows ih =>
    obtain ⟨hx, hnodup⟩ := nodup_cons.mp hnodup
    have hx0 := hzero x mem_cons_self
    cases hone : v.delete x commitTs with
    | error e =>
      simp only [BlockVersion.deleteRows, hone]
      unfold BlockVersion.delete at hone
      split at hone
      · cases hone
        intro h
        cases h
      · rename_i hold
        rw [hold, Option.getD_some] at hx0
        rw [if_neg (not_not.mpr hx0)] at hone
        cases hone
    | ok v₁ =>
      obtain ⟨-, hm⟩ := BlockVersion.delete_marked hone
      simp only [BlockVersion.deleteRows, hone]
      refine ih hnodup fun o ho => ?_
      have hne : o ∉ [x] := fun he => hx ((mem_singleton.mp he).symm ▸ ho)
      rw [hm.deleted o, if_neg hne]
      exact hzero o (mem_cons_of_mem _ ho)

/-- Deleting rows none of which is deleted, each once, never finds one deleted. -/
theorem Block.deleteData_spec (k : BlockKey) (txnId commitTs : Nat) {rows : List Nat} {b : Block}
    (hzero : ∀ o ∈ rows, b.deleted o = 0) (hnodup : rows.Nodup) :
    (∀ o c old, b.deleteData k txnId commitTs rows ≠ .error (.version (.deleteTwice o c old))) ∧
      ∀ b', b.deleteData k txnId commitTs rows = .ok b' →
        ∀ o, b'.deleted o = if o ∈ rows then commitTs else b.deleted o := by
  unfold Block.deleteData
  split
  · exact ⟨nofun, nofun⟩
  split
  · rename_i e he
    refine ⟨fun o c old h => ?_, nofun⟩
    cases h
    exact deleteRows_ne_deleteTwice hnodup hzero o c old he
  rename_i v hv
  split
  · exact ⟨nofun, nofun⟩
  split
  · exact ⟨nofun, nofun⟩
  · refine ⟨nofun, fun b' h o => ?_⟩
    cases h
    simp only [Block.deleted, (BlockVersion.deleteRows_marked hv).deleted o]
    split <;> rfl

/-! ### Any number of transactions -/

/-- How far a transaction has come. `checking` carries the transactions noted at its start
and the blocks still to be checked, `applying` the blocks still to be deleted from. -/
inductive Phase where
  | started
  | committing (commitTs : Nat)
  | checking (commitTs : Nat) (candidates : List Nat) (toCheck : List (BlockKey × List Nat))
  | passed (commitTs : Nat)
  | applying (commitTs : Nat) (toApply : List (BlockKey × List Nat))
  | applied (commitTs : Nat)
  | conflicted (commitTs : Nat) (reason : String)
  | done (commitTs : Nat)

def Phase.ts : Phase → Option Nat
  | .started => none
  | .committing c | .checking c _ _ | .passed c | .applying c _ | .applied c | .conflicted c _ | .done c => some c

/-- The transaction has no deletes left to apply. -/
def Phase.Settled : Phase → Prop
  | .applied _ | .conflicted _ _ | .done _ => True
  | _ => False

structure System where
  tableName : String
  currentTs : Nat
  rows : Nat → DeleteState
  phase : Nat → Phase
  committingTxns : OrderedMap Nat Nat
  blocks : BlockKey → Option Block

inductive Call where
  | delete (t : Nat) (rowIds : List RowID)
  | getWriteCommitTS (t : Nat)
  | noteCandidates (t : Nat)
  | checkBlock (t : Nat)
  | checkPairs (t : Nat)
  | startApply (t : Nat)
  | applyBlock (t : Nat)
  | finishApply (t : Nat)
  | cleanupTxn (t : Nat)

/-- The protocol of a transaction; deletes are applied in timestamp order. -/
def Allowed (s : System) : Call → Prop
  | .delete t _ | .getWriteCommitTS t => s.phase t = .started
  | .noteCandidates t => ∃ c, s.phase t = .committing c
  | .checkBlock t => ∃ c cands e rest, s.phase t = .checking c cands (e :: rest)
  | .checkPairs t => ∃ c cands, s.phase t = .checking c cands []
  | .startApply t => ∃ c, s.phase t = .passed c ∧
    ∀ t' c', (s.phase t').ts = some c' → c' < c → (s.phase t').Settled
  | .applyBlock t => ∃ c e rest, s.phase t = .applying c (e :: rest)
  | .finishApply t => ∃ c, s.phase t = .applying c []
  | .cleanupTxn t => (∃ c, s.phase t = .applied c) ∨ ∃ c reason, s.phase t = .conflicted c reason

def System.setPhase (s : System) (t : Nat) (p : Phase) : System := {s with phase := Function.update s.phase t p}

/-- The pairwise checks of `CheckTxnConflict`, candidate by candidate. -/
def System.pairReason (s : System) (t : Nat) (candidates : List Nat) : Option String :=
  candidates.findSome? (fun id =>
    (pairConflict (s.rows t) (s.rows id)).map (fun e =>
      s!"Conflict with candidate_txn {id}: txn_tables_store_ containing table_name {s.tableName} conflict with other_txn_store.txn_tables_store_: {conflictReason e.1 e.2}"))

def step (s : System) : Call → Except DeleteFault System
  | .delete t rowIds =>
    match bufferDelete (s.rows t) rowIds with
    | .error e => .error e
    | .ok d => .ok {s with rows := Function.update s.rows t d}
  | .getWriteCommitTS t =>
    let commitTs := s.currentTs + 2
    .ok {s.setPhase t (.committing commitTs) with
      currentTs := commitTs
      committingTxns := s.committingTxns.emplace commitTs t}
  | .noteCandidates t =>
    match s.phase t with
    | .committing c =>
      .ok (s.setPhase t (.checking c ((s.committingTxns.entries.filter (fun e => c > e.1)).map Prod.snd)
        (s.rows t).rows))
    | _ => .ok s
  | .checkBlock t =>
    match s.phase t with
    | .checking c cands (e :: rest) =>
      -- a block that is not there is not checked
      if (s.blocks e.1).any (fun b => b.checkDeleteConflict e.2 c) then
        .ok (s.setPhase t (.conflicted c "Conflict in txn->CheckConflict()"))
      else .ok (s.setPhase t (.checking c cands rest))
    | _ => .ok s
  | .checkPairs t =>
    match s.phase t with
    | .checking c cands _ =>
      match s.pairReason t cands with
      | some reason => .ok (s.setPhase t (.conflicted c reason))
      | none => .ok (s.setPhase t (.passed c))
    | _ => .ok s
  | .startApply t =>
    match s.phase t with
    | .passed c => .ok (s.setPhase t (.applying c (s.rows t).rows))
    | _ => .ok s
  | .applyBlock t =>
    match s.phase t with
    | .applying c (e :: rest) =>
      match s.blocks e.1 with
      | none => .error .outOfRange
      | some b =>
        match b.deleteData e.1 t c e.2 with
        | .error err => .error err
        | .ok b' =>
          .ok {s.setPhase t (.applying c rest) with blocks := Function.update s.blocks e.1 (some b')}
    | _ => .ok s
  | .finishApply t =>
    match s.phase t with
    | .applying c _ =>
      .ok {s.setPhase t (.applied c) with
        blocks := fun k => (s.blocks k).map (fun b => if b.usingTxnId = t then {b with usingTxnId := 0} else b)}
    | _ => .ok s
  | .cleanupTxn t =>
    match (s.phase t).ts with
    | some c => .ok {s.setPhase t (.done c) with committingTxns := s.committingTxns.erase c}
    | none => .ok s

def deleteMachine : Machine System Call DeleteFault := ⟨Allowed, step⟩

/-- Blocks with earlier deletes and no transaction. -/
def System.start (tableName : String) (startTs : Nat) (blocks : BlockKey → Option Block) : System :=
  ⟨tableName, startTs, fun _ => .empty, fun _ => .started, .empty, blocks⟩

/-- What is asked of the buffered lists: at commit no row is in them twice, and when a
transaction is compared with another, a common row means that the scan can meet one. -/
def Orderly (s : System) : Call → Prop
  | .getWriteCommitTS t => ∀ e ∈ (s.rows t).rows, e.2.Nodup
  | .checkPairs t => ∀ c cands rest, s.phase t = .checking c cands rest →
    ∀ t' ∈ cands, Findable (s.rows t) (s.rows t')
  | _ => True

end Infinity.Transaction.DeleteConflict
