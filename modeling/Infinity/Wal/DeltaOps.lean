import Infinity.Common
import Infinity.Lib.Lists
import Infinity.Lib.OrderedMap

/-! Merging catalog operations.

A committed transaction leaves a list of catalog operations, one for every entry it created,
changed or dropped, each under the encoded name of its entry. The global delta entry keeps
one operation per name: a later one is merged into it, and a drop takes the operations on
everything inside the dropped entry with it. `PickFlushEntry` hands out what has been merged
so far, to be written as a delta file. -/
namespace Infinity.Wal.Delta

open Lib List

/-- A `String` by its characters. -/
abbrev Key := List Char

inductive CatalogDeltaOpType where
  | addDatabaseEntry
  | addTableEntry
  | addSegmentEntry
  | addBlockEntry
  | addColumnEntry
  | addTableIndexEntry
  | addSegmentIndexEntry
  | addChunkIndexEntry
  deriving DecidableEq, Repr

def CatalogDeltaOpType.code : CatalogDeltaOpType → Nat
  | .addDatabaseEntry => 1
  | .addTableEntry => 2
  | .addSegmentEntry => 3
  | .addBlockEntry => 4
  | .addColumnEntry => 5
  | .addTableIndexEntry => 11
  | .addSegmentIndexEntry => 12
  | .addChunkIndexEntry => 13

inductive MergeFlag where
  | invalid
  | delete
  | new
  | update
  | deleteAndNew
  deriving DecidableEq, Repr

def MergeFlag.code : MergeFlag → Nat
  | .invalid => 0
  | .delete => 1
  | .new => 2
  | .update => 3
  | .deleteAndNew => 4

inductive PruneFlag where
  | prune
  | pruneSub
  | keep
  deriving DecidableEq, Repr

/-- An operation. `payload` is what the entry's own fields are set to. `deprecated` says that
a segment's status is `kDeprecated` or that a chunk has a `deprecate_ts_`; `filter` is the
`segment_filter_binary_data_` or `block_filter_binary_data_`. -/
structure CatalogDeltaOperation (π : Type) where
  type : CatalogDeltaOpType
  encode : Key
  mergeFlag : MergeFlag
  commitTs : Nat
  deprecated : Bool
  filter : List Nat
  payload : π
  deriving DecidableEq, Repr

variable {π : Type}

namespace CatalogDeltaOperation

/-- Whether the operations of the type carry a filter. -/
def hasFilter : CatalogDeltaOpType → Bool
  | .addSegmentEntry | .addBlockEntry => true
  | _ => false

def toPrune : Option MergeFlag → MergeFlag → Except Fault PruneFlag
  | none, .delete | none, .deleteAndNew => .ok .pruneSub
  | none, .new | none, .update => .ok .keep
  | none, .invalid => .error (.unrecoverable s!"Invalid MergeFlag: {MergeFlag.invalid.code}")
  | some .new, .delete => .ok .prune
  | some .update, .delete | some .deleteAndNew, .delete => .ok .pruneSub
  | some old, .delete => .error (.unrecoverable s!"Invalid MergeFlag: {old.code}")
  | some _, .new | some _, .update => .ok .keep
  | some .new, .deleteAndNew | some .update, .deleteAndNew | some .deleteAndNew, .deleteAndNew => .ok .pruneSub
  | some old, .deleteAndNew => .error (.unrecoverable s!"Invalid MergeFlag: {old.code}")
  | some _, .invalid => .error (.unrecoverable s!"Invalid MergeFlag: {MergeFlag.invalid.code}")

def nextDeleteFlag : MergeFlag → MergeFlag → Except Fault MergeFlag
  | .delete, .new => .ok .deleteAndNew
  | .new, .delete => .error (.unrecoverable "Should prune before reach this.")
  | .new, .update | .new, .deleteAndNew => .ok .new
  | .update, .delete => .ok .delete
  | .update, .update => .ok .update
  | .update, .deleteAndNew => .ok .new
  | .deleteAndNew, .delete => .ok .delete
  | .deleteAndNew, .update | .deleteAndNew, .deleteAndNew => .ok .deleteAndNew
  | .invalid, _ => .error (.unrecoverable s!"Invalid MergeFlag: {MergeFlag.invalid.code}")
  | old, next => .error (.unrecoverable s!"Invalid MergeFlag from {old.code} to {next.code}")

/-- Deprecated segments and chunks are dropped. -/
def checkDelete (op : CatalogDeltaOperation π) : CatalogDeltaOperation π :=
  if op.deprecated && (op.type == .addSegmentEntry || op.type == .addChunkIndexEntry) then {op with mergeFlag := .delete}
  else op

/-- The `Merge` of every type: everything but the flag comes from the other operation, and a
filter that is there already stays. -/
def merge (op other : CatalogDeltaOperation π) : Except Fault (CatalogDeltaOperation π) :=
  if other.type ≠ op.type then .error (.unrecoverable "Merge failed, other type")
  else
    match nextDeleteFlag op.mergeFlag other.mergeFlag with
    | .error e => .error e
    | .ok flag =>
      if hasFilter op.type = true ∧ op.filter ≠ [] then
        if other.filter ≠ [] then .error (.unrecoverable "Serialize filter binary twice")
        else .ok {other with mergeFlag := flag, filter := op.filter}
      else .ok {other with mergeFlag := flag}

end CatalogDeltaOperation

/-- The operations of one transaction. `maxCommitTs` is `none` until the entry is saved. -/
structure CatalogDeltaEntry (π : Type) where
  sequence : Nat
  maxCommitTs : Option Nat
  txnIds : List Nat
  operations : List (CatalogDeltaOperation π)
  deriving DecidableEq, Repr

def CatalogDeltaEntry.saveState (e : CatalogDeltaEntry π) (txnId commitTs sequence : Nat) :
    Except Fault (CatalogDeltaEntry π) :=
  if e.maxCommitTs ≠ none ∨ e.txnIds ≠ [] then
    .error (.unrecoverable s!"CatalogDeltaEntry SaveState failed, txn_ids_ size {e.txnIds.length}")
  else
    .ok ⟨sequence, some commitTs, [txnId], e.operations.map fun op => {op with commitTs}⟩

/-! ### Pruning -/

/-- The name stands for something inside `encode1`. -/
abbrev Under (encode1 encode2 : Key) : Prop := encode1 ++ ['#'] <+: encode2

/-- The loop of `PruneOpWithSamePrefix`, from the lower bound of `encode1` on. -/
def pruneLoop {υ : Type} (encode1 : Key) : List (Key × υ) → List (Key × υ)
  | [] => []
  | (encode2, op) :: rest =>
    -- not a prefix: nothing behind begins with `encode1` either
    if ¬ encode1 <+: encode2 then (encode2, op) :: rest
    else if encode1.length = encode2.length then (encode2, op) :: pruneLoop encode1 rest
    else if encode2[encode1.length]? ≠ some '#' then (encode2, op) :: pruneLoop encode1 rest
    else pruneLoop encode1 rest

theorem under_iff {e k : Key} (hp : e <+: k) : Under e k ↔ e.length ≠ k.length ∧ k[e.length]? = some '#' := by
  obtain ⟨rest, rfl⟩ := hp
  rw [Under, prefix_append_right_inj]
  cases rest with
  | nil => simp
  | cons a rest => simp [eq_comm]

theorem pruneLoop_eq_filter {υ : Type} {e : Key} {l : List (Key × υ)} (hs : l.Pairwise fun a b => a.1 < b.1)
    (hl : ∀ x ∈ l, e ≤ x.1) : pruneLoop e l = l.filter fun x => ¬ Under e x.1 := by
  induction l with
  | nil => rfl
  | cons x l ih =>
    obtain ⟨k, op⟩ := x
    obtain ⟨hlt, hs⟩ := pairwise_cons.mp hs
    have hrest := ih hs fun x hx => hl x (mem_cons_of_mem _ hx)
    rw [pruneLoop]
    by_cases hp : e <+: k
    · rw [if_neg (not_not.mpr hp), filter_cons]
      by_cases hlen : e.length = k.length
      · rw [if_pos hlen, if_pos (decide_eq_true ((under_iff hp).not.mpr fun h => h.1 hlen)), hrest]
      rw [if_neg hlen]
      by_cases hsep : k[e.length]? = some '#'
      · rw [if_neg (not_not.mpr hsep), if_neg (by simpa using (under_iff hp).mpr ⟨hlen, hsep⟩), hrest]
      · rw [if_pos hsep, if_pos (decide_eq_true ((under_iff hp).not.mpr fun h => hsep h.2)), hrest]
    · have hkeep : ∀ x ∈ (k, op) :: l, ¬ Under e x.1 := by
        intro x hx hu
        have hpx : e <+: x.1 := (prefix_append e ['#']).trans hu
        obtain rfl | hx := mem_cons.mp hx
        · exact hp hpx
        · exact hp (isPrefix_of_between (hl _ mem_cons_self) (hlt x hx) hpx)
      rw [if_pos hp, filter_eq_self.mpr fun x hx => decide_eq_true (hkeep x hx)]

theorem prune_eq_filter {υ : Type} (m : OrderedMap Key υ) (e : Key) :
    m.entries.takeWhile (fun x => x.1 < e) ++ pruneLoop e (m.entries.dropWhile fun x => x.1 < e) =
      m.entries.filter fun x => ¬ Under e x.1 := by
  have hsplit := takeWhile_append_dropWhile (p := fun x : Key × υ => decide (x.1 < e)) (l := m.entries)
  have hsorted : (m.entries.dropWhile fun x => x.1 < e).Pairwise fun a b => a.1 < b.1 :=
    m.sorted.sublist (dropWhile_sublist _)
  have hge : ∀ x ∈ m.entries.dropWhile (fun x => decide (x.1 < e)), e ≤ x.1 := by
    have hdrop := dropWhile_eq_filter (p := fun x : Key × υ => decide (x.1 < e))
      (m.sorted.imp fun {a b} hab hb => decide_eq_true (lt_trans hab (of_decide_eq_true hb)))
    intro x hx
    rw [hdrop, mem_filter] at hx
    simpa using hx.2
  have hlow : ∀ x ∈ m.entries.takeWhile (fun x => decide (x.1 < e)), ¬ Under e x.1 := by
    intro x hx hu
    have hlt : x.1 < e := by simpa using mem_takeWhile_imp hx
    exact absurd hlt ((prefix_append e ['#']).trans hu).le
  rw [pruneLoop_eq_filter hsorted hge, ← filter_eq_self.mpr fun x hx => decide_eq_true (hlow x hx),
    ← filter_append, hsplit]

/-- Drop what stands inside the entry named `encode1`. -/
def pruneOpWithSamePrefix {υ : Type} (m : OrderedMap Key υ) (encode1 : Key) : OrderedMap Key υ where
  entries := m.entries.takeWhile (fun x => x.1 < encode1) ++ pruneLoop encode1 (m.entries.dropWhile fun x => x.1 < encode1)
  sorted := by
    rw [prune_eq_filter]
    exact m.sorted.filter _

theorem find?_prune {υ : Type} (m : OrderedMap Key υ) (e k : Key) :
    (pruneOpWithSamePrefix m e).find? k = if Under e k then none else m.find? k := by
  refine OrderedMap.find?_eq_of_mem fun v => ?_
  show (k, v) ∈ m.entries.takeWhile _ ++ pruneLoop e _ ↔ _
  rw [prune_eq_filter, mem_filter, m.mem_entries]
  by_cases hu : Under e k
  · simp [hu]
  · simp [hu]

/-! ### The global delta entry -/

structure GlobalCatalogDeltaEntry (π : Type) where
  lastSequence : Nat
  /-- The priority queue, its top first. -/
  sequenceHeap : List Nat
  deltaEntryMap : OrderedMap Nat (CatalogDeltaEntry π)
  deltaOps : OrderedMap Key (CatalogDeltaOperation π)
  txnIds : List Nat
  maxCommitTs : Nat
  lastFullCkpTs : Nat

namespace GlobalCatalogDeltaEntry

/-- An operation that the last full checkpoint covers gives way to a new one. -/
def dropCovered (lastFullCkpTs : Nat) (ops : OrderedMap Key (CatalogDeltaOperation π)) (encode : Key) :
    OrderedMap Key (CatalogDeltaOperation π) :=
  match ops.find? encode with
  | some op => if op.commitTs ≤ lastFullCkpTs then ops.erase encode else ops
  | none => ops

/-- One round of the loop in `AddDeltaEntryInner`. -/
def addOp (lastFullCkpTs : Nat) (txnIds : List Nat) (ops : OrderedMap Key (CatalogDeltaOperation π))
    (op : CatalogDeltaOperation π) : Except Fault (OrderedMap Key (CatalogDeltaOperation π)) :=
  let newOp := op.checkDelete
  let encode := newOp.encode
  if encode = [] then .error (.unrecoverable "encode is empty")
  else
    let ops := dropCovered lastFullCkpTs ops encode
    match ops.find? encode with
    | some old =>
      match CatalogDeltaOperation.toPrune (some old.mergeFlag) newOp.mergeFlag with
      | .error e => .error e
      | .ok .prune => .ok (pruneOpWithSamePrefix (ops.erase encode) encode)
      | .ok flag =>
        let ops := if flag = .pruneSub then pruneOpWithSamePrefix ops encode else ops
        match old.merge newOp with
        | .error _ =>
          .error (.unrecoverable s!"Merge failed, encode: {String.ofList encode} txn_ids: {txnIds}")
        | .ok merged => .ok (ops.modify encode merged)
    | none =>
      match CatalogDeltaOperation.toPrune none newOp.mergeFlag with
      | .error e => .error e
      | .ok flag =>
        let ops := ops.emplace encode newOp
        .ok (if flag = .pruneSub then pruneOpWithSamePrefix ops encode else ops)

def addOps (lastFullCkpTs : Nat) (txnIds : List Nat) (ops : OrderedMap Key (CatalogDeltaOperation π)) :
    List (CatalogDeltaOperation π) → Except Fault (OrderedMap Key (CatalogDeltaOperation π))
  | [] => .ok ops
  | op :: rest =>
    match addOp lastFullCkpTs txnIds ops op with
    | .error e => .error e
    | .ok ops => addOps lastFullCkpTs txnIds ops rest

def addDeltaEntryInner (g : GlobalCatalogDeltaEntry π) (e : CatalogDeltaEntry π) :
    Except Fault (GlobalCatalogDeltaEntry π) :=
  match e.maxCommitTs with
  | none => .error (.unrecoverable "max_commit_ts == UNCOMMIT_TS")
  | some ts =>
    match addOps g.lastFullCkpTs e.txnIds g.deltaOps e.operations with
    | .error err => .error err
    | .ok deltaOps => .ok {g with deltaOps, maxCommitTs := max g.maxCommitTs ts, txnIds := g.txnIds ∪ e.txnIds}

/-- The loop of `AddDeltaEntry`, once the entry in hand has been merged: as long as the top
of the heap is the next number, its entry follows. -/
def drain (g : GlobalCatalogDeltaEntry π) : List Nat → Except Fault (GlobalCatalogDeltaEntry π)
  | [] => .ok {g with sequenceHeap := []}
  | top :: heap =>
    if top = g.lastSequence + 1 then
      match g.deltaEntryMap.find? top with
      | none => .error (.unrecoverable s!"sequence_heap_.top() {top} in delta_entry_map_")
      | some e =>
        match addDeltaEntryInner {g with deltaEntryMap := g.deltaEntryMap.erase top} e with
        | .error err => .error err
        | .ok g' => drain {g' with lastSequence := g'.lastSequence + 1} heap
    else .ok {g with sequenceHeap := top :: heap}

def addDeltaEntry (g : GlobalCatalogDeltaEntry π) (e : CatalogDeltaEntry π) :
    Except Fault (GlobalCatalogDeltaEntry π) :=
  if e.sequence ≠ g.lastSequence + 1 then
    .ok { g with
      sequenceHeap := g.sequenceHeap.orderedInsert (· ≤ ·) e.sequence
      deltaEntryMap := g.deltaEntryMap.emplace e.sequence e }
  else
    match addDeltaEntryInner g e with
    | .error err => .error err
    | .ok g' => drain {g' with lastSequence := g'.lastSequence + 1} g'.sequenceHeap

/-- The entry to be written to a file: the merged operations from the database down, the
transactions they come from, and the timestamp the file claims. -/
def pickFlushEntry (g : GlobalCatalogDeltaEntry π) : CatalogDeltaEntry π × GlobalCatalogDeltaEntry π :=
  let ops := g.deltaOps.entries.map Prod.snd
  let maxTs := (ops.map CatalogDeltaOperation.commitTs).foldl max 0
  (⟨0, some (max maxTs g.maxCommitTs), g.txnIds, ops.mergeSort fun a b => a.type.code ≤ b.type.code⟩,
    {g with deltaOps := .empty, txnIds := []})

end GlobalCatalogDeltaEntry

end Infinity.Wal.Delta
