import Infinity.Hnsw.SearchLayer
import Infinity.Lib.Machine

/-! Building an HNSW graph with several threads.

`Build` locks its own vertex for as long as it runs, registers it as the enter point if
its layer is the highest so far, and then works its way down the layers: above the
vertex's own layer it walks to the nearest vertex, from there on it searches each layer,
selects neighbours and enters itself into their lists. Every other vertex is locked for
one look at its list, or one change to it. The threads are run in any order; one step
takes a thread from one operation on a lock to the next. -/
namespace Infinity.Hnsw

open Lib

variable {D : Type} [LinearOrder D]

/-- Where the `Build` of a vertex stands. A thread at a `…Read` or `…Write` holds the
lock that the point before it waits for. -/
inductive Pc (D : Type)
  | idle
  /-- Waiting for the lock of its own vertex. -/
  | called
  | entering
  /-- `TryUpdateEnterPoint` has returned this layer and enter point; there may be none. -/
  | adding (old : Option (Nat × Nat))
  | nearest (layer cur : Nat)
  | nearestRead (layer cur : Nat)
  | search (layer c : Nat) (s : Search D)
  | searchRead (layer c : Nat) (s : Search D)
  /-- The next neighbour to connect to, and those after it. -/
  | connect (layer n : Nat) (todo : List Nat)
  | connectWrite (layer n : Nat) (todo : List Nat)
  | finishing
  | returned

/-- The graph, its locks and the threads that build it; a thread goes by its vertex. -/
structure Graph (D : Type) where
  pc : Nat → Pc D := fun _ => .idle
  /-- The thread that holds a vertex's lock alone. -/
  writer : Nat → Option Nat := fun _ => none
  /-- The threads that share a vertex's lock. -/
  readers : Nat → List Nat := fun _ => []
  neighbors : Nat → Nat → List Nat := fun _ _ => []
  /-- `max_layer_` and `enterpoint_`, when they are not -1. -/
  entry : Option (Nat × Nat) := none

namespace Graph

def goto (s : Graph D) (v : Nat) (pc : Pc D) : Graph D := {s with pc := Function.update s.pc v pc}

def lockUnique (s : Graph D) (v c : Nat) : Graph D := {s with writer := Function.update s.writer c (some v)}

def unlockUnique (s : Graph D) (c : Nat) : Graph D := {s with writer := Function.update s.writer c none}

def lockShared (s : Graph D) (v c : Nat) : Graph D := {s with readers := Function.update s.readers c (v :: s.readers c)}

def unlockShared (s : Graph D) (v c : Nat) : Graph D :=
  {s with readers := Function.update s.readers c ((s.readers c).filter (· ≠ v))}

def setNeighbors (s : Graph D) (w layer : Nat) (list : List Nat) : Graph D :=
  {s with neighbors := Function.update s.neighbors w (Function.update (s.neighbors w) layer list)}

/-- `TryUpdateEnterPoint`. -/
def tryUpdateEnterPoint (s : Graph D) (layer v : Nat) : Graph D :=
  match s.entry with
  | some (maxLayer, _) => if maxLayer < layer then {s with entry := some (layer, v)} else s
  | none => {s with entry := some (layer, v)}

/-- `AddVertex`. -/
def addVertex (s : Graph D) (v : Nat) : Graph D := {s with neighbors := Function.update s.neighbors v fun _ => []}

end Graph

/-- A layer is begun at `ep`: by walking to the nearest vertex above the vertex's own
layer, else by a search. -/
def enterLayer (cfg : Config D) (v layer ep : Nat) : Pc D :=
  if cfg.layer v < layer then .nearest layer ep else .search layer ep (Search.start cfg v ep)

/-- After a layer is connected. The next one begins at the first neighbour selected. -/
def descend (cfg : Config D) (v : Nat) (own : Nat → List Nat) : Nat → Pc D
  | 0 => .finishing
  | layer + 1 => enterLayer cfg v layer ((own (layer + 1)).headD 0)

/-- The loop of `ConnectNeighbors`. -/
def connectNext (cfg : Config D) (v : Nat) (own : Nat → List Nat) (layer : Nat) : List Nat → Pc D
  | [] => descend cfg v own layer
  | n :: todo => .connect layer n todo

namespace Graph

/-- The loop of `SearchLayer` between two expansions; when it is over the neighbours are
selected. -/
def popOrSelect (cfg : Config D) (s : Graph D) (v layer : Nat) (search : Search D) : Graph D :=
  match search.pop cfg with
  | some (c, search') => s.goto v (.search layer c search')
  | none =>
    let s' := s.setNeighbors v layer (selectNeighbors cfg search.result cfg.m)
    s'.goto v (connectNext cfg v (s'.neighbors v) layer (s'.neighbors v layer))

/-- One step of the `Build` of `v`. -/
def act (cfg : Config D) (s : Graph D) (v : Nat) : Graph D :=
  match s.pc v with
  | .called => (s.lockUnique v v).goto v .entering
  | .entering => (s.tryUpdateEnterPoint (cfg.layer v) v).goto v (.adding s.entry)
  | .adding none => (s.addVertex v).goto v .finishing
  | .adding (some (maxLayer, ep)) => (s.addVertex v).goto v (enterLayer cfg v maxLayer ep)
  | .nearest layer cur => (s.lockShared v cur).goto v (.nearestRead layer cur)
  | .nearestRead layer cur =>
    let next := closer cfg v cur (s.neighbors cur layer)
    (s.unlockShared v cur).goto v
      (if next.2 then .nearest layer next.1 else enterLayer cfg v (layer - 1) next.1)
  | .search layer c search => (s.lockShared v c).goto v (.searchRead layer c search)
  | .searchRead layer c search =>
    (s.unlockShared v c).popOrSelect cfg v layer (search.expand cfg v (s.neighbors c layer))
  | .connect layer n todo => (s.lockUnique v n).goto v (.connectWrite layer n todo)
  | .connectWrite layer n todo =>
    let s' := (s.setNeighbors n layer (connectOne cfg v n layer (s.neighbors n layer))).unlockUnique n
    s'.goto v (connectNext cfg v (s'.neighbors v) layer todo)
  | .finishing => (s.unlockUnique v).goto v .returned
  | .idle => s
  | .returned => s

/-- The lock a thread waits for is free, or it waits for none. -/
def CanAct (s : Graph D) (v : Nat) : Prop :=
  match s.pc v with
  | .called => s.writer v = none ∧ s.readers v = []
  | .nearest _ cur => s.writer cur = none
  | .search _ c _ => s.writer c = none
  | .connect _ n _ => s.writer n = none ∧ s.readers n = []
  | .idle => False
  | .returned => False
  | _ => True

instance (s : Graph D) (v : Nat) : Decidable (s.CanAct v) := by
  unfold CanAct
  split <;> infer_instance

/-- A call of `Build`, or a step of one. -/
inductive Event
  | build (v : Nat)
  | act (v : Nat)

def Idle : Pc D → Prop
  | .idle => True
  | _ => False

instance (pc : Pc D) : Decidable (Idle pc) := by
  cases pc <;> unfold Idle <;> infer_instance

/-- `Build` is called once for a stored vertex. -/
def Allowed (cfg : Config D) (s : Graph D) : Event → Prop
  | .build v => v < cfg.curVecNum ∧ Idle (s.pc v)
  | .act v => s.CanAct v

instance (cfg : Config D) (s : Graph D) (e : Event) : Decidable (s.Allowed cfg e) := by
  cases e <;> unfold Allowed <;> infer_instance

def step (cfg : Config D) (s : Graph D) : Event → Graph D
  | .build v => s.goto v .called
  | .act v => s.act cfg v

/-- Any number of calls of `Build` under any interleaving. -/
def machine (cfg : Config D) : Machine (Graph D) Event Empty :=
  ⟨fun s e => s.Allowed cfg e, fun s e => .ok (s.step cfg e)⟩

instance (cfg : Config D) (s : Graph D) (e : Event) : Decidable ((machine cfg).enabled s e) :=
  inferInstanceAs (Decidable (s.Allowed cfg e))

end Graph

end Infinity.Hnsw
