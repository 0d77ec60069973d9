import Infinity.Wal.EntryNames
import Infinity.Lib.Machine

/-! Delta entries, numbered, merged and flushed.

A transaction gets the next sequence number in the bottom half of its commit. Its entry
reaches the global delta entry later, and not in that order: one that comes too early waits
in the heap. A delta checkpoint writes out what has been merged. `merged_in_order` follows
every entry from its commit to a file or to what is still to be flushed, and
`index_takes_segment_name` is what happens when an index is named like a segment. -/
namespace Infinity.Wal.Delta

open Lib List
open GlobalCatalogDeltaEntry

variable {ν π : Type}

/-! ### The calls -/

structure System (π : Type) where
  /-- The sequence number of the transaction manager. -/
  sequence : Nat
  /-- The timestamp of the commit last made. -/
  commitTs : Nat
  /-- The entries of the commits, in order. -/
  committed : List (CatalogDeltaEntry π)
  /-- The positions of those that have been handed over. -/
  arrived : List Nat
  globalEntry : GlobalCatalogDeltaEntry π
  /-- The `last_ckp_ts_` of the log manager. -/
  lastCkpTs : Nat
  /-- The delta files, in the order in which they were written. -/
  files : List (CatalogDeltaEntry π)

inductive Call (π : Type) where
  | commitBottom (txnId commitTs : Nat) (operations : List (CatalogDeltaOperation π))
  | addDeltaEntry (i : Nat)
  | saveDeltaCatalog

namespace System

/-- The end of `CommitBottom`: a transaction without operations leaves no entry. -/
def commitBottom (s : System π) (txnId commitTs : Nat) (operations : List (CatalogDeltaOperation π)) :
    Except Fault (System π) :=
  if operations.isEmpty then .ok {s with commitTs}
  else
    match (CatalogDeltaEntry.mk 0 none [] operations).saveState txnId commitTs (s.sequence + 1) with
    | .error e => .error e
    | .ok entry => .ok {s with sequence := s.sequence + 1, commitTs, committed := s.committed ++ [entry]}

def addDeltaEntry (s : System π) (i : Nat) : Except Fault (System π) :=
  match s.committed[i]? with
  | none => .ok s
  | some entry =>
    match s.globalEntry.addDeltaEntry entry with
    | .error e => .error e
    | .ok globalEntry => .ok {s with globalEntry, arrived := i :: s.arrived}

/-- `SaveDeltaCatalog` in `DeltaCheckpointInner`. -/
def saveDeltaCatalog (s : System π) : System π :=
  let (flushDeltaEntry, globalEntry) := s.globalEntry.pickFlushEntry
  let maxCommitTs := flushDeltaEntry.maxCommitTs.getD 0
  if s.lastCkpTs ≥ maxCommitTs then {s with globalEntry}
  else {s with globalEntry, lastCkpTs := maxCommitTs, files := s.files ++ [flushDeltaEntry]}

end System

def call (s : System π) : Call π → Except Fault (System π)
  | .commitBottom txnId commitTs operations => s.commitBottom txnId commitTs operations
  | .addDeltaEntry i => s.addDeltaEntry i
  | .saveDeltaCatalog => .ok s.saveDeltaCatalog

/-- Commits are made in the order of their timestamps, and an entry is handed over once. -/
def Allowed (s : System π) : Call π → Prop
  | .commitBottom _ commitTs _ => s.commitTs < commitTs
  | .addDeltaEntry i => i < s.committed.length ∧ i ∉ s.arrived
  | .saveDeltaCatalog => True

def sequencer : Machine (System π) (Call π) Fault := ⟨Allowed, call⟩

/-- After a full checkpoint up to `ckp`. -/
def start (π : Type) (ckp : Nat) : System π := ⟨0, ckp, [], [], ⟨0, [], .empty, .empty, [], 0, ckp⟩, ckp, []⟩

/-- What a transaction commits is a change of the catalog as it then is. -/
def Changes (N : Naming ν) (base : Catalog ν π) (s : System π) : Call π → Prop
  | .commitBottom _ commitTs operations =>
    ∃ c, Follows N base (s.committed.flatMap CatalogDeltaEntry.operations ++ operations.map ({· with commitTs})) c
  | _ => True

/-! ### Merging entry by entry -/

/-- Merge the operations of the entries, in this order. -/
def mergeEntries (ckp : Nat) (ops : Ops π) : List (CatalogDeltaEntry π) → Except Fault (Ops π)
  | [] => .ok ops
  | e :: es =>
    match addOps ckp e.txnIds ops e.operations with
    | .error err => .error err
    | .ok ops => mergeEntries ckp ops es

theorem mergeEntries_append {ckp : Nat} {D D' D'' : Ops π} {es : List (CatalogDeltaEntry π)} {e : CatalogDeltaEntry π}
    (h : mergeEntries ckp D es = .ok D') (h' : addOps ckp e.txnIds D' e.operations = .ok D'') :
    mergeEntries ckp D (es ++ [e]) = .ok D'' := by
  induction es generalizing D with
  | nil =>
    cases h
    simp only [nil_append, mergeEntries, h']
  | cons a es ih =>
    simp only [cons_append, mergeEntries] at h ⊢
    split at h
    · cases h
    · exact ih h

/-- The timestamp is the largest of the entries'. -/
def Largest (es : List (CatalogDeltaEntry π)) (ts : Nat) : Prop :=
  (∃ e ∈ es, e.maxCommitTs = some ts) ∧ ∀ e ∈ es, ∀ t, e.maxCommitTs = some t → t ≤ ts

/-- The file holds what merging the entries gives, and claims their largest timestamp. -/
def FileOf (ckp : Nat) (es : List (CatalogDeltaEntry π)) (file : CatalogDeltaEntry π) : Prop :=
  (∃ D, mergeEntries ckp .empty es = .ok D ∧ file.operations = fileOps D) ∧
    ∃ ts, file.maxCommitTs = some ts ∧ Largest es ts

/-! ### What holds between the calls -/

section Invariant

variable (N : Naming ν) (base : Catalog ν π) (ckp : Nat)

/-- The entries of the commits up to the timestamp `now`. -/
structure Stamped (now : Nat) (committed : List (CatalogDeltaEntry π)) : Prop where
  numbered : ∀ i e, committed[i]? = some e → e.sequence = i + 1
  stamp : ∀ e ∈ committed, ∃ t, e.maxCommitTs = some t ∧ ckp < t ∧ t ≤ now ∧ ∀ op ∈ e.operations, op.commitTs = t
  increasing : committed.Pairwise fun a b => ∀ t t', a.maxCommitTs = some t → b.maxCommitTs = some t' → t < t'
  follows : ∃ c, Follows N base (committed.flatMap CatalogDeltaEntry.operations) c

/-- The first `last` entries have been merged: the entries of `parts` went into the files,
which lead to the catalog `c`, and those in `unflushed` into the map, which leads on to `c'`. -/
structure Held (committed files : List (CatalogDeltaEntry π)) (lastCkpTs last : Nat) (D : Ops π) (top : Nat)
    (parts : List (List (CatalogDeltaEntry π))) (unflushed : List (CatalogDeltaEntry π)) (c c' : Catalog ν π) :
    Prop where
  split : parts.flatten ++ unflushed = committed.take last
  written : List.Forall₂ (FileOf ckp) parts files
  before : Follows N base (parts.flatten.flatMap CatalogDeltaEntry.operations) c
  loaded : (files.flatMap CatalogDeltaEntry.operations).foldl (load N) base.objects = c.objects
  since : Follows N c (unflushed.flatMap CatalogDeltaEntry.operations) c'
  merged : mergeEntries ckp .empty unflushed = .ok D
  consistent : Consistent N D c.objects c'.retired
  means : meaning N D c.objects = c'.objects
  dated : Dated ckp top D
  largest : unflushed ≠ [] → Largest unflushed top ∧ lastCkpTs < top
  nothing : unflushed = [] → top ≤ lastCkpTs
  claimed : lastCkpTs = ckp ∨ ∃ e ∈ committed.take last, e.maxCommitTs = some lastCkpTs

variable {N base ckp} {now lastCkpTs last top : Nat} {committed files unflushed : List (CatalogDeltaEntry π)} {D : Ops π}
  {parts : List (List (CatalogDeltaEntry π))} {c c' : Catalog ν π} {e : CatalogDeltaEntry π}

theorem Stamped.later (h : Stamped N base ckp now committed) (he : committed[last]? = some e) {t : Nat}
    (ht : e.maxCommitTs = some t) {e' : CatalogDeltaEntry π} (he' : e' ∈ committed.take last) {t' : Nat}
    (ht' : e'.maxCommitTs = some t') : t' < t := by
  obtain ⟨i, hi⟩ := mem_iff_getElem?.mp he'
  rw [getElem?_take] at hi
  split at hi
  · rename_i hlt
    obtain ⟨hi', rfl⟩ := List.getElem?_eq_some_iff.mp hi
    obtain ⟨hl', rfl⟩ := List.getElem?_eq_some_iff.mp he
    exact pairwise_iff_getElem.mp h.increasing i last hi' hl' hlt t' t ht' ht
  · cases hi

section
variable (h : Held N base ckp committed files lastCkpTs last D top parts unflushed c c')
include h

theorem Held.next (hs : Stamped N base ckp now committed) (he : committed[last]? = some e) :
    ∃ D' c'' t, e.maxCommitTs = some t ∧ addOps ckp e.txnIds D e.operations = .ok D' ∧
      Held N base ckp committed files lastCkpTs (last + 1) D' (max top t) parts (unflushed ++ [e]) c c'' := by
  obtain ⟨t, ht, hckp, -, hops⟩ := hs.stamp e (mem_of_getElem? he)
  have htake : committed.take (last + 1) = committed.take last ++ [e] := by rw [take_add_one, he]; rfl
  have hmerged (a : CatalogDeltaEntry π) (ha : a ∈ unflushed) : a ∈ committed.take last :=
    h.split ▸ mem_append_right _ ha
  have hlast : lastCkpTs < t := by
    obtain hl | ⟨a, ha, hl⟩ := h.claimed
    · exact hl ▸ hckp
    · exact hs.later he ht ha hl
  have htop : top < t := by
    by_cases hu : unflushed = []
    · exact lt_of_le_of_lt (h.nothing hu) hlast
    · obtain ⟨⟨a, ha, hat⟩, -⟩ := (h.largest hu).1
      exact hs.later he ht (hmerged a ha) hat
  -- the operations of the entry are changes of what has been merged so far
  obtain ⟨c'', hnext⟩ : ∃ c'', Follows N c' e.operations c'' := by
    obtain ⟨cend, hend⟩ := hs.follows
    rw [← take_append_drop (last + 1) committed, htake, ← h.split, flatMap_append, flatMap_append,
      flatMap_append] at hend
    obtain ⟨m, hm, -⟩ := Follows.append_iff.mp hend
    obtain ⟨m', hm', hlast⟩ := Follows.append_iff.mp hm
    obtain ⟨m'', hbefore, hsince⟩ := Follows.append_iff.mp hm'
    obtain rfl := hbefore.unique h.before
    obtain rfl := hsince.unique h.since
    exact ⟨m, by simpa using hlast⟩
  obtain ⟨D', hadd, hc, hm, hd⟩ := addOps_spec e.txnIds hnext h.consistent h.means (h.dated.mono htop.le)
    fun op hop => by rw [hops op hop]; exact ⟨hckp, le_rfl⟩
  refine ⟨D', c'', t, ht, hadd, ?_⟩
  rw [max_eq_right htop.le]
  refine ⟨?_, h.written, h.before, h.loaded, ?_, mergeEntries_append h.merged hadd, hc, hm, hd, fun _ => ⟨⟨?_, ?_⟩, hlast⟩,
    fun hu => absurd hu (by simp), ?_⟩
  · rw [← append_assoc, h.split, htake]
  · rw [flatMap_append]
    exact Follows.append_iff.mpr ⟨c', h.since, by simpa using hnext⟩
  · exact ⟨e, by simp, ht⟩
  · intro a ha t' ht'
    obtain ha | ha := mem_append.mp ha
    · exact (hs.later he ht (hmerged a ha) ht').le
    · rw [mem_singleton.mp ha, ht] at ht'
      cases ht'
      exact le_rfl
  · refine h.claimed.imp_right fun ⟨a, ha, hat⟩ => ⟨a, ?_, hat⟩
    rw [htake]
    exact mem_append_left _ ha

/-- A checkpoint with nothing to flush writes no file, any other one writes what the map holds. -/
theorem Held.save (hb : Closed N base.objects) : lastCkpTs ≥ top ∧ D = .empty ∨
      ¬ lastCkpTs ≥ top ∧ ∀ file : CatalogDeltaEntry π, file.operations = fileOps D → file.maxCommitTs = some top →
        Held N base ckp committed (files ++ [file]) top last .empty top (parts ++ [unflushed]) [] c' c' := by
  by_cases hu : unflushed = []
  · left
    have hm := h.merged
    rw [hu] at hm
    exact ⟨h.nothing hu, by cases hm; rfl⟩
  · right
    obtain ⟨hlargest, hlt⟩ := h.largest hu
    refine ⟨not_le.mpr hlt, fun file hops hts => ?_⟩
    have hfollows : Follows N base ((parts.flatten ++ unflushed).flatMap CatalogDeltaEntry.operations) c' := by
      rw [flatMap_append]
      exact Follows.append_iff.mpr ⟨c, h.before, h.since⟩
    refine ⟨by simpa using h.split, ?_, by simpa using hfollows, ?_, .nil c', rfl,
      .empty N (hfollows.closed hb) _, meaning_empty N _, fun _ _ hop => by simp at hop, fun hc => absurd rfl hc,
      fun _ => le_rfl, ?_⟩
    · exact rel_append h.written (.cons ⟨⟨D, h.merged, hops⟩, top, hts, hlargest⟩ .nil)
    · rw [flatMap_append, foldl_append, h.loaded, flatMap_cons, flatMap_nil, append_nil, hops,
        foldl_load_eq h.consistent, h.means]
    · obtain ⟨⟨a, ha, hat⟩, -⟩ := hlargest
      exact .inr ⟨a, h.split ▸ mem_append_right _ ha, hat⟩

end

end Invariant

/-! ### Entries that wait -/

section Waiting

variable {committed : List (CatalogDeltaEntry π)} {arrived heap : List Nat} {last : Nat}
  {pending : OrderedMap Nat (CatalogDeltaEntry π)} {e : CatalogDeltaEntry π}

/-- The entries that arrived and are not among the first `last` wait in the heap. -/
structure Waiting (committed : List (CatalogDeltaEntry π)) (arrived : List Nat) (last : Nat) (heap : List Nat)
    (pending : OrderedMap Nat (CatalogDeltaEntry π)) : Prop where
  bound : last ≤ committed.length
  known : ∀ i ∈ arrived, i < committed.length
  merged : ∀ i < last, i ∈ arrived
  sorted : heap.Pairwise (· ≤ ·)
  nodup : heap.Nodup
  mem : ∀ k, k ∈ heap ↔ ∃ i ∈ arrived, k = i + 1 ∧ last ≤ i
  found : ∀ i e, pending.find? (i + 1) = some e ↔ i + 1 ∈ heap ∧ committed[i]? = some e

theorem Waiting.pop (h : Waiting committed arrived last ((last + 1) :: heap) pending) :
    ∃ e, committed[last]? = some e ∧ pending.find? (last + 1) = some e ∧
      Waiting committed arrived (last + 1) heap (pending.erase (last + 1)) := by
  obtain ⟨i, hi, hik, -⟩ := (h.mem (last + 1)).mp mem_cons_self
  obtain rfl : i = last := by omega
  have hlt := h.known i hi
  obtain ⟨-, hsorted⟩ := pairwise_cons.mp h.sorted
  obtain ⟨hnew, hnodup⟩ := nodup_cons.mp h.nodup
  have he := getElem?_eq_getElem hlt
  refine ⟨committed[i], he, (h.found i _).mpr ⟨mem_cons_self, he⟩, hlt, h.known, fun j hj => ?_, hsorted, hnodup,
    fun k => ⟨fun hk => ?_, ?_⟩, fun j e => ?_⟩
  · obtain hj | rfl := Nat.lt_succ_iff_lt_or_eq.mp hj
    · exact h.merged j hj
    · exact hi
  · obtain ⟨j, hj, rfl, hle⟩ := (h.mem k).mp (mem_cons_of_mem _ hk)
    refine ⟨j, hj, rfl, Nat.lt_of_le_of_ne hle ?_⟩
    rintro rfl
    exact hnew hk
  · rintro ⟨j, hj, rfl, hle⟩
    refine (mem_cons.mp ((h.mem (j + 1)).mpr ⟨j, hj, rfl, by omega⟩)).resolve_left ?_
    omega
  · rw [OrderedMap.find?_erase]
    by_cases hj : j + 1 = i + 1
    · simp [hj, hnew]
    · rw [if_neg hj, h.found, mem_cons, or_iff_right hj]

theorem Waiting.stuck (h : Waiting committed arrived last heap pending) (htop : heap.head? ≠ some (last + 1)) :
    last ∉ arrived := by
  intro hlast
  have hmem := (h.mem (last + 1)).mpr ⟨last, hlast, rfl, le_rfl⟩
  cases heap with
  | nil => cases hmem
  | cons top heap =>
    obtain ⟨hle, -⟩ := pairwise_cons.mp h.sorted
    obtain ⟨i, -, hi, hlt⟩ := (h.mem top).mp mem_cons_self
    obtain rfl | hmem := mem_cons.mp hmem
    · exact htop rfl
    · have := hle _ hmem
      exact htop (by simp; omega)

theorem Waiting.push {i : Nat} (h : Waiting committed arrived last heap pending) (hi : committed[i]? = some e)
    (hnew : i ∉ arrived) (hne : i ≠ last) :
    Waiting committed (i :: arrived) last (heap.orderedInsert (· ≤ ·) (i + 1)) (pending.emplace (i + 1) e) := by
  have hle : last ≤ i := by
    by_contra hc
    exact hnew (h.merged i (by omega))
  have hnotin : i + 1 ∉ heap := by
    intro hc
    obtain ⟨j, hj, hji, -⟩ := (h.mem _).mp hc
    exact hnew (Nat.succ_injective hji ▸ hj)
  refine ⟨h.bound, ?_, fun j hj => mem_cons_of_mem _ (h.merged j hj), h.sorted.orderedInsert _ _,
    (perm_orderedInsert _ _ _).nodup_iff.mpr (nodup_cons.mpr ⟨hnotin, h.nodup⟩), fun k => ?_, fun j e' => ?_⟩
  · intro j hj
    obtain rfl | hj := mem_cons.mp hj
    · exact (List.getElem?_eq_some_iff.mp hi).1
    · exact h.known j hj
  · rw [mem_orderedInsert, h.mem]
    constructor
    · rintro (rfl | ⟨j, hj, hk⟩)
      · exact ⟨i, mem_cons_self, rfl, hle⟩
      · exact ⟨j, mem_cons_of_mem _ hj, hk⟩
    · rintro ⟨j, hj, rfl, hk⟩
      obtain rfl | hj := mem_cons.mp hj
      · exact .inl rfl
      · exact .inr ⟨j, hj, rfl, hk⟩
  · rw [OrderedMap.find?_emplace, mem_orderedInsert]
    by_cases hji : j = i
    · subst hji
      have hnone : pending.find? (j + 1) = none := by
        by_contra hc
        obtain ⟨b, hb⟩ := Option.ne_none_iff_exists'.mp hc
        exact hnotin ((h.found j b).mp hb).1
      simp [hnone, hi]
    · rw [if_neg (by omega), h.found, or_iff_right (by omega)]

end Waiting

/-! ### One call -/

section Calls

variable (N : Naming ν) (base : Catalog ν π) (ckp : Nat)

/-- What the global delta entry has merged, with `heap` still to be looked at. -/
structure Progress (committed : List (CatalogDeltaEntry π)) (arrived : List Nat) (lastCkpTs : Nat)
    (files : List (CatalogDeltaEntry π)) (heap : List Nat) (g : GlobalCatalogDeltaEntry π) : Prop where
  full : g.lastFullCkpTs = ckp
  waiting : Waiting committed arrived g.lastSequence heap g.deltaEntryMap
  held : ∃ parts unflushed c c',
    Held N base ckp committed files lastCkpTs g.lastSequence g.deltaOps g.maxCommitTs parts unflushed c c'

structure Inv (s : System π) : Prop where
  counted : s.sequence = s.committed.length
  stamped : Stamped N base ckp s.commitTs s.committed
  started : ckp ≤ s.commitTs
  progress : Progress N base ckp s.committed s.arrived s.lastCkpTs s.files s.globalEntry.sequenceHeap s.globalEntry
  next : s.globalEntry.lastSequence ∉ s.arrived

variable {N base ckp} {now lastCkpTs : Nat} {committed files : List (CatalogDeltaEntry π)} {arrived heap : List Nat}
  {g : GlobalCatalogDeltaEntry π} {e : CatalogDeltaEntry π}

section
variable (hs : Stamped N base ckp now committed)
include hs

theorem addDeltaEntryInner_spec (hfull : g.lastFullCkpTs = ckp) (hheld : ∃ parts unflushed c c',
      Held N base ckp committed files lastCkpTs g.lastSequence g.deltaOps g.maxCommitTs parts unflushed c c')
    (he : committed[g.lastSequence]? = some e) :
    ∃ D top txnIds, addDeltaEntryInner g e = .ok {g with deltaOps := D, maxCommitTs := top, txnIds} ∧
      ∃ parts unflushed c c', Held N base ckp committed files lastCkpTs (g.lastSequence + 1) D top parts unflushed c c' := by
  obtain ⟨parts, unflushed, c, c', h⟩ := hheld
  obtain ⟨D', c'', t, ht, hadd, h'⟩ := h.next hs he
  rw [← hfull] at hadd
  exact ⟨D', max g.maxCommitTs t, _, by simp only [addDeltaEntryInner, ht, hadd]; rfl, parts, unflushed ++ [e], c, c'', h'⟩

/-- The loop takes entry after entry from the heap, until the next one is not there. -/
theorem drain_spec (h : Progress N base ckp committed arrived lastCkpTs files heap g) :
    ∃ g', drain g heap = .ok g' ∧ Progress N base ckp committed arrived lastCkpTs files g'.sequenceHeap g' ∧
      g'.lastSequence ∉ arrived := by
  induction heap generalizing g with
  | nil => exact ⟨{g with sequenceHeap := []}, rfl, ⟨h.full, h.waiting, h.held⟩, h.waiting.stuck (by simp)⟩
  | cons top heap ih =>
    rw [drain]
    by_cases htop : top = g.lastSequence + 1
    · subst htop
      obtain ⟨e, he, hfind, hwait⟩ := h.waiting.pop
      obtain ⟨D, ts, txnIds, hadd, hheld⟩ := addDeltaEntryInner_spec
        (g := {g with deltaEntryMap := g.deltaEntryMap.erase (g.lastSequence + 1)}) hs h.full h.held he
      simp only [hfind, hadd]
      exact ih ⟨h.full, hwait, hheld⟩
    · rw [if_neg htop]
      exact ⟨_, rfl, ⟨h.full, h.waiting, h.held⟩, h.waiting.stuck (by simpa using htop)⟩

theorem addDeltaEntry_spec {i : Nat}
    (h : Progress N base ckp committed arrived lastCkpTs files g.sequenceHeap g) (hnext : g.lastSequence ∉ arrived)
    (he : committed[i]? = some e) (hnew : i ∉ arrived) :
    ∃ g', g.addDeltaEntry e = .ok g' ∧
      Progress N base ckp committed (i :: arrived) lastCkpTs files g'.sequenceHeap g' ∧ g'.lastSequence ∉ i :: arrived := by
  have hseq : e.sequence = i + 1 := hs.numbered i e he
  rw [GlobalCatalogDeltaEntry.addDeltaEntry, hseq]
  by_cases hi : i = g.lastSequence
  · subst hi
    obtain ⟨D, ts, txnIds, hadd, hheld⟩ := addDeltaEntryInner_spec hs h.full h.held he
    simp only [ne_eq, hadd]
    refine drain_spec hs ⟨h.full, ?_, hheld⟩
    have hw := h.waiting
    refine ⟨(List.getElem?_eq_some_iff.mp he).1, ?_, fun j hj => ?_, hw.sorted, hw.nodup, fun k => ?_, hw.found⟩
    · intro j hj
      obtain rfl | hj := mem_cons.mp hj
      · exact (List.getElem?_eq_some_iff.mp he).1
      · exact hw.known j hj
    · obtain hj | rfl := Nat.lt_succ_iff_lt_or_eq.mp hj
      · exact mem_cons_of_mem _ (hw.merged j hj)
      · exact mem_cons_self
    · rw [hw.mem]
      constructor
      · rintro ⟨j, hj, rfl, hle⟩
        refine ⟨j, mem_cons_of_mem _ hj, rfl, Nat.lt_of_le_of_ne hle ?_⟩
        rintro rfl
        exact hnew hj
      · rintro ⟨j, hj, rfl, hle⟩
        obtain rfl | hj := mem_cons.mp hj
        · exact absurd hle (by simp)
        · exact ⟨j, hj, rfl, Nat.le_of_succ_le hle⟩
  · rw [if_pos (by omega)]
    refine ⟨_, rfl, ⟨h.full, h.waiting.push he hnew hi, h.held⟩, ?_⟩
    rw [mem_cons, not_or]
    exact ⟨fun hc => hi hc.symm, hnext⟩

end

variable {s : System π}

theorem Stamped.commit {ts txnId : Nat} {operations : List (CatalogDeltaOperation π)}
    (h : Stamped N base ckp now committed) (hckp : ckp ≤ now) (hts : now < ts)
    (hf : ∃ c, Follows N base (committed.flatMap CatalogDeltaEntry.operations ++ operations.map ({· with commitTs := ts})) c) :
    Stamped N base ckp ts
      (committed ++ [⟨committed.length + 1, some ts, [txnId], operations.map ({· with commitTs := ts})⟩]) where
  numbered i e he := by
    rw [getElem?_append] at he
    split at he
    · exact h.numbered i e he
    rename_i hi
    rw [getElem?_singleton] at he
    split at he
    · cases he
      simp only
      omega
    · cases he
  stamp e he := by
    obtain he | he := mem_append.mp he
    · obtain ⟨t, ht, hlt, hle, hops⟩ := h.stamp e he
      exact ⟨t, ht, hlt, by omega, hops⟩
    rw [mem_singleton.mp he]
    refine ⟨ts, rfl, by omega, le_rfl, fun op hop => ?_⟩
    obtain ⟨o, -, rfl⟩ := mem_map.mp hop
    rfl
  increasing := by
    refine pairwise_append.mpr ⟨h.increasing, pairwise_singleton _ _, fun a ha b hb t t' ht ht' => ?_⟩
    simp [mem_singleton.mp hb] at ht'
    obtain ⟨t₀, ht₀, -, hle, -⟩ := h.stamp a ha
    simp [ht₀] at ht
    omega
  follows := by
    obtain ⟨c, hc⟩ := hf
    exact ⟨c, by simpa [flatMap_append] using hc⟩

theorem Progress.commit (h : Progress N base ckp committed arrived lastCkpTs files heap g) (e : CatalogDeltaEntry π) :
    Progress N base ckp (committed ++ [e]) arrived lastCkpTs files heap g := by
  have hw := h.waiting
  have htake : (committed ++ [e]).take g.lastSequence = committed.take g.lastSequence :=
    take_append_of_le_length hw.bound
  have hlen : (committed ++ [e]).length = committed.length + 1 := by simp
  refine ⟨h.full, ⟨?_, fun i hi => ?_, hw.merged, hw.sorted, hw.nodup, hw.mem, fun i a => ?_⟩, ?_⟩
  · have := hw.bound
    omega
  · have := hw.known i hi
    omega
  · rw [hw.found]
    refine and_congr_right fun hmem => ?_
    obtain ⟨j, hj, hji, -⟩ := (hw.mem _).mp hmem
    rw [getElem?_append_left (Nat.succ_injective hji ▸ hw.known j hj)]
  · obtain ⟨parts, unflushed, c, c', hh⟩ := h.held
    exact ⟨parts, unflushed, c, c', htake ▸ hh.split, hh.written, hh.before, hh.loaded, hh.since, hh.merged,
      hh.consistent, hh.means, hh.dated, hh.largest, hh.nothing, htake ▸ hh.claimed⟩

theorem inv_commitBottom {txnId ts : Nat} {operations : List (CatalogDeltaOperation π)} (h : Inv N base ckp s)
    (hts : s.commitTs < ts) (hc : Changes N base s (.commitBottom txnId ts operations)) :
    ∃ s', s.commitBottom txnId ts operations = .ok s' ∧ Inv N base ckp s' := by
  rw [System.commitBottom]
  have hstart := h.started
  by_cases hempty : operations.isEmpty
  · rw [if_pos hempty]
    have hst := h.stamped
    refine ⟨_, rfl, h.counted, ⟨hst.numbered, fun e he => ?_, hst.increasing, hst.follows⟩, by simp only; omega,
      h.progress, h.next⟩
    obtain ⟨t, ht, hlt, hle, hops⟩ := hst.stamp e he
    exact ⟨t, ht, hlt, hle.trans hts.le, hops⟩
  · rw [if_neg hempty]
    refine ⟨_, rfl, by simp [h.counted], ?_, by simp only; omega, h.progress.commit _, h.next⟩
    rw [h.counted]
    exact h.stamped.commit hstart hts hc

theorem inv_addDeltaEntry {i : Nat} (h : Inv N base ckp s) (hi : Allowed s (.addDeltaEntry i)) :
    ∃ s', s.addDeltaEntry i = .ok s' ∧ Inv N base ckp s' := by
  obtain ⟨hlt, hnew⟩ := hi
  have he := getElem?_eq_getElem hlt
  obtain ⟨g', hadd, hp, hnext⟩ := addDeltaEntry_spec h.stamped h.progress h.next he hnew
  refine ⟨{s with globalEntry := g', arrived := i :: s.arrived}, ?_, h.counted, h.stamped, h.started, hp, hnext⟩
  simp only [System.addDeltaEntry, he, hadd]

theorem pickFlushEntry_maxCommitTs (h : Dated ckp g.maxCommitTs g.deltaOps) :
    g.pickFlushEntry.1.maxCommitTs = some g.maxCommitTs := by
  have hle : ∀ (l : List Nat) (a : Nat), a ≤ g.maxCommitTs → (∀ t ∈ l, t ≤ g.maxCommitTs) →
      l.foldl max a ≤ g.maxCommitTs := by
    intro l
    induction l with
    | nil => exact fun a ha _ => ha
    | cons t l ih =>
      exact fun a ha ht => ih _ (max_le ha (ht t mem_cons_self)) fun x hx => ht x (mem_cons_of_mem _ hx)
  refine congrArg some (max_eq_right (hle _ 0 (Nat.zero_le _) fun t ht => ?_))
  obtain ⟨op, hop, rfl⟩ := mem_map.mp ht
  obtain ⟨⟨k, b⟩, hb, rfl⟩ := mem_map.mp hop
  exact (h k b ((g.deltaOps.mem_entries k b).mp hb)).2

theorem inv_saveDeltaCatalog (hb : Closed N base.objects) (h : Inv N base ckp s) : Inv N base ckp s.saveDeltaCatalog := by
  obtain ⟨parts, unflushed, c, c', hh⟩ := h.progress.held
  have hmax := pickFlushEntry_maxCommitTs hh.dated
  have hsave : s.saveDeltaCatalog = if s.lastCkpTs ≥ s.globalEntry.maxCommitTs then
      {s with globalEntry := {s.globalEntry with deltaOps := .empty, txnIds := []}}
    else {s with
      globalEntry := {s.globalEntry with deltaOps := .empty, txnIds := []}
      lastCkpTs := s.globalEntry.maxCommitTs
      files := s.files ++ [s.globalEntry.pickFlushEntry.1]} := by
    have hts : s.globalEntry.pickFlushEntry.1.maxCommitTs.getD 0 = s.globalEntry.maxCommitTs := by rw [hmax]; rfl
    rw [← hts]
    rfl
  rw [hsave]
  obtain ⟨hge, hD⟩ | ⟨hlt, hfile⟩ := hh.save hb
  · rw [if_pos hge]
    exact ⟨h.counted, h.stamped, h.started, ⟨h.progress.full, h.progress.waiting, parts, unflushed, c, c', hD ▸ hh⟩, h.next⟩
  · rw [if_neg hlt]
    exact ⟨h.counted, h.stamped, h.started,
      ⟨h.progress.full, h.progress.waiting, parts ++ [unflushed], [], c', c', hfile _ rfl hmax⟩, h.next⟩

theorem inv_call {a : Call π} (hb : Closed N base.objects) (h : Inv N base ckp s) (ha : Allowed s a)
    (hc : Changes N base s a) : ∃ s', call s a = .ok s' ∧ Inv N base ckp s' := by
  cases a with
  | commitBottom txnId ts operations => exact inv_commitBottom h ha hc
  | addDeltaEntry i => exact inv_addDeltaEntry h ha
  | saveDeltaCatalog => exact ⟨_, rfl, inv_saveDeltaCatalog hb h⟩

theorem inv_start (N : Naming ν) {base : Catalog ν π} (hb : Closed N base.objects) (ckp : Nat) :
    Inv N base ckp (start π ckp) where
  counted := rfl
  stamped := ⟨nofun, nofun, .nil, base, .nil base⟩
  started := le_rfl
  next := nofun
  progress := by
    refine ⟨rfl, ⟨le_rfl, nofun, nofun, .nil, .nil, fun k => by simp [start], fun i e => by simp [start]⟩, ?_⟩
    exact ⟨[], [], base, base, rfl, .nil, .nil base, rfl, .nil base, rfl, .empty N hb _, meaning_empty N _,
      fun _ _ hop => by simp [start] at hop, fun hc => absurd rfl hc, fun _ => Nat.zero_le _, .inl rfl⟩

/-- **Entries are merged in sequence order, each once, and flushed once.** The first
`last_sequence_` entries have been merged, as soon as these have arrived. The entries of the
files and those still to be flushed are these, in order and without overlap; each file
claims the largest timestamp of its entries, and loading the files and then what is still to
be flushed does what the operations of the entries do. -/
theorem merged_in_order {N : Naming ν} {base : Catalog ν π} {ckp : Nat} {s : System π} {calls : List (Call π)}
    (hb : Closed N base.objects) (h : (sequencer.restrict (Changes N base)).Run (start π ckp) calls s) :
    (∀ a, Allowed s a → Changes N base s a → ∃ s', call s a = .ok s') ∧
    (∀ i e, s.committed[i]? = some e → e.sequence = i + 1) ∧
    (∀ n, (∀ i < n, i ∈ s.arrived) ↔ n ≤ s.globalEntry.lastSequence) ∧
    ∃ parts unflushed,
      parts.flatten ++ unflushed = s.committed.take s.globalEntry.lastSequence ∧
      List.Forall₂ (FileOf ckp) parts s.files ∧
      mergeEntries ckp .empty unflushed = .ok s.globalEntry.deltaOps ∧
      (s.files.flatMap CatalogDeltaEntry.operations ++ s.globalEntry.pickFlushEntry.1.operations).foldl (load N)
          base.objects =
        (((s.committed.take s.globalEntry.lastSequence).flatMap CatalogDeltaEntry.operations).map
          CatalogDeltaOperation.checkDelete).foldl (load N) base.objects := by
  have keeps (s : System π) (a : Call π) (s' : System π) (hi : Inv N base ckp s)
      (ha : (sequencer.restrict (Changes N base)).enabled s a) (hs : call s a = .ok s') : Inv N base ckp s' := by
    obtain ⟨s'', hs'', hi'⟩ := inv_call hb hi ha.1 ha.2
    rw [hs''] at hs
    cases hs
    exact hi'
  have hinv := h.invariant keeps (inv_start N hb ckp)
  obtain ⟨parts, unflushed, c, c', hh⟩ := hinv.progress.held
  refine ⟨fun a ha hc => ?_, hinv.stamped.numbered, fun n => ⟨fun hn => ?_, fun hn i hi => ?_⟩, parts, unflushed,
    hh.split, hh.written, hh.merged, ?_⟩
  · obtain ⟨s', hs', -⟩ := inv_call hb hinv ha hc
    exact ⟨s', hs'⟩
  · by_contra hlt
    exact hinv.next (hn _ (by omega))
  · exact hinv.progress.waiting.merged i (by omega)
  · have hall : Follows N base ((s.committed.take s.globalEntry.lastSequence).flatMap CatalogDeltaEntry.operations) c' := by
      rw [← hh.split, flatMap_append]
      exact Follows.append_iff.mpr ⟨c, hh.before, hh.since⟩
    have hfile : s.globalEntry.pickFlushEntry.1.operations = fileOps s.globalEntry.deltaOps := rfl
    rw [← hall.objects, foldl_append, hh.loaded, hfile, foldl_load_eq hh.consistent, hh.means]

end Calls

/-- A new entry of the type under the name, as its transaction leaves it. -/
def newEntry (type : CatalogDeltaOpType) (encode : Key) : CatalogDeltaOperation Unit :=
  ⟨type, encode, .new, 0, false, [], ()⟩

/-- A catalog without entries. -/
def bare : Catalog EntryName Unit := ⟨fun _ => none, fun _ => False⟩

theorem closed_bare : Closed entryNaming bare.objects := fun _ _ _ h => absurd rfl h

def dbName : Identifier := ⟨['d'], by decide⟩

def newDatabase (ts : Nat) : CatalogDeltaOperation Unit :=
  {newEntry .addDatabaseEntry (EntryName.database dbName).encode with commitTs := ts}

def newTable (ts : Nat) : CatalogDeltaOperation Unit :=
  {newEntry .addTableEntry (EntryName.table dbName dbName).encode with commitTs := ts}

theorem valid_newDatabase (ts : Nat) : Valid entryNaming bare (.database dbName) (newDatabase ts) := by
  refine ⟨rfl, rfl, fun h => absurd rfl h, .inl ⟨rfl, rfl, fun a hu => ?_, fun _ => id⟩⟩
  have hlt : a.type.code < 1 := entryNaming.type_lt a _ hu
  cases a <;> simp [EntryName.type, CatalogDeltaOpType.code] at hlt

theorem valid_newTable (ts ts' : Nat) :
    Valid entryNaming (bare.apply entryNaming (newDatabase ts)) (.table dbName dbName) (newTable ts') := by
  have hne : entryNaming.encode (.table dbName dbName) ≠ entryNaming.encode (.database dbName) :=
    entryNaming.encode_injective.ne nofun
  refine ⟨rfl, rfl, fun h => absurd rfl h, .inl ⟨rfl, ?_, fun a hu => ?_, fun _ => ?_⟩⟩
  · show load entryNaming bare.objects (newDatabase ts) (.table dbName dbName) = none
    rw [load, if_neg (show entryNaming.encode (.table dbName dbName) ≠ (newDatabase ts).encode from hne), if_neg fun h => by simp [CatalogDeltaOperation.Kills, newDatabase, newEntry] at h]
    rfl
  · rw [under_table hu]
    show load entryNaming bare.objects (newDatabase ts) (.database dbName) ≠ none
    rw [load, if_pos (show entryNaming.encode (.database dbName) = (newDatabase ts).encode from rfl)]
    simp [CatalogDeltaOperation.result, newDatabase, newEntry]
  · simp [Catalog.apply, newDatabase, newEntry, bare]

/-- The entry of a table arrives before that of its database. -/
theorem merged_in_order_early : ∃ s, (sequencer.restrict (Changes entryNaming bare)).Run (start Unit 0)
      [.commitBottom 1 1 [newDatabase 0], .commitBottom 2 2 [newTable 0], .addDeltaEntry 1, .saveDeltaCatalog,
        .addDeltaEntry 0, .saveDeltaCatalog] s ∧
      (∀ i < 2, i ∈ s.arrived) ∧ 2 ≤ s.globalEntry.lastSequence := by
  have hrun : ∃ s, (sequencer.restrict (Changes entryNaming bare)).Run (start Unit 0)
      [.commitBottom 1 1 [newDatabase 0], .commitBottom 2 2 [newTable 0], .addDeltaEntry 1, .saveDeltaCatalog,
        .addDeltaEntry 0, .saveDeltaCatalog] s ∧ s.arrived = [0, 1] := by
    refine ⟨_, .cons ⟨Nat.zero_lt_one, ?_⟩ rfl <| .cons ⟨Nat.one_lt_two, ?_⟩ rfl <|
      .cons ⟨⟨by decide, by decide⟩, trivial⟩ rfl <| .cons ⟨trivial, trivial⟩ rfl <|
      .cons ⟨⟨by decide, by decide⟩, trivial⟩ rfl <| .cons ⟨trivial, trivial⟩ rfl <| .nil _, rfl⟩
    · exact ⟨_, .cons (valid_newDatabase 1) (.nil _)⟩
    · exact ⟨_, .cons (valid_newDatabase 1) (.cons (valid_newTable 1 2) (.nil _))⟩
  obtain ⟨s, hs, harrived⟩ := hrun
  have hall : ∀ i < 2, i ∈ s.arrived := by
    rw [harrived]
    decide
  exact ⟨s, hs, hall, ((merged_in_order closed_bare hs).2.2.1 2).mp hall⟩

/-! ### Names that are not told apart -/

/-- The encoded name of the table `t` in the database `d`. -/
def tableName : Key := encodeIndex (encodeIndex [] ['d']) ['t']

/-- Index names are not checked as database and table names are. The index `0` of a table has
the encoded name of its segment 0, and its entry cannot be merged. -/
theorem index_takes_segment_name : identifierValidation ['0'] = .invalidName ∧
    ∃ s, sequencer.Run (start Unit 0)
      [.commitBottom 1 1 [newEntry .addSegmentEntry (encodeIndex tableName (digits 0))],
        .commitBottom 2 2 [newEntry .addTableIndexEntry (encodeIndex tableName ['0'])], .addDeltaEntry 0] s ∧
      Allowed s (.addDeltaEntry 1) ∧
      call s (.addDeltaEntry 1) = .error (.unrecoverable "Merge failed, encode: #d#t#0 txn_ids: [2]") := by
  refine ⟨by decide, _, .cons ?_ rfl <| .cons ?_ rfl <| .cons ?_ rfl <| .nil _, ?_, ?_⟩
  · exact Nat.zero_lt_one
  · exact Nat.one_lt_two
  · exact ⟨by decide, by decide⟩
  · exact ⟨by decide, by decide⟩
  · rfl

end Infinity.Wal.Delta
