import Infinity.Lib.Heap
import Infinity.Search.BooleanIterators

/-! The or iterator of full-text search.

`OrIterator` keeps the documents of its children in a heap with the lowest on top. The first
call starts every child and builds the heap. A later one moves the children on top that are
below the target. An iterator at its end has the same `doc_id_` as one that was not started:
a call starts it again, which appends a second entry for every child. -/
namespace Infinity.Search

open Lib Lib.Cursor Lib.Heap List Function

/-- `DocIteratorEntry` -/
structure Entry where
  docId : Nat
  entryId : Nat
  deriving DecidableEq, Repr

/-- `DocIteratorHeap`; positions count from 1. -/
structure DocHeap where
  size : Nat
  entry : Nat → Entry

namespace DocHeap

def empty : DocHeap := ⟨0, fun _ => ⟨invalidRowId, 0⟩⟩

def addEntry (h : DocHeap) (e : Entry) : DocHeap := ⟨h.size + 1, Function.update h.entry (h.size + 1) e⟩

/-- The position among `idx` and its children with the lowest document; ties go to the first. -/
def lowest (size idx : Nat) (entry : Nat → Entry) : Nat :=
  let min := if 2 * idx ≤ size ∧ (entry (2 * idx)).docId < (entry idx).docId then 2 * idx else idx
  if 2 * idx + 1 ≤ size ∧ (entry (2 * idx + 1)).docId < (entry min).docId then 2 * idx + 1 else min

/-- `AdjustDown`, for at most so many rounds. -/
def adjustDown (size : Nat) : Nat → Nat → (Nat → Entry) → Nat → Entry
  | 0, _, entry => entry
  | rounds + 1, idx, entry =>
    let min := lowest size idx entry
    if min = idx then entry else adjustDown size rounds min fun p => entry (Equiv.swap idx min p)

/-- `AdjustDown` from the given position down to the first. -/
def adjustAll (size : Nat) : Nat → (Nat → Entry) → Nat → Entry
  | 0, entry => entry
  | idx + 1, entry => adjustAll size idx (adjustDown size size (idx + 1) entry)

def buildHeap (h : DocHeap) : DocHeap := ⟨h.size, adjustAll h.size ((h.size + 2) / 2) h.entry⟩

def topEntry (h : DocHeap) : Entry := h.entry 1

/-- The document of the top is replaced and sifted down. -/
def replaceTop (h : DocHeap) (doc : Nat) : DocHeap :=
  ⟨h.size, adjustDown h.size h.size 1 (Function.update h.entry 1 ⟨doc, h.topEntry.entryId⟩)⟩

def entries (h : DocHeap) : Multiset Entry := contents h.entry h.size

/-! ### The heap -/

/-- No entry is above its parent: the lowest document is on top. -/
def Below (a b : Entry) : Prop := b.docId ≤ a.docId

instance : IsTrans Entry Below := ⟨fun _ _ _ hab hbc => le_trans hbc hab⟩

instance : Std.Refl Below := ⟨fun _ => le_refl _⟩

def Ordered (h : DocHeap) : Prop := HeapFrom Below h.size 1 h.entry

theorem lowest_spec (size idx : Nat) (entry : Nat → Entry) :
    (lowest size idx entry = idx ∨ IsChild (lowest size idx entry) idx ∧ lowest size idx entry ≤ size) ∧
    Below (entry idx) (entry (lowest size idx entry)) ∧
    ∀ c, IsChild c idx → c ≤ size → Below (entry c) (entry (lowest size idx entry)) := by
  unfold lowest IsChild Below
  split <;> rename_i hleft <;> dsimp only <;> split <;> rename_i hright
  · refine ⟨.inr ⟨.inr rfl, hright.1⟩, by omega, fun c hc hcs => ?_⟩
    rcases hc with rfl | rfl <;> omega
  · refine ⟨.inr ⟨.inl rfl, hleft.1⟩, by omega, fun c hc hcs => ?_⟩
    rcases hc with rfl | rfl <;> omega
  · refine ⟨.inr ⟨.inr rfl, hright.1⟩, by omega, fun c hc hcs => ?_⟩
    rcases hc with rfl | rfl <;> omega
  · refine ⟨.inl rfl, le_refl _, fun c hc hcs => ?_⟩
    rcases hc with rfl | rfl <;> omega

theorem adjustDown_spec {size lo : Nat} (hlo : 1 ≤ lo) (rounds : Nat) {idx : Nat} {entry : Nat → Entry}
    (hrounds : size ≤ rounds + idx) (hidx : lo ≤ idx) (h : Sift Below size lo idx entry) :
    contents (adjustDown size rounds idx entry) size = contents entry size ∧
      HeapFrom Below size lo (adjustDown size rounds idx entry) := by
  induction rounds generalizing idx entry with
  | zero => exact ⟨rfl, h.leaf (by omega)⟩
  | succ rounds ih =>
    obtain ⟨hmin, hle, hmax⟩ := lowest_spec size idx entry
    rw [adjustDown]
    by_cases hstop : lowest size idx entry = idx
    · rw [if_pos hstop]
      exact ⟨rfl, h.finish fun c hc hcs => hstop ▸ hmax c hc hcs⟩
    rw [if_neg hstop]
    obtain ⟨hchild, hn⟩ := hmin.resolve_left hstop
    have hlt := hchild.twice_le
    obtain ⟨hcontents, hheap⟩ := ih (by omega) (by omega) (h.move hlo hidx hchild hn hmax hle)
    exact ⟨hcontents.trans (contents_swap ⟨by omega, by omega⟩ ⟨by omega, hn⟩), hheap⟩

theorem adjustAll_spec {size : Nat} (idx : Nat) {entry : Nat → Entry} (h : HeapFrom Below size (idx + 1) entry) :
    contents (adjustAll size idx entry) size = contents entry size ∧ HeapFrom Below size 1 (adjustAll size idx entry) := by
  induction idx generalizing entry with
  | zero => exact ⟨rfl, h⟩
  | succ idx ih =>
    obtain ⟨hcontents, hheap⟩ := adjustDown_spec (by omega) size (by omega) (le_refl _) (.start (by omega) h)
    obtain ⟨hcontents', hheap'⟩ := ih hheap
    exact ⟨hcontents'.trans hcontents, hheap'⟩

theorem buildHeap_spec (h : DocHeap) : h.buildHeap.entries = h.entries ∧ h.buildHeap.Ordered :=
  adjustAll_spec _ (heapFrom_leaves (by omega))

theorem addEntry_entries (h : DocHeap) (e : Entry) : (h.addEntry e).entries = e ::ₘ h.entries := by
  have hrest : contents (update h.entry (h.size + 1) e) h.size = contents h.entry h.size :=
    contents_congr fun i _ hi => update_of_ne (by omega) ..
  show contents (update h.entry (h.size + 1) e) (h.size + 1) = _
  rw [contents_succ, update_self, hrest, entries]

theorem addAll_entries (h : DocHeap) (es : List Entry) : (es.foldl addEntry h).entries = h.entries + (es : Multiset Entry) := by
  induction es generalizing h with
  | nil => simp
  | cons e es ih => rw [foldl_cons, ih, addEntry_entries, Multiset.cons_add, ← Multiset.add_cons, Multiset.cons_coe]

theorem addAll_size (h : DocHeap) (es : List Entry) : (es.foldl addEntry h).size = h.size + es.length := by
  induction es generalizing h with
  | nil => rfl
  | cons e es ih =>
    have hsize : (h.addEntry e).size = h.size + 1 := rfl
    rw [foldl_cons, ih, length_cons]
    omega

theorem topEntry_mem {h : DocHeap} (hpos : 1 ≤ h.size) : h.topEntry ∈ h.entries :=
  mem_contents.mpr ⟨1, le_refl 1, hpos, rfl⟩

theorem Ordered.top_le {h : DocHeap} (hord : h.Ordered) {e : Entry} (he : e ∈ h.entries) :
    h.topEntry.docId ≤ e.docId := by
  obtain ⟨i, hi, hn, rfl⟩ := mem_contents.mp he
  exact HeapFrom.le_top hord hi hn

theorem replaceTop_spec {h : DocHeap} (hord : h.Ordered) (hpos : 1 ≤ h.size) (doc : Nat) :
    ∃ rest, h.entries = h.topEntry ::ₘ rest ∧ (h.replaceTop doc).entries = ⟨doc, h.topEntry.entryId⟩ ::ₘ rest ∧
      (h.replaceTop doc).Ordered := by
  have hlow := hord.replace_top ⟨doc, h.topEntry.entryId⟩
  obtain ⟨hcontents, hheap⟩ := adjustDown_spec (le_refl 1) h.size (by omega) (le_refl 1) (.start (le_refl 1) hlow)
  refine ⟨(Finset.Icc 2 h.size).val.map h.entry, contents_first h.entry hpos, ?_, hheap⟩
  rw [entries, replaceTop, hcontents, contents_replace_top _ hpos]

end DocHeap

/-! ### The iterator -/

/-- `doc_id_`, `heap_` and `children_` -/
structure OrNode (σ : Type) where
  docId : Nat
  heap : DocHeap
  children : List σ

section OrIterator

variable {σ : Type} (next : σ → Nat → σ) (docId : σ → Nat)

/-- `Next()` without a target. -/
def nextDoc (c : σ) : σ := next c (if docId c = invalidRowId then 0 else docId c + 1)

def entriesOf (cs : List σ) : List Entry := cs.zipIdx.map fun (c, i) => ⟨docId c, i⟩

/-- The children are started and put into the heap. -/
def orStart (n : OrNode σ) : OrNode σ :=
  let children := n.children.map (nextDoc next docId)
  let heap := ((entriesOf docId children).foldl DocHeap.addEntry n.heap).buildHeap
  ⟨heap.topEntry.docId, heap, children⟩

/-- The loop that moves the child on top, for at most so many rounds. -/
def orLoop (target : Nat) : Nat → DocHeap → List σ → DocHeap × List σ
  | 0, heap, cs => (heap, cs)
  | rounds + 1, heap, cs =>
    if heap.topEntry.docId < target then
      match cs[heap.topEntry.entryId]? with
      | none => (heap, cs)
      | some c =>
        let c := next c target
        orLoop target rounds (heap.replaceTop (docId c)) (cs.set heap.topEntry.entryId c)
    else (heap, cs)

/-- The part of `OrIterator::Next` after the start. -/
def orSeek (n : OrNode σ) (target : Nat) : OrNode σ :=
  if n.docId ≠ invalidRowId ∧ target ≤ n.docId then n
  else
    let (heap, children) := orLoop next docId target n.heap.size n.heap n.children
    ⟨heap.topEntry.docId, heap, children⟩

/-- `OrIterator::Next` -/
def orNext (n : OrNode σ) (target : Nat) : OrNode σ :=
  orSeek next docId (if n.docId = invalidRowId then orStart next docId n else n) target

/-! ### A cursor over the union -/

variable {next docId} {Ss : List (Nat → Prop)} {cs : List σ} {t d : Nat} {S : Nat → Prop} {heap : DocHeap}

/-- The members of some of the sets. -/
def SomeOf (Ss : List (Nat → Prop)) (x : Nat) : Prop := ∃ S ∈ Ss, S x

/-- The heap has the documents of the children. -/
structure Synced (docId : σ → Nat) (heap : DocHeap) (cs : List σ) : Prop where
  pos : 1 ≤ heap.size
  ordered : heap.Ordered
  sync : ∀ e ∈ heap.entries, ∃ c, cs[e.entryId]? = some c ∧ docId c = e.docId
  cover : ∀ i c, cs[i]? = some c → ∃ e ∈ heap.entries, e.entryId = i

theorem Synced.top_le (h : Synced docId heap cs) {c : σ} (hc : c ∈ cs) : heap.topEntry.docId ≤ docId c := by
  obtain ⟨i, hi⟩ := mem_iff_getElem?.mp hc
  obtain ⟨e, he, rfl⟩ := h.cover i c hi
  obtain ⟨c', hc', hdoc⟩ := h.sync e he
  obtain rfl : c' = c := Option.some.inj (hc'.symm.trans hi)
  exact hdoc ▸ h.ordered.top_le he

/-- The children were not asked beyond `d`. -/
def Asked (next : σ → Nat → σ) (docId : σ → Nat) (Ss : List (Nat → Prop)) (d : Nat) (cs : List σ) : Prop :=
  List.Forall₂ (fun S c => ∃ t ≤ d, StandsAt invalidRowId next docId S t c) Ss cs

theorem Asked.mono {e : Nat} (h : Asked next docId Ss d cs) (hde : d ≤ e) : Asked next docId Ss e cs :=
  h.imp fun _ _ ⟨t, ht, hstands⟩ => ⟨t, ht.trans hde, hstands⟩

theorem Synced.first (h : Synced docId heap cs) (hasked : Asked next docId Ss d cs) (hd : d ≤ heap.topEntry.docId) :
    FirstFrom invalidRowId (SomeOf Ss) d heap.topEntry.docId := by
  obtain ⟨c, hc, hdoc⟩ := h.sync _ (DocHeap.topEntry_mem h.pos)
  obtain ⟨S, hS, t, ht, hstands⟩ := forall₂_exists_left hasked (mem_of_getElem? hc)
  have hfirst := hstands.first
  rw [hdoc] at hfirst
  refine ⟨hfirst.mem.imp id fun hmem => ⟨S, hS, hmem⟩, hfirst.le_last, hd, ?_⟩
  rintro x ⟨S', hS', hx⟩ hdx
  obtain ⟨c', hc', t', ht', hstands'⟩ := forall₂_exists_right hasked hS'
  exact (h.top_le hc').trans (hstands'.first.least x hx (ht'.trans hdx))

theorem orLoop_spec (rounds : Nat) (h : Synced docId heap cs) (hids : (heap.entries.map Entry.entryId).Nodup)
    (hasked : Asked next docId Ss d cs) (hd : d ≤ invalidRowId)
    (hrounds : heap.entries.countP (fun e => e.docId < d) ≤ rounds) :
    ∃ heap' cs', orLoop next docId d rounds heap cs = (heap', cs') ∧ Synced docId heap' cs' ∧
      (heap'.entries.map Entry.entryId).Nodup ∧ Asked next docId Ss d cs' ∧ d ≤ heap'.topEntry.docId := by
  induction rounds generalizing heap cs with
  | zero =>
    refine ⟨heap, cs, rfl, h, hids, hasked, ?_⟩
    have hnone := Multiset.countP_eq_zero.mp (Nat.le_zero.mp hrounds) _ (DocHeap.topEntry_mem h.pos)
    omega
  | succ rounds ih =>
    rw [orLoop]
    by_cases hlow : heap.topEntry.docId < d
    · obtain ⟨c, hc, hdoc⟩ := h.sync _ (DocHeap.topEntry_mem h.pos)
      rw [if_pos hlow, hc]
      obtain ⟨S, hS, t, ht, hstands⟩ := forall₂_exists_left hasked (mem_of_getElem? hc)
      have hfrom : d ≤ docId (next c d) := (hstands.next_le ht hd).first.from_le
      obtain ⟨rest, hentries, hreplaced, hordered⟩ := DocHeap.replaceTop_spec h.ordered h.pos (docId (next c d))
      rw [hentries] at hids hrounds
      have hother (e : Entry) (he : e ∈ rest) : e.entryId ≠ heap.topEntry.entryId := by
        rw [Multiset.map_cons, Multiset.nodup_cons] at hids
        exact fun heq => hids.1 (heq ▸ Multiset.mem_map_of_mem _ he)
      have hlt : heap.topEntry.entryId < cs.length := (List.getElem?_eq_some_iff.mp hc).1
      refine ih ⟨h.pos, hordered, fun e he => ?_, fun i c' hi => ?_⟩ ?_ ?_ ?_
      · rw [hreplaced] at he
        rcases Multiset.mem_cons.mp he with rfl | he
        · exact ⟨next c d, by rw [getElem?_set_self hlt], rfl⟩
        · obtain ⟨c', hc', hdoc'⟩ := h.sync e (hentries ▸ Multiset.mem_cons_of_mem he)
          exact ⟨c', by rw [getElem?_set_ne (hother e he).symm, hc'], hdoc'⟩
      · have hlti : i < cs.length := by
          have hlen := (List.getElem?_eq_some_iff.mp hi).1
          rwa [length_set] at hlen
        obtain ⟨e, he, rfl⟩ := h.cover i _ (getElem?_eq_getElem hlti)
        rw [hreplaced]
        rw [hentries] at he
        rcases Multiset.mem_cons.mp he with rfl | he
        · exact ⟨_, Multiset.mem_cons_self _ _, rfl⟩
        · exact ⟨e, Multiset.mem_cons_of_mem he, rfl⟩
      · rw [hreplaced, Multiset.map_cons]
        rwa [Multiset.map_cons] at hids
      · exact forall₂_set hasked hc fun S' ⟨t', ht', hstands'⟩ => ⟨d, le_refl d, hstands'.next_le ht' hd⟩
      · have hone : (heap.topEntry ::ₘ rest).countP (fun e => e.docId < d) = rest.countP (fun e => e.docId < d) + 1 :=
          Multiset.countP_cons_of_pos _ hlow
        rw [hreplaced, Multiset.countP_cons_of_neg _ (by simpa using hfrom)]
        omega
    · rw [if_neg hlow]
      exact ⟨heap, cs, rfl, h, hids, hasked, not_lt.mp hlow⟩

/-- A node at the first document of the union from `t` on. Only at the end may a child have two
entries. -/
structure OrAt (next : σ → Nat → σ) (docId : σ → Nat) (Ss : List (Nat → Prop)) (t : Nat) (n : OrNode σ) : Prop where
  synced : Synced docId n.heap n.children
  asked : Asked next docId Ss t n.children
  from_le : t ≤ n.docId
  top : n.heap.topEntry.docId = n.docId
  ids : n.docId ≠ invalidRowId → (n.heap.entries.map Entry.entryId).Nodup

theorem OrAt.first {n : OrNode σ} (h : OrAt next docId Ss t n) : FirstFrom invalidRowId (SomeOf Ss) t n.docId :=
  h.top ▸ h.synced.first h.asked (h.top ▸ h.from_le)

theorem OrAt.raise {n : OrNode σ} (h : OrAt next docId Ss t n) (htd : t ≤ d) (hd : d ≤ n.docId) :
    OrAt next docId Ss d n :=
  {h with asked := h.asked.mono htd, from_le := hd}

theorem orSeek_spec {n : OrNode σ} (h : OrAt next docId Ss t n) (hd : d ≤ invalidRowId) :
    (d ≤ n.docId → (orSeek next docId n d).docId = n.docId ∧ OrAt next docId Ss t (orSeek next docId n d)) ∧
    (t ≤ d → OrAt next docId Ss d (orSeek next docId n d)) := by
  have hcard : n.heap.entries.countP (fun e => e.docId < d) ≤ n.heap.size := by
    refine (Multiset.countP_le_card _ _).trans ?_
    rw [DocHeap.entries, card_contents]
  by_cases hstay : d ≤ n.docId
  · have hsame : (orSeek next docId n d).docId = n.docId ∧ OrAt next docId Ss t (orSeek next docId n d) := by
      by_cases hend : n.docId = invalidRowId
      · -- every document is the end mark, and the loop does nothing
        have hloop : orLoop next docId d n.heap.size n.heap n.children = (n.heap, n.children) := by
          cases hsize : n.heap.size with
          | zero => rfl
          | succ rounds => rw [orLoop, if_neg (by rw [h.top]; omega)]
        rw [orSeek, if_neg fun hno => hno.1 hend, hloop]
        refine ⟨h.top, h.synced, h.asked, ?_, rfl, fun hne => h.ids ?_⟩
        · exact h.from_le.trans h.top.ge
        · exact fun heq => hne (h.top.trans heq)
      · rw [orSeek, if_pos ⟨hend, hstay⟩]
        exact ⟨rfl, h⟩
    exact ⟨fun _ => hsame, fun htd => hsame.2.raise htd (hsame.1 ▸ hstay)⟩
  · refine ⟨fun hle => absurd hle hstay, fun htd => ?_⟩
    obtain ⟨heap', cs', hloop, hsynced, hids, hasked, htop⟩ :=
      orLoop_spec n.heap.size h.synced (h.ids (by omega)) (h.asked.mono htd) hd hcard
    rw [orSeek, if_neg fun hno => hstay hno.2, hloop]
    exact ⟨hsynced, hasked, htop, rfl, fun _ => hids⟩

theorem mem_entriesOf {e : Entry} : e ∈ entriesOf docId cs ↔ ∃ c, cs[e.entryId]? = some c ∧ docId c = e.docId := by
  rw [entriesOf, mem_map]
  constructor
  · rintro ⟨⟨c, i⟩, hmem, rfl⟩
    exact ⟨c, mk_mem_zipIdx_iff_getElem?.mp hmem, rfl⟩
  · rintro ⟨c, hc, hdoc⟩
    refine ⟨(c, e.entryId), mk_mem_zipIdx_iff_getElem?.mpr hc, ?_⟩
    show Entry.mk (docId c) e.entryId = e
    rw [hdoc]

theorem entriesOf_ids : (entriesOf docId cs).map Entry.entryId = range cs.length := by
  rw [entriesOf, map_map]
  exact (zipIdx_map_snd 0 cs).trans (range_eq_range' ..).symm

/-- Starting puts the documents of the children into the heap beside those that are there. -/
theorem orStart_synced (next : σ → Nat → σ) (docId : σ → Nat) {n : OrNode σ} (hne : n.children ≠ [])
    (hold : ∀ e ∈ n.heap.entries, ∃ c, (n.children.map (nextDoc next docId))[e.entryId]? = some c ∧ docId c = e.docId) :
    Synced docId (orStart next docId n).heap (n.children.map (nextDoc next docId)) ∧
      (orStart next docId n).heap.entries = n.heap.entries +
        (entriesOf docId (n.children.map (nextDoc next docId)) : Multiset Entry) := by
  set cs := n.children.map (nextDoc next docId) with hcs
  let heap := (entriesOf docId cs).foldl DocHeap.addEntry n.heap
  obtain ⟨hsame, hordered⟩ := heap.buildHeap_spec
  have hentries : heap.buildHeap.entries = n.heap.entries + (entriesOf docId cs : Multiset Entry) :=
    hsame.trans (DocHeap.addAll_entries n.heap _)
  have hsize : heap.buildHeap.size = n.heap.size + (entriesOf docId cs).length := DocHeap.addAll_size n.heap _
  have hlength : (entriesOf docId cs).length ≠ 0 := by
    rw [entriesOf, length_map, length_zipIdx, length_map]
    exact fun hzero => hne (length_eq_zero_iff.mp hzero)
  refine ⟨⟨?_, hordered, fun e he => ?_, fun i c hi => ?_⟩, hentries⟩
  · show 1 ≤ heap.buildHeap.size
    omega
  · have he' : e ∈ n.heap.entries + (entriesOf docId cs : Multiset Entry) := hentries ▸ he
    rcases Multiset.mem_add.mp he' with he' | he'
    · exact hold e he'
    · exact mem_entriesOf.mp (Multiset.mem_coe.mp he')
  · refine ⟨⟨docId c, i⟩, ?_, rfl⟩
    show _ ∈ heap.buildHeap.entries
    rw [hentries]
    exact Multiset.mem_add.mpr (.inr (Multiset.mem_coe.mpr (mem_entriesOf.mpr ⟨c, hi, rfl⟩)))

theorem orStart_end {n : OrNode σ} (h : OrAt next docId Ss t n) (hend : n.docId = invalidRowId) :
    OrAt next docId Ss t (orStart next docId n) ∧ (orStart next docId n).docId = invalidRowId := by
  have hatEnd (S : Nat → Prop) (c : σ) (hc : c ∈ n.children) (hstands : ∃ t₁ ≤ t, StandsAt invalidRowId next docId S t₁ c) :
      docId c = invalidRowId := by
    obtain ⟨t₁, -, hstands⟩ := hstands
    have htop := h.synced.top_le hc
    rw [h.top, hend] at htop
    exact le_antisymm hstands.first.le_last htop
  have hstart (S : Nat → Prop) (c : σ) (hc : c ∈ n.children)
      (hstands : ∃ t₁ ≤ t, StandsAt invalidRowId next docId S t₁ c) :
      docId (nextDoc next docId c) = invalidRowId ∧
        ∃ t₁ ≤ t, StandsAt invalidRowId next docId S t₁ (nextDoc next docId c) := by
    have hpos := hatEnd S c hc hstands
    obtain ⟨t₁, ht₁, hstands⟩ := hstands
    rw [nextDoc, if_pos hpos]
    obtain ⟨hstay, hstands'⟩ := hstands.stay (d := 0) (Nat.zero_le _)
    exact ⟨hstay.trans hpos, t₁, ht₁, hstands'⟩
  have hasked : Asked next docId Ss t (n.children.map (nextDoc next docId)) := by
    rw [Asked, forall₂_map_right_iff]
    exact forall₂_imp_mem h.asked fun S c _ hc hstands => (hstart S c hc hstands).2
  have hchildren (c : σ) (hc : c ∈ n.children.map (nextDoc next docId)) : docId c = invalidRowId := by
    obtain ⟨c₀, hc₀, rfl⟩ := mem_map.mp hc
    obtain ⟨S, -, hstands⟩ := forall₂_exists_left h.asked hc₀
    exact (hstart S c₀ hc₀ hstands).1
  have hne : n.children ≠ [] := by
    obtain ⟨c, hc, -⟩ := h.synced.sync _ (DocHeap.topEntry_mem h.synced.pos)
    exact ne_nil_of_mem (mem_of_getElem? hc)
  obtain ⟨hsynced, -⟩ := orStart_synced next docId (n := n) hne fun e he => by
    obtain ⟨c, hc, hdoc⟩ := h.synced.sync e he
    refine ⟨nextDoc next docId c, by rw [getElem?_map, hc]; rfl, ?_⟩
    have hmem := mem_of_getElem? hc
    obtain ⟨S, -, hstands⟩ := forall₂_exists_left h.asked hmem
    rw [← hdoc, hatEnd S c hmem hstands]
    exact (hstart S c hmem hstands).1
  have htop : (orStart next docId n).heap.topEntry.docId = invalidRowId := by
    obtain ⟨c, hc, hdoc⟩ := hsynced.sync _ (DocHeap.topEntry_mem hsynced.pos)
    rw [← hdoc, hchildren c (mem_of_getElem? hc)]
  refine ⟨⟨hsynced, hasked, ?_, rfl, fun hno => absurd htop hno⟩, htop⟩
  show t ≤ (orStart next docId n).heap.topEntry.docId
  rw [htop, ← hend]
  exact h.from_le

theorem orAt_isCursor : IsCursor invalidRowId (orNext next docId) OrNode.docId (SomeOf Ss) (OrAt next docId Ss) := by
  refine ⟨fun t n h => h.first, fun t n d h hd => ?_, fun t n d h hd hlast => ?_⟩
  · rw [orNext]
    by_cases hend : n.docId = invalidRowId
    · obtain ⟨hstart, hdoc⟩ := orStart_end h hend
      rw [hend]
      obtain ⟨hsame, hat⟩ := (orSeek_spec hstart (hend ▸ hd)).1 (hdoc ▸ hend ▸ hd)
      exact ⟨hsame.trans hdoc, hat⟩
    · rw [if_neg hend]
      exact (orSeek_spec h (hd.trans h.first.le_last)).1 hd
  · rw [orNext, if_neg (by omega)]
    exact (orSeek_spec h hlast).2 (h.from_le.trans hd.le)

theorem orNext_fresh (hne : cs ≠ []) (h : Forall₂ (Fresh invalidRowId next docId) Ss cs) :
    Fresh invalidRowId (orNext next docId) OrNode.docId (SomeOf Ss) ⟨invalidRowId, .empty, cs⟩ := by
  refine ⟨rfl, fun d hd => ⟨_, orAt_isCursor, ?_⟩⟩
  let n : OrNode σ := ⟨invalidRowId, .empty, cs⟩
  have hasked : Asked next docId Ss 0 (cs.map (nextDoc next docId)) := by
    rw [Asked, forall₂_map_right_iff]
    refine h.imp fun S c hc => ⟨0, le_refl 0, ?_⟩
    rw [nextDoc, if_pos hc.pos_eq]
    exact hc.start 0 (Nat.zero_le _)
  obtain ⟨hsynced, hentries⟩ := orStart_synced next docId (n := n) hne fun e he => by
    obtain ⟨i, hi, hn, -⟩ := mem_contents.mp he
    exact absurd hn (by simp [n, DocHeap.empty]; omega)
  have hstart : OrAt next docId Ss 0 (orStart next docId n) := by
    refine ⟨hsynced, hasked, Nat.zero_le _, rfl, fun _ => ?_⟩
    rw [hentries, Multiset.map_add]
    have hempty : n.heap.entries = 0 := rfl
    rw [Multiset.map_coe, entriesOf_ids]
    exact Multiset.coe_nodup.mpr nodup_range
  exact (orSeek_spec hstart hd).2 (Nat.zero_le d)

end OrIterator
end Infinity.Search
