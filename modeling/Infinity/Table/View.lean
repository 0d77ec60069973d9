import Infinity.Table.Commit

/-! What a table holds, apart from how it got there.

A block is its rows, the timestamp each offset was deleted at and the number of rows that
exist at each timestamp. Rows are pushed one at a time, into the last block of the
unsealed segment or into a new one, and deletes are marks on a set of places. Appending
in pieces of any size is pushing the rows one by one, and pushes commute with marks on
places that exist. The view of an entry is taken for a commit timestamp `c`: what is not
committed yet is shown as committed at `c`. -/
namespace Infinity.Table

open Block List

structure BlockView (ρ : Type) where
  rows : List ρ
  deleted : Nat → Nat
  countAt : Nat → Nat
  commitTs : Nat

structure SegmentView (ρ : Type) where
  blocks : List (BlockView ρ)
  commitTs : Nat
  firstDeleteTs : Option Nat
  deprecateTs : Option Nat
  deprecated : Bool

structure TableView (ρ : Type) where
  segments : Nat → Option (SegmentView ρ)
  nextId : Nat
  unsealed : Option Nat

variable {ρ : Type}

/-! ### Pushing rows -/

namespace BlockView

def new (c : Nat) : BlockView ρ := ⟨[], fun _ => 0, fun _ => 0, c⟩

/-- One more row, which exists from `c` on. -/
def push (c : Nat) (b : BlockView ρ) (row : ρ) : BlockView ρ :=
  {b with rows := b.rows ++ [row], countAt := fun ts => if c ≤ ts then b.rows.length + 1 else b.countAt ts}

theorem foldl_push (c : Nat) (b : BlockView ρ) (row : ρ) (rows : List ρ) : rows.foldl (push c) (b.push c row) = {b with
      rows := b.rows ++ row :: rows
      countAt := fun ts => if c ≤ ts then b.rows.length + (row :: rows).length else b.countAt ts} := by
  induction rows generalizing b row with
  | nil => simp [push]
  | cons next rest ih =>
    rw [foldl_cons, ih]
    simp only [push, append_assoc, singleton_append, length_append, length_cons,
      length_nil, BlockView.mk.injEq, true_and, and_true]
    funext ts
    split <;> omega

end BlockView

/-- The block to push to, after those before it. -/
def lastView (capacity c : Nat) (blocks : List (BlockView ρ)) : List (BlockView ρ) × BlockView ρ :=
  match blocks.getLast? with
  | none => (blocks, .new c)
  | some b => if capacity ≤ b.rows.length then (blocks, .new c) else (blocks.dropLast, b)

def pushBlocks (capacity c : Nat) (blocks : List (BlockView ρ)) (row : ρ) : List (BlockView ρ) :=
  (lastView capacity c blocks).1 ++ [(lastView capacity c blocks).2.push c row]

variable {capacity c : Nat} {front : List (BlockView ρ)} {last : BlockView ρ}

theorem lastView_append (h : last.rows.length < capacity) : lastView capacity c (front ++ [last]) = (front, last) := by
  simp [lastView, not_le.mpr h]

theorem foldl_pushBlocks_append {rows : List ρ} (h : last.rows.length + rows.length ≤ capacity) :
    rows.foldl (pushBlocks capacity c) (front ++ [last]) = front ++ [rows.foldl (BlockView.push c) last] := by
  induction rows generalizing last with
  | nil => rfl
  | cons row rest ih =>
    rw [length_cons] at h
    rw [foldl_cons, pushBlocks, lastView_append (by omega)]
    refine ih ?_
    simp only [BlockView.push, length_append, length_singleton]
    omega

theorem foldl_pushBlocks {blocks front : List (BlockView ρ)} {rows : List ρ}
    (hlast : lastView capacity c blocks = (front, last)) (hne : rows ≠ [])
    (h : last.rows.length + rows.length ≤ capacity) :
    rows.foldl (pushBlocks capacity c) blocks = front ++ [rows.foldl (BlockView.push c) last] := by
  cases rows with
  | nil => exact absurd rfl hne
  | cons row rest =>
    rw [length_cons] at h
    rw [foldl_cons, pushBlocks, hlast]
    refine foldl_pushBlocks_append ?_
    simp only [BlockView.push, length_append, length_singleton]
    omega

namespace SegmentView

def new (c : Nat) : SegmentView ρ := ⟨[], c, none, none, false⟩

def count (s : SegmentView ρ) : Nat := (s.blocks.map fun b => b.rows.length).sum

def push (capacity c : Nat) (s : SegmentView ρ) (row : ρ) : SegmentView ρ :=
  {s with blocks := pushBlocks capacity c s.blocks row}

theorem foldl_push (capacity c : Nat) (s : SegmentView ρ) (rows : List ρ) :
    rows.foldl (push capacity c) s = {s with blocks := rows.foldl (pushBlocks capacity c) s.blocks} := by
  induction rows generalizing s with
  | nil => rfl
  | cons row rest ih => rw [foldl_cons, foldl_cons, ih, push]

theorem count_push (capacity c : Nat) (s : SegmentView ρ) (row : ρ) : (s.push capacity c row).count = s.count + 1 := by
  obtain ⟨blocks, _, _, _, _⟩ := s
  simp only [push, count, pushBlocks, lastView]
  rcases eq_nil_or_concat blocks with rfl | ⟨front, last, rfl⟩
  · simp [BlockView.push, BlockView.new]
  · simp only [concat_eq_append, getLast?_concat]
    split <;> simp [BlockView.push, BlockView.new] <;> omega

end SegmentView

namespace TableView

/-- The segment to push to, its id, and the table with it opened. -/
def target (cap : Capacity) (c : Nat) (v : TableView ρ) : TableView ρ × Nat × SegmentView ρ :=
  match v.unsealed.bind fun id => (v.segments id).map fun s => (id, s) with
  | none => ({v with nextId := v.nextId + 1, unsealed := some v.nextId}, v.nextId, .new c)
  | some (id, s) =>
    if s.count = cap.segment then
      ({v with nextId := v.nextId + 1, unsealed := some v.nextId}, v.nextId, .new c)
    else (v, id, s)

def set (v : TableView ρ) (id : Nat) (s : SegmentView ρ) : TableView ρ :=
  {v with segments := Function.update v.segments id (some s)}

def push (cap : Capacity) (c : Nat) (v : TableView ρ) (row : ρ) : TableView ρ :=
  (v.target cap c).1.set (v.target cap c).2.1 ((v.target cap c).2.2.push cap.block c row)

theorem target_unsealed (cap : Capacity) (c : Nat) (v : TableView ρ) :
    (v.target cap c).1.unsealed = some (v.target cap c).2.1 := by
  unfold target
  split
  · rfl
  rename_i id s hs
  split
  · rfl
  obtain ⟨id', hid, hmap⟩ := Option.bind_eq_some_iff.mp hs
  obtain ⟨s', _, heq⟩ := Option.map_eq_some_iff.mp hmap
  cases heq
  exact hid

variable {cap : Capacity} {v : TableView ρ}

theorem target_set {c id : Nat} {s : SegmentView ρ} (hu : v.unsealed = some id)
    (hs : s.count ≠ cap.segment) : (v.set id s).target cap c = (v.set id s, id, s) := by
  simp [target, set, hu, hs]

theorem set_set (v : TableView ρ) (id : Nat) (s s' : SegmentView ρ) : (v.set id s).set id s' = v.set id s' := by
  simp [set]

theorem foldl_push_set {c id : Nat} {s : SegmentView ρ} {rows : List ρ}
    (hu : v.unsealed = some id) (h : s.count + rows.length ≤ cap.segment) :
    rows.foldl (push cap c) (v.set id s) = v.set id (rows.foldl (SegmentView.push cap.block c) s) := by
  induction rows generalizing s with
  | nil => rfl
  | cons row rest ih =>
    rw [length_cons] at h
    rw [foldl_cons, push, target_set hu (by omega)]
    dsimp only
    rw [set_set]
    exact ih (by rw [SegmentView.count_push]; omega)

variable {c : Nat}

theorem foldl_push {rows : List ρ} (hne : rows ≠ []) (h : (v.target cap c).2.2.count + rows.length ≤ cap.segment) :
    rows.foldl (push cap c) v = (v.target cap c).1.set (v.target cap c).2.1
      (rows.foldl (SegmentView.push cap.block c) (v.target cap c).2.2) := by
  cases rows with
  | nil => exact absurd rfl hne
  | cons row rest =>
    rw [length_cons] at h
    exact foldl_push_set (target_unsealed cap c v) (by rw [SegmentView.count_push]; omega)

end TableView

/-! ### Marking deletes -/

/-- A row by its segment, its block and its offset in the block. -/
abbrev Place := Nat × Nat × Nat

def BlockView.mark (c : Nat) (p : Nat → Bool) (b : BlockView ρ) : BlockView ρ :=
  {b with deleted := fun offset => if p offset then c else b.deleted offset}

/-- The places in one segment. -/
def within (id : Nat) (places : List Place) : List (Nat × Nat) := (places.filter fun x => x.1 == id).map Prod.snd

theorem mem_within {id : Nat} {places : List Place} {x : Nat × Nat} : x ∈ within id places ↔ (id, x) ∈ places := by
  simp only [within, mem_map, mem_filter, beq_iff_eq]
  constructor
  · rintro ⟨⟨id', x'⟩, ⟨hmem, rfl⟩, rfl⟩
    exact hmem
  · exact fun h => ⟨(id, x), ⟨h, rfl⟩, rfl⟩

theorem within_append (id : Nat) (A B : List Place) : within id (A ++ B) = within id A ++ within id B := by
  simp [within]

/-- Marks on places of a segment, by block and offset. -/
def markBlocks (c : Nat) (places : List (Nat × Nat)) (blocks : List (BlockView ρ)) : List (BlockView ρ) :=
  blocks.mapIdx fun i b => b.mark c fun offset => decide ((i, offset) ∈ places)

/-- The place has a row. -/
def Has (blocks : List (BlockView ρ)) (x : Nat × Nat) : Prop := ∃ b, blocks[x.1]? = some b ∧ x.2 < b.rows.length

/-- It is not deleted either. -/
def Alive (blocks : List (BlockView ρ)) (x : Nat × Nat) : Prop :=
  ∃ b, blocks[x.1]? = some b ∧ x.2 < b.rows.length ∧ b.deleted x.2 = 0

theorem has_markBlocks_iff (c : Nat) (places : List (Nat × Nat)) (blocks : List (BlockView ρ)) (x : Nat × Nat) :
    Has (markBlocks c places blocks) x ↔ Has blocks x := by
  simp only [Has, markBlocks, getElem?_mapIdx]
  cases blocks[x.1]? <;> simp [BlockView.mark]

theorem alive_markBlocks_iff (hc : 0 < c) (places : List (Nat × Nat)) (blocks : List (BlockView ρ))
    (x : Nat × Nat) : Alive (markBlocks c places blocks) x ↔ Alive blocks x ∧ x ∉ places := by
  simp only [Alive, markBlocks, getElem?_mapIdx]
  cases blocks[x.1]? with
  | none => simp
  | some b =>
    by_cases hx : x ∈ places
    · simp [BlockView.mark, hx]
      omega
    · simp [BlockView.mark, hx]

theorem markBlocks_markBlocks (c : Nat) (A B : List (Nat × Nat)) (blocks : List (BlockView ρ)) :
    markBlocks c B (markBlocks c A blocks) = markBlocks c (A ++ B) blocks := by
  simp only [markBlocks, mapIdx_mapIdx]
  congr 1
  funext i b
  simp only [Function.comp_apply, BlockView.mark, BlockView.mk.injEq, true_and, and_true]
  funext offset
  by_cases hA : (i, offset) ∈ A <;> by_cases hB : (i, offset) ∈ B <;> simp [hB]

def SegmentView.mark (c id : Nat) (places : List Place) (s : SegmentView ρ) : SegmentView ρ :=
  {s with
    blocks := markBlocks c (within id places) s.blocks
    firstDeleteTs := if (∃ x ∈ places, x.1 = id) ∧ s.deprecated = false then s.firstDeleteTs.or (some c)
      else s.firstDeleteTs}

def TableView.mark (c : Nat) (places : List Place) (v : TableView ρ) : TableView ρ :=
  {v with segments := fun id => (v.segments id).map (SegmentView.mark c id places)}

theorem SegmentView.mark_mark (c id : Nat) (A B : List Place) (s : SegmentView ρ) :
    (s.mark c id A).mark c id B = s.mark c id (A ++ B) := by
  simp only [mark, markBlocks_markBlocks, within_append]
  · by_cases hd : s.deprecated = false
    · by_cases hA : ∃ x ∈ A, x.1 = id <;> by_cases hB : ∃ x ∈ B, x.1 = id <;>
        cases hf : s.firstDeleteTs <;> simp_all [or_and_right, exists_or]
    · simp [hd]

theorem TableView.mark_mark (c : Nat) (A B : List Place) (v : TableView ρ) :
    (v.mark c A).mark c B = v.mark c (A ++ B) := by
  simp only [mark, Option.map_map, TableView.mk.injEq, and_true]
  funext id
  congr 1
  funext s
  exact s.mark_mark c id A B

theorem TableView.mark_congr (c : Nat) {A B : List Place} (h : ∀ x, x ∈ A ↔ x ∈ B) (v : TableView ρ) :
    v.mark c A = v.mark c B := by
  have hs : ∀ id, SegmentView.mark (ρ := ρ) c id A = SegmentView.mark c id B := by
    intro id
    funext s
    have hw : ∀ x, x ∈ within id A ↔ x ∈ within id B := fun x => by rw [mem_within, mem_within, h]
    simp only [SegmentView.mark, markBlocks, hw, h]
  simp only [mark, hs]

theorem SegmentView.mark_outside {c id : Nat} {places : List Place} (h : ∀ x ∈ places, x.1 ≠ id) (s : SegmentView ρ) :
    s.mark c id places = s := by
  have hnone : ¬ ∃ x ∈ places, x.1 = id := fun ⟨x, hx, hid⟩ => h x hx hid
  have hwithin : within id places = [] := by
    refine eq_nil_iff_forall_not_mem.mpr fun x hx => ?_
    exact h _ (mem_within.mp hx) rfl
  have hblocks : markBlocks c [] s.blocks = s.blocks := by
    refine ext_getElem? fun i => ?_
    simp [markBlocks, BlockView.mark]
  simp only [mark, hnone, false_and, if_false, hwithin, hblocks]

theorem TableView.mark_nil (c : Nat) (v : TableView ρ) : v.mark c [] = v := by
  have hs : ∀ id, SegmentView.mark (ρ := ρ) c id [] = fun s => s := fun id => by
    funext s
    exact s.mark_outside (by simp)
  simp [mark, hs]

/-! ### Pushes and marks -/

theorem lastView_mark (capacity c : Nat) (p : Nat → Nat → Bool) (blocks : List (BlockView ρ))
    (h : ∀ i, blocks.length ≤ i → ∀ offset, p i offset = false) :
    lastView capacity c (blocks.mapIdx fun i b => b.mark c (p i)) =
      ((lastView capacity c blocks).1.mapIdx (fun i b => b.mark c (p i)),
        (lastView capacity c blocks).2.mark c (p (lastView capacity c blocks).1.length)) := by
  rcases eq_nil_or_concat blocks with rfl | ⟨front, last, rfl⟩
  · simp [lastView, BlockView.mark, h]
  simp only [lastView, concat_eq_append, mapIdx_append, mapIdx_cons, mapIdx_nil,
    getLast?_concat, dropLast_concat, zero_add]
  have hrows : (last.mark c (p front.length)).rows = last.rows := rfl
  rw [hrows]
  split
  · have hnew : ∀ offset, p (front.length + 1) offset = false := h _ (by simp)
    simp [BlockView.mark, hnew]
  · rfl

theorem SegmentView.push_mark (capacity c id : Nat) (places : List Place) (s : SegmentView ρ) (row : ρ)
    (h : ∀ x ∈ places, x.1 = id → x.2.1 < s.blocks.length) :
    (s.mark c id places).push capacity c row = (s.push capacity c row).mark c id places := by
  have hnew : ∀ i, s.blocks.length ≤ i → ∀ offset, decide ((i, offset) ∈ within id places) = false := by
    intro i hi offset
    refine decide_eq_false fun hmem => ?_
    have := h _ (mem_within.mp hmem) rfl
    dsimp only at this
    omega
  have hlast := lastView_mark capacity c (fun i offset => decide ((i, offset) ∈ within id places)) s.blocks hnew
  simp only [push, mark, markBlocks, pushBlocks, hlast, SegmentView.mk.injEq, and_true, mapIdx_append, mapIdx_cons,
    mapIdx_nil, zero_add]
  exact ⟨rfl, trivial, rfl⟩

theorem SegmentView.count_mark (c id : Nat) (places : List Place) (s : SegmentView ρ) :
    (s.mark c id places).count = s.count := by
  have hrows : (s.mark c id places).blocks.map (fun b => b.rows.length) = s.blocks.map fun b => b.rows.length := by
    refine ext_getElem? fun i => ?_
    simp only [mark, markBlocks, getElem?_map, getElem?_mapIdx, Option.map_map]
    rfl
  rw [count, count, hrows]

namespace TableView

/-- The place has a row. -/
def Has (v : TableView ρ) (x : Place) : Prop := ∃ s, v.segments x.1 = some s ∧ Table.Has s.blocks x.2

/-- It is not deleted either. -/
def Alive (v : TableView ρ) (x : Place) : Prop := ∃ s, v.segments x.1 = some s ∧ Table.Alive s.blocks x.2

/-- Ids are given out in order. -/
def Fresh (v : TableView ρ) : Prop := ∀ id, v.nextId ≤ id → v.segments id = none

theorem has_mark_iff (c : Nat) (places : List Place) (v : TableView ρ) (x : Place) :
    (v.mark c places).Has x ↔ v.Has x := by
  simp only [Has, mark]
  cases v.segments x.1 with
  | none => simp
  | some s => simpa [SegmentView.mark] using has_markBlocks_iff c (within x.1 places) s.blocks x.2

theorem alive_mark_iff {c : Nat} (hc : 0 < c) (places : List Place) (v : TableView ρ) (x : Place) :
    (v.mark c places).Alive x ↔ v.Alive x ∧ x ∉ places := by
  simp only [Alive, mark]
  cases v.segments x.1 with
  | none => simp
  | some s => simpa [SegmentView.mark, mem_within] using alive_markBlocks_iff hc (within x.1 places) s.blocks x.2

variable {v : TableView ρ} {x : Place}

theorem Has.lt_nextId (hf : v.Fresh) (h : v.Has x) : x.1 < v.nextId := by
  obtain ⟨s, hs, _⟩ := h
  by_contra hlt
  rw [hf x.1 (by omega)] at hs
  cases hs

theorem target_cases (cap : Capacity) (c : Nat) (v : TableView ρ) :
    (v.target cap c = ({v with nextId := v.nextId + 1, unsealed := some v.nextId}, v.nextId, .new c)) ∨
      ∃ id s, v.segments id = some s ∧ v.target cap c = (v, id, s) := by
  unfold target
  split
  · exact .inl rfl
  rename_i id s hs
  split
  · exact .inl rfl
  obtain ⟨id', _, hmap⟩ := Option.bind_eq_some_iff.mp hs
  obtain ⟨s', hs', heq⟩ := Option.map_eq_some_iff.mp hmap
  cases heq
  exact .inr ⟨id, s, hs', rfl⟩

theorem target_mark (cap : Capacity) (c : Nat) (places : List Place) (v : TableView ρ)
    (h : ∀ x ∈ places, x.1 ≠ v.nextId) :
    (v.mark c places).target cap c = ((v.target cap c).1.mark c places, (v.target cap c).2.1,
      (v.target cap c).2.2.mark c (v.target cap c).2.1 places) := by
  have hnew : SegmentView.mark c v.nextId places (.new c) = (.new c : SegmentView ρ) := SegmentView.mark_outside h _
  cases hu : v.unsealed with
  | none => simp [target, mark, hu, hnew]
  | some id =>
    cases hs : v.segments id with
    | none => simp [target, mark, hu, hs, hnew]
    | some s =>
      simp only [target, mark, hu, hs, Option.bind_some, Option.map_some, SegmentView.count_mark]
      split <;> simp [hnew, hu]

/-- **A push commutes with marks on places that have a row.** -/
theorem push_mark {cap : Capacity} {c : Nat} {places : List Place} (row : ρ) (hf : v.Fresh)
    (h : ∀ x ∈ places, v.Has x) : (v.mark c places).push cap c row = (v.push cap c row).mark c places := by
  have hne : ∀ x ∈ places, x.1 ≠ v.nextId := fun x hx => ne_of_lt ((h x hx).lt_nextId hf)
  have hseg : ∀ x ∈ places, x.1 = (v.target cap c).2.1 → x.2.1 < (v.target cap c).2.2.blocks.length := by
    intro x hx hid
    rcases target_cases cap c v with ht | ⟨id, s, hs, ht⟩
    · rw [ht] at hid
      exact absurd hid (hne x hx)
    rw [ht] at hid ⊢
    obtain ⟨s', hs', b, hb, _⟩ := h x hx
    rw [hid, hs] at hs'
    cases hs'
    exact (List.getElem?_eq_some_iff.mp hb).1
  simp only [push, target_mark cap c places v hne, SegmentView.push_mark _ _ _ _ _ _ hseg]
  generalize (v.target cap c).2.1 = id
  simp only [set, mark, TableView.mk.injEq, and_true]
  funext id'
  by_cases hid : id' = id
  · subst hid
    simp
  · simp [hid]

/-! A push keeps the rows that are there and what is deleted of them. -/

theorem pushBlocks_getElem? (capacity c : Nat) {blocks : List (BlockView ρ)} (row : ρ) {i : Nat} {b : BlockView ρ}
    (h : blocks[i]? = some b) :
    ∃ b', (pushBlocks capacity c blocks row)[i]? = some b' ∧ b'.deleted = b.deleted ∧ b.rows.length ≤ b'.rows.length := by
  have hi : i < blocks.length := (List.getElem?_eq_some_iff.mp h).1
  rcases eq_nil_or_concat blocks with rfl | ⟨front, last, rfl⟩
  · cases h
  rw [concat_eq_append] at h hi ⊢
  simp only [pushBlocks, lastView, getLast?_concat, dropLast_concat]
  split
  · exact ⟨b, by rwa [List.getElem?_append_left hi], rfl, le_rfl⟩
  rcases lt_or_ge i front.length with hlt | hge
  · rw [getElem?_append_left hlt] at h
    exact ⟨b, by rwa [List.getElem?_append_left hlt], rfl, le_rfl⟩
  have hlast : i = front.length := by simp at hi; omega
  subst hlast
  simp only [getElem?_concat_length, Option.some.injEq] at h
  subst h
  exact ⟨_, getElem?_concat_length, rfl, by simp [BlockView.push]⟩

theorem push_segments (cap : Capacity) (c : Nat) (row : ρ) (hf : v.Fresh) {id : Nat} {s : SegmentView ρ}
    (hs : v.segments id = some s) :
    (v.push cap c row).segments id = some s ∨ (v.push cap c row).segments id = some (s.push cap.block c row) := by
  rcases target_cases cap c v with ht | ⟨id', s', hs', ht⟩
  · have hne : id ≠ v.nextId := by
      rintro rfl
      rw [hf _ le_rfl] at hs
      cases hs
    simp [push, ht, set, hne, hs]
  · by_cases hid : id = id'
    · subst hid
      rw [hs] at hs'
      cases hs'
      simp [push, ht, set]
    · left
      simp [push, ht, set, hid, hs]

theorem push_place (cap : Capacity) (c : Nat) (row : ρ) (hf : v.Fresh)
    {s : SegmentView ρ} {b : BlockView ρ} (hs : v.segments x.1 = some s) (hb : s.blocks[x.2.1]? = some b) :
    ∃ s' b', (v.push cap c row).segments x.1 = some s' ∧ s'.blocks[x.2.1]? = some b' ∧ b'.deleted = b.deleted ∧
      b.rows.length ≤ b'.rows.length := by
  rcases push_segments cap c row hf hs with hp | hp
  · exact ⟨s, b, hp, hb, rfl, le_rfl⟩
  · obtain ⟨b', hb', hd, hlen⟩ := pushBlocks_getElem? cap.block c row hb
    exact ⟨_, b', hp, hb', hd, hlen⟩

theorem Fresh.push (cap : Capacity) (c : Nat) (row : ρ) (hf : v.Fresh) : (v.push cap c row).Fresh := by
  intro id hid
  rcases target_cases cap c v with ht | ⟨id', s', hs', ht⟩
  · simp only [TableView.push, ht, TableView.set] at hid ⊢
    rw [Function.update_of_ne (by omega)]
    exact hf id (by omega)
  simp only [TableView.push, ht, TableView.set] at hid ⊢
  have hne : id ≠ id' := by
    rintro rfl
    rw [hf id hid] at hs'
    cases hs'
  rw [Function.update_of_ne hne]
  exact hf id hid

theorem Has.push (cap : Capacity) (c : Nat) (row : ρ) (hf : v.Fresh) (h : v.Has x) : (v.push cap c row).Has x := by
  obtain ⟨s, hs, b, hb, hx⟩ := h
  obtain ⟨s', b', hs', hb', _, hlen⟩ := push_place cap c row hf hs hb
  exact ⟨s', hs', b', hb', by omega⟩

theorem alive_push_iff (cap : Capacity) (c : Nat) (row : ρ) (hf : v.Fresh)
    (h : v.Has x) : (v.push cap c row).Alive x ↔ v.Alive x := by
  obtain ⟨s, hs, b, hb, hx⟩ := h
  obtain ⟨s', b', hs', hb', hd, hlen⟩ := push_place cap c row hf hs hb
  constructor
  · rintro ⟨s₁, hs₁, b₁, hb₁, _, hzero⟩
    rw [hs'] at hs₁
    cases hs₁
    rw [hb'] at hb₁
    cases hb₁
    exact ⟨s, hs, b, hb, hx, hd ▸ hzero⟩
  · rintro ⟨s₁, hs₁, b₁, hb₁, _, hzero⟩
    rw [hs] at hs₁
    cases hs₁
    rw [hb] at hb₁
    cases hb₁
    exact ⟨s', hs', b', hb', by omega, hd ▸ hzero⟩

/-! All rows of a list. -/

variable {cap : Capacity} {c : Nat} {v : TableView ρ}

theorem Has.foldl_push (rows : List ρ) (hf : v.Fresh) (h : v.Has x) : (rows.foldl (TableView.push cap c) v).Has x := by
  induction rows generalizing v with
  | nil => exact h
  | cons row rest ih => exact ih (hf.push cap c row) (h.push cap c row hf)

theorem alive_foldl_push_iff (rows : List ρ) (hf : v.Fresh) (h : v.Has x) :
    (rows.foldl (TableView.push cap c) v).Alive x ↔ v.Alive x := by
  induction rows generalizing v with
  | nil => exact Iff.rfl
  | cons row rest ih =>
    exact (ih (hf.push cap c row) (h.push cap c row hf)).trans (alive_push_iff cap c row hf h)

theorem foldl_push_mark (rows : List ρ) {places : List Place} (hf : v.Fresh) (h : ∀ x ∈ places, v.Has x) :
    rows.foldl (TableView.push cap c) (v.mark c places) = (rows.foldl (TableView.push cap c) v).mark c places := by
  induction rows generalizing v with
  | nil => rfl
  | cons row rest ih =>
    rw [foldl_cons, push_mark row hf h]
    exact ih (hf.push cap c row) fun x hx => (h x hx).push cap c row hf

end TableView

end Infinity.Table
