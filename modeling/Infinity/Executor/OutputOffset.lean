import Infinity.Executor.PhysicalTop

/-! Skipping the first rows of an output.

`HandleOutputOffset` moves the rows behind the offset to the front of the blocks. Where the
offset is no multiple of the capacity, each result block is put together in a swap block from
the two blocks its rows lie in, and is then exchanged with the block at its own place. A block
that has been moved away is `none`. -/
namespace Infinity.Executor

open Lib List

/-- The swap block and the blocks of the output. -/
structure OffsetShift (α : Type) where
  swapBlock : Option (List α)
  output : List (Option (List α))

variable {α : Type}

/-- `AppendWith` from a block of the output to the rows of the swap block. -/
def OffsetShift.appendWith (s : OffsetShift α) (rows : List α) (blockId start count : Nat) : Option (List α) :=
  (s.output[blockId]?).join.map fun block => rows ++ (block.drop start).take count

/-- The turn of the loop for the result block `i`. -/
def OffsetShift.turn (cap resultRowCnt offset : Nat) (s : OffsetShift α) (i : Nat) : Option (OffsetShift α) :=
  -- `swap_block->Reset()`
  s.swapBlock.bind fun _ =>
    let copyRowCnt := min cap (resultRowCnt - i * cap)
    let startRowId := offset + i * cap
    let startBlockId := startRowId / cap
    let startBlockOffset := startRowId % cap
    let startBlockCopyCnt := min copyRowCnt (cap - startBlockOffset)
    (s.appendWith [] startBlockId startBlockOffset startBlockCopyCnt).bind fun rows =>
      let nextBlockCopyCnt := copyRowCnt - startBlockCopyCnt
      (if 0 < nextBlockCopyCnt then s.appendWith rows (startBlockId + 1) 0 nextBlockCopyCnt else some rows).bind
        fun rows => (s.output[i]?).map fun block => ⟨block, s.output.set i (some rows)⟩

/-- Before the loop: the first block becomes the swap block where all its rows are skipped, and
a new one is made, of the column types of the first block, where they are not. -/
def OffsetShift.start (cap offset : Nat) (output : List (Option (List α))) : Option (OffsetShift α) :=
  if cap ≤ offset then (output[0]?).map fun block => ⟨block, output.set 0 none⟩
  else (output[0]?).join.map fun _ => ⟨some [], output⟩

/-- `PhysicalTop::HandleOutputOffset`; nothing is returned where an absent block is accessed. -/
def handleOutputOffset (cap totalRowCnt offset : Nat) (output : List (Option (List α))) :
    Option (List (Option (List α))) :=
  if offset = 0 then some output
  else if totalRowCnt ≤ offset then some []
  else if offset % cap = 0 then some (output.drop (offset / cap))
  else
    let resultRowCnt := totalRowCnt - offset
    let resultBlockCnt := blockCount cap resultRowCnt
    (OffsetShift.start cap offset output).bind fun s =>
      ((List.range resultBlockCnt).foldlM (OffsetShift.turn cap resultRowCnt offset) s).map fun s =>
        s.output.take resultBlockCnt

/-! ### One turn -/

variable {cap offset : Nat} {rows : List α} {s s' : OffsetShift α} {i : Nat}

/-- Before turn `i` the result blocks below `i` are there, and so are the old blocks from `i`
on that have rows behind the offset. -/
structure OffsetShift.Inv (cap offset : Nat) (rows : List α) (s : OffsetShift α) (i : Nat) : Prop where
  length : s.output.length = blockCount cap rows.length
  done : ∀ j < i, s.output[j]? = some (some (chunk cap (rows.drop offset) j))
  todo : ∀ j, i ≤ j → offset / cap ≤ j → j < blockCount cap rows.length → s.output[j]? = some (some (chunk cap rows j))

/-- The rows of a result block, of which the first `cap - a` are in one block and the others at
the start of the next. -/
theorem append_chunks (rows : List α) (q : Nat) {a n : Nat} (hn : n ≤ cap) (ha : a < cap) :
    ((chunk cap rows q).drop a).take (min n (cap - a)) ++ (chunk cap rows (q + 1)).take (n - min n (cap - a)) =
      (rows.drop (q * cap + a)).take n := by
  have hfirst : ((chunk cap rows q).drop a).take (min n (cap - a)) =
      (rows.drop (q * cap + a)).take (min n (cap - a)) := by
    rw [chunk, drop_take, take_take, drop_drop, min_eq_left (min_le_right ..)]
  have hsecond : (chunk cap rows (q + 1)).take (n - min n (cap - a)) =
      ((rows.drop (q * cap + a)).drop (min n (cap - a))).take (n - min n (cap - a)) := by
    rw [chunk, take_take, min_eq_left (by omega), drop_drop]
    rcases le_total n (cap - a) with hle | hle
    · rw [min_eq_left hle, Nat.sub_self, take_zero, take_zero]
    · rw [min_eq_right hle, add_mul, one_mul, show q * cap + a + (cap - a) = q * cap + cap by omega]
  rw [hfirst, hsecond, ← take_add, Nat.add_sub_cancel' (min_le_left ..)]

/-- **A turn that has a swap block fills it with the rows of the result block and exchanges it
with the block at `i`.** -/
theorem OffsetShift.turn_spec (hpos : 0 < cap) (h : Inv cap offset rows s i) (hswap : s.swapBlock.isSome)
    (hi : i < blockCount cap (rows.length - offset)) :
    ∃ block, s.output[i]? = some block ∧ s.turn cap (rows.length - offset) offset i =
      some ⟨block, s.output.set i (some (chunk cap (rows.drop offset) i))⟩ := by
  have hrow := (lt_blockCount_iff hpos).mp hi
  have hstart : offset = offset / cap * cap + offset % cap := by rw [mul_comm, Nat.div_add_mod]
  have hmod := Nat.mod_lt offset hpos
  have hq : (offset + i * cap) / cap = offset / cap + i := Nat.add_mul_div_right _ _ hpos
  have hrowId : (offset / cap + i) * cap + offset % cap = offset + i * cap := by
    rw [add_mul]
    omega
  have hblock (j : Nat) (hj : offset / cap + i ≤ j) (hlt : j * cap < rows.length) :
      s.output[j]? = some (some (chunk cap rows j)) :=
    h.todo j ((Nat.le_add_left ..).trans hj) ((Nat.le_add_right ..).trans hj) ((lt_blockCount_iff hpos).mpr hlt)
  have hilt : i < s.output.length := h.length ▸ hi.trans_le (blockCount_mono hpos (Nat.sub_le ..))
  obtain ⟨old, hold⟩ := Option.isSome_iff_exists.mp hswap
  refine ⟨s.output[i], getElem?_eq_getElem hilt, ?_⟩
  have hcopy : chunk cap (rows.drop offset) i =
      (rows.drop (offset + i * cap)).take (min cap (rows.length - offset - i * cap)) := by
    rw [chunk, drop_drop, take_eq_take_min, length_drop, Nat.sub_add_eq]
  have hparts := append_chunks rows (offset / cap + i) (min_le_left cap (rows.length - offset - i * cap)) hmod
  rw [hrowId, ← hcopy] at hparts
  simp only [turn, hold, hq, Nat.add_mul_mod_self_right, appendWith, hblock _ le_rfl (by omega),
    Option.join_some, Option.map_some, nil_append, Option.bind_some]
  split
  · rename_i hnext
    have hlt : (offset / cap + i + 1) * cap < rows.length := by
      rw [add_mul, one_mul]
      omega
    rw [hblock _ (Nat.le_succ _) hlt, Option.join_some, Option.map_some, Option.bind_some, drop_zero, hparts,
      getElem?_eq_getElem hilt, Option.map_some]
  · rename_i hnext
    rw [Nat.eq_zero_of_not_pos hnext, take_zero, append_nil] at hparts
    rw [hparts, Option.bind_some, getElem?_eq_getElem hilt, Option.map_some]

theorem OffsetShift.Inv.next (h : Inv cap offset rows s i) {block : Option (List α)} (hi : i < s.output.length) :
    Inv cap offset rows ⟨block, s.output.set i (some (chunk cap (rows.drop offset) i))⟩ (i + 1) where
  length := by rw [length_set, h.length]
  done j hj := by
    rcases Nat.lt_succ_iff_lt_or_eq.mp hj with hlt | rfl
    · rw [getElem?_set_ne (by omega), h.done j hlt]
    · rw [getElem?_set_self hi]
  todo j hj hoff hlt := by rw [getElem?_set_ne (by omega), h.todo j (by omega) hoff hlt]

/-! ### All turns -/

/-- **The turns find a swap block each time where no turn after the first one would meet the
place of a block that was moved away.** -/
theorem OffsetShift.run_spec (hpos : 0 < cap) (h : Inv cap offset rows s 0) (hswap : s.swapBlock.isSome)
    (hcond : offset < cap ∨ blockCount cap (rows.length - offset) ≤ 1) {n : Nat}
    (hn : n ≤ blockCount cap (rows.length - offset)) :
    ∃ s', (range n).foldlM (turn cap (rows.length - offset) offset) s = some s' ∧ Inv cap offset rows s' n ∧
      (n < blockCount cap (rows.length - offset) → s'.swapBlock.isSome) := by
  induction n with
  | zero => exact ⟨s, rfl, h, fun _ => hswap⟩
  | succ n ih =>
    obtain ⟨s₁, hrun, hinv, hsome⟩ := ih (Nat.le_of_succ_le hn)
    obtain ⟨block, hblock, hturn⟩ := turn_spec hpos hinv (hsome hn) hn
    refine ⟨⟨block, _⟩, ?_, hinv.next (List.getElem?_eq_some_iff.mp hblock).1, fun hlt => ?_⟩
    · rw [range_succ, foldlM_append, hrun]
      simp [hturn]
    · -- the block that is taken out becomes the next swap block
      have hoff : offset < cap := hcond.resolve_right (by omega)
      have hold := hinv.todo n (Nat.le_refl n) (by rw [Nat.div_eq_of_lt hoff]; exact Nat.zero_le n)
        (Nat.lt_of_lt_of_le hn (blockCount_mono hpos (Nat.sub_le ..)))
      rw [hold] at hblock
      cases hblock
      rfl

theorem OffsetShift.Inv.take_output {n : Nat} (h : Inv cap offset rows s n) :
    s.output.take n = (chunks cap (rows.drop offset) n).map some := by
  refine ext_getElem? fun j => ?_
  rw [getElem?_map, getElem?_chunks]
  split
  · rename_i hj
    rw [getElem?_take_of_lt hj, h.done j hj, Option.map_some]
  · rename_i hj
    rw [getElem?_take_eq_none (Nat.le_of_not_lt hj), Option.map_none]

variable {blocks : List (List α)}

theorem OffsetShift.start_spec (h : Packed cap blocks) (hlt : offset < blocks.flatten.length) :
    ∃ s, start cap offset (blocks.map some) = some s ∧ Inv cap offset blocks.flatten s 0 ∧ s.swapBlock.isSome := by
  have hinv (j : Nat) (hj : j < blockCount cap blocks.flatten.length) :
      (blocks.map some)[j]? = some (some (chunk cap blocks.flatten j)) := by
    rw [getElem?_map, h.getElem?_eq_chunk (h.length_eq ▸ hj), Option.map_some]
  cases blocks with
  | nil => simp at hlt
  | cons b blocks =>
    have hpos : 0 < cap := (length_pos_iff.mpr h.head.1).trans_le h.head.2.1
    have hlen := h.length_eq
    by_cases hoff : cap ≤ offset
    · refine ⟨⟨some b, none :: blocks.map some⟩, if_pos hoff, ⟨by simpa using hlen, by simp, fun j _ hj hlt => ?_⟩, rfl⟩
      have hj0 : 0 < j := (Nat.div_pos hoff hpos).trans_le hj
      obtain ⟨k, rfl⟩ := Nat.exists_eq_succ_of_ne_zero hj0.ne'
      exact hinv (k + 1) hlt
    · exact ⟨⟨some [], some b :: blocks.map some⟩, if_neg hoff,
        ⟨by simpa using hlen, by simp, fun j _ _ => hinv j⟩, rfl⟩

/-- **The rows behind the offset are left, packed and in their order**, where the offset lies in
the first block or between two blocks, or where at most one block of rows is left. -/
theorem handleOutputOffset_spec (blocks : List (List α)) (h : Packed cap blocks)
    (hcond : offset < cap ∨ offset % cap = 0 ∨ blocks.flatten.length ≤ offset + cap) :
    ∃ out, handleOutputOffset cap blocks.flatten.length offset (blocks.map some) = some (out.map some) ∧
      Packed cap out ∧ out.flatten = blocks.flatten.drop offset := by
  unfold handleOutputOffset
  split
  · rename_i h0
    exact ⟨blocks, rfl, h, by rw [h0, drop_zero]⟩
  split
  · rename_i hle
    exact ⟨[], rfl, by simp [Packed], (drop_of_length_le hle).symm⟩
  rename_i hlt
  split
  · rename_i hmod
    refine ⟨blocks.drop (offset / cap), by rw [map_drop], h.drop _, ?_⟩
    rw [h.flatten_drop, Nat.div_mul_cancel (Nat.dvd_of_mod_eq_zero hmod)]
  rename_i hmod
  have hpos : 0 < cap := by
    cases blocks with
    | nil => simp at hlt
    | cons b blocks => exact (length_pos_iff.mpr h.head.1).trans_le h.head.2.1
  obtain ⟨s, hstart, hinv, hswap⟩ := OffsetShift.start_spec h (Nat.lt_of_not_le hlt)
  have hturns : offset < cap ∨ blockCount cap (blocks.flatten.length - offset) ≤ 1 := by
    rcases hcond with hoff | hoff | hoff
    · exact .inl hoff
    · exact absurd hoff hmod
    · exact .inr (blockCount_of_le (by omega) (by omega)).le
  obtain ⟨s', hrun, hinv', -⟩ := OffsetShift.run_spec hpos hinv hswap hturns le_rfl
  refine ⟨chunks cap (blocks.flatten.drop offset) (blockCount cap (blocks.flatten.length - offset)), ?_, ?_, ?_⟩
  · simp only [hstart, hrun, Option.bind_some, Option.map_some, hinv'.take_output]
  · rw [← length_drop]
    exact packed_chunks hpos _
  · rw [← length_drop, flatten_chunks_blockCount hpos]

theorem handleOutputOffset_spec_one :
    ∃ out, handleOutputOffset 2 2 1 [some [10, 20]] = some (out.map some) ∧ Packed 2 out ∧ out.flatten = [20] :=
  handleOutputOffset_spec [[10, 20]] (packed_singleton (cons_ne_nil _ _) (Nat.le_refl 2)) (.inl Nat.one_lt_two)

theorem OffsetShift.turn_swapBlock {n : Nat} (h : s.turn cap n offset i = some s') :
    s.output[i]? = some s'.swapBlock := by
  simp only [turn, Option.bind_eq_some_iff, Option.map_eq_some_iff] at h
  obtain ⟨_, -, _, -, _, -, block, hblock, rfl⟩ := h
  exact hblock

/-- Where the swap block was the first one, the first turn leaves no swap block for a second. -/
theorem handleOutputOffset_none (hpos : 0 < cap) (hoff : cap ≤ offset) (hmod : offset % cap ≠ 0) {total : Nat}
    (htotal : offset + cap < total) (output : List (Option (List α))) :
    handleOutputOffset cap total offset output = none := by
  have h0 : offset ≠ 0 := fun h0 => hmod (by rw [h0, Nat.zero_mod])
  have hcount : 1 < blockCount cap (total - offset) := (lt_blockCount_iff hpos).mpr (by omega)
  obtain ⟨n, hn⟩ := Nat.exists_eq_add_of_le hcount
  rw [handleOutputOffset, if_neg h0, if_neg (by omega), if_neg hmod, OffsetShift.start, if_pos hoff]
  cases output with
  | nil => rfl
  | cons block output =>
    have htwo : (range 2).foldlM (OffsetShift.turn cap (total - offset) offset) ⟨block, none :: output⟩ = none := by
      cases hturn : OffsetShift.turn cap (total - offset) offset ⟨block, none :: output⟩ 0 with
      | none => simp [range_succ, hturn]
      | some s₁ =>
        have hswap : none = s₁.swapBlock := by simpa using OffsetShift.turn_swapBlock hturn
        have hsecond : s₁.turn cap (total - offset) offset 1 = none := by
          rw [OffsetShift.turn, ← hswap]
          rfl
        simp [range_succ, hturn, hsecond]
    simp [hn, range_add, htwo]

/-- The offset lies in the second block, and rows of more than one block follow. -/
theorem handleOutputOffset_second_block :
    Packed defaultBlockCapacity (replicate 3 (replicate defaultBlockCapacity ())) ∧
      handleOutputOffset defaultBlockCapacity (3 * defaultBlockCapacity) (defaultBlockCapacity + 1)
        (replicate 3 (some (replicate defaultBlockCapacity ()))) = none := by
  refine ⟨fun i b hb => ?_, handleOutputOffset_none defaultBlockCapacity_pos (by decide) (by decide) (by decide) _⟩
  have hb' := eq_of_mem_replicate (mem_of_getElem? hb)
  rw [hb', length_replicate]
  exact ⟨by simp [defaultBlockCapacity_pos.ne'], le_rfl, fun _ => rfl⟩

end Infinity.Executor
