import Infinity.Executor.PhysicalTop

/-! The operator `PhysicalMergeTop`.

It holds the best rows received so far in packed blocks and merges every input into them in
place: the ids of the merged rows are computed first, then new blocks are appended, and the
old blocks are rewritten from the last to the first, each from rows that still stand in the
blocks up to it or in the input. -/
namespace Infinity.Executor

open Lib List

variable {α : Type}

/-! ### The operator -/

/-- A position in a list of blocks with the number of rows from there on. -/
structure VectorBlockRawIndex where
  leftRowCnt : Nat
  blockId : Nat
  blockOffset : Nat
  deriving DecidableEq, Repr

def VectorBlockRawIndex.next (i : VectorBlockRawIndex) : VectorBlockRawIndex :=
  if 0 < i.leftRowCnt then
    if i.blockOffset + 1 = defaultBlockCapacity then ⟨i.leftRowCnt - 1, i.blockId + 1, 0⟩
    else ⟨i.leftRowCnt - 1, i.blockId, i.blockOffset + 1⟩
  else i

structure MergeTopState (α : Type) where
  inputDataBlocks : List (List α)
  middleSortedDataBlocks : List (List α)
  middleResultCount : Nat
  inputComplete : Bool
  dataBlockArray : List (List α)
  complete : Bool

def readRow (blocks : List (List α)) (blockId blockOffset : Nat) : Except TopFault α :=
  match (blocks[blockId]?).bind (·[blockOffset]?) with
  | some row => .ok row
  | none => .error .outOfRange

/-- `choose_middle` -/
def chooseMiddle (sortFunctions : List (α → α → Ordering)) (middleBlocks inputBlocks : List (List α))
    (middle input : VectorBlockRawIndex) : Except TopFault Bool :=
  if middle.leftRowCnt = 0 then .ok false
  else if input.leftRowCnt = 0 then .ok true
  else do
    let left ← readRow middleBlocks middle.blockId middle.blockOffset
    let right ← readRow inputBlocks (input.blockId - middleBlocks.length) input.blockOffset
    return preferLeft sortFunctions left right

/-- The loop that finds the merged ids. -/
def mergeIds (sortFunctions : List (α → α → Ordering)) (middleBlocks inputBlocks : List (List α)) :
    Nat → VectorBlockRawIndex → VectorBlockRawIndex → Except TopFault (List VectorBlockRawIndex)
  | 0, _, _ => .ok []
  | n + 1, middle, input => do
    if ← chooseMiddle sortFunctions middleBlocks inputBlocks middle input then
      return middle :: (← mergeIds sortFunctions middleBlocks inputBlocks n middle.next input)
    else
      return input :: (← mergeIds sortFunctions middleBlocks inputBlocks n middle input.next)

/-- `get_block_ptr` and the row at the offset. -/
def readMerged (middleBlockCnt : Nat) (middleBlocks inputBlocks : List (List α)) (id : VectorBlockRawIndex) :
    Except TopFault α :=
  if id.blockId < middleBlockCnt then readRow middleBlocks id.blockId id.blockOffset
  else readRow inputBlocks (id.blockId - middleBlockCnt) id.blockOffset

/-- Fill block `blockId` of the result and put it in its place: the body of the loop that
appends blocks and of the loop that reuses the old ones. -/
def writeBlock (middleBlockCnt : Nat) (inputBlocks : List (List α)) (resultIds : List VectorBlockRawIndex)
    (blocks : List (List α)) (blockId : Nat) : Except TopFault (List (List α)) := do
  let startId := blockId * defaultBlockCapacity
  let endId := min resultIds.length (startId + defaultBlockCapacity)
  let rows ← ((resultIds.take endId).drop startId).mapM (readMerged middleBlockCnt blocks inputBlocks)
  if blockId < blocks.length then return blocks.set blockId rows else throw .outOfRange

/-- Merge the input blocks into the middle ones and keep at most `limit` rows. -/
def mergeBlocks (op : PhysicalTop α) (middleBlocks inputBlocks : List (List α)) (middleCount inputCount : Nat) :
    Except TopFault (List (List α)) := do
  let resultCnt := min op.limit (inputCount + middleCount)
  let resultBlockCnt := resultCnt / defaultBlockCapacity + if resultCnt % defaultBlockCapacity = 0 then 0 else 1
  let middleBlockCnt := middleBlocks.length
  let resultIds ← mergeIds op.sortFunctions middleBlocks inputBlocks resultCnt ⟨middleCount, 0, 0⟩
    ⟨inputCount, middleBlockCnt, 0⟩
  let resized := middleBlocks.take resultBlockCnt ++ List.replicate (resultBlockCnt - middleBlockCnt) []
  let appended ← (List.range' middleBlockCnt (resultBlockCnt - middleBlockCnt)).foldlM
    (writeBlock middleBlockCnt inputBlocks resultIds) resized
  (List.range middleBlockCnt).reverse.foldlM (writeBlock middleBlockCnt inputBlocks resultIds) appended

/-- The middle blocks with the input merged in, and their number of rows. -/
def mergeInput (op : PhysicalTop α) (middleBlocks inputBlocks : List (List α)) (middleCount : Nat) :
    Except TopFault (List (List α) × Nat) :=
  let inputCount := (inputBlocks.map List.length).sum
  if middleBlocks = [] then .ok (inputBlocks, inputCount)
  else
    -- the longer side is the one that is rewritten
    let merged := if middleCount < inputCount then mergeBlocks op inputBlocks middleBlocks inputCount middleCount
      else mergeBlocks op middleBlocks inputBlocks middleCount inputCount
    merged.map fun blocks => (blocks, min op.limit (inputCount + middleCount))

/-- `PhysicalMergeTop::Execute`, with the parameters of the operator below it. -/
def mergeTopExecute (op : PhysicalTop α) (state : MergeTopState α) : Except TopFault (MergeTopState α) :=
  if state.dataBlockArray ≠ [] then .error .outputNotEmpty
  else if state.inputDataBlocks = [] then .error .emptyInput
  else
    match mergeInput op state.middleSortedDataBlocks state.inputDataBlocks state.middleResultCount with
    | .error e => .error e
    | .ok (blocks, count) =>
      let state := {state with inputDataBlocks := [], middleResultCount := count}
      if state.inputComplete then
        .ok {state with middleSortedDataBlocks := [], dataBlockArray := blocks, complete := true}
      else .ok {state with middleSortedDataBlocks := blocks}

/-- `GetData` gives the operator a block. -/
def MergeTopState.receive (state : MergeTopState α) (block : List α) (completed : Bool) : MergeTopState α :=
  {state with inputDataBlocks := state.inputDataBlocks ++ [block], inputComplete := state.inputComplete || completed}

/-- Blocks arrive one at a time; the last one completes the input. -/
def mergeTopRun (op : PhysicalTop α) : MergeTopState α → List (List α) → Except TopFault (MergeTopState α)
  | state, [] => .ok state
  | state, block :: rest => do
    let state ← mergeTopExecute op (state.receive block rest.isEmpty)
    mergeTopRun op state rest

def MergeTopState.initial : MergeTopState α := ⟨[], [], 0, false, [], false⟩

/-! ### The merged ids -/

/-- The index of position `p` of `n` rows whose first block has number `base`. -/
def placeOf (n base p : Nat) : VectorBlockRawIndex := ⟨n - p, base + p / defaultBlockCapacity, p % defaultBlockCapacity⟩

theorem next_placeOf {n p : Nat} (base : Nat) (hp : p < n) : (placeOf n base p).next = placeOf n base (p + 1) := by
  obtain ⟨hdiv, hmod⟩ := next_place defaultBlockCapacity_pos p
  unfold VectorBlockRawIndex.next placeOf
  rw [if_pos (by simp only; omega), hdiv, hmod]
  split <;> simp [Nat.sub_sub, add_assoc]

theorem readRow_of_packed {blocks : List (List α)} (h : Packed defaultBlockCapacity blocks) {p : Nat} {row : α}
    (hrow : blocks.flatten[p]? = some row) :
    readRow blocks (p / defaultBlockCapacity) (p % defaultBlockCapacity) = .ok row := by
  rw [readRow, h.getElem?_flatten, hrow]

/-- Where a row of the result stands: in the middle rows or in the input. -/
abbrev Source := Nat ⊕ Nat

section Merge

variable (sortFunctions : List (α → α → Ordering)) (middleBlocks inputBlocks : List (List α))

/-- The index of a source. -/
def Source.index : Source → VectorBlockRawIndex
  | .inl p => placeOf middleBlocks.flatten.length 0 p
  | .inr p => placeOf inputBlocks.flatten.length middleBlocks.length p

def Source.row? : Source → Option α
  | .inl p => middleBlocks.flatten[p]?
  | .inr p => inputBlocks.flatten[p]?

variable {sortFunctions} {middle input : List (List α)}

/-- The next row is taken from the first list. -/
def takesLeft (sortFunctions : List (α → α → Ordering)) (left right : List α) (p q : Nat) : Bool :=
  match left[p]?, right[q]? with
  | none, _ => false
  | some _, none => true
  | some a, some b => preferLeft sortFunctions a b

theorem drop_of_getElem? {l : List α} {p : Nat} {a : α} (h : l[p]? = some a) : l.drop p = a :: l.drop (p + 1) := by
  rw [drop_eq_getElem?_toList_append, h]
  rfl

theorem merge_of_takesLeft {left right : List α} {p q : Nat} (h : takesLeft sortFunctions left right p q = true) :
    ∃ a, left[p]? = some a ∧ (left.drop p).merge (right.drop q) (preferLeft sortFunctions) =
      a :: (left.drop (p + 1)).merge (right.drop q) (preferLeft sortFunctions) := by
  unfold takesLeft at h
  split at h
  · cases h
  · rename_i a ha hb
    refine ⟨a, ha, ?_⟩
    rw [drop_eq_nil_of_le (getElem?_eq_none_iff.mp hb), merge_right, merge_right, drop_of_getElem? ha]
  · rename_i a b ha hb
    refine ⟨a, ha, ?_⟩
    rw [drop_of_getElem? ha, drop_of_getElem? hb, cons_merge_cons, if_pos h]

theorem merge_of_not_takesLeft {left right : List α} {p q : Nat} (h : takesLeft sortFunctions left right p q = false)
    (hrest : p < left.length ∨ q < right.length) :
    ∃ b, right[q]? = some b ∧ (left.drop p).merge (right.drop q) (preferLeft sortFunctions) =
      b :: (left.drop p).merge (right.drop (q + 1)) (preferLeft sortFunctions) := by
  unfold takesLeft at h
  split at h
  · rename_i ha
    have hp := getElem?_eq_none_iff.mp ha
    have hq : q < right.length := hrest.resolve_left (by omega)
    refine ⟨_, getElem?_eq_getElem hq, ?_⟩
    rw [drop_eq_nil_of_le hp, nil_merge, nil_merge, drop_of_getElem? (getElem?_eq_getElem hq)]
  · cases h
  · rename_i a b ha hb
    refine ⟨b, hb, ?_⟩
    rw [drop_of_getElem? ha, drop_of_getElem? hb, cons_merge_cons, h]
    simp

section
variable (hm : Packed defaultBlockCapacity middle)
include hm

section
variable (hi : Packed defaultBlockCapacity input)
include hi

theorem chooseMiddle_spec {p q : Nat} : chooseMiddle sortFunctions middle input (placeOf middle.flatten.length 0 p)
        (placeOf input.flatten.length middle.length q) =
      .ok (takesLeft sortFunctions middle.flatten input.flatten p q) := by
  unfold chooseMiddle takesLeft
  cases hp : middle.flatten[p]? with
  | none =>
    have := getElem?_eq_none_iff.mp hp
    rw [if_pos (by simp only [placeOf]; omega)]
  | some left =>
    have := (List.getElem?_eq_some_iff.mp hp).1
    rw [if_neg (by simp only [placeOf]; omega)]
    cases hq : input.flatten[q]? with
    | none =>
      have := getElem?_eq_none_iff.mp hq
      rw [if_pos (by simp only [placeOf]; omega)]
    | some right =>
      have := (List.getElem?_eq_some_iff.mp hq).1
      rw [if_neg (by simp only [placeOf]; omega)]
      simp only [placeOf, zero_add, Nat.add_sub_cancel_left, readRow_of_packed hm hp, readRow_of_packed hi hq]
      rfl

/-- The ids name the rows of the merge in order, and the row at place `k` of the result comes from
a middle place at most `k`. -/
theorem mergeIds_spec (n : Nat) {p q : Nat} (hn : n ≤ (middle.flatten.length - p) + (input.flatten.length - q)) :
    ∃ sources : List Source, mergeIds sortFunctions middle input n (placeOf middle.flatten.length 0 p)
        (placeOf input.flatten.length middle.length q) = .ok (sources.map (Source.index middle input)) ∧
      sources.map (Source.row? middle input) =
        (((middle.flatten.drop p).merge (input.flatten.drop q) (preferLeft sortFunctions)).take n).map some ∧
      ∀ k r, sources[k]? = some (.inl r) → r ≤ p + k := by
  induction n generalizing p q with
  | zero => exact ⟨[], rfl, by simp, by simp⟩
  | succ n ih =>
    unfold mergeIds
    rw [chooseMiddle_spec hm hi]
    cases hc : takesLeft sortFunctions middle.flatten input.flatten p q with
    | true =>
      obtain ⟨row, hrow, hmerge⟩ := merge_of_takesLeft hc
      have hp := (List.getElem?_eq_some_iff.mp hrow).1
      obtain ⟨sources, hids, hrows, hplaces⟩ := ih (p := p + 1) (q := q) (by omega)
      refine ⟨.inl p :: sources, ?_, ?_, ?_⟩
      · rw [next_placeOf 0 hp, hids]
        rfl
      · rw [hmerge, map_cons, hrows]
        exact congrArg (· :: _) hrow
      · intro k r hk
        cases k with
        | zero =>
          cases hk
          omega
        | succ k =>
          have := hplaces k r hk
          omega
    | false =>
      obtain ⟨row, hrow, hmerge⟩ := merge_of_not_takesLeft hc (by omega)
      have hq := (List.getElem?_eq_some_iff.mp hrow).1
      obtain ⟨sources, hids, hrows, hplaces⟩ := ih (p := p) (q := q + 1) (by omega)
      refine ⟨.inr q :: sources, ?_, ?_, ?_⟩
      · rw [next_placeOf _ hq, hids]
        rfl
      · rw [hmerge, map_cons, hrows]
        exact congrArg (· :: _) hrow
      · intro k r hk
        cases k with
        | zero => cases hk
        | succ k =>
          have := hplaces k r hk
          omega

/-! ### Writing the result in place -/

theorem readMerged_spec {blocks : List (List α)} {blockId : Nat}
    (hkept : ∀ j, j < middle.length → j ≤ blockId → blocks[j]? = middle[j]?) {source : Source} {row : α}
    (hrow : source.row? middle input = some row)
    (hplace : ∀ r, source = .inl r → r / defaultBlockCapacity ≤ blockId) :
    readMerged middle.length blocks input (source.index middle input) = .ok row := by
  cases source with
  | inl p =>
    have hrow' := hm.getElem?_flatten p
    rw [show middle.flatten[p]? = some row from hrow] at hrow'
    obtain ⟨block, hblock, hget⟩ := Option.bind_eq_some_iff.mp hrow'
    have hlt := (List.getElem?_eq_some_iff.mp hblock).1
    simp only [readMerged, Source.index, placeOf, Nat.zero_add]
    rw [if_pos hlt, readRow, hkept _ hlt (hplace p rfl), hrow']
  | inr p =>
    have hge : ¬ (Source.index middle input (.inr p)).blockId < middle.length := not_lt.mpr (Nat.le_add_right ..)
    unfold readMerged
    rw [if_neg hge]
    simp only [Source.index, placeOf]
    rw [Nat.add_sub_cancel_left, readRow_of_packed hi hrow]

end

end

theorem mapM_ok {β γ ε : Type} {f : β → Except ε γ} {l : List β} {l' : List γ} (hlen : l.length = l'.length)
    (h : ∀ (k : Nat) x y, l[k]? = some x → l'[k]? = some y → f x = .ok y) : l.mapM f = .ok l' := by
  induction l generalizing l' with
  | nil =>
    cases length_eq_zero_iff.mp hlen.symm
    rfl
  | cons x l ih =>
    cases l' with
    | nil => simp at hlen
    | cons y l' =>
      have hx : f x = .ok y := h 0 x y rfl rfl
      have hl : l.mapM f = .ok l' := ih (by simpa using hlen) fun k x y hx hy => h (k + 1) x y hx hy
      rw [mapM_cons, hx, hl]
      rfl

/-- The sources of the rows `rows` of a result, no row coming from behind its own place. -/
structure Sourced (middleBlocks inputBlocks : List (List α)) (sources : List Source) (rows : List α) : Prop where
  row : sources.map (Source.row? middleBlocks inputBlocks) = rows.map some
  place : ∀ (k r : Nat), sources[k]? = some (Sum.inl r) → r ≤ k

section Write

variable (hm : Packed defaultBlockCapacity middle) (hi : Packed defaultBlockCapacity input)
  {sources : List Source} {rows : List α} (h : Sourced middle input sources rows)
include hm hi h

theorem writeBlock_spec {blocks : List (List α)} {blockId : Nat} (hlt : blockId < blocks.length)
    (hkept : ∀ j, j < middle.length → j ≤ blockId → blocks[j]? = middle[j]?) :
    writeBlock middle.length input (sources.map (Source.index middle input)) blocks blockId =
      .ok (blocks.set blockId (chunk defaultBlockCapacity rows blockId)) := by
  have hlen : sources.length = rows.length := by simpa using congrArg length h.row
  have hrows : (((sources.map (Source.index middle input)).take
      (min (sources.map (Source.index middle input)).length
        (blockId * defaultBlockCapacity + defaultBlockCapacity))).drop (blockId * defaultBlockCapacity)).mapM
      (readMerged middle.length blocks input) = .ok (chunk defaultBlockCapacity rows blockId) := by
    refine mapM_ok ?_ fun k id row hid hrow => ?_
    · simp [chunk]
      omega
    · -- both lists are read at the same place of the result
      rw [getElem?_drop, getElem?_take, getElem?_map] at hid
      rw [chunk, getElem?_take, getElem?_drop] at hrow
      split at hid
      · split at hrow
        · rename_i hk
          obtain ⟨source, hsource, rfl⟩ := Option.map_eq_some_iff.mp hid
          have hget := congrArg (fun l : List (Option α) => l[blockId * defaultBlockCapacity + k]?) h.row
          simp only [getElem?_map, hsource, hrow, Option.map_some, Option.some.injEq] at hget
          refine readMerged_spec hm hi hkept hget fun r hr => ?_
          have hle := h.place _ r (hr ▸ hsource)
          exact Nat.lt_succ_iff.mp (Nat.div_lt_of_lt_mul (by rw [mul_comm, Nat.succ_mul]; omega))
        · cases hrow
      · cases hid
  unfold writeBlock
  simp only [hrows]
  exact if_pos hlt

/-- The blocks are written in an order in which none is overwritten before it has been read. -/
theorem foldlM_writeBlock (order : List Nat) (blocks : List (List α))
    (horder : order.Pairwise fun b b' => middle.length ≤ b ∨ b' < b) (hlt : ∀ b ∈ order, b < blocks.length)
    (hkept : ∀ j, j < middle.length → (∃ b ∈ order, j ≤ b) → blocks[j]? = middle[j]?) :
    ∃ blocks', order.foldlM (writeBlock middle.length input
        (sources.map (Source.index middle input))) blocks = .ok blocks' ∧
      blocks'.length = blocks.length ∧
      ∀ j, blocks'[j]? = if j ∈ order then some (chunk defaultBlockCapacity rows j) else blocks[j]? := by
  induction order generalizing blocks with
  | nil => exact ⟨blocks, rfl, rfl, by simp⟩
  | cons b order ih =>
    obtain ⟨hfirst, hrest⟩ := pairwise_cons.mp horder
    have hb := hlt b (mem_cons_self ..)
    have hwrite := writeBlock_spec hm hi h hb fun j hj hjb => hkept j hj ⟨b, mem_cons_self .., hjb⟩
    obtain ⟨blocks', hok, hlen, hget⟩ := ih (blocks.set b (chunk defaultBlockCapacity rows b)) hrest
      (fun b' hb' => by simpa using hlt b' (mem_cons_of_mem b hb')) (fun j hj hex => by
        obtain ⟨b', hb', hjb⟩ := hex
        have hne : b ≠ j := by rcases hfirst b' hb' with hle | hle <;> omega
        rw [getElem?_set_ne hne]
        exact hkept j hj ⟨b', mem_cons_of_mem b hb', hjb⟩)
    refine ⟨blocks', ?_, by simpa using hlen, fun j => ?_⟩
    · rwa [foldlM_cons, hwrite]
    · rw [hget j]
      by_cases hj : j ∈ order
      · simp [hj]
      by_cases hjb : j = b
      · subst hjb
        simp [hb]
      · simp [hjb, getElem?_set_ne (Ne.symm hjb)]

end Write

/-- New blocks first, then the old ones from the last to the first. -/
def writeOrder (middleBlockCnt resultBlockCnt : Nat) : List Nat :=
  List.range' middleBlockCnt (resultBlockCnt - middleBlockCnt) ++ (List.range middleBlockCnt).reverse

theorem mem_writeOrder {m n j : Nat} (h : m ≤ n) : j ∈ writeOrder m n ↔ j < n := by
  rw [writeOrder, mem_append, mem_range'_1, mem_reverse, mem_range]
  omega

theorem pairwise_writeOrder (m n : Nat) : (writeOrder m n).Pairwise fun b b' => m ≤ b ∨ b' < b := by
  refine pairwise_append.mpr ⟨?_, ?_, fun b hb _ _ => .inl (mem_range'_1.mp hb).1⟩
  · exact pairwise_of_forall_mem_list fun b hb _ _ => .inl (mem_range'_1.mp hb).1
  · exact pairwise_reverse.mpr (pairwise_lt_range.imp fun {b b'} hb => .inr hb)

theorem mergeBlocks_spec {op : PhysicalTop α} (hm : Packed defaultBlockCapacity middle)
    (hi : Packed defaultBlockCapacity input) (hlimit : middle.flatten.length ≤ op.limit) :
    ∃ blocks, mergeBlocks op middle input middle.flatten.length input.flatten.length = .ok blocks ∧
      Packed defaultBlockCapacity blocks ∧
      blocks.flatten = (middle.flatten.merge input.flatten (preferLeft op.sortFunctions)).take op.limit := by
  have hcap := defaultBlockCapacity_pos
  set merged := middle.flatten.merge input.flatten (preferLeft op.sortFunctions) with hmerged
  have hmergedLen : merged.length = middle.flatten.length + input.flatten.length := by
    rw [(merge_perm_append _).length_eq, length_append]
  set n := min op.limit (input.flatten.length + middle.flatten.length) with hn
  have hrows : merged.take op.limit = merged.take n := by
    rw [take_eq_take_iff]
    omega
  have hlen : (merged.take n).length = n := by
    rw [length_take]
    omega
  obtain ⟨sources, hids, hsource, hplaces⟩ := @mergeIds_spec _ op.sortFunctions _ _ hm hi n 0 0 (by omega)
  have hsourced : Sourced middle input sources (merged.take n) := ⟨hsource, fun k r hk => by simpa using hplaces k r hk⟩
  have hmiddle : middle.length ≤ blockCount defaultBlockCapacity n := by
    rw [hm.length_eq]
    exact blockCount_mono defaultBlockCapacity_pos (by omega)
  set resized := middle.take (blockCount defaultBlockCapacity n) ++
    replicate (blockCount defaultBlockCapacity n - middle.length) [] with hresized
  have hresizedLen : resized.length = blockCount defaultBlockCapacity n := by
    simp only [hresized, length_append, length_take, length_replicate]
    omega
  obtain ⟨blocks, hblocks, -, hget⟩ := foldlM_writeBlock hm hi hsourced
    (writeOrder middle.length (blockCount defaultBlockCapacity n)) resized (pairwise_writeOrder _ _)
    (fun b hb => hresizedLen.symm ▸ (mem_writeOrder hmiddle).mp hb)
    (fun j hj _ => by rw [hresized, take_of_length_le hmiddle, getElem?_append_left hj])
  have hchunks : blocks = chunks defaultBlockCapacity (merged.take n)
      (blockCount defaultBlockCapacity (merged.take n).length) := by
    refine ext_getElem? fun j => ?_
    rw [hget j, getElem?_chunks, hlen]
    simp only [mem_writeOrder hmiddle]
    split
    · rfl
    · exact getElem?_eq_none_iff.mpr (by omega)
  refine ⟨blocks, ?_, hchunks ▸ packed_chunks hcap _, ?_⟩
  · rw [writeOrder, foldlM_append] at hblocks
    have hids' : mergeIds op.sortFunctions middle input n ⟨middle.flatten.length, 0, 0⟩
        ⟨input.flatten.length, middle.length, 0⟩ = .ok (sources.map (Source.index middle input)) := by
      simpa [placeOf] using hids
    simp only [mergeBlocks, ← hn, hids']
    exact hblocks
  · rw [hchunks, flatten_chunks_blockCount hcap, hrows]

end Merge

/-! ### One input after another -/

theorem TopBlocks.length_le {op : PhysicalTop α} {S : Multiset α} {blocks : List (List α)} (h : TopBlocks op S blocks) :
    blocks.flatten.length ≤ op.limit := by
  have := h.smallest.card_eq
  rw [Multiset.coe_card] at this
  omega

/-- The merge of the best rows of two collections has the best rows of both. -/
theorem TopBlocks.merge {op : PhysicalTop α} (hsort : Consistent op.sortFunctions) {S S' : Multiset α}
    {middle input : List (List α)} (hm : TopBlocks op S middle) (hi : TopBlocks op S' input) :
    ∃ blocks, mergeBlocks op middle input middle.flatten.length input.flatten.length = .ok blocks ∧
      blocks.flatten.length = min op.limit (middle.flatten.length + input.flatten.length) ∧
      TopBlocks op (S + S') blocks := by
  obtain ⟨blocks, hok, hpacked, hrows⟩ := mergeBlocks_spec hm.packed hi.packed hm.length_le
  have htrans : IsTrans α (RowLe op.sortFunctions) := ⟨fun a b c => rowLe_trans hsort⟩
  set merged := middle.flatten.merge input.flatten (preferLeft op.sortFunctions)
  have hsorted : merged.Pairwise (RowLe op.sortFunctions) := by
    have htotal (a b : α) : (preferLeft op.sortFunctions a b || preferLeft op.sortFunctions b a) = true :=
      Bool.or_eq_true_iff.mpr (rowLe_total hsort a b)
    have hstep (a b c : α) : preferLeft op.sortFunctions a b = true → preferLeft op.sortFunctions b c = true →
        preferLeft op.sortFunctions a c = true := rowLe_trans hsort
    exact pairwise_merge hstep htotal _ _ hm.sorted hi.sorted
  have hperm : (merged : Multiset α) = (middle.flatten : Multiset α) + (input.flatten : Multiset α) := by
    exact Multiset.coe_eq_coe.mpr (merge_perm_append _)
  refine ⟨blocks, hok, ?_, hpacked, ?_, ?_⟩
  · rw [hrows, length_take, (merge_perm_append _).length_eq, length_append]
  · rw [hrows]
    exact hsorted.sublist (take_sublist ..)
  · have htake : Smallest (RowLe op.sortFunctions) op.limit
        ((input.flatten : Multiset α) + (middle.flatten : Multiset α)) blocks.flatten := by
      rw [hrows, add_comm, ← hperm]
      exact Smallest.take hsorted
    have hright := hi.smallest.of_part htake
    rw [add_comm] at hright
    exact hm.smallest.of_part hright

theorem mergeInput_spec {op : PhysicalTop α} (hsort : Consistent op.sortFunctions) (hlimit : 1 ≤ op.limit)
    {S S' : Multiset α} {middle input : List (List α)} (hm : TopBlocks op S middle)
    (hi : TopBlocks op S' input) :
    ∃ blocks, mergeInput op middle input middle.flatten.length = .ok (blocks, blocks.flatten.length) ∧
      TopBlocks op (S + S') blocks := by
  unfold mergeInput
  rw [← length_flatten]
  split
  · rename_i hempty
    -- nothing has been received
    have hS : S = 0 := by
      have hcard := hm.smallest.card_eq
      rw [hempty, flatten_nil, Multiset.coe_card, length_nil] at hcard
      exact Multiset.card_eq_zero.mp (by omega)
    exact ⟨input, rfl, by rwa [hS, zero_add]⟩
  · dsimp only
    split
    · obtain ⟨blocks, hok, hlen, hbest⟩ := hi.merge hsort hm
      refine ⟨blocks, ?_, add_comm S S' ▸ hbest⟩
      rw [hok, hlen]
      rfl
    · obtain ⟨blocks, hok, hlen, hbest⟩ := hm.merge hsort hi
      refine ⟨blocks, ?_, hbest⟩
      rw [hok, hlen, add_comm]
      rfl

/-- The state between two executions, after the rows `S`. -/
structure Holding (op : PhysicalTop α) (S : Multiset α) (state : MergeTopState α) : Prop where
  best : TopBlocks op S state.middleSortedDataBlocks
  count : state.middleResultCount = state.middleSortedDataBlocks.flatten.length
  input : state.inputDataBlocks = []
  output : state.dataBlockArray = []
  incomplete : state.inputComplete = false

theorem mergeTopExecute_spec {op : PhysicalTop α} (hsort : Consistent op.sortFunctions) (hlimit : 1 ≤ op.limit)
    {S : Multiset α} {state : MergeTopState α} (h : Holding op S state) {block : List α}
    (hblock : TopBlocks op block [block]) (completed : Bool) :
    ∃ state', mergeTopExecute op (state.receive block completed) = .ok state' ∧
      if completed then state'.complete = true ∧ TopBlocks op (S + block) state'.dataBlockArray
      else Holding op (S + block) state' := by
  obtain ⟨blocks, hok, hbest⟩ := mergeInput_spec hsort hlimit h.best hblock
  have hinput : (state.receive block completed).inputDataBlocks = [block] := by simp [MergeTopState.receive, h.input]
  have hcomplete : (state.receive block completed).inputComplete = completed := by
    simp [MergeTopState.receive, h.incomplete]
  unfold mergeTopExecute
  rw [if_neg (by simp [MergeTopState.receive, h.output]), hinput]
  have hok' : mergeInput op (state.receive block completed).middleSortedDataBlocks [block]
      (state.receive block completed).middleResultCount = .ok (blocks, blocks.flatten.length) := by
    rw [← hok, ← h.count]
    rfl
  rw [hok']
  simp only [hcomplete]
  cases completed with
  | true => exact ⟨_, rfl, rfl, hbest⟩
  | false => exact ⟨_, rfl, hbest, rfl, rfl, h.output, rfl⟩

theorem mergeTopRun_spec {op : PhysicalTop α} (hsort : Consistent op.sortFunctions) (hlimit : 1 ≤ op.limit)
    (arrivals : List (List α)) (hne : arrivals ≠ []) (hblocks : ∀ block ∈ arrivals, TopBlocks op block [block])
    {S : Multiset α} {state : MergeTopState α} (h : Holding op S state) :
    ∃ state', mergeTopRun op state arrivals = .ok state' ∧ state'.complete = true ∧
      TopBlocks op (S + arrivals.flatten) state'.dataBlockArray := by
  induction arrivals generalizing S state with
  | nil => exact absurd rfl hne
  | cons block rest ih =>
    obtain ⟨state₁, hok, hstate₁⟩ := mergeTopExecute_spec hsort hlimit h (hblocks block (mem_cons_self ..)) rest.isEmpty
    cases rest with
    | nil =>
      refine ⟨state₁, ?_, hstate₁.1, ?_⟩
      · unfold mergeTopRun
        rw [hok]
        rfl
      · simpa using hstate₁.2
    | cons block' rest =>
      obtain ⟨state', hrun, hcomplete, hbest⟩ := ih (by simp) (fun b hb => hblocks b (mem_cons_of_mem block hb)) hstate₁
      refine ⟨state', ?_, hcomplete, ?_⟩
      · unfold mergeTopRun
        rwa [hok]
      · rwa [flatten_cons, ← Multiset.coe_add, ← add_assoc]

/-! ### All tasks -/

theorem execute_spec {op : PhysicalTop α} (hsort : Consistent op.sortFunctions) (hlimit : 1 ≤ op.limit)
    (input : List (List α)) :
    ∃ state, op.execute .initial true input = .ok state ∧ state.complete = true ∧
      TopBlocks op input.flatten state.dataBlockArray := by
  unfold PhysicalTop.execute
  cases hrows : input.flatten with
  | nil => exact ⟨_, rfl, rfl, topBlocks_nil op⟩
  | cons other rest =>
    refine ⟨_, rfl, rfl, ?_⟩
    rw [← hrows]
    exact topBlocks_writeToOutput hsort hlimit other (by simp [hrows])

theorem TopBlocks.block {op : PhysicalTop α} {S : Multiset α} {blocks : List (List α)} (h : TopBlocks op S blocks)
    {block : List α} (hmem : block ∈ blocks) : TopBlocks op block [block] := by
  obtain ⟨i, hi⟩ := getElem?_of_mem hmem
  obtain ⟨hne, hle, -⟩ := h.packed i block hi
  have hsub : block.Sublist blocks.flatten := sublist_flatten_of_mem hmem
  refine ⟨packed_singleton hne hle, ?_, ?_⟩
  · simpa using h.sorted.sublist hsub
  · have hlen := hsub.length_le.trans h.length_le
    simpa using Smallest.of_card_le (S := (block : Multiset α)) (by simpa using hlen)

theorem sum_map_flatten {ι : Type} (l : List ι) (f : ι → List (List α)) :
    (l.map fun i => ((f i).flatten : Multiset α)).sum = ((l.flatMap f).flatten : List α) := by
  induction l with
  | nil => rfl
  | cons i l ih => rw [map_cons, sum_cons, ih, flatMap_cons, flatten_append, Multiset.coe_add]

/-- **Distributed `ORDER BY ... LIMIT` is exact.** However the rows are spread over tasks and
blocks, and in whatever order the tasks' blocks reach the merging operator one at a time, it
ends with a packed list of blocks whose rows are in order and are the `limit` smallest input
rows, all of them when there are fewer. -/
theorem distributed_top_exact {op : PhysicalTop α} (hsort : Consistent op.sortFunctions) (hlimit : 1 ≤ op.limit)
    (tasks : List (List (List α))) (hrow : ∃ input ∈ tasks, input.flatten ≠ []) :
    ∃ outputs : List (OperatorState (List α)),
      List.Forall₂ (fun input output => op.execute .initial true input = .ok output) tasks outputs ∧
      ∀ arrivals : List (List α), arrivals.Perm (outputs.flatMap (·.dataBlockArray)) →
        ∃ state, mergeTopRun op .initial arrivals = .ok state ∧ state.complete = true ∧
          state.dataBlockArray.flatten.Pairwise (RowLe op.sortFunctions) ∧
          Packed defaultBlockCapacity state.dataBlockArray ∧
          Smallest (RowLe op.sortFunctions) op.limit (tasks.flatten.flatten : List α) state.dataBlockArray.flatten := by
  have htrans : IsTrans α (RowLe op.sortFunctions) := ⟨fun a b c => rowLe_trans hsort⟩
  choose output hok _ hblocks using execute_spec hsort hlimit
  refine ⟨tasks.map output, forall₂_map_right_iff.mpr (forall₂_same.mpr fun input _ => hok input), ?_⟩
  intro arrivals harrivals
  rw [flatMap_map] at harrivals
  -- the task with a row sends a block
  have hne : arrivals ≠ [] := by
    obtain ⟨input, hinput, hrow⟩ := hrow
    have hcard := (hblocks input).smallest.card_eq
    have hpos := length_pos_iff.mpr hrow
    simp only [Multiset.coe_card] at hcard
    have hsome : (output input).dataBlockArray ≠ [] := fun hnil => by
      rw [hnil, flatten_nil, length_nil] at hcard
      omega
    obtain ⟨block, hblock⟩ := exists_mem_of_ne_nil _ hsome
    exact ne_nil_of_mem (harrivals.mem_iff.mpr (mem_flatMap.mpr ⟨input, hinput, hblock⟩))
  have hall : ∀ block ∈ arrivals, TopBlocks op block [block] := fun block hblock => by
    obtain ⟨input, -, hmem⟩ := mem_flatMap.mp (harrivals.mem_iff.mp hblock)
    exact (hblocks input).block hmem
  have hinit : Holding op 0 MergeTopState.initial := ⟨topBlocks_nil op, rfl, rfl, rfl, rfl⟩
  obtain ⟨state, hrun, hcomplete, hbest⟩ := mergeTopRun_spec hsort hlimit arrivals hne hall hinit
  refine ⟨state, hrun, hcomplete, hbest.sorted, hbest.packed, ?_⟩
  have hsum : (0 + (arrivals.flatten : Multiset α)) =
      (tasks.map fun input => ((output input).dataBlockArray.flatten : Multiset α)).sum + 0 := by
    rw [zero_add, add_zero, sum_map_flatten]
    exact Multiset.coe_eq_coe.mpr harrivals.flatten
  have hparts := Smallest.of_parts (fun input _ => (hblocks input).smallest) (hsum ▸ hbest.smallest)
  have hid : (tasks.map fun input => (input.flatten : Multiset α)).sum = ((tasks.flatMap id).flatten : List α) :=
    sum_map_flatten tasks id
  rwa [add_zero, hid, flatMap_id] at hparts

/-- Three tasks, the first without a row, the others with an equal one. -/
theorem distributed_top_exact_three : Consistent [(compare : Nat → Nat → Ordering)] ∧
    ∃ outputs : List (OperatorState (List Nat)), ∀ arrivals : List (List Nat),
      arrivals.Perm (outputs.flatMap (·.dataBlockArray)) →
        ∃ state, mergeTopRun ⟨[compare], 2, false⟩ .initial arrivals = .ok state ∧
          state.dataBlockArray.flatten.Pairwise (RowLe [compare]) := by
  have hsort : Consistent [(compare : Nat → Nat → Ordering)] := fun f hf => by
    cases mem_singleton.mp hf
    exact inferInstance
  have hrow : ∃ input ∈ ([[[]], [[3], [1, 2]], [[2]]] : List (List (List Nat))), input.flatten ≠ [] :=
    ⟨[[2]], by simp, by simp⟩
  have hop : Consistent (⟨[compare], 2, false⟩ : PhysicalTop Nat).sortFunctions := hsort
  obtain ⟨outputs, -, h⟩ := distributed_top_exact hop (by decide) _ hrow
  refine ⟨hsort, outputs, fun arrivals harrivals => ?_⟩
  obtain ⟨state, hrun, -, hsorted, -⟩ := h arrivals harrivals
  exact ⟨state, hrun, hsorted⟩

end Infinity.Executor
