import Infinity.Executor.Completion
import Infinity.Executor.MergeTop

/-! `ORDER BY ... LIMIT` over input that comes in batches.

The tasks of a materialized fragment end in `PhysicalTop` and sink into the queue of a task that
starts with `PhysicalMergeTop`. A task is executed once per batch; its blocks stay in the
operator's output until it is complete. Every call here is a call of the exchange between the
fragments, so that its accounts hold, with the operator deciding what the calls carry.

A second batch with rows finds the output of the first one, and fails. The total of hits is
that of the last batch and is sent along with every block, so that it is right only when the
rows come with the last batch and fill one block. -/
namespace Infinity.Executor

open Lib List

variable {α : Type}

/-- The exchange and the rows each task has been given. -/
structure TopExchange (α : Type) where
  exchange : Exchange (List α)
  rows : Nat → List α

inductive TopCall (α : Type) where
  /-- `PhysicalTop::Execute` of task `t` on a batch, and the start of the sink. -/
  | execute (t : Nat) (batch : List (List α)) (prevComplete : Bool)
  | sink (t : Nat)
  | getData

/-- `n + 1` tasks of one materialized fragment below a `PhysicalMergeTop`. -/
def topPlan (n : Nat) : Plan := .single .mergeTop true n

def TopExchange.initial (n : Nat) : TopExchange α := ⟨.initial (topPlan n), fun _ => []⟩

/-- A call that only moves messages. -/
def TopExchange.move (n : Nat) (s : TopExchange α) (call : ExchangeCall (List α)) :
    Except (TopFault ⊕ FragmentFault) (TopExchange α) :=
  match Exchange.step (topPlan n) s.exchange call with
  | .error e => .error (.inr e)
  | .ok exchange => .ok {s with exchange := exchange}

def TopExchange.step (op : PhysicalTop α) (n : Nat) (s : TopExchange α) :
    TopCall α → Except (TopFault ⊕ FragmentFault) (TopExchange α)
  | .execute t batch prevComplete =>
    match op.execute (s.exchange.children 1 t).toOperatorState prevComplete batch with
    | .error e => .error (.inl e)
    | .ok state =>
      .ok { exchange := s.exchange.setChild 1 t ({state with idx := none : SinkTask (List α)}.startSink true)
            rows := Function.update s.rows t (s.rows t ++ batch.flatten) }
  | .sink t => s.move n (.sink 1 t)
  | .getData => s.move n .getData

/-- The call of the exchange that a call makes; the blocks do not matter here. -/
def TopCall.plain : TopCall α → ExchangeCall (List α)
  | .execute t _ prevComplete => .execute 1 t [] prevComplete none
  | .sink t => .sink 1 t
  | .getData => .getData

def topExchange (op : PhysicalTop α) (n : Nat) : Machine (TopExchange α) (TopCall α) (TopFault ⊕ FragmentFault) where
  enabled s a := Exchange.Allowed (topPlan n) s.exchange a.plain
  step := TopExchange.step op n

/-- A batch with rows is the only one of its task; with the flag for the total of hits it is also
the last one and its result fits into one block. -/
def OneBatch (op : PhysicalTop α) (s : TopExchange α) : TopCall α → Prop
  | .execute t batch prevComplete => batch.flatten ≠ [] → s.rows t = [] ∧
    (op.totalHitsCountFlag = true → prevComplete = true ∧ min op.limit batch.flatten.length ≤ defaultBlockCapacity)
  | _ => True

/-! ### The operator's step as a call of the exchange -/

variable {op : PhysicalTop α}

theorem execute_ok {state state' : OperatorState (List α)} {prevComplete : Bool}
    {batch : List (List α)} (hcomplete : state.complete = false) (hflag : state.totalHitsCountFlag = false)
    (hcount : state.totalHitsCount = 0) (h : op.execute state prevComplete batch = .ok state') :
    ∃ blocks, (batch.flatten = [] ∧ blocks = [] ∨
        ∃ other, batch.flatten ≠ [] ∧ state.dataBlockArray = [] ∧ blocks = writeToOutput (op.topRows other batch)) ∧
      state' =
        { dataBlockArray := state.dataBlockArray ++ blocks
          complete := prevComplete
          totalHitsCountFlag := prevComplete && op.totalHitsCountFlag
          totalHitsCount := if prevComplete && op.totalHitsCountFlag then batch.flatten.length else 0 } := by
  obtain ⟨array, complete, flag, count⟩ := state
  subst hcomplete hflag hcount
  have hfinish (array : List (List α)) : op.finish ⟨array, false, false, 0⟩ prevComplete (batch.map length).sum =
      { dataBlockArray := array
        complete := prevComplete
        totalHitsCountFlag := prevComplete && op.totalHitsCountFlag
        totalHitsCount := if prevComplete && op.totalHitsCountFlag then batch.flatten.length else 0 } := by
    cases prevComplete <;> simp [PhysicalTop.finish]
  unfold PhysicalTop.execute at h
  split at h
  · rename_i hrows
    cases h
    exact ⟨[], .inl ⟨hrows, rfl⟩, by rw [hfinish, append_nil]⟩
  rename_i other rest hrows
  split at h
  · cases h
  rename_i hempty
  cases h
  have harray : array = [] := by simpa using hempty
  exact ⟨_, .inr ⟨other, by simp [hrows], harray, rfl⟩, by rw [hfinish, harray, nil_append]⟩

/-! ### What a task holds and has sent -/

def FragmentMessage.block? {β : Type} : FragmentMessage β → Option β
  | .data d => some d.dataBlock
  | _ => Option.none

/-- The blocks of messages. -/
def blocksOf {β : Type} (l : List (FragmentMessage β)) : List β := l.filterMap FragmentMessage.block?

/-- The blocks a task has not sent yet. -/
def SinkTask.rest {β : Type} (c : SinkTask β) : List β :=
  match c.idx with
  | none => c.dataBlockArray
  | some i => c.dataBlockArray.drop i

/-- A task that has been given `rows` and has sent the messages `l`. -/
structure TopTask (op : PhysicalTop α) (rows : List α) (c : SinkTask (List α)) (l : List (FragmentMessage (List α))) :
    Prop where
  running : c.complete = false → c.idx = none ∧ l = [] ∧ c.totalHitsCountFlag = false ∧ c.totalHitsCount = 0
  cleared : c.complete = true → c.idx = none → c.dataBlockArray = []
  blocks : TopBlocks op rows (blocksOf l ++ c.rest)
  early : op.totalHitsCountFlag = true → c.complete = false → rows = []
  hits : op.totalHitsCountFlag = true → c.complete = true → c.totalHitsCountFlag = true ∧ c.totalHitsCount = rows.length
  sent : op.totalHitsCountFlag = true → ∀ m ∈ l, m.hits = rows.length
  single : op.totalHitsCountFlag = true → (blocksOf l ++ c.rest).length ≤ 1

theorem TopBlocks.length_le_one {S : Multiset α} {blocks : List (List α)} (h : TopBlocks op S blocks)
    (hle : min op.limit S.card ≤ defaultBlockCapacity) : blocks.length ≤ 1 := by
  have hcard := h.smallest.card_eq
  rw [Multiset.coe_card] at hcard
  rw [h.packed.length_eq, hcard]
  exact blockCount_mono defaultBlockCapacity_pos hle

theorem TopBlocks.eq_nil {blocks : List (List α)} (h : TopBlocks op 0 blocks) : blocks = [] := by
  have hcard := h.smallest.card_eq
  rw [Multiset.coe_card] at hcard
  have hlen := h.packed.length_eq
  rw [hcard] at hlen
  exact length_eq_zero_iff.mp (by simpa [blockCount] using hlen)

theorem TopBlocks.rows_eq_nil (hlimit : 1 ≤ op.limit) {rows : List α}
    (h : TopBlocks op (rows : Multiset α) []) : rows = [] := by
  have hcard := h.smallest.card_eq
  rw [flatten_nil, Multiset.coe_card, Multiset.coe_card, length_nil] at hcard
  exact length_eq_zero_iff.mp (by omega)

section Steps

variable {op : PhysicalTop α} {rows : List α} {c : SinkTask (List α)} {l : List (FragmentMessage (List α))}

theorem TopTask.initial : TopTask op ([] : List α) {OperatorState.initial with idx := none} [] where
  running _ := ⟨rfl, rfl, rfl, rfl⟩
  cleared := nofun
  blocks := topBlocks_nil op
  early _ _ := rfl
  hits := nofun
  sent _ := by simp
  single _ := Nat.zero_le 1

theorem TopTask.output_nil (h : TopTask op [] c l) (hc : c.complete = false) : c.dataBlockArray = [] := by
  obtain ⟨hidx, hl, -⟩ := h.running hc
  have hblocks := h.blocks.eq_nil
  simpa [SinkTask.rest, hidx, hl, blocksOf] using hblocks

theorem TopTask.execute (hsort : Consistent op.sortFunctions) (hlimit : 1 ≤ op.limit) (h : TopTask op rows c l)
    (hc : c.complete = false) {batch : List (List α)} {prevComplete : Bool} {state : OperatorState (List α)}
    (hbatch : batch.flatten ≠ [] → rows = [] ∧ (op.totalHitsCountFlag = true →
      prevComplete = true ∧ min op.limit batch.flatten.length ≤ defaultBlockCapacity))
    (hok : op.execute c.toOperatorState prevComplete batch = .ok state) :
    TopTask op (rows ++ batch.flatten) ({state with idx := none : SinkTask (List α)}.startSink true) l := by
  obtain ⟨hidx, hl, hflag, hcount⟩ := h.running hc
  obtain ⟨blocks, hblocks, hstate⟩ := execute_ok hc hflag hcount hok
  have hold : TopBlocks op rows c.dataBlockArray := by simpa [SinkTask.rest, hidx, hl, blocksOf] using h.blocks
  have hnew : TopBlocks op (rows ++ batch.flatten : List α) (c.dataBlockArray ++ blocks) := by
    rcases hblocks with ⟨hempty, rfl⟩ | ⟨other, hne, harray, rfl⟩
    · simpa [hempty] using hold
    · rw [(hbatch hne).1, harray]
      exact topBlocks_writeToOutput hsort hlimit other hne
  have hrest : ({state with idx := none : SinkTask (List α)}.startSink true).rest = c.dataBlockArray ++ blocks := by
    rw [hstate]
    cases prevComplete <;> rfl
  have hcomplete : ({state with idx := none : SinkTask (List α)}.startSink true).complete = prevComplete := by
    rw [hstate]
    cases prevComplete <;> rfl
  have hrows (hf : op.totalHitsCountFlag = true) : rows ++ batch.flatten = batch.flatten := by
    rw [h.early hf hc, nil_append]
  have hlast (hf : op.totalHitsCountFlag = true) (hp : prevComplete = false) : batch.flatten = [] := by
    by_contra hne
    simp [((hbatch hne).2 hf).1] at hp
  refine ⟨fun hp => ?_, fun hp hi => ?_, ?_, fun hf hp => ?_, fun hf hp => ?_, fun hf m hm => ?_, fun hf => ?_⟩
  · rw [hcomplete] at hp
    subst hp
    rw [hstate]
    exact ⟨rfl, hl, rfl, rfl⟩
  · rw [hcomplete] at hp
    subst hp
    rw [hstate] at hi
    cases hi
  · rwa [hrest, hl]
  · rw [hrows hf, hlast hf (hcomplete ▸ hp)]
  · rw [hcomplete] at hp
    subst hp
    rw [hstate, hrows hf]
    simp [SinkTask.startSink, hf]
  · simp [hl] at hm
  · rw [hrest, hl]
    refine hnew.length_le_one ?_
    rw [hrows hf]
    by_cases hne : batch.flatten = []
    · simp [hne]
    · exact ((hbatch hne).2 hf).2

theorem TopTask.clear (h : TopTask op rows c l) {i : Nat} (hidx : c.idx = some i) (hlen : c.dataBlockArray.length = i) :
    TopTask op rows {c with dataBlockArray := [], idx := none} l := by
  have hrest : c.rest = [] := by simp [SinkTask.rest, hidx, ← hlen]
  have hc : c.complete = true := by
    by_contra hno
    simp [(h.running (by simpa using hno)).1] at hidx
  have hblocks := h.blocks
  have hsingle := h.single
  rw [hrest] at hblocks hsingle
  exact ⟨fun hno => by simp [hc] at hno, fun _ _ => rfl, hblocks, fun _ hno => by simp [hc] at hno, h.hits, h.sent, hsingle⟩

theorem TopTask.send (h : TopTask op rows c l) {i t : Nat} {block : List α} (hidx : c.idx = some i)
    (hget : c.dataBlockArray[i]? = some block) :
    TopTask op rows {c with idx := some (i + 1)} (l ++ [.data (c.message true 1 t i block)]) := by
  have hc : c.complete = true := by
    by_contra hno
    simp [(h.running (by simpa using hno)).1] at hidx
  have hsame : blocksOf (l ++ [.data (c.message true 1 t i block)]) ++
      ({c with idx := some (i + 1)} : SinkTask (List α)).rest = blocksOf l ++ c.rest := by
    simp [blocksOf, SinkTask.rest, hidx, FragmentMessage.block?, SinkTask.message, drop_of_getElem? hget]
  refine ⟨fun hno => by simp [hc] at hno, fun _ hno => (by cases hno), hsame ▸ h.blocks,
    fun _ hno => by simp [hc] at hno, h.hits,
    fun hf m hm => ?_, hsame ▸ h.single⟩
  rcases mem_append.mp hm with hm | hm
  · exact h.sent hf m hm
  · rw [mem_singleton.mp hm]
    simp [FragmentMessage.hits, SinkTask.message, h.hits hf hc]

end Steps

/-! ### Every step keeps what the tasks hold -/

structure TopInv (op : PhysicalTop α) (n : Nat) (s : TopExchange α) : Prop where
  accounts : ExchangeInv True (topPlan n) s.exchange
  task : ∀ t, (topPlan n).Task 1 t → TopTask op (s.rows t) (s.exchange.children 1 t) (own 1 t s.exchange.sent)
  total : s.exchange.source.totalHitsCount = (s.exchange.dequeued.map FragmentMessage.hits).sum

theorem topPlan_op (n : Nat) : (topPlan n).op ≠ .mergeLimit := nofun

theorem topPlan_task {n f t : Nat} : (topPlan n).Task f t ↔ f = 1 ∧ t < n + 1 := by
  constructor
  · rintro ⟨m, hm, ht⟩
    have hmem := (OrderedMap.mem_entries _ f m).mpr hm
    cases mem_singleton.mp hmem
    exact ⟨rfl, ht⟩
  · rintro ⟨rfl, ht⟩
    exact ⟨n + 1, rfl, ht⟩

theorem TopInv.initial (op : PhysicalTop α) (n : Nat) : TopInv op n (.initial n) where
  accounts := .initial True (topPlan n)
  task _ _ := .initial
  total := rfl

section Run

variable {op : PhysicalTop α} {n : Nat} {s s' : TopExchange α} (h : TopInv op n s)
include h

variable {t : Nat}

theorem TopInv.execute (hsort : Consistent op.sortFunctions) (hlimit : 1 ≤ op.limit) {batch : List (List α)}
    {prevComplete : Bool} (ha : (topExchange op n).enabled s (.execute t batch prevComplete))
    (hbatch : OneBatch op s (.execute t batch prevComplete))
    (hstep : TopExchange.step op n s (.execute t batch prevComplete) = .ok s') : TopInv op n s' := by
  obtain ⟨ht, hidx, hc⟩ := ha
  simp only [TopExchange.step] at hstep
  split at hstep
  · cases hstep
  rename_i state hok
  cases hstep
  have htask := (h.task t ht).execute hsort hlimit hc hbatch hok
  have hmarks (hp : state.complete = true) : MarksOnce True true state.dataBlockArray := ⟨.inl trivial, nofun⟩
  refine ⟨h.accounts.setChild ((h.accounts.task 1 t ht).startSink hc rfl hmarks), fun t' ht' => ?_, h.total⟩
  show TopTask op (Function.update s.rows t (s.rows t ++ batch.flatten) t')
    ((s.exchange.setChild 1 t ({state with idx := none : SinkTask (List α)}.startSink true)).children 1 t')
    (own 1 t' s.exchange.sent)
  by_cases htt : t' = t
  · subst htt
    rwa [Exchange.setChild_self, Function.update_self]
  · rw [Exchange.setChild_ne _ _ fun e => htt e.2, Function.update_of_ne htt]
    exact h.task t' ht'

theorem TopInv.execute_ok {batch : List (List α)} {prevComplete : Bool}
    (ha : (topExchange op n).enabled s (.execute t batch prevComplete))
    (hbatch : OneBatch op s (.execute t batch prevComplete)) (e : TopFault ⊕ FragmentFault) :
    TopExchange.step op n s (.execute t batch prevComplete) ≠ .error e := by
  obtain ⟨ht, -, hc⟩ := ha
  intro herror
  simp only [TopExchange.step] at herror
  split at herror
  · rename_i hexec
    unfold PhysicalTop.execute at hexec
    split at hexec
    · cases hexec
    rename_i other rest hrows
    split at hexec
    · rename_i hne
      have hempty : s.rows t = [] := (hbatch (by simp [hrows])).1
      have htask := h.task t ht
      rw [hempty] at htask
      exact hne (htask.output_nil hc)
    · cases hexec
  · cases herror

theorem TopInv.sink (ha : (topExchange op n).enabled s (.sink t))
    (hstep : TopExchange.step op n s (.sink t) = .ok s') : TopInv op n s' := by
  simp only [TopExchange.step, TopExchange.move] at hstep
  split at hstep
  · cases hstep
  rename_i exchange hmove
  cases hstep
  have ha : Exchange.Allowed (topPlan n) s.exchange (.sink 1 t) := ha
  refine ⟨h.accounts.step (topPlan_op n) ha trivial hmove, fun t' ht' => ?_, ?_⟩
  · obtain ⟨i, hidx, ⟨hlen, rfl⟩ | ⟨block, hget, -, rfl⟩⟩ := h.accounts.sink_cases ha hmove
    · show TopTask op (s.rows t') ((s.exchange.setChild 1 t _).children 1 t') (own 1 t' s.exchange.sent)
      by_cases htt : t' = t
      · subst htt
        rw [Exchange.setChild_self]
        exact (h.task t' ht').clear hidx hlen
      · rw [Exchange.setChild_ne _ _ fun e => htt e.2]
        exact h.task t' ht'
    · set m := FragmentMessage.data ((s.exchange.children 1 t).message ((topPlan n).materialize 1) 1 t i block) with hm
      show TopTask op (s.rows t') ((s.exchange.setChild 1 t _).children 1 t')
        (own 1 t' (s.exchange.dequeued ++ (s.exchange.source.sourceQueue ++ [m])))
      rw [← append_assoc, own_append, own_message]
      by_cases htt : t' = t
      · subst htt
        rw [Exchange.setChild_self, if_pos ⟨rfl, rfl⟩]
        exact (h.task t' ht').send hidx hget
      · rw [Exchange.setChild_ne _ _ fun e => htt e.2, if_neg fun e => htt e.2, append_nil]
        exact h.task t' ht'
  · obtain ⟨i, -, ⟨-, rfl⟩ | ⟨block, -, -, rfl⟩⟩ := h.accounts.sink_cases ha hmove
    · exact h.total
    · exact h.total

theorem TopInv.getData (hstep : TopExchange.step op n s .getData = .ok s') : TopInv op n s' := by
  simp only [TopExchange.step, TopExchange.move] at hstep
  split at hstep
  · cases hstep
  rename_i exchange hmove
  cases hstep
  obtain ⟨m, htook, hdequeued, hchildren⟩ := Exchange.getData_took hmove
  have hsent : exchange.sent = s.exchange.sent := by simp [Exchange.sent, hdequeued, htook.queue]
  refine ⟨h.accounts.getData hmove, fun t ht => ?_, ?_⟩
  · show TopTask op (s.rows t) (exchange.children 1 t) (own 1 t exchange.sent)
    rw [hchildren, hsent]
    exact h.task t ht
  · show exchange.source.totalHitsCount = (exchange.dequeued.map FragmentMessage.hits).sum
    rw [htook.total rfl, hdequeued, h.total]
    simp

theorem TopInv.step (hsort : Consistent op.sortFunctions) (hlimit : 1 ≤ op.limit) {a : TopCall α}
    (ha : (topExchange op n).enabled s a) (hbatch : OneBatch op s a) (hstep : TopExchange.step op n s a = .ok s') :
    TopInv op n s' := by
  cases a with
  | execute t batch prevComplete => exact h.execute hsort hlimit ha hbatch hstep
  | sink t => exact h.sink ha hstep
  | getData => exact h.getData hstep

theorem TopInv.sent_blocks (ht : (topPlan n).Task 1 t) (hsent : (s.exchange.children 1 t).Sent) :
    TopBlocks op (s.rows t) (blocksOf (own 1 t s.exchange.sent)) := by
  have hrest : (s.exchange.children 1 t).rest = [] := by
    rcases hsent.2 with hidx | hidx
    · simp [SinkTask.rest, hidx, (h.task t ht).cleared hsent.1 hidx]
    · simp [SinkTask.rest, hidx]
  have hblocks := (h.task t ht).blocks
  rwa [hrest, append_nil] at hblocks

theorem TopInv.sent_hits (hlimit : 1 ≤ op.limit) (hflag : op.totalHitsCountFlag = true)
    (ht : (topPlan n).Task 1 t) (hsent : (s.exchange.children 1 t).Sent) :
    ((own 1 t s.exchange.sent).map FragmentMessage.hits).sum = (s.rows t).length := by
  have htask := h.task t ht
  have hblocks := h.sent_blocks ht hsent
  have hdata : ∀ m ∈ own 1 t s.exchange.sent, ∃ d, m = .data d := fun m hm => by
    obtain ⟨d, rfl, -⟩ := h.accounts.known m (mem_of_mem_filter hm)
    exact ⟨d, rfl⟩
  have hsingle := htask.single hflag
  have hhits := htask.sent hflag
  match hl : own 1 t s.exchange.sent with
  | [] =>
    rw [hl] at hblocks
    simp [hblocks.rows_eq_nil hlimit]
  | [m] => simp [hhits m (by simp [hl])]
  | m :: m' :: l =>
    obtain ⟨d, rfl⟩ := hdata m (by simp [hl])
    obtain ⟨d', rfl⟩ := hdata m' (by simp [hl])
    rw [hl] at hsingle
    simp [blocksOf, FragmentMessage.block?] at hsingle

end Run

/-- **`ORDER BY ... LIMIT` over batches.** Let only one batch of every task have rows; with the
flag for the total of hits let it be the last one, and its result fill at most one block. Then no
execution fails, every task sends the best of all its rows, and the total the receiver has
accumulated when everything is read is the number of rows of all tasks. -/
theorem top_batches {op : PhysicalTop α} (hsort : Consistent op.sortFunctions) (hlimit : 1 ≤ op.limit) {n : Nat}
    {calls : List (TopCall α)} {s : TopExchange α}
    (run : ((topExchange op n).restrict (OneBatch op)).Run (.initial n) calls s) :
    (∀ t batch prevComplete, ((topExchange op n).restrict (OneBatch op)).enabled s (.execute t batch prevComplete) →
      ∀ e, (topExchange op n).step s (.execute t batch prevComplete) ≠ .error e) ∧
    (∀ t, t < n + 1 → (s.exchange.children 1 t).Sent →
      Smallest (RowLe op.sortFunctions) op.limit (s.rows t) (blocksOf (own 1 t s.exchange.sent)).flatten) ∧
    (op.totalHitsCountFlag = true → (∀ t, t < n + 1 → (s.exchange.children 1 t).Sent) →
      s.exchange.source.sourceQueue = [] →
      s.exchange.source.totalHitsCount = ∑ t ∈ Finset.range (n + 1), (s.rows t).length) := by
  have keeps (s : TopExchange α) (a : TopCall α) (s' : TopExchange α) (h : TopInv op n s)
      (ha : (topExchange op n).enabled s a ∧ OneBatch op s a) (hstep : TopExchange.step op n s a = .ok s') :
      TopInv op n s' := h.step hsort hlimit ha.1 ha.2 hstep
  have h : TopInv op n s := run.invariant keeps (.initial op n)
  refine ⟨fun t batch prevComplete ha => h.execute_ok ha.1 ha.2,
    fun t ht hsent => (h.sent_blocks (topPlan_task.mpr ⟨rfl, ht⟩) hsent).smallest, fun hflag hsent hq => ?_⟩
  have hdequeued : s.exchange.sent = s.exchange.dequeued := by simp [Exchange.sent, hq]
  have hknown : ∀ m ∈ s.exchange.dequeued, ∃ d, m = .data d ∧ (d.fragmentId = 1 → d.taskId < n + 1) := fun m hm => by
    obtain ⟨d, rfl, hd⟩ := h.accounts.known m (mem_append_left _ hm)
    exact ⟨d, rfl, fun _ => (topPlan_task.mp hd).2⟩
  have hall : s.exchange.dequeued.filter (·.fragmentId == 1) = s.exchange.dequeued :=
    filter_eq_self.mpr fun m hm => by
      obtain ⟨d, rfl, hd⟩ := h.accounts.known m (mem_append_left _ hm)
      simp [FragmentMessage.fragmentId, (topPlan_task.mp hd).1]
  have hsum := sum_own hknown FragmentMessage.hits
  rw [hall] at hsum
  rw [h.total, hsum]
  refine Finset.sum_congr rfl fun t ht => ?_
  have ht' := Finset.mem_range.mp ht
  have hhits := h.sent_hits hlimit hflag (topPlan_task.mpr ⟨rfl, ht'⟩) (hsent t ht')
  rwa [hdequeued] at hhits

/-- The two smallest of some numbers, with the total of hits. -/
def topTwo : PhysicalTop Nat := ⟨[compare], 2, true⟩

theorem topTwo_consistent : Consistent topTwo.sortFunctions := fun f hf => by
  cases mem_singleton.mp hf
  exact inferInstance

/-- Two tasks, one with an empty batch before its rows and one without a row. -/
theorem top_batches_two : ∃ calls s,
    ((topExchange topTwo 1).restrict (OneBatch topTwo)).Run (.initial 1) calls s ∧
      s.exchange.source.totalHitsCount = ∑ t ∈ Finset.range 2, (s.rows t).length := by
  have hrun : ∃ calls s, ((topExchange topTwo 1).restrict (OneBatch topTwo)).Run (.initial 1) calls s ∧
      (∀ t, t < 2 → (s.exchange.children 1 t).Sent) ∧ s.exchange.source.sourceQueue = [] :=
    ⟨[.execute 0 [] false, .execute 1 [[]] true, .execute 0 [[3, 1], [2]] true, .sink 0, .getData], _,
      .cons ⟨⟨⟨2, rfl, by decide⟩, rfl, rfl⟩, fun hne => absurd rfl hne⟩ rfl <|
      .cons ⟨⟨⟨2, rfl, by decide⟩, rfl, rfl⟩, fun hne => absurd rfl hne⟩ rfl <|
      .cons ⟨⟨⟨2, rfl, by decide⟩, rfl, rfl⟩, fun _ => ⟨rfl, fun _ => ⟨rfl, by decide⟩⟩⟩ rfl <|
      .cons ⟨⟨⟨2, rfl, by decide⟩, nofun⟩, trivial⟩ rfl <|
      .cons ⟨nofun, trivial⟩ rfl <|
      .nil _, fun t ht => by
        match t, ht with
        | 0, _ => exact ⟨rfl, .inr rfl⟩
        | 1, _ => exact ⟨rfl, .inr rfl⟩, rfl⟩
  obtain ⟨calls, s, run, hsent, hq⟩ := hrun
  exact ⟨calls, s, run, (top_batches topTwo_consistent (by decide) run).2.2 rfl hsent hq⟩

/-- A second batch with rows is refused, and an empty last batch loses the total. -/
theorem second_batch_refused :
    (∃ calls s, (topExchange topTwo 0).Run (.initial 0) calls s ∧
      (topExchange topTwo 0).enabled s (.execute 0 [[2]] true) ∧
      (topExchange topTwo 0).step s (.execute 0 [[2]] true) = .error (.inl .outputNotEmpty)) ∧
    (∃ calls s, (topExchange topTwo 0).Run (.initial 0) calls s ∧ (s.exchange.children 1 0).Sent ∧
      s.exchange.source.sourceQueue = [] ∧ s.exchange.source.totalHitsCount = 0 ∧ s.rows 0 = [5]) := by
  constructor
  · exact ⟨[.execute 0 [[1]] false], _, .cons ⟨⟨1, rfl, by decide⟩, rfl, rfl⟩ rfl <|
      .nil _, ⟨⟨1, rfl, by decide⟩, rfl, rfl⟩, rfl⟩
  · exact ⟨[.execute 0 [[5]] false, .execute 0 [] true, .sink 0, .getData], _,
      .cons ⟨⟨1, rfl, by decide⟩, rfl, rfl⟩ rfl <|
      .cons ⟨⟨1, rfl, by decide⟩, rfl, rfl⟩ rfl <|
      .cons ⟨⟨1, rfl, by decide⟩, nofun⟩ rfl <|
      .cons nofun rfl <|
      .nil _, ⟨rfl, .inr rfl⟩, rfl, rfl, rfl⟩

end Infinity.Executor
