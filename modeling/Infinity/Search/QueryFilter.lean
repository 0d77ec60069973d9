import Infinity.Lib.Lists
import Infinity.Lib.Machine
import Infinity.Lib.OrderedMap
import Infinity.Table.Commit

/-! The filter of a query as a cursor.

`CommonQueryFilter` has for each segment a bitmap of the rows that pass. `PassFilter` asks
about one row and `EqualOrLarger` for the next row that passes. Both remember the segment
they were last in, and `EqualOrLarger` also an iterator over a bitmap. Only `EqualOrLarger`
makes the iterator, and it does so only when it changes the segment. -/
namespace Infinity.Search

open Lib Table List

/-- A roaring bitmap of `count` rows; `allTrue` stands for all of them. -/
structure Bitmask where
  count : Nat
  allTrue : Bool
  bits : List Nat
  sorted : bits.Pairwise (· < ·)
  below : ∀ o ∈ bits, o < count

def Bitmask.isTrue (m : Bitmask) (rowIndex : Nat) : Bool :=
  decide (rowIndex < m.count) && (m.allTrue || m.bits.contains rowIndex)

def invalidSegmentId : Nat := 2 ^ 32 - 1

/-- A filter that is built. -/
structure QueryFilter where
  alwaysTrue : Bool
  filterResult : OrderedMap Nat Bitmask
  valid : ∀ e ∈ filterResult.entries, e.1 < invalidSegmentId

inductive FilterFault where
  /-- `doc_id_bitmask_` or `current_roaring_iterator_` is null. -/
  | nullBitmask
  | nullIterator
  /-- "Should not call Begin() for all_true bitmask." -/
  | beginAllTrue
  /-- "Should not call End() for all_true bitmask." -/
  | endAllTrue
  /-- More segments than turns. -/
  | turns
  deriving DecidableEq, Repr

/-- The cached segment, its bitmap, and the bitmap that the iterator walks. -/
structure FilterState where
  currentSegmentId : Nat
  docIdBitmask : Option Bitmask
  iterator : Option Bitmask

def FilterState.start : FilterState := ⟨invalidSegmentId, none, none⟩

namespace QueryFilter

variable (F : QueryFilter)

def passFilter (s : FilterState) (docId : RowID) : Except FilterFault (FilterState × Bool) :=
  if F.alwaysTrue then .ok (s, true)
  else if docId.segmentId ≠ s.currentSegmentId then
    match F.filterResult.find? docId.segmentId with
    | none => .ok ({s with currentSegmentId := invalidSegmentId}, false)
    | some m => .ok ({s with currentSegmentId := docId.segmentId, docIdBitmask := some m}, m.isTrue docId.segmentOffset)
  else
    match s.docIdBitmask with
    | none => .error .nullBitmask
    | some m => .ok (s, m.isTrue docId.segmentOffset)

/-- The first half of a turn: to the segment of the row, or to the next one that has a result. -/
def enter (s : FilterState) (docId : RowID) : Except FilterFault (FilterState × Option RowID) :=
  if docId.segmentId = s.currentSegmentId then .ok (s, some docId)
  else
    match F.filterResult.entries.find? fun e => decide (docId.segmentId ≤ e.1) with
    | none => .ok ({s with currentSegmentId := invalidSegmentId}, none)
    | some (segmentId, m) =>
      if m.allTrue then .error .beginAllTrue
      else .ok (⟨segmentId, some m, some m⟩, some (if segmentId ≠ docId.segmentId then ⟨segmentId, 0⟩ else docId))

/-- `EqualOrLarger` from the loop on; no row is `INVALID_ROWID`. -/
def seek : Nat → FilterState → RowID → Except FilterFault (FilterState × Option RowID)
  | 0, _, _ => .error .turns
  | turns + 1, s, docId =>
    match F.enter s docId with
    | .error fault => .error fault
    | .ok (s, none) => .ok (s, none)
    | .ok (s, some docId) =>
      match s.iterator, s.docIdBitmask with
      | none, _ => .error .nullIterator
      | _, none => .error .nullBitmask
      | some walked, some m =>
        if m.allTrue then .error .endAllTrue
        else
          match walked.bits.find? fun o => decide (docId.segmentOffset ≤ o) with
          | some o => .ok (s, some ⟨docId.segmentId, o⟩)
          | none => seek turns s ⟨docId.segmentId + 1, 0⟩

def equalOrLarger (s : FilterState) (docId : RowID) : Except FilterFault (FilterState × Option RowID) :=
  if F.alwaysTrue then .ok (s, some docId) else F.seek (F.filterResult.entries.length + 2) s docId

/-! ### What they are asked -/

/-- The row is in the filter result. -/
def Accepts (x : RowID) : Prop :=
  F.alwaysTrue = true ∨ ∃ m, F.filterResult.find? x.segmentId = some m ∧ m.isTrue x.segmentOffset = true

/-- The order of row ids. -/
def upTo (a b : RowID) : Prop := a.segmentId < b.segmentId ∨ a.segmentId = b.segmentId ∧ a.segmentOffset ≤ b.segmentOffset

/-- The least row from `d` on that is in the filter result. -/
def Least (d : RowID) : Option RowID → Prop
  | none => ∀ x, F.Accepts x → ¬ upTo d x
  | some r => F.Accepts r ∧ upTo d r ∧ ∀ x, F.Accepts x → upTo d x → upTo r x

inductive FilterCall where
  | passFilter (docId : RowID)
  | equalOrLarger (docId : RowID)

/-- The state with the answers given so far. -/
structure Session where
  state : FilterState
  passed : List (RowID × Bool)
  found : List (RowID × Option RowID)

def Session.step (t : Session) : FilterCall → Except FilterFault Session
  | .passFilter d => (F.passFilter t.state d).map fun r => {t with state := r.1, passed := (d, r.2) :: t.passed}
  | .equalOrLarger d => (F.equalOrLarger t.state d).map fun r => {t with state := r.1, found := (d, r.2) :: t.found}

/-- The row is of a segment, and where `EqualOrLarger` stays in the cached segment its iterator
is of that segment; none of the bitmaps from there on is the one for all rows. -/
def InOrder (t : Session) : FilterCall → Prop
  | .passFilter d => d.segmentId < invalidSegmentId
  | .equalOrLarger d => d.segmentId < invalidSegmentId ∧
      (d.segmentId = t.state.currentSegmentId → t.state.iterator = t.state.docIdBitmask) ∧
      ∀ e ∈ F.filterResult.entries, d.segmentId ≤ e.1 → e.2.allTrue = false

/-- The callers that keep to `InOrder`. -/
def machine : Machine Session FilterCall FilterFault := ⟨F.InOrder, Session.step F⟩

/-- The cached bitmap is that of the cached segment. -/
def Cached (s : FilterState) : Prop :=
  s.currentSegmentId = invalidSegmentId ∨
    ∃ m, F.filterResult.find? s.currentSegmentId = some m ∧ s.docIdBitmask = some m

variable {F} {s : FilterState} {d : RowID}

theorem passFilter_spec (hs : F.Cached s) (hd : d.segmentId < invalidSegmentId) :
    ∃ s' answer, F.passFilter s d = .ok (s', answer) ∧ F.Cached s' ∧ (answer = true ↔ F.Accepts d) := by
  unfold passFilter Accepts
  split
  · rename_i hall
    exact ⟨s, true, rfl, hs, by simp [hall]⟩
  rename_i hall
  split
  · cases hm : F.filterResult.find? d.segmentId with
    | none => exact ⟨_, false, rfl, .inl rfl, by simp [hall]⟩
    | some m => exact ⟨_, _, rfl, .inr ⟨m, hm, rfl⟩, by simp [hall]⟩
  rename_i hseg
  obtain hinv | ⟨m, hm, hbit⟩ := hs
  · omega
  rw [not_not] at hseg
  rw [hbit]
  exact ⟨_, _, rfl, .inr ⟨m, hm, hbit⟩, by simp [hall, hseg, hm]⟩

/-- The segment that is entered is the first one with a result from the row's on. -/
theorem enter_spec (hall : F.alwaysTrue = false) (hs : F.Cached s)
    (hd : d.segmentId = s.currentSegmentId → s.currentSegmentId < invalidSegmentId ∧ s.iterator = s.docIdBitmask)
    (htrue : ∀ e ∈ F.filterResult.entries, d.segmentId ≤ e.1 → e.2.allTrue = false) :
    (∃ s', F.enter s d = .ok (s', none) ∧ F.Cached s' ∧ F.Least d none) ∨
      ∃ s' d' m, F.enter s d = .ok (s', some d') ∧ F.Cached s' ∧ s'.currentSegmentId = d'.segmentId ∧
        d.segmentId ≤ d'.segmentId ∧ (d'.segmentId, m) ∈ F.filterResult.entries ∧ m.allTrue = false ∧
        s'.iterator = some m ∧ s'.docIdBitmask = some m ∧ upTo d d' ∧ ∀ x, F.Accepts x → upTo d x → upTo d' x := by
  have haccepts : ∀ x, F.Accepts x → ∃ m, (x.segmentId, m) ∈ F.filterResult.entries := by
    rintro x (h | ⟨m, hm, _⟩)
    · simp [hall] at h
    · exact ⟨m, (F.filterResult.mem_entries _ _).mpr hm⟩
  unfold enter
  split
  · rename_i hseg
    obtain ⟨hlt, hiter⟩ := hd hseg
    obtain hinv | ⟨m, hm, hbit⟩ := hs
    · omega
    have hmem := (F.filterResult.mem_entries _ _).mpr hm
    exact .inr ⟨s, d, m, rfl, .inr ⟨m, hm, hbit⟩, hseg.symm, le_rfl, hseg ▸ hmem, htrue _ hmem (by omega),
      hiter.trans hbit, hbit, .inr ⟨rfl, le_rfl⟩, fun _ _ h => h⟩
  · cases hfind : F.filterResult.entries.find? fun e => decide (d.segmentId ≤ e.1) with
    | none =>
      refine .inl ⟨_, rfl, .inl rfl, fun x hx hle => ?_⟩
      obtain ⟨m, hm⟩ := haccepts x hx
      have := find?_eq_none.mp hfind _ hm
      unfold upTo at hle
      simp only [decide_eq_true_eq] at this
      omega
    | some e =>
      obtain ⟨segmentId, m⟩ := e
      obtain ⟨hle, hmem, hfirst⟩ := find?_first F.filterResult.sorted hfind
      have hle : d.segmentId ≤ segmentId := by simpa using hle
      have hm : m.allTrue = false := htrue _ hmem hle
      have hfirst : ∀ x, F.Accepts x → upTo d x → segmentId ≤ x.segmentId := by
        intro x hx hdx
        obtain ⟨m', hm'⟩ := haccepts x hx
        have hdx' : d.segmentId ≤ x.segmentId := by
          unfold upTo at hdx
          omega
        rcases hfirst _ hm' (by simpa using hdx') with heq | hlt
        · exact le_of_eq (congrArg Prod.fst heq).symm
        · exact le_of_lt hlt
      have hcached : F.Cached ⟨segmentId, some m, some m⟩ := .inr ⟨m, (F.filterResult.mem_entries _ _).mp hmem, rfl⟩
      simp only [hm]
      by_cases hseg : segmentId = d.segmentId
      · subst hseg
        exact .inr ⟨_, d, m, by simp, hcached, rfl, hle, hmem, hm, rfl, rfl, .inr ⟨rfl, le_rfl⟩, fun _ _ h => h⟩
      refine .inr ⟨_, ⟨segmentId, 0⟩, m, by simp [hseg], hcached, rfl, hle, hmem, hm, rfl, rfl,
        .inl (lt_of_le_of_ne hle (Ne.symm hseg)), fun x hx hdx => ?_⟩
      have := hfirst x hx hdx
      unfold upTo
      dsimp only
      omega

theorem seek_spec (hall : F.alwaysTrue = false) {turns : Nat} (hs : F.Cached s)
    (hd : d.segmentId = s.currentSegmentId → s.currentSegmentId < invalidSegmentId ∧ s.iterator = s.docIdBitmask)
    (htrue : ∀ e ∈ F.filterResult.entries, d.segmentId ≤ e.1 → e.2.allTrue = false)
    (hturns : F.filterResult.entries.countP (fun e => decide (d.segmentId ≤ e.1)) < turns) :
    ∃ s' answer, F.seek turns s d = .ok (s', answer) ∧ F.Cached s' ∧ F.Least d answer := by
  induction turns generalizing s d with
  | zero => omega
  | succ turns ih =>
    rcases enter_spec hall hs hd htrue with ⟨s', he, hs', hnone⟩ | ⟨s', d', m, he, hs', hcur, hle, hmem, hm, hi, hb, hdd, hup⟩
    · exact ⟨s', none, by simp only [seek, he], hs', hnone⟩
    have hfind := (F.filterResult.mem_entries _ _).mp hmem
    have hin : ∀ x, F.Accepts x → x.segmentId = d'.segmentId → x.segmentOffset ∈ m.bits := by
      rintro x (h | ⟨m', hm', ht⟩) heq
      · simp [hall] at h
      · rw [heq, hfind] at hm'
        cases hm'
        simpa [Bitmask.isTrue, hm] using (Bool.and_eq_true_iff.mp ht).2
    simp only [seek, he, hi, hb, hm]
    cases ho : m.bits.find? fun o => decide (d'.segmentOffset ≤ o) with
    | some o =>
      obtain ⟨hoff, homem, hfirst⟩ := find?_first m.sorted ho
      have hoff : d'.segmentOffset ≤ o := by simpa using hoff
      refine ⟨s', _, rfl, hs', .inr ⟨m, hfind, by simp [Bitmask.isTrue, m.below o homem, homem]⟩, ?_, fun x hx hdx => ?_⟩
      · unfold upTo at hdd ⊢
        dsimp only
        omega
      · have hx' := hup x hx hdx
        rcases hx' with hlt | ⟨heq, hge⟩
        · exact .inl hlt
        refine .inr ⟨heq, ?_⟩
        rcases hfirst _ (hin x hx heq.symm) (by simpa using hge) with h | h
        · exact h.ge
        · exact h.le
    | none =>
      -- no row of the segment is left: the later segments are fewer
      have hcount : F.filterResult.entries.countP (fun e => decide (d'.segmentId + 1 ≤ e.1)) <
          F.filterResult.entries.countP fun e => decide (d.segmentId ≤ e.1) := by
        rw [countP_eq_length_filter (p := fun e : Nat × Bitmask => decide (d.segmentId ≤ e.1))]
        refine lt_of_eq_of_lt ?_ ((countP_lt_length_iff (p := fun e => decide (d'.segmentId + 1 ≤ e.1))).mpr
          ⟨_, mem_filter.mpr ⟨hmem, decide_eq_true hle⟩, by simp⟩)
        rw [countP_filter]
        exact countP_congr fun e _ => by simp; omega
      obtain ⟨s'', answer, hrun, hs'', hleast⟩ := ih (d := ⟨d'.segmentId + 1, 0⟩) hs'
        (by rw [hcur]; dsimp only; omega) (fun e he h => htrue e he (by dsimp only at h; omega)) (by dsimp only; omega)
      have hback : ∀ x, F.Accepts x → upTo d x → upTo ⟨d'.segmentId + 1, 0⟩ x := by
        intro x hx hdx
        have hx' := hup x hx hdx
        unfold upTo at hx' ⊢
        rcases hx' with hlt | ⟨heq, hge⟩
        · dsimp only
          omega
        · exact absurd (find?_eq_none.mp ho _ (hin x hx heq.symm)) (by simpa using hge)
      refine ⟨s'', answer, hrun, hs'', ?_⟩
      cases answer with
      | none => exact fun x hx hdx => hleast x hx (hback x hx hdx)
      | some r =>
        refine ⟨hleast.1, ?_, fun x hx hdx => hleast.2.2 x hx (hback x hx hdx)⟩
        have := hleast.2.1
        unfold upTo at this ⊢
        dsimp only at this
        omega

theorem equalOrLarger_spec (hs : F.Cached s) (hd : d.segmentId < invalidSegmentId)
    (hiter : d.segmentId = s.currentSegmentId → s.iterator = s.docIdBitmask)
    (htrue : ∀ e ∈ F.filterResult.entries, d.segmentId ≤ e.1 → e.2.allTrue = false) :
    ∃ s' answer, F.equalOrLarger s d = .ok (s', answer) ∧ F.Cached s' ∧ F.Least d answer := by
  unfold equalOrLarger
  split
  · rename_i hall
    exact ⟨s, some d, rfl, hs, .inl hall, .inr ⟨rfl, le_rfl⟩, fun _ _ h => h⟩
  · rename_i hall
    have := countP_le_length (p := fun e : Nat × Bitmask => decide (d.segmentId ≤ e.1)) (l := F.filterResult.entries)
    exact seek_spec (by simpa using hall) hs (fun h => ⟨h ▸ hd, hiter h⟩) htrue (by omega)

/-- What is so after every call. -/
structure Right (F : QueryFilter) (t : Session) : Prop where
  cached : F.Cached t.state
  passed : ∀ a ∈ t.passed, (a.2 = true ↔ F.Accepts a.1)
  found : ∀ a ∈ t.found, F.Least a.1 a.2

theorem Right.step {t : Session} (h : Right F t) {call : FilterCall} (hc : F.InOrder t call) :
    ∃ t', Session.step F t call = .ok t' ∧ Right F t' := by
  cases call with
  | passFilter d =>
    obtain ⟨s', answer, hrun, hs', hanswer⟩ := passFilter_spec h.cached hc
    refine ⟨⟨s', (d, answer) :: t.passed, t.found⟩, by simp [Session.step, hrun, Except.map], hs', fun a ha => ?_, h.found⟩
    rcases mem_cons.mp ha with rfl | ha
    · exact hanswer
    · exact h.passed a ha
  | equalOrLarger d =>
    obtain ⟨s', answer, hrun, hs', hanswer⟩ := equalOrLarger_spec h.cached hc.1 hc.2.1 hc.2.2
    refine ⟨⟨s', t.passed, (d, answer) :: t.found⟩, by simp [Session.step, hrun, Except.map], hs', h.passed, fun a ha => ?_⟩
    rcases mem_cons.mp ha with rfl | ha
    · exact hanswer
    · exact h.found a ha

/-- **Calls in order are answered, and answered right, however they are interleaved.** -/
theorem machine_answers {calls : List FilterCall} {t : Session} (h : F.machine.Run ⟨.start, [], []⟩ calls t) :
    (∀ a ∈ t.passed, (a.2 = true ↔ F.Accepts a.1)) ∧ (∀ a ∈ t.found, F.Least a.1 a.2) ∧
      ∀ call, F.InOrder t call → ∃ t', Session.step F t call = .ok t' := by
  have hright : Right F t := by
    refine h.invariant (fun t call t' ht hc hstep => ?_) ⟨.inl rfl, by simp, by simp⟩
    obtain ⟨t₁, hrun, hright⟩ := ht.step hc
    cases hrun.symm.trans hstep
    exact hright
  exact ⟨hright.passed, hright.found, fun call hc => (hright.step hc).imp fun _ => And.left⟩

/-- One segment of five rows, of which the fourth passes. -/
def fourthRow : QueryFilter where
  alwaysTrue := false
  filterResult := ⟨[(0, ⟨5, false, [3], by simp, by simp⟩)], by simp⟩
  valid := by simp [invalidSegmentId]

theorem machine_answers_fourth : fourthRow.Least ⟨0, 1⟩ (some ⟨0, 3⟩) := by
  have hrun : fourthRow.machine.Run ⟨.start, [], []⟩ [.equalOrLarger ⟨0, 1⟩] ⟨_, [], [(⟨0, 1⟩, some ⟨0, 3⟩)]⟩ :=
    .cons ⟨by decide, by simp [FilterState.start], by simp [fourthRow]⟩ rfl (.nil _)
  exact (machine_answers hrun).2.1 _ mem_cons_self

/-- After `PassFilter` has entered a segment, `EqualOrLarger` there has no iterator. -/
theorem passFilter_then_equalOrLarger : ∃ t, Session.step fourthRow ⟨.start, [], []⟩ (.passFilter ⟨0, 1⟩) = .ok t ∧
    Session.step fourthRow t (.equalOrLarger ⟨0, 1⟩) = .error .nullIterator :=
  ⟨_, rfl, rfl⟩

end QueryFilter

end Infinity.Search
