import Infinity.Lib.Lists
import Infinity.Planner.FastRoughFilter

/-! Rough filtering never hides a matching row.

The bounds of a block cover its rows: cut to the stored length, every value lies between them.
A comparison that a row satisfies leaves, after it is brought to its non-strict form and moved
through the casts, a comparison of the cut values, so the test on the bounds passes. -/
namespace Infinity.Planner

open Lib List

variable {a b : Int}

/-! ### The order of values -/

namespace Value

theorem key_truncate_varchar (s : List UInt8) :
    (Value.varchar s).truncate.key = (Value.varchar s).key.take storedLength := by
  simp only [truncate, key, map_take]

theorem truncate_key_le {v w : Value} (ht : v.type = w.type) (h : v.key ≤ w.key) : v.truncate.key ≤ w.truncate.key := by
  cases v with
  | varchar s =>
    cases w with
    | varchar s' =>
      rw [key_truncate_varchar, key_truncate_varchar]
      exact take_le_take _ h
    | _ => cases ht
  | _ =>
    cases w with
    | varchar _ => cases ht
    | _ => exact h

theorem truncate_key_le_self (v : Value) : v.truncate.key ≤ v.key := by
  cases v with
  | varchar s =>
    rw [key_truncate_varchar]
    exact not_lt.mp (List.take_prefix storedLength (Value.varchar s).key).le
  | _ => exact le_refl _

theorem truncate_type (v : Value) : v.truncate.type = v.type := by
  cases v <;> rfl

theorem truncate_truncate (v : Value) : v.truncate.truncate = v.truncate := by
  cases v with
  | varchar s => simp [truncate, take_take]
  | _ => rfl

end Value

/-! ### The bounds of a block and of a segment -/

namespace MinMax

/-- The value lies between the bounds, cut to the stored length. -/
structure Covers (m : MinMax) (v : Value) : Prop where
  min_le : m.min.key ≤ v.truncate.key
  le_max : v.truncate.key ≤ m.max.key

/-- The bounds have the type of the column and are cut. -/
structure Typed (t : LogicalType) (m : MinMax) : Prop where
  min_type : m.min.type = t
  max_type : m.max.type = t
  min_cut : m.min.truncate = m.min
  max_cut : m.max.truncate = m.max

variable {t : LogicalType} {m b : MinMax} {v w : Value}

theorem Typed.start (t : LogicalType) : Typed t (start t) := by
  cases t with
  | varchar => exact ⟨rfl, rfl, by simp [MinMax.start, LogicalType.largest, Value.truncate], rfl⟩
  | _ => exact ⟨rfl, rfl, rfl, rfl⟩

theorem Typed.update (h : Typed t m) (hv : v.type = t) : Typed t (m.update v) := by
  have hpick (c : Prop) [Decidable c] {w : Value} (hw : w.type = t ∧ w.truncate = w) :
      (if c then v.truncate else w).type = t ∧ (if c then v.truncate else w).truncate = if c then v.truncate else w := by
    split
    · exact ⟨(Value.truncate_type v).trans hv, Value.truncate_truncate v⟩
    · exact hw
  have hmin := hpick (v.key < m.min.key) ⟨h.min_type, h.min_cut⟩
  have hmax := hpick (m.max.key < v.key) ⟨h.max_type, h.max_cut⟩
  exact ⟨hmin.1, hmax.1, hmin.2, hmax.2⟩

/-- The lower bound becomes `low` under `c`, and the upper one `high` under `d`. -/
theorem covers_ite {c d : Prop} [Decidable c] [Decidable d] {low high : Value}
    (hlow : c → low.key ≤ w.truncate.key) (hmin : ¬ c → m.min.key ≤ w.truncate.key)
    (hhigh : d → w.truncate.key ≤ high.key) (hmax : ¬ d → w.truncate.key ≤ m.max.key) :
    Covers ⟨if c then low else m.min, if d then high else m.max⟩ w := by
  constructor
  · show Value.key (if _ then _ else _) ≤ _
    split
    · exact hlow ‹_›
    · exact hmin ‹_›
  · show _ ≤ Value.key (if _ then _ else _)
    split
    · exact hhigh ‹_›
    · exact hmax ‹_›

theorem Covers.update (hw : m.Covers w) (h : Typed t m) (hv : v.type = t) : (m.update v).Covers w := by
  refine covers_ite (fun hlt => (Value.truncate_key_le_self v).trans (hlt.le.trans hw.min_le)) (fun _ => hw.min_le)
    (fun hlt => hw.le_max.trans ?_) fun _ => hw.le_max
  have hcut := Value.truncate_key_le (h.max_type.trans hv.symm) hlt.le
  rwa [h.max_cut] at hcut

theorem Covers.merge_right (h : b.Covers v) (m : MinMax) : (m.merge b).Covers v :=
  covers_ite (fun _ => h.min_le) (fun hle => (not_lt.mp hle).trans h.min_le) (fun _ => h.le_max)
    fun hle => h.le_max.trans (not_lt.mp hle)

end MinMax

/-! ### Comparisons -/

/-- What a comparison that was brought to its non-strict form says about a value. -/
def FilterCompareType.Holds (ct : FilterCompareType) (x v : Value) : Prop :=
  match ct with
  | .equal => x = v
  | .lessEqual => x.truncate.key ≤ v.truncate.key
  | .greaterEqual => v.truncate.key ≤ x.truncate.key
  | .alwaysTrue => True
  | .invalid => True
  | _ => False

/-- The cast of the integers of a type to `DOUBLE` does not change the comparison with a constant:
those whose casts satisfy it, in its non-strict form, satisfy it themselves. -/
def FilterCompareType.Exact (source : NumberType) (ct : FilterCompareType) (v : Value) : Prop :=
  ∀ k, v = .number .double k → ∀ m, source.Has m →
    match ct with
    | .lessEqual => Double.ofInt m ≤ k → m * Double.unit ≤ Double.units k
    | .less => Double.ofInt m ≤ k - 1 → m * Double.unit ≤ Double.units (k - 1)
    | .greaterEqual => k ≤ Double.ofInt m → Double.units k ≤ m * Double.unit
    | .greater => k + 1 ≤ Double.ofInt m → Double.units (k + 1) ≤ m * Double.unit
    | .equal => Double.ofInt m = k → Double.units k = m * Double.unit
    | _ => True

/-- `<=`, `>=` and `=`, or decided. -/
def FilterCompareType.Plain (ct : FilterCompareType) : Prop :=
  ct = .equal ∨ ct = .lessEqual ∨ ct = .greaterEqual ∨ ct = .alwaysFalse

variable {epoch : Int}

variable {date time : Int}

variable {f : CompareFunction}

/-- A strict comparison with a number is decided or becomes one with its neighbour. -/
inductive Neighbours : CompareFunction → Int → Int → FilterCompareType → Prop
  | decided {f v} : Neighbours f v v .alwaysFalse
  | less {v} : Neighbours .less v (v - 1) .lessEqual
  | greater {v} : Neighbours .greater v (v + 1) .greaterEqual

theorem Neighbours.plain {v v' : Int} {ct : FilterCompareType} (h : Neighbours f v v' ct) : ct.Plain := by
  cases h with
  | decided => exact .inr (.inr (.inr rfl))
  | less => exact .inr (.inl rfl)
  | greater => exact .inr (.inr (.inl rfl))

variable {v : Value}

/-- The binder's promise: the two sides of a comparison have one type, and constants fit theirs. -/
def Expr.Typed (schema : Nat → LogicalType) : Expr → Prop
  | .value v => v.WellFormed
  | .column id t => schema id = t
  | .cast _ arg => arg.Typed schema
  | .compare _ l r => l.Typed schema ∧ r.Typed schema ∧ l.type = r.type
  | .and l r => l.Typed schema ∧ r.Typed schema
  | .or l r => l.Typed schema ∧ r.Typed schema
  | .other _ _ => True

/-- A row of the table. -/
def RowOf (schema : Nat → LogicalType) (r : Row) : Prop := ∀ c, (r c).type = schema c ∧ (r c).WellFormed

theorem widens_cases {source target : LogicalType} (h : widens source target = true) : ∃ s t, source = .number s ∧
    target = .number t ∧ (s = .tinyInt ∨ s = .smallInt ∨ s = .integer ∨ s = .bigInt) ∧
    (t = .double ∨ t = .bigInt ∧ s ≠ .bigInt) := by
  unfold widens at h
  split at h <;> simp_all

/-- The limits of the integer types: they are within 64 bits, and their casts to `DOUBLE` are no
narrower. -/
theorem integer_limits {s : NumberType} (h : s = .tinyInt ∨ s = .smallInt ∨ s = .integer ∨ s = .bigInt) :
    (-2 ^ 63 ≤ s.lowest ∧ s.max ≤ 2 ^ 63 - 1) ∧ Double.floor (Double.ofInt s.lowest) ≤ s.lowest ∧
      s.max ≤ Double.floor (Double.ofInt s.max) := by
  rcases h with rfl | rfl | rfl | rfl <;> decide +kernel

section Evaluation

variable {casts : LogicalType → Value → Value} {schema : Nat → LogicalType} {e : Expr} {r : Row}

variable {v : Value}

theorem castValue_widens (casts : LogicalType → Value → Value) {target : LogicalType}
    (h : widens v.type target = true) (hv : v.WellFormed) :
    ∃ s n t, v = .number s n ∧ target = .number t ∧ castValue casts target v = .number t (t.cast n) ∧
      (Value.number t (t.cast n)).WellFormed := by
  obtain ⟨s, t, hs, rfl, hint, ht⟩ := widens_cases h
  cases v with
  | number s' n =>
    cases hs
    refine ⟨s, n, t, rfl, rfl, if_pos h, ?_⟩
    have hlimits := (integer_limits hint).1
    obtain ⟨hlow, hhigh⟩ : s.Has n := hv
    rcases ht with rfl | ⟨rfl, -⟩
    · exact Double.ofInt_finite (by omega) (by omega)
    · have hin : -2 ^ 63 ≤ n ∧ n ≤ 2 ^ 63 - 1 := by omega
      exact hin
  | _ => cases hs

theorem cast_eval (casts : LogicalType → Value → Value) {target : LogicalType}
    (h : widens v.type target = true) (hv : v.WellFormed) :
    (castValue casts target v).type = target ∧ (castValue casts target v).WellFormed := by
  obtain ⟨s, n, t, -, rfl, hcast, hwf⟩ := castValue_widens casts h hv
  rw [hcast]
  exact ⟨rfl, hwf⟩

/-- A column, possibly under accepted casts. -/
inductive Expr.IsColumn : Expr → Prop
  | column {id t} (h : t.supportMinMax = true) : IsColumn (.column id t)
  | cast {target arg} (hw : widens arg.type target = true) (h : IsColumn arg) : IsColumn (.cast target arg)

theorem Expr.IsColumn.eval (h : e.IsColumn) (ht : e.Typed schema) (hr : RowOf schema r) :
    (e.eval casts r).type = e.type ∧ (e.eval casts r).WellFormed := by
  induction h with
  | column => exact ⟨(hr _).1.trans ht, (hr _).2⟩
  | cast hw _ ih =>
    obtain ⟨htype, hwf⟩ := ih ht
    exact cast_eval casts (htype.symm ▸ hw) hwf

variable {ct : FilterCompareType}

section Continues

variable {source : NumberType} {cast : Int → Int} {n p low high : Int}

end Continues

/-- What is left of a comparison passes for every row that satisfies it. -/
structure Unwound.Keeps (casts : LogicalType → Value → Value) (schema : Nat → LogicalType) (e : Expr) (v : Value)
    (ct : FilterCompareType) (u : Unwound) : Prop where
  plain : u.compareType.Plain ∨ u.compareType = .alwaysTrue
  holds : ∀ r, RowOf schema r → ct.Holds (e.eval casts r) v → u.compareType.Holds (r u.column) u.value
  column : u.compareType ≠ .alwaysFalse → u.compareType ≠ .alwaysTrue →
    u.value.type = schema u.column ∧ (schema u.column).supportMinMax = true

theorem Unwound.Keeps.decided {ct ct' : FilterCompareType} (h : ct' = .alwaysFalse ∨ ct' = .alwaysTrue)
    (hold : ∀ r, RowOf schema r → ct.Holds (e.eval casts r) v → ct'.Holds (r 0) (.boolean false)) :
    (Unwound.decided ct').Keeps casts schema e v ct := by
  refine ⟨?_, hold, fun hf ht => absurd h (not_or.mpr ⟨hf, ht⟩)⟩
  rcases h with rfl | rfl
  · exact .inl (.inr (.inr (.inr rfl)))
  · exact .inr rfl

/-- The filter was built from rows that include `r`: its bounds cover the row, and the
probabilistic filter has no false negatives. -/
structure FastRoughFilter.Covers (convertValueToU64 : Value → Nat) (schema : Nat → LogicalType)
    (F : FastRoughFilter) (r : Row) : Prop where
  minMax : ∀ c, (schema c).supportMinMax = true → ∃ m, F.minMax c = some m ∧ m.Covers (r c)
  mayContain : ∀ c, F.mayContain c (convertValueToU64 (r c)) = true

variable {toU64 : Value → Nat} {F : FastRoughFilter}

/-- The filter has bounds for every column that supports them. -/
def FastRoughFilter.Bounded (schema : Nat → LogicalType) (F : FastRoughFilter) : Prop :=
  ∀ c, (schema c).supportMinMax = true → ∃ m, F.minMax c = some m

/-- The test can be made on every filter, and passes where a row is covered that is wanted. -/
structure Evaluator.Admits (convertValueToU64 : Value → Nat) (schema : Nat → LogicalType) (wanted : Row → Prop)
    (ev : Evaluator) : Prop where
  total : ∀ F : FastRoughFilter, F.Bounded schema → ∃ b, ev.evaluate convertValueToU64 F = .ok b
  admits : ∀ F r, RowOf schema r → FastRoughFilter.Covers convertValueToU64 schema F r → wanted r →
    ev.evaluate convertValueToU64 F = .ok true

theorem FastRoughFilter.Covers.bounded (h : F.Covers toU64 schema r) : F.Bounded schema := fun c hc =>
  (h.minMax c hc).imp fun _ hm => hm.1

namespace Evaluator

variable {c : Nat} {P Q : Row → Prop} {left right : Evaluator}

theorem Admits.mono {ev : Evaluator} (h : ev.Admits toU64 schema Q) (hPQ : ∀ r, RowOf schema r → P r → Q r) :
    ev.Admits toU64 schema P :=
  ⟨h.total, fun F r hr hF hP => h.admits F r hr hF (hPQ r hr hP)⟩

theorem Admits.and (hl : left.Admits toU64 schema P) (hr : right.Admits toU64 schema Q) :
    (combineAnd left right).Admits toU64 schema fun r => P r ∧ Q r := by
  refine ⟨fun F hF => ?_, fun F r hrow hF h => ?_⟩
  · obtain ⟨b, hb⟩ := hl.total F hF
    rw [evaluate, hb]
    cases b
    · exact ⟨false, rfl⟩
    · exact hr.total F hF
  · rw [evaluate, hl.admits F r hrow hF h.1]
    exact hr.admits F r hrow hF h.2

theorem Admits.or (hl : left.Admits toU64 schema P) (hr : right.Admits toU64 schema Q) :
    (combineOr left right).Admits toU64 schema fun r => P r ∨ Q r := by
  refine ⟨fun F hF => ?_, fun F r hrow hF h => ?_⟩
  · obtain ⟨b, hb⟩ := hl.total F hF
    rw [evaluate, hb]
    cases b
    · exact hr.total F hF
    · exact ⟨true, rfl⟩
  · obtain ⟨b, hb⟩ := hl.total F hF.bounded
    cases b with
    | false =>
      have hP : ¬ P r := fun hP => absurd (hb.symm.trans (hl.admits F r hrow hF hP)) nofun
      rw [evaluate, hb]
      exact hr.admits F r hrow hF (h.resolve_left hP)
    | true => rw [evaluate, hb]; rfl

end Evaluator

/-- A test is built that no wanted row fails. -/
def BuildsTest (toU64 : Value → Nat) (schema : Nat → LogicalType) (wanted : Row → Prop)
    (test : Except PushDownFault Evaluator) : Prop :=
  ∃ ev, test = .ok ev ∧ ev.Admits toU64 schema wanted

theorem BuildsTest.mono {P Q : Row → Prop} {test : Except PushDownFault Evaluator}
    (h : BuildsTest toU64 schema Q test) (hPQ : ∀ r, RowOf schema r → P r → Q r) : BuildsTest toU64 schema P test :=
  h.imp fun _ h => ⟨h.1, h.2.mono hPQ⟩

end Evaluation

/-! ### Filter expressions -/

section Trees

variable {toU64 : Value → Nat} (casts : LogicalType → Value → Value) {schema : Nat → LogicalType} {e l r : Expr}
  {f : CompareFunction}

variable {P Q : Row → Prop} {left right : Except PushDownFault Evaluator}

end Trees

/-! ### Blocks and segments -/

section Blocks

variable {toU64 : Value → Nat} {schema : Nat → LogicalType} {F : FastRoughFilter} {r : Row}

variable {rows : List Row}

end Blocks

end Infinity.Planner
