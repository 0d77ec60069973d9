import Infinity.Wal.DeltaOps

/-! What merged operations mean.

A catalog is a set of named objects, some inside others. An operation creates one, changes
one or drops one with everything inside it, and `Follows` says that a list of operations is
made of changes of a catalog. `meaning` reads the map of merged operations as one change of
the catalog before it. `addOp_spec` is one round of merging: the map then means the catalog
after the operation. `foldl_load_eq` is the other direction: a delta file, loaded operation
by operation, does what the map meant. -/
namespace Infinity.Wal.Delta

open Lib
open CatalogDeltaOperation (hasFilter)
open scoped Classical

/-! ### Catalogs -/

/-- How the entries of a catalog are named: a name stands inside another exactly when it
continues it behind a `#`, and the types grow inwards. -/
structure Naming (ν : Type) where
  encode : ν → Key
  type : ν → CatalogDeltaOpType
  encode_injective : Function.Injective encode
  encode_ne_nil : ∀ n, encode n ≠ []
  type_lt : ∀ a n, Under (encode a) (encode n) → (type a).code < (type n).code

structure Object (π : Type) where
  filter : List Nat
  payload : π

/-- The objects of a catalog by name. Ids of segments, blocks and the like are not used
again while what they stand in is there; `retired` are the ids that were. -/
structure Catalog (ν π : Type) where
  objects : ν → Option (Object π)
  retired : ν → Prop

/-- Whether a dropped entry may be created again under its name. -/
def reusable : CatalogDeltaOpType → Bool
  | .addDatabaseEntry | .addTableEntry | .addTableIndexEntry => true
  | _ => false

theorem not_reusable_of_hasFilter {type : CatalogDeltaOpType} (h : hasFilter type = true) : reusable type = false := by
  cases type <;> first | rfl | cases h

variable {ν π : Type}

namespace CatalogDeltaOperation

/-- The operation drops what stands inside its entry. -/
def Kills (op : CatalogDeltaOperation π) : Prop := op.mergeFlag = .delete ∨ op.mergeFlag = .deleteAndNew

def object (op : CatalogDeltaOperation π) : Object π := ⟨op.filter, op.payload⟩

/-- A changed object keeps its filter if none comes with the change. -/
def updated (op : CatalogDeltaOperation π) (o : Object π) : Object π :=
  ⟨if op.filter = [] then o.filter else op.filter, op.payload⟩

/-- What becomes of the entry an operation is about. -/
def result (op : CatalogDeltaOperation π) (before : Option (Object π)) : Option (Object π) :=
  match op.mergeFlag with
  | .new | .deleteAndNew => some op.object
  | .update => before.map op.updated
  | .delete => none
  | .invalid => before

end CatalogDeltaOperation

variable (N : Naming ν)

/-- `LoadFromEntryDelta`, one operation. -/
noncomputable def load (objects : ν → Option (Object π)) (op : CatalogDeltaOperation π) : ν → Option (Object π) :=
  fun x =>
    if N.encode x = op.encode then op.result (objects x)
    else if op.Kills ∧ Under op.encode (N.encode x) then none
    else objects x

noncomputable def Catalog.apply (c : Catalog ν π) (op : CatalogDeltaOperation π) : Catalog ν π where
  objects := load N c.objects op
  retired x :=
    if op.mergeFlag = .delete then N.encode x = op.encode ∨ ¬ Under op.encode (N.encode x) ∧ c.retired x
    else c.retired x

/-- The operation is a change of the catalog at the entry named `n`. -/
structure Valid (c : Catalog ν π) (n : ν) (op : CatalogDeltaOperation π) : Prop where
  encode : op.encode = N.encode n
  type : op.type = N.type n
  filter : op.filter ≠ [] → hasFilter op.type = true
  change : op.mergeFlag = .new ∧ c.objects n = none ∧ (∀ a, Under (N.encode a) (N.encode n) → c.objects a ≠ none) ∧
        (reusable op.type = false → ¬ c.retired n) ∨
      op.mergeFlag = .update ∧ (∃ o, c.objects n = some o ∧ (op.filter ≠ [] → o.filter = [])) ∨
      op.mergeFlag = .delete ∧ c.objects n ≠ none ∧ op.filter = []

/-- The operations, one after another, are changes that lead from one catalog to another. -/
inductive Follows : Catalog ν π → List (CatalogDeltaOperation π) → Catalog ν π → Prop
  | nil (c : Catalog ν π) : Follows c [] c
  | cons {c c' : Catalog ν π} {n : ν} {op : CatalogDeltaOperation π} {ops : List (CatalogDeltaOperation π)}
      (valid : Valid N c n op.checkDelete) (rest : Follows (c.apply N op.checkDelete) ops c') : Follows c (op :: ops) c'

/-- Whatever is there, what it stands in is there. -/
def Closed (objects : ν → Option (Object π)) : Prop :=
  ∀ a n, Under (N.encode a) (N.encode n) → objects n ≠ none → objects a ≠ none

/-! ### The meaning of a map of operations -/

/-- The merged operations by name. -/
abbrev Ops (π : Type) := OrderedMap Key (CatalogDeltaOperation π)

/-- Something the entry stands in is dropped. -/
def Killed (D : Ops π) (x : ν) : Prop :=
  ∃ a op, Under (N.encode a) (N.encode x) ∧ D.find? (N.encode a) = some op ∧ op.Kills

noncomputable def meaning (D : Ops π) (base : ν → Option (Object π)) (x : ν) : Option (Object π) :=
  match D.find? (N.encode x) with
  | some op => op.result (base x)
  | none => if Killed N D x then none else base x

/-- What an operation in the map says of the catalog before. -/
structure Fits (D : Ops π) (base : ν → Option (Object π)) (retired : ν → Prop) (n : ν) (op : CatalogDeltaOperation π) :
    Prop where
  encode : op.encode = N.encode n
  type : op.type = N.type n
  filter : op.filter ≠ [] → hasFilter op.type = true
  flag : op.mergeFlag ≠ .invalid
  new : op.mergeFlag = .new → base n = none ∨ Killed N D n
  update : op.mergeFlag = .update → (∃ o, base n = some o ∧ (op.filter ≠ [] → o.filter = [])) ∧ ¬ Killed N D n
  delete : op.mergeFlag = .delete → retired n ∧ ∀ x, Under (N.encode n) (N.encode x) → D.find? (N.encode x) = none
  deleteAndNew : op.mergeFlag = .deleteAndNew → reusable op.type = true

structure Consistent (D : Ops π) (base : ν → Option (Object π)) (retired : ν → Prop) : Prop where
  closed : Closed N base
  named : ∀ k op, D.find? k = some op → ∃ n, k = N.encode n
  fits : ∀ n op, D.find? (N.encode n) = some op → Fits N D base retired n op

theorem Under.trans {a b c : Key} (h : Under a b) (h' : Under b c) : Under a c :=
  List.IsPrefix.trans h ((List.prefix_append b ['#']).trans h')

theorem Under.ne {a b : Key} (h : Under a b) : a ≠ b := by
  intro heq
  have hlen := h.length_le
  rw [heq, List.length_append, List.length_singleton] at hlen
  omega

/-! ### Two changes of the map -/

section Shapes

variable {N} {D D' : Ops π} {base : ν → Option (Object π)} {retired : ν → Prop} {n : ν}

theorem Fits.of_killed {op : CatalogDeltaOperation π} {retired' : ν → Prop} {x : ν} (h : Fits N D base retired x op)
    (hk : Killed N D' x ↔ Killed N D x) (hr : op.mergeFlag = .delete → retired' x)
    (hd : op.mergeFlag = .delete → ∀ y, Under (N.encode x) (N.encode y) → D'.find? (N.encode y) = none) :
    Fits N D' base retired' x op where
  encode := h.encode
  type := h.type
  filter := h.filter
  flag := h.flag
  new hf := (h.new hf).imp_right hk.mpr
  update hf := ⟨(h.update hf).1, fun hx => (h.update hf).2 (hk.mp hx)⟩
  delete hf := ⟨hr hf, hd hf⟩
  deleteAndNew := h.deleteAndNew

/-- The operation of one entry is set, and drops what is inside it just when it did before. -/
theorem Consistent.set {m : CatalogDeltaOperation π} (h : Consistent N D base retired)
    (hfind : ∀ k, D'.find? k = if k = N.encode n then some m else D.find? k)
    (hkills : m.Kills ↔ ∃ op, D.find? (N.encode n) = some op ∧ op.Kills)
    (alive : ∀ a op, Under (N.encode a) (N.encode n) → D.find? (N.encode a) = some op → op.mergeFlag ≠ .delete)
    (hm : Fits N D base retired n m) (hnd : m.mergeFlag ≠ .delete) :
    Consistent N D' base retired ∧
      ∀ x, meaning N D' base x = if x = n then m.result (base n) else meaning N D base x := by
  have hself : D'.find? (N.encode n) = some m := by rw [hfind, if_pos rfl]
  have hother {x : ν} (hx : x ≠ n) : D'.find? (N.encode x) = D.find? (N.encode x) := by
    rw [hfind, if_neg (N.encode_injective.ne hx)]
  have hkilled (x : ν) : Killed N D' x ↔ Killed N D x := by
    refine exists_congr fun a => ?_
    by_cases ha : a = n
    · subst ha
      constructor
      · rintro ⟨op, hu, hop, hk⟩
        rw [hself] at hop
        cases hop
        obtain ⟨op', hop', hk'⟩ := hkills.mp hk
        exact ⟨op', hu, hop', hk'⟩
      · rintro ⟨op, hu, hop, hk⟩
        exact ⟨m, hu, hself, hkills.mpr ⟨op, hop, hk⟩⟩
    · rw [hother ha]
  refine ⟨⟨h.closed, fun k op hop => ?_, fun x op hop => ?_⟩, fun x => ?_⟩
  · rw [hfind] at hop
    split at hop
    · rename_i hk
      exact ⟨n, hk⟩
    · exact h.named k op hop
  · by_cases hx : x = n
    · subst hx
      rw [hself] at hop
      cases hop
      exact hm.of_killed (hkilled x) (fun hf => absurd hf hnd) fun hf => absurd hf hnd
    · rw [hother hx] at hop
      have hf := h.fits x op hop
      refine hf.of_killed (hkilled x) (fun hd => (hf.delete hd).1) fun hd y hy => ?_
      by_cases hyn : y = n
      · subst hyn
        exact absurd hd (alive x op hy hop)
      rw [hother hyn]
      exact (hf.delete hd).2 y hy
  · by_cases hx : x = n
    · subst hx
      rw [if_pos rfl, meaning, hself]
    · rw [if_neg hx, meaning, meaning, hother hx, if_congr (hkilled x) rfl rfl]

/-- What a dropped entry leaves in the map: a drop, or nothing if nothing was there before. -/
def Leaves (N : Naming ν) (D : Ops π) (base : ν → Option (Object π)) (n : ν) : Option (CatalogDeltaOperation π) → Prop
  | some m => m.mergeFlag = .delete ∧ m.encode = N.encode n ∧ m.type = N.type n ∧
      (m.filter ≠ [] → hasFilter m.type = true)
  | none => base n = none ∨ Killed N D n

theorem Consistent.drop {r : Option (CatalogDeltaOperation π)} (h : Consistent N D base retired)
    (hfind : ∀ k, D'.find? k = if Under (N.encode n) k then none else if k = N.encode n then r else D.find? k)
    (alive : ∀ a op, Under (N.encode a) (N.encode n) → D.find? (N.encode a) = some op → op.mergeFlag ≠ .delete)
    (hr : Leaves N D base n r) :
    Consistent N D' base (fun x => N.encode x = N.encode n ∨ ¬ Under (N.encode n) (N.encode x) ∧ retired x) ∧
      ∀ x, meaning N D' base x = if x = n ∨ Under (N.encode n) (N.encode x) then none else meaning N D base x := by
  have hself : D'.find? (N.encode n) = r := by rw [hfind, if_neg (fun hu => hu.ne rfl), if_pos rfl]
  have hinside {x : ν} (hx : Under (N.encode n) (N.encode x)) : D'.find? (N.encode x) = none := by rw [hfind, if_pos hx]
  have hother {x : ν} (hx : x ≠ n) (hu : ¬ Under (N.encode n) (N.encode x)) :
      D'.find? (N.encode x) = D.find? (N.encode x) := by
    rw [hfind, if_neg hu, if_neg (N.encode_injective.ne hx)]
  have hkilled {x : ν} (hx : ¬ Under (N.encode n) (N.encode x)) : Killed N D' x ↔ Killed N D x := by
    refine exists_congr fun a => exists_congr fun op => and_congr_right fun hu => ?_
    rw [hother]
    · rintro rfl
      exact hx hu
    · exact fun hna => hx (hna.trans hu)
  refine ⟨⟨h.closed, fun k op hop => ?_, fun x op hop => ?_⟩, fun x => ?_⟩
  · rw [hfind] at hop
    split at hop
    · cases hop
    split at hop
    · rename_i hk
      exact ⟨n, hk⟩
    · exact h.named k op hop
  · by_cases hu : Under (N.encode n) (N.encode x)
    · simp [hinside hu] at hop
    · by_cases hx : x = n
      · subst hx
        rw [hself] at hop
        subst hop
        obtain ⟨hf, he, ht, hfil⟩ := hr
        exact ⟨he, ht, hfil, by rw [hf]; decide, fun hc => absurd (hf.symm.trans hc) (by decide),
          fun hc => absurd (hf.symm.trans hc) (by decide), fun _ => ⟨.inl rfl, fun y hy => hinside hy⟩,
          fun hc => absurd (hf.symm.trans hc) (by decide)⟩
      · rw [hother hx hu] at hop
        have hf := h.fits x op hop
        refine hf.of_killed (hkilled hu) (fun hd => .inr ⟨hu, (hf.delete hd).1⟩) fun hd y hy => ?_
        by_cases hyu : Under (N.encode n) (N.encode y)
        · exact hinside hyu
        by_cases hyn : y = n
        · subst hyn
          exact absurd hd (alive x op hy hop)
        · rw [hother hyn hyu]
          exact (hf.delete hd).2 y hy
  · by_cases hu : Under (N.encode n) (N.encode x)
    · rw [if_pos (.inr hu), meaning, hinside hu]
      show (if Killed N D' x then none else base x) = none
      cases r with
      | some m => exact if_pos ⟨n, m, hu, hself, .inl hr.1⟩
      | none =>
        split
        · rfl
        rename_i hk
        obtain hb | ⟨a, op, hua, hop, hkill⟩ := hr
        · by_contra hne
          exact h.closed n x hu hne hb
        · refine absurd ⟨a, op, hua.trans hu, ?_, hkill⟩ hk
          rwa [hother (fun heq => hua.ne (by rw [heq])) (fun hna => (hna.trans hua).ne rfl)]
    · by_cases hx : x = n
      · subst hx
        rw [if_pos (.inl rfl), meaning, hself]
        cases r with
        | some m => simp only [CatalogDeltaOperation.result, hr.1]
        | none =>
          show (if Killed N D' x then none else base x) = none
          rw [if_congr (hkilled hu) rfl rfl]
          split
          · rfl
          · rename_i hk
            exact hr.resolve_right hk
      · rw [if_neg (not_or.mpr ⟨hx, hu⟩), meaning, meaning, hother hx hu, if_congr (hkilled hu) rfl rfl]

end Shapes

/-! ### One round of merging -/

section Merging

open GlobalCatalogDeltaEntry CatalogDeltaOperation

variable {N} {D : Ops π} {base : ν → Option (Object π)} {retired : ν → Prop} {n : ν}
  {op old : CatalogDeltaOperation π} {ckp top : Nat} {txnIds : List Nat}

/-- The operations in the map are newer than the last full checkpoint, and none is newer
than `top`. -/
def Dated (ckp top : Nat) (D : Ops π) : Prop := ∀ k op, D.find? k = some op → ckp < op.commitTs ∧ op.commitTs ≤ top

theorem Dated.mono {top' : Nat} (h : Dated ckp top D) (htop : top ≤ top') : Dated ckp top' D :=
  fun k op hop => ⟨(h k op hop).1, (h k op hop).2.trans htop⟩

theorem Dated.dropCovered (h : Dated ckp top D) (k : Key) : dropCovered ckp D k = D := by
  rw [GlobalCatalogDeltaEntry.dropCovered]
  split
  · rename_i op hop
    exact if_neg (not_le.mpr (h k op hop).1)
  · rfl

/-- The merged operation: everything from the later one, but a filter that is there stays. -/
def joined (old op : CatalogDeltaOperation π) (flag : MergeFlag) : CatalogDeltaOperation π :=
  {op with mergeFlag := flag, filter := if old.filter = [] then op.filter else old.filter}

theorem merge_eq_joined {flag : MergeFlag} (ht : op.type = old.type)
    (hf : nextDeleteFlag old.mergeFlag op.mergeFlag = .ok flag)
    (hold : old.filter ≠ [] → hasFilter old.type = true ∧ op.filter = []) : old.merge op = .ok (joined old op flag) := by
  rw [merge, if_neg (not_not.mpr ht), hf]
  by_cases he : old.filter = []
  · simp [joined, he]
  · obtain ⟨hh, ho⟩ := hold he
    simp [joined, he, hh, ho]

variable {w : CatalogDeltaOperation π}

theorem Valid.alive (h : Consistent N D base retired)
    (hv : Valid N ⟨meaning N D base, retired⟩ n w) (a : ν) (b : CatalogDeltaOperation π)
    (hu : Under (N.encode a) (N.encode n)) (hb : D.find? (N.encode a) = some b) : b.mergeFlag ≠ .delete := by
  intro hd
  have hnone : D.find? (N.encode n) = none := ((h.fits a b hb).delete hd).2 n hu
  have hcur : meaning N D base n = none := by
    rw [meaning, hnone]
    exact if_pos ⟨a, b, hu, hb, .inl hd⟩
  obtain ⟨-, -, habove, -⟩ | ⟨-, o, ho, -⟩ | ⟨-, hne, -⟩ := hv.change
  · refine habove a hu ?_
    simp only [meaning, hb, result, hd]
  · exact absurd (hcur.symm.trans ho) (by simp)
  · exact hne hcur

variable {m : CatalogDeltaOperation π}

theorem load_of_set (he : w.encode = N.encode n) (hk : ¬ w.Kills)
    (hm : m.result (base n) = w.result (meaning N D base n)) :
    (fun x => if x = n then m.result (base n) else meaning N D base x) = load N (meaning N D base) w := by
  funext x
  rw [load, he, if_congr (N.encode_injective.eq_iff) rfl rfl]
  by_cases hx : x = n
  · rw [if_pos hx, if_pos hx, hm, hx]
  · rw [if_neg hx, if_neg hx, if_neg fun h => hk h.1]

theorem load_of_drop (he : w.encode = N.encode n) (hf : w.mergeFlag = .delete) :
    (fun x => if x = n ∨ Under (N.encode n) (N.encode x) then none else meaning N D base x) =
      load N (meaning N D base) w := by
  funext x
  rw [load, he, if_congr (N.encode_injective.eq_iff) rfl rfl]
  by_cases hx : x = n
  · rw [if_pos (.inl hx), if_pos hx, result, hf]
  · by_cases hu : Under (N.encode n) (N.encode x)
    · rw [if_pos (.inr hu), if_neg hx, if_pos ⟨.inl hf, hu⟩]
    · rw [if_neg (not_or.mpr ⟨hx, hu⟩), if_neg hx, if_neg fun h => hu h.2]

/-- What one round of merging has to do. -/
def Merges (N : Naming ν) (D : Ops π) (base : ν → Option (Object π)) (retired : ν → Prop) (ckp top : Nat)
    (w : CatalogDeltaOperation π) (D' : Ops π) : Prop :=
  Consistent N D' base (Catalog.apply N ⟨meaning N D base, retired⟩ w).retired ∧
    meaning N D' base = (Catalog.apply N ⟨meaning N D base, retired⟩ w).objects ∧ Dated ckp top D'

theorem merges_of_set {D' : Ops π} (h : Consistent N D base retired)
    (hn : Dated ckp top D) (hv : Valid N ⟨meaning N D base, retired⟩ n w) (hw : ¬ w.Kills)
    (hfind : ∀ k, D'.find? k = if k = N.encode n then some m else D.find? k)
    (hkills : m.Kills ↔ ∃ op, D.find? (N.encode n) = some op ∧ op.Kills) (hm : Fits N D base retired n m)
    (hnd : m.mergeFlag ≠ .delete) (hres : m.result (base n) = w.result (meaning N D base n))
    (hts : ckp < m.commitTs ∧ m.commitTs ≤ top) : Merges N D base retired ckp top w D' := by
  obtain ⟨hc, hmean⟩ := h.set hfind hkills (hv.alive h) hm hnd
  have hret : (Catalog.apply N ⟨meaning N D base, retired⟩ w).retired = retired := by
    funext x
    exact if_neg fun hd => hw (.inl hd)
  refine ⟨hret.symm ▸ hc, (funext hmean).trans (load_of_set hv.encode hw hres), fun k b hb => ?_⟩
  rw [hfind] at hb
  split at hb
  · cases hb
    exact hts
  · exact hn k b hb

theorem merges_of_drop {r : Option (CatalogDeltaOperation π)} {D' : Ops π}
    (h : Consistent N D base retired) (hn : Dated ckp top D) (hv : Valid N ⟨meaning N D base, retired⟩ n w)
    (hw : w.mergeFlag = .delete)
    (hfind : ∀ k, D'.find? k = if Under (N.encode n) k then none else if k = N.encode n then r else D.find? k)
    (hr : Leaves N D base n r)
    (hts : ∀ m, r = some m → ckp < m.commitTs ∧ m.commitTs ≤ top) : Merges N D base retired ckp top w D' := by
  obtain ⟨hc, hmean⟩ := h.drop hfind (hv.alive h) hr
  have hret : (Catalog.apply N ⟨meaning N D base, retired⟩ w).retired =
      fun x => N.encode x = N.encode n ∨ ¬ Under (N.encode n) (N.encode x) ∧ retired x := by
    funext x
    show (if w.mergeFlag = .delete then _ else _) = _
    rw [if_pos hw, hv.encode]
  refine ⟨hret.symm ▸ hc, (funext hmean).trans (load_of_drop hv.encode hw), fun k b hb => ?_⟩
  rw [hfind] at hb
  split at hb
  · cases hb
  split at hb
  · exact hts b hb
  · exact hn k b hb

/-- A filter that comes with a change of an object without one, or that the object has. -/
theorem result_joined {before : Option (Object π)} (hnd : old.mergeFlag ≠ .delete) (hf : old.mergeFlag ≠ .invalid)
    (hof : w.filter ≠ [] → old.filter = []) :
    (joined old w old.mergeFlag).result before = (old.result before).map w.updated := by
  have hfilter : (joined old w old.mergeFlag).filter = if w.filter = [] then old.filter else w.filter := by
    by_cases ho : old.filter = []
    · by_cases hw : w.filter = [] <;> simp [joined, ho, hw]
    · simp [joined, ho, not_not.mp (mt hof ho)]
  cases hold : old.mergeFlag with
  | invalid => exact absurd hold hf
  | delete => exact absurd hold hnd
  | new | deleteAndNew =>
    rw [hold] at hfilter
    simp only [result, hold, joined, object, updated, Option.map_some] at hfilter ⊢
    rw [hfilter]
  | update =>
    rw [hold] at hfilter
    cases before with
    | none => simp [result, hold, joined]
    | some o =>
      simp only [result, hold, joined, updated, Option.map_some] at hfilter ⊢
      rw [hfilter]
      by_cases hw : w.filter = []
      · simp [hw]
      · simp [hw]

theorem fits_joined {flag : MergeFlag} {c : Catalog ν π}
    (hF : Fits N D base retired n old) (hv : Valid N c n w) (flagged : flag ≠ .invalid)
    (new : flag = .new → base n = none ∨ Killed N D n)
    (update : flag = .update →
      (∃ o, base n = some o ∧ ((joined old w flag).filter ≠ [] → o.filter = [])) ∧ ¬ Killed N D n)
    (delete : flag ≠ .delete) (deleteAndNew : flag = .deleteAndNew → reusable w.type = true) :
    Fits N D base retired n (joined old w flag) := by
  refine ⟨hv.encode, hv.type, fun hne => ?_, flagged, new, update, fun hd => absurd hd delete, deleteAndNew⟩
  by_cases ho : old.filter = []
  · exact hv.filter (by simpa [joined, ho] using hne)
  · exact hv.type.trans hF.type.symm ▸ hF.filter ho

/-! One operation `op` is merged, which is `w` once it is checked. -/

section Round

variable {flag : PruneFlag} (hw : op.checkDelete = w) (hn : Dated ckp top D)
include hw hn

theorem addOp_absent (he : w.encode ≠ []) (hD : D.find? w.encode = none) (hp : toPrune none w.mergeFlag = .ok flag) :
    addOp ckp txnIds D op = .ok
      (if flag = .pruneSub then pruneOpWithSamePrefix (D.emplace w.encode w) w.encode else D.emplace w.encode w) := by
  simp only [addOp, hw, if_neg he, hn.dropCovered, hD, hp]

theorem addOp_pruned (he : w.encode ≠ []) (hD : D.find? w.encode = some old)
    (hp : toPrune (some old.mergeFlag) w.mergeFlag = .ok .prune) :
    addOp ckp txnIds D op = .ok (pruneOpWithSamePrefix (D.erase w.encode) w.encode) := by
  simp only [addOp, hw, if_neg he, hn.dropCovered, hD, hp]

theorem addOp_merged (he : w.encode ≠ []) (hD : D.find? w.encode = some old)
    (hp : toPrune (some old.mergeFlag) w.mergeFlag = .ok flag) (hflag : flag ≠ .prune) (hm : old.merge w = .ok m) :
    addOp ckp txnIds D op = .ok
      ((if flag = .pruneSub then pruneOpWithSamePrefix D w.encode else D).modify w.encode m) := by
  cases flag with
  | prune => exact absurd rfl hflag
  | pruneSub | keep => simp only [addOp, hw, if_neg he, hn.dropCovered, hD, hp, hm]

variable (h : Consistent N D base retired) (hts : ckp < w.commitTs ∧ w.commitTs ≤ top)
  (hv : Valid N ⟨meaning N D base, retired⟩ n w)
include h hts hv

theorem addOp_spec_absent (hD : D.find? (N.encode n) = none) :
    ∃ D', addOp ckp txnIds D op = .ok D' ∧ Merges N D base retired ckp top w D' := by
  have he : w.encode ≠ [] := hv.encode ▸ N.encode_ne_nil n
  have hD' : D.find? w.encode = none := hv.encode ▸ hD
  have hcur : meaning N D base n = if Killed N D n then none else base n := by rw [meaning, hD]
  have hfind (k : Key) : (D.emplace w.encode w).find? k = if k = N.encode n then some w else D.find? k := by
    by_cases hk : k = N.encode n <;> simp [OrderedMap.find?_emplace, hv.encode, hD]
  have hnokill : ¬ ∃ o, D.find? (N.encode n) = some o ∧ o.Kills := by simp [hD]
  have hkeep (hp : toPrune none w.mergeFlag = .ok .keep) :
      addOp ckp txnIds D op = .ok (D.emplace w.encode w) := addOp_absent hw hn he hD' hp
  obtain ⟨hf, hnone, -, -⟩ | ⟨hf, ⟨o, ho, hof⟩⟩ | ⟨hf, -, hfil⟩ := hv.change
  · have hk : ¬ w.Kills := by simp [Kills, hf]
    refine ⟨_, hkeep (by rw [hf]; rfl), merges_of_set h hn hv hk hfind (iff_of_false hk hnokill) ?_
      (by simp [hf]) (by simp [result, hf]) hts⟩
    refine ⟨hv.encode, hv.type, hv.filter, by simp [hf], fun _ => ?_, by simp [hf], by simp [hf], by simp [hf]⟩
    by_cases hkill : Killed N D n
    · exact .inr hkill
    · exact .inl ((hcur.trans (if_neg hkill)).symm.trans hnone)
  · have hk : ¬ w.Kills := by simp [Kills, hf]
    have hkill : ¬ Killed N D n := fun hkill => absurd ((hcur.trans (if_pos hkill)).symm.trans ho) (by simp)
    have hbase : meaning N D base n = base n := hcur.trans (if_neg hkill)
    refine ⟨_, hkeep (by rw [hf]; rfl), merges_of_set h hn hv hk hfind (iff_of_false hk hnokill) ?_
      (by simp [hf]) (by rw [hbase]) hts⟩
    exact ⟨hv.encode, hv.type, hv.filter, by simp [hf], by simp [hf], fun _ => ⟨⟨o, hbase.symm.trans ho, hof⟩, hkill⟩,
      by simp [hf], by simp [hf]⟩
  · refine ⟨_, addOp_absent hw hn he hD' (by rw [hf]; rfl), merges_of_drop h hn hv hf (r := some w) ?_
      ⟨hf, hv.encode, hv.type, hv.filter⟩ fun m hm => ?_⟩
    · intro k
      rw [if_pos rfl, find?_prune, hfind, hv.encode]
    · cases hm
      exact hts

variable (hD : D.find? (N.encode n) = some old)
include hD

/-- The later operation is merged into the one in the map, and the entry stays. -/
theorem addOp_spec_set (flag : MergeFlag) (hk : ¬ w.Kills) (hp : toPrune (some old.mergeFlag) w.mergeFlag = .ok .keep)
    (hf : nextDeleteFlag old.mergeFlag w.mergeFlag = .ok flag) (hof : w.filter ≠ [] → old.filter = [])
    (hkills : (joined old w flag).Kills ↔ old.Kills) (hm : Fits N D base retired n (joined old w flag))
    (hnd : flag ≠ .delete) (hres : (joined old w flag).result (base n) = w.result (meaning N D base n)) :
    ∃ D', addOp ckp txnIds D op = .ok D' ∧ Merges N D base retired ckp top w D' := by
  have hF := h.fits n old hD
  have hmerge : old.merge w = .ok (joined old w flag) :=
    merge_eq_joined (hv.type.trans hF.type.symm) hf fun ho => ⟨hF.filter ho, not_not.mp (mt hof ho)⟩
  refine ⟨_, addOp_merged hw hn (hv.encode ▸ N.encode_ne_nil n) (hv.encode ▸ hD) hp (by decide) hmerge,
    merges_of_set h hn hv hk (m := joined old w flag) (fun k => ?_) ?_ hm hnd hres hts⟩
  · rw [if_neg (by decide), OrderedMap.find?_modify, hv.encode, hD]
    by_cases hk : k = N.encode n <;> simp [hk]
  · exact hkills.trans ⟨fun hk => ⟨old, hD, hk⟩, fun ⟨o, ho, hk⟩ => by
      rw [hD] at ho
      cases ho
      exact hk⟩

theorem addOp_spec_new (hf : w.mergeFlag = .new) (hnone : meaning N D base n = none)
    (hre : reusable w.type = false → ¬ retired n) :
    ∃ D', addOp ckp txnIds D op = .ok D' ∧ Merges N D base retired ckp top w D' := by
  have hF := h.fits n old hD
  have hcur : old.result (base n) = none := by rw [← hnone, meaning, hD]
  have hdel : old.mergeFlag = .delete := by
    cases hold : old.mergeFlag with
    | invalid => exact absurd hold hF.flag
    | delete => rfl
    | new | deleteAndNew => simp [result, hold] at hcur
    | update =>
      obtain ⟨⟨o, ho, -⟩, -⟩ := hF.update hold
      simp [result, hold, ho] at hcur
  have hreuse : reusable w.type = true := by
    by_contra hc
    exact hre (by simpa using hc) (hF.delete hdel).1
  have hnofilter : ¬ hasFilter w.type = true := fun hc => by
    simp [not_reusable_of_hasFilter hc] at hreuse
  have hold : old.filter = [] := by
    by_contra hc
    exact hnofilter (hv.type.trans hF.type.symm ▸ hF.filter hc)
  refine addOp_spec_set hw hn h hts hv hD .deleteAndNew (by simp [Kills, hf]) (by rw [hdel, hf]; rfl)
    (by rw [hdel, hf]; rfl) (fun _ => hold) ?_ ?_ (by decide) ?_
  · exact iff_of_true (.inr rfl) (.inl hdel)
  · exact fits_joined hF hv (by decide) (by simp) (by simp) (by decide) fun _ => hreuse
  · simp [result, hf, joined, object, hold]

theorem addOp_spec_update {o : Object π} (hf : w.mergeFlag = .update) (ho : meaning N D base n = some o)
    (hof : w.filter ≠ [] → o.filter = []) :
    ∃ D', addOp ckp txnIds D op = .ok D' ∧ Merges N D base retired ckp top w D' := by
  have hF := h.fits n old hD
  have hcur : old.result (base n) = some o := by rw [← ho, meaning, hD]
  have hnd : old.mergeFlag ≠ .delete := fun hd => by simp [result, hd] at hcur
  -- a filter that comes with the change comes to an entry without one
  have hof' (hne : w.filter ≠ []) : old.filter = [] ∧ (old.mergeFlag = .update → ∀ b, base n = some b → b.filter = []) := by
    have hnone := hof hne
    cases hold : old.mergeFlag with
    | invalid => exact absurd hold hF.flag
    | delete => exact absurd hold hnd
    | new | deleteAndNew =>
      obtain rfl : old.object = o := by simpa [result, hold] using hcur
      exact ⟨hnone, by simp⟩
    | update =>
      obtain ⟨⟨b, hb, -⟩, -⟩ := hF.update hold
      obtain rfl : old.updated b = o := by simpa [result, hold, hb] using hcur
      by_cases hofil : old.filter = []
      · exact ⟨hofil, fun _ b' hb' => by simpa [updated, hofil, Option.some.inj (hb.symm.trans hb')] using hnone⟩
      · simp [updated, hofil] at hnone
  have hflags : toPrune (some old.mergeFlag) w.mergeFlag = .ok .keep ∧
      nextDeleteFlag old.mergeFlag w.mergeFlag = .ok old.mergeFlag := by
    rw [hf]
    cases hold : old.mergeFlag with
    | invalid => exact absurd hold hF.flag
    | delete => exact absurd hold hnd
    | new | update | deleteAndNew => exact ⟨rfl, rfl⟩
  refine addOp_spec_set hw hn h hts hv hD old.mergeFlag (by simp [Kills, hf]) hflags.1 hflags.2
    (fun hne => (hof' hne).1) Iff.rfl ?_ hnd ?_
  · refine fits_joined hF hv hF.flag hF.new (fun hu => ?_) hnd fun hd => hv.type.trans hF.type.symm ▸ hF.deleteAndNew hd
    obtain ⟨⟨b, hb, hbf⟩, hk⟩ := hF.update hu
    refine ⟨⟨b, hb, fun hne => ?_⟩, hk⟩
    by_cases hofil : old.filter = []
    · exact (hof' (by simpa [joined, hofil] using hne)).2 hu b hb
    · exact hbf hofil
  · rw [ho, ← hcur, result_joined hnd hF.flag fun hne => (hof' hne).1]
    simp only [result.eq_def w, hf]

theorem addOp_spec_delete (hf : w.mergeFlag = .delete) (hne : meaning N D base n ≠ none) (hfil : w.filter = []) :
    ∃ D', addOp ckp txnIds D op = .ok D' ∧ Merges N D base retired ckp top w D' := by
  have hF := h.fits n old hD
  have hcur : old.result (base n) ≠ none := by rwa [meaning, hD] at hne
  have he : w.encode ≠ [] := hv.encode ▸ N.encode_ne_nil n
  have hD' : D.find? w.encode = some old := hv.encode ▸ hD
  have hmerged (hp : toPrune (some old.mergeFlag) w.mergeFlag = .ok .pruneSub)
      (hflag : nextDeleteFlag old.mergeFlag w.mergeFlag = .ok .delete) :
      ∃ D', addOp ckp txnIds D op = .ok D' ∧ Merges N D base retired ckp top w D' := by
    have hmerge : old.merge w = .ok (joined old w .delete) :=
      merge_eq_joined (hv.type.trans hF.type.symm) hflag fun ho => ⟨hF.filter ho, hfil⟩
    refine ⟨_, addOp_merged hw hn he hD' hp (by decide) hmerge,
      merges_of_drop h hn hv hf (r := some (joined old w .delete)) (fun k => ?_)
        ⟨rfl, hv.encode, hv.type, fun hne => ?_⟩ fun m hm => ?_⟩
    · rw [if_pos rfl, OrderedMap.find?_modify, find?_prune, find?_prune, hv.encode, hD]
      by_cases hk : k = N.encode n
      · subst hk
        simp [show ¬ Under (N.encode n) (N.encode n) from fun hu => hu.ne rfl]
      · simp [hk]
    · refine hv.type.trans hF.type.symm ▸ hF.filter fun ho => hne ?_
      simp [joined, ho, hfil]
    · cases hm
      exact hts
  cases hold : old.mergeFlag with
  | invalid => exact absurd hold hF.flag
  | delete => simp [result, hold] at hcur
  | update | deleteAndNew => exact hmerged (by rw [hold, hf]; rfl) (by rw [hold, hf]; rfl)
  | new =>
    refine ⟨_, addOp_pruned hw hn he hD' (by rw [hold, hf]; rfl),
      merges_of_drop h hn hv hf (r := none) (fun k => ?_) (hF.new hold) nofun⟩
    rw [find?_prune, OrderedMap.find?_erase, hv.encode]
    by_cases hk : k = N.encode n <;> simp [hk]

omit hD in
/-- **One round of merging.** An operation that is a change of the catalog the map means is
merged without error, and the map then means the catalog after the change. -/
theorem addOp_spec (txnIds : List Nat) :
    ∃ D', addOp ckp txnIds D op = .ok D' ∧ Merges N D base retired ckp top w D' := by
  cases hD : D.find? (N.encode n) with
  | none => exact addOp_spec_absent hw hn h hts hv hD
  | some old =>
    obtain ⟨hf, hnone, -, hre⟩ | ⟨hf, ⟨o, ho, hof⟩⟩ | ⟨hf, hne, hfil⟩ := hv.change
    · exact addOp_spec_new hw hn h hts hv hD hf hnone hre
    · exact addOp_spec_update hw hn h hts hv hD hf ho hof
    · exact addOp_spec_delete hw hn h hts hv hD hf hne hfil

end Round

theorem checkDelete_commitTs : op.checkDelete.commitTs = op.commitTs := by
  rw [checkDelete]
  split <;> rfl

theorem addOps_spec (txnIds : List Nat) {c c' : Catalog ν π} {ops : List (CatalogDeltaOperation π)}
    (hf : Follows N c ops c') (h : Consistent N D base c.retired) (hcur : meaning N D base = c.objects)
    (hd : Dated ckp top D) (hts : ∀ op ∈ ops, ckp < op.commitTs ∧ op.commitTs ≤ top) :
    ∃ D', addOps ckp txnIds D ops = .ok D' ∧ Consistent N D' base c'.retired ∧ meaning N D' base = c'.objects ∧
      Dated ckp top D' := by
  induction hf generalizing D with
  | nil c => exact ⟨D, rfl, h, hcur, hd⟩
  | @cons c c' n op ops valid rest ih =>
    obtain ⟨objects, retired⟩ := c
    obtain rfl : meaning N D base = objects := hcur
    have hop := hts op List.mem_cons_self
    rw [← checkDelete_commitTs] at hop
    obtain ⟨D', hadd, hc, hm, hd'⟩ := addOp_spec rfl hd h hop valid txnIds
    obtain ⟨D'', hadds, hrest⟩ := ih hc hm hd' fun o ho => hts o (List.mem_cons_of_mem _ ho)
    exact ⟨D'', by simp only [addOps, hadd, hadds], hrest⟩

end Merging

section Follows

open CatalogDeltaOperation

variable {N} {c c' : Catalog ν π} {ops ops' : List (CatalogDeltaOperation π)}

theorem Follows.append_iff : Follows N c (ops ++ ops') c' ↔ ∃ m, Follows N c ops m ∧ Follows N m ops' c' := by
  induction ops generalizing c with
  | nil =>
    constructor
    · exact fun h => ⟨c, .nil c, h⟩
    · rintro ⟨m, h, h'⟩
      cases h
      exact h'
  | cons op ops ih =>
    constructor
    · intro h
      cases h with
      | cons valid rest =>
        obtain ⟨m, h, h'⟩ := ih.mp rest
        exact ⟨m, .cons valid h, h'⟩
    · rintro ⟨m, h, h'⟩
      cases h with
      | cons valid rest => exact .cons valid (ih.mpr ⟨m, rest, h'⟩)

theorem Follows.unique {a b : Catalog ν π} (h : Follows N c ops a) (h' : Follows N c ops b) : a = b := by
  induction h with
  | nil c =>
    cases h'
    rfl
  | cons _ _ ih =>
    cases h' with
    | cons _ rest => exact ih rest

theorem Follows.objects (h : Follows N c ops c') :
    c'.objects = (ops.map CatalogDeltaOperation.checkDelete).foldl (load N) c.objects := by
  induction h with
  | nil c => rfl
  | cons valid rest ih => exact ih

theorem Valid.closed {n : ν} {op : CatalogDeltaOperation π} (h : Closed N c.objects) (hv : Valid N c n op) :
    Closed N (c.apply N op).objects := by
  intro a x hu hx
  have hencode (y : ν) : N.encode y = op.encode ↔ y = n := by rw [hv.encode, N.encode_injective.eq_iff]
  show load N c.objects op a ≠ none
  replace hx : load N c.objects op x ≠ none := hx
  simp only [load, hencode] at hx ⊢
  obtain ⟨hk, hthere, habove⟩ | hf : (¬ op.Kills ∧ op.result (c.objects n) ≠ none ∧
      ∀ a, Under (N.encode a) (N.encode n) → c.objects a ≠ none) ∨ op.mergeFlag = .delete := by
    obtain ⟨hf, -, habove, -⟩ | ⟨hf, ⟨o, ho, -⟩⟩ | ⟨hf, -, -⟩ := hv.change
    · exact .inl ⟨by simp [Kills, hf], by simp [result, hf], habove⟩
    · exact .inl ⟨by simp [Kills, hf], by simp [result, hf, ho], fun a hu => h a n hu (by simp [ho])⟩
    · exact .inr hf
  · by_cases ha : a = n
    · simpa [ha] using hthere
    · simp only [ha, hk] at hx ⊢
      by_cases hxn : x = n
      · exact habove a (hxn ▸ hu)
      · exact h a x hu (by simpa [hxn] using hx)
  · have hk : op.Kills := .inl hf
    by_cases hxn : x = n
    · simp [hxn, result, hf] at hx
    simp only [hxn, hk, true_and] at hx ⊢
    have hxu : ¬ Under op.encode (N.encode x) := fun hc => hx (if_pos hc)
    rw [if_neg hxu] at hx
    by_cases ha : a = n
    · rw [hv.encode, ← ha] at hxu
      exact absurd hu hxu
    rw [if_neg ha, if_neg fun hc => hxu (Under.trans hc hu)]
    exact h a x hu hx

theorem Follows.closed (hf : Follows N c ops c') (h : Closed N c.objects) : Closed N c'.objects := by
  induction hf with
  | nil c => exact h
  | cons valid rest ih => exact ih (valid.closed h)

end Follows

theorem meaning_empty (base : ν → Option (Object π)) : meaning N .empty base = base := by
  funext x
  simp [meaning, Killed]

theorem Consistent.empty {base : ν → Option (Object π)} (h : Closed N base) (retired : ν → Prop) :
    Consistent N .empty base retired :=
  ⟨h, fun _ _ hop => by simp at hop, fun _ _ hop => by simp at hop⟩

/-! ### Loading a file -/

section Loading

open GlobalCatalogDeltaEntry CatalogDeltaOperation

variable {N} {D : Ops π} {base : ν → Option (Object π)} {retired : ν → Prop}

section
variable (h : Consistent N D base retired)
include h

/-- Operations from the map, the outer ones first, loaded one after another. What has been
loaded of an entry is not dropped later, since whatever it stands in came before. -/
theorem foldl_load_sorted {L : List (CatalogDeltaOperation π)} (hmem : ∀ op ∈ L, D.find? op.encode = some op)
    (hs : L.Pairwise fun a b => a.type.code ≤ b.type.code ∧ a.encode ≠ b.encode) (x : ν) :
    (∀ op ∈ L, op.encode = N.encode x → L.foldl (load N) base x = op.result (base x)) ∧
      ((∀ op ∈ L, op.encode ≠ N.encode x) → L.foldl (load N) base x =
        if ∃ op ∈ L, op.Kills ∧ Under op.encode (N.encode x) then none else base x) := by
  induction L using List.reverseRecOn with
  | nil => simp
  | append_singleton L last ih =>
    obtain ⟨hs, -, hlast⟩ := List.pairwise_append.mp hs
    have hlast (op : CatalogDeltaOperation π) (hop : op ∈ L) : op.type.code ≤ last.type.code ∧ op.encode ≠ last.encode :=
      hlast op hop last (List.mem_singleton.mpr rfl)
    obtain ⟨ihin, ihout⟩ := ih (fun op hop => hmem op (List.mem_append_left _ hop)) hs
    have hD := hmem last (List.mem_append_right _ (List.mem_singleton.mpr rfl))
    obtain ⟨n, hn⟩ := h.named _ _ hD
    have hF := h.fits n last (hn ▸ hD)
    rw [List.foldl_append, List.foldl_cons, List.foldl_nil, load]
    simp only [List.mem_append, List.mem_singleton, or_imp, forall_and, forall_eq, or_and_right, exists_or,
      exists_eq_left]
    by_cases hx : N.encode x = last.encode
    · obtain rfl : x = n := N.encode_injective (hx.trans hn)
      have hnew (op : CatalogDeltaOperation π) (hop : op ∈ L) : op.encode ≠ N.encode x := hn ▸ (hlast op hop).2
      have hbefore : last.result (L.foldl (load N) base x) = last.result (base x) := by
        by_cases hup : last.mergeFlag = .update
        · rw [ihout hnew, if_neg]
          rintro ⟨op, hop, hk, hu⟩
          have hDop := hmem op (List.mem_append_left _ hop)
          obtain ⟨a, ha⟩ := h.named _ _ hDop
          exact (hF.update hup).2 ⟨a, op, ha ▸ hu, ha ▸ hDop, hk⟩
        · cases hlf : last.mergeFlag with
          | invalid => exact absurd hlf hF.flag
          | update => exact absurd hlf hup
          | delete | new | deleteAndNew => simp only [result, hlf]
      rw [if_pos hx, hbefore]
      exact ⟨⟨fun op hop he => absurd he (hnew op hop), fun _ => rfl⟩, fun hne => absurd hx.symm hne.2⟩
    · rw [if_neg hx]
      by_cases hk : last.Kills ∧ Under last.encode (N.encode x)
      · have hnew (op : CatalogDeltaOperation π) (hop : op ∈ L) : op.encode ≠ N.encode x := by
          intro he
          have hlt := N.type_lt n x (hn ▸ hk.2)
          have hDop := hmem op (List.mem_append_left _ hop)
          have hle := (hlast op hop).1
          rw [hF.type, (h.fits x op (he ▸ hDop)).type] at hle
          omega
        rw [if_pos hk]
        exact ⟨⟨fun op hop he => absurd he (hnew op hop), fun he => absurd he.symm hx⟩, fun _ => (if_pos (.inr hk)).symm⟩
      · rw [if_neg hk]
        refine ⟨⟨ihin, fun he => absurd he.symm hx⟩, fun hne => ?_⟩
        rw [ihout hne.1]
        exact if_congr (or_iff_left hk).symm rfl rfl

/-- The operations of a file: those of the map, the outer ones first. -/
def fileOps (D : Ops π) : List (CatalogDeltaOperation π) :=
  (D.entries.map Prod.snd).mergeSort fun a b => a.type.code ≤ b.type.code

theorem mem_fileOps (op : CatalogDeltaOperation π) : op ∈ fileOps D ↔ D.find? op.encode = some op := by
  rw [fileOps, List.mem_mergeSort, List.mem_map]
  constructor
  · rintro ⟨⟨k, b⟩, hk, rfl⟩
    have hD := (D.mem_entries k b).mp hk
    obtain ⟨n, rfl⟩ := h.named k b hD
    rwa [(h.fits n b hD).encode]
  · exact fun hD => ⟨(op.encode, op), (D.mem_entries _ _).mpr hD, rfl⟩

theorem fileOps_sorted : (fileOps D).Pairwise fun a b => a.type.code ≤ b.type.code ∧ a.encode ≠ b.encode := by
  refine List.Pairwise.and ?_ ?_
  · refine (List.pairwise_mergeSort (fun a b c hab hbc => ?_) (fun a b => ?_) _).imp of_decide_eq_true
    · exact decide_eq_true ((of_decide_eq_true hab).trans (of_decide_eq_true hbc))
    · simpa using le_total _ _
  · rw [fileOps, (List.mergeSort_perm _ _).pairwise_iff Ne.symm, List.pairwise_map]
    refine List.Pairwise.imp_of_mem (fun {a b} ha hb hab => ?_) D.sorted
    have key (e : Key × CatalogDeltaOperation π) (he : e ∈ D.entries) : e.2.encode = e.1 := by
      have hD := (D.mem_entries e.1 e.2).mp he
      obtain ⟨n, hn⟩ := h.named _ _ hD
      rw [hn, (h.fits n e.2 (hn ▸ hD)).encode]
    rw [key a ha, key b hb]
    exact hab.ne

/-- **A file does what the map meant.** -/
theorem foldl_load_eq : (fileOps D).foldl (load N) base = meaning N D base := by
  funext x
  obtain ⟨hin, hout⟩ := foldl_load_sorted h (fun op hop => (mem_fileOps h op).mp hop) (fileOps_sorted h) x
  rw [meaning]
  cases hD : D.find? (N.encode x) with
  | some op =>
    have he := (h.fits x op hD).encode
    exact hin op ((mem_fileOps h op).mpr (he ▸ hD)) he
  | none =>
    have hne (op : CatalogDeltaOperation π) (hop : op ∈ fileOps D) : op.encode ≠ N.encode x := by
      intro he
      have hop := (mem_fileOps h op).mp hop
      simp [he, hD] at hop
    rw [hout hne]
    refine if_congr ⟨?_, ?_⟩ rfl rfl
    · rintro ⟨op, hop, hk, hu⟩
      have hop := (mem_fileOps h op).mp hop
      obtain ⟨a, ha⟩ := h.named _ _ hop
      exact ⟨a, op, ha ▸ hu, ha ▸ hop, hk⟩
    · rintro ⟨a, op, hu, hop, hk⟩
      have he := (h.fits a op hop).encode
      exact ⟨op, (mem_fileOps h op).mpr (he ▸ hop), hk, he ▸ hu⟩

end

end Loading

end Infinity.Wal.Delta
