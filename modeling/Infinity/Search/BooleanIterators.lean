import Infinity.Lib.Cursor
import Infinity.Lib.Lists

/-! The and, and-not and must-first iterators of full-text search.

An iterator over documents is moved by `Next(doc_id)` and stands at `DocID()`, which is
`INVALID_ROWID` before the first call and after the last document. The iterators here move
their children and are stated for children of any kind. If the children are cursors over sets
of documents, these are cursors over the intersection, the difference and the first set. -/
namespace Infinity.Search

open Lib Lib.Cursor List

/-- `INVALID_ROWID`; row ids are numbers of 64 bits. -/
def invalidRowId : Nat := 2 ^ 64 - 1

/-- `doc_id_` and `children_` -/
structure Node (σ : Type) where
  docId : Nat
  children : List σ

section Iterators

variable {σ : Type} (next : σ → Nat → σ) (docId : σ → Nat)

/-! ### Definitions -/

/-- One pass of `AndIterator::Next` over the children: the new target, or none where a child has
come to its end. -/
def andPass : List σ → Nat → Option Nat × List σ
  | [], target => (some target, [])
  | c :: cs, target =>
    let c := next c target
    if docId c = invalidRowId then (none, c :: cs)
    else
      let (target, cs) := andPass cs (docId c)
      (target, c :: cs)

def andLoop : Nat → List σ → Nat → Node σ
  | 0, cs, _ => ⟨invalidRowId, cs⟩
  | rounds + 1, cs, target =>
    match andPass next docId cs target with
    | (none, cs) => ⟨invalidRowId, cs⟩
    | (some target, cs) => if cs.head?.map docId = some target then ⟨target, cs⟩ else andLoop rounds cs target

/-- `AndIterator::Next` with threshold zero. Every round raises the target. -/
def andNext (n : Node σ) (target : Nat) : Node σ :=
  if n.docId ≠ invalidRowId ∧ target ≤ n.docId then n
  else andLoop next docId (invalidRowId - target + 1) n.children target

/-- The loop over the excluded children; it stops at one that stands at the document. -/
def anyAt : List σ → Nat → Bool × List σ
  | [], _ => (false, [])
  | c :: cs, doc =>
    let c := next c doc
    if docId c = doc then (true, c :: cs)
    else
      let (found, cs) := anyAt cs doc
      (found, c :: cs)

def andNotLoop : Nat → σ → List σ → Nat → Node σ
  | 0, c, cs, _ => ⟨invalidRowId, c :: cs⟩
  | rounds + 1, c, cs, target =>
    let c := next c target
    if docId c = invalidRowId then ⟨invalidRowId, c :: cs⟩
    else
      match anyAt next docId cs (docId c) with
      | (true, cs) => andNotLoop rounds c cs (docId c + 1)
      | (false, cs) => ⟨docId c, c :: cs⟩

/-- `AndNotIterator::Next` -/
def andNotNext (n : Node σ) (target : Nat) : Node σ :=
  match n.children with
  | [] => n
  | c :: cs => andNotLoop next docId (invalidRowId - target + 1) c cs target

/-- `MustFirstIterator::Next` -/
def mustFirstNext (n : Node σ) (target : Nat) : Node σ :=
  match n.children with
  | [] => n
  | c :: cs =>
    let c := next c target
    if docId c = invalidRowId then ⟨invalidRowId, c :: cs⟩
    else ⟨docId c, c :: cs.map fun c' => next c' (docId c)⟩

/-! ### The and iterator -/

variable {next docId} {Ss : List (Nat → Prop)} {cs : List σ} {t d : Nat} {S : Nat → Prop}

/-- The members of all the sets. -/
def Common (Ss : List (Nat → Prop)) (x : Nat) : Prop := ∀ S ∈ Ss, S x

/-- One child has come to its end, and the others are cursors. -/
inductive Stuck (next : σ → Nat → σ) (docId : σ → Nat) : List (Nat → Prop) → List σ → Prop
  | here {S Ss c cs} (h : ∃ t, StandsAt invalidRowId next docId S t c) (hend : docId c = invalidRowId)
      (rest : List.Forall₂ (Alive invalidRowId next docId) Ss cs) : Stuck next docId (S :: Ss) (c :: cs)
  | there {S Ss c cs} (h : Alive invalidRowId next docId S c) (rest : Stuck next docId Ss cs) :
      Stuck next docId (S :: Ss) (c :: cs)

theorem Stuck.alive (h : Stuck next docId Ss cs) : Forall₂ (Alive invalidRowId next docId) Ss cs := by
  induction h with
  | here h _ rest => exact .cons (.inr h) rest
  | there h _ ih => exact .cons h ih

theorem andPass_stuck (h : Stuck next docId Ss cs) (hd : d ≤ invalidRowId) :
    ∃ cs', andPass next docId cs d = (none, cs') ∧ Stuck next docId Ss cs' := by
  induction h generalizing d with
  | @here S Ss c cs h hend rest =>
    obtain ⟨t, h⟩ := h
    obtain ⟨hpos, h'⟩ := h.stay (d := d) (hend ▸ hd)
    refine ⟨next c d :: cs, ?_, .here ⟨t, h'⟩ (hpos.trans hend) rest⟩
    exact if_pos (hpos.trans hend)
  | @there S Ss c cs h rest ih =>
    obtain ⟨t, h'⟩ := h.ask hd
    rw [andPass]
    by_cases hend : docId (next c d) = invalidRowId
    · exact ⟨next c d :: cs, if_pos hend, .here ⟨t, h'⟩ hend rest.alive⟩
    · obtain ⟨cs', hpass, hstuck⟩ := ih h'.first.le_last
      refine ⟨next c d :: cs', ?_, .there (.inr ⟨t, h'⟩) hstuck⟩
      rw [if_neg hend, hpass]

/-- The children after a pass that went through. -/
structure Passed (next : σ → Nat → σ) (docId : σ → Nat) (t t' : Nat) (S : Nat → Prop) (c : σ) : Prop where
  stands : ∃ t₁, StandsAt invalidRowId next docId S t₁ c
  from_le : t ≤ docId c
  le : docId c ≤ t'

/-- What a pass does with children that were not asked beyond its target. -/
theorem andPass_spec (h : Forall₂ (UpTo invalidRowId next docId · t ·) Ss cs) (ht : t ≤ invalidRowId) :
    (∃ cs', andPass next docId cs t = (none, cs') ∧ Stuck next docId Ss cs' ∧
      ∀ x, Common Ss x → t ≤ x → invalidRowId ≤ x) ∨
    (∃ t' cs', andPass next docId cs t = (some t', cs') ∧ t ≤ t' ∧ (cs ≠ [] → t' < invalidRowId) ∧
      Forall₂ (Passed next docId t t') Ss cs' ∧ (∀ c ∈ cs'.head?, ∀ c' ∈ cs', docId c ≤ docId c') ∧
      ∀ x, Common Ss x → t ≤ x → t' ≤ x) := by
  induction cs generalizing t Ss with
  | nil =>
    cases h
    exact .inr ⟨t, [], rfl, le_refl t, fun hne => absurd rfl hne, .nil, by simp, fun x _ hx => hx⟩
  | cons c cs ih =>
    obtain - | @⟨S, _, Ss, _, hc, hcs⟩ := h
    have hstands := hc.ask ht
    have hfirst := hstands.first
    rw [andPass]
    by_cases hend : docId (next c t) = invalidRowId
    · refine .inl ⟨next c t :: cs, if_pos hend, .here ⟨t, hstands⟩ hend (hcs.imp fun _ _ h => h.alive), ?_⟩
      intro x hx htx
      exact hend ▸ hfirst.least x (hx S mem_cons_self) htx
    have hcs' := hcs.imp fun _ _ h => h.mono hfirst.from_le
    have hcommon (x : Nat) (hx : Common (S :: Ss) x) (htx : t ≤ x) : Common Ss x ∧ docId (next c t) ≤ x :=
      ⟨fun S' hS' => hx S' (mem_cons_of_mem _ hS'), hfirst.least x (hx S mem_cons_self) htx⟩
    rw [if_neg hend]
    rcases ih hcs' hfirst.le_last with ⟨cs', hpass, hstuck, hnone⟩ | ⟨t', cs', hpass, hle, hlt, hpassed, _, hleast⟩
    · refine .inl ⟨next c t :: cs', by rw [hpass], .there (.inr ⟨t, hstands⟩) hstuck, fun x hx htx => ?_⟩
      exact hnone x (hcommon x hx htx).1 (hcommon x hx htx).2
    refine .inr ⟨t', next c t :: cs', by rw [hpass], hfirst.from_le.trans hle, fun _ => ?_,
      .cons ⟨⟨t, hstands⟩, hfirst.from_le, hle⟩ (hpassed.imp fun _ _ h => ⟨h.stands, hfirst.from_le.trans h.from_le, h.le⟩),
      ?_, fun x hx htx => hleast x (hcommon x hx htx).1 (hcommon x hx htx).2⟩
    · cases cs with
      | nil =>
        cases hpass
        exact lt_of_le_of_ne hfirst.le_last hend
      | cons c' cs => exact hlt (cons_ne_nil _ _)
    · intro c₀ hc₀ c' hc'
      obtain rfl : next c t = c₀ := by simpa using hc₀
      rcases mem_cons.mp hc' with rfl | hc'
      · exact le_refl _
      · obtain ⟨S', -, hS'⟩ := forall₂_exists_left hpassed hc'
        exact hS'.from_le

/-- A node at the first common document from `t` on, with its children there; at the end they are
stuck. -/
structure AndAt (next : σ → Nat → σ) (docId : σ → Nat) (Ss : List (Nat → Prop)) (t : Nat) (n : Node σ) : Prop where
  first : FirstFrom invalidRowId (Common Ss) t n.docId
  stuck : n.docId = invalidRowId → Stuck next docId Ss n.children
  together : n.docId ≠ invalidRowId →
    List.Forall₂ (fun S c => docId c = n.docId ∧ ∃ t₁, StandsAt invalidRowId next docId S t₁ c) Ss n.children

theorem andLoop_spec (rounds : Nat) (hne : cs ≠ []) (h : Forall₂ (UpTo invalidRowId next docId · t ·) Ss cs)
    (ht : t ≤ invalidRowId) (hrounds : invalidRowId - t < rounds) :
    AndAt next docId Ss t (andLoop next docId rounds cs t) := by
  induction rounds generalizing cs t with
  | zero => omega
  | succ rounds ih =>
    rw [andLoop]
    rcases andPass_spec h ht with ⟨cs', hpass, hstuck, hnone⟩ |
      ⟨t', cs', hpass, hle, hlt, hpassed, hhead, hleast⟩
    · rw [hpass]
      exact ⟨⟨.inl rfl, le_refl _, ht, hnone⟩, fun _ => hstuck, fun hno => absurd rfl hno⟩
    rw [hpass]
    have hlt := hlt hne
    have hne' : cs' ≠ [] := fun hnil => hne (length_eq_zero_iff.mp
      (h.length_eq.symm.trans (hpassed.length_eq.trans (by rw [hnil]; rfl))))
    obtain ⟨c₀, cs₀, rfl⟩ := exists_cons_of_ne_nil hne'
    have hc₀ := hhead c₀ rfl
    show AndAt next docId Ss t (if some (docId c₀) = some t' then _ else _)
    by_cases heq : docId c₀ = t'
    · -- the children stand together: the first one is the lowest and the target the highest
      rw [if_pos (congrArg some heq)]
      have hall (S : Nat → Prop) (c : σ) (hc : c ∈ c₀ :: cs₀) (hp : Passed next docId t t' S c) :
          docId c = t' := le_antisymm hp.le (heq ▸ hc₀ c hc)
      refine ⟨⟨.inr fun S hS => ?_, hlt.le, hle, hleast⟩, fun hend => absurd hend hlt.ne, fun _ => ?_⟩
      · obtain ⟨c, hc, hp⟩ := forall₂_exists_right hpassed hS
        obtain ⟨t₁, hstands⟩ := hp.stands
        rcases hstands.first.mem with hend | hmem
        · exact absurd (hall S c hc hp ▸ hend) hlt.ne
        · exact hall S c hc hp ▸ hmem
      · exact forall₂_imp_mem hpassed fun S c _ hc hp => ⟨hall S c hc hp, hp.stands⟩
    · rw [if_neg fun hsome => heq (Option.some.inj hsome)]
      have hlow : t < t' := by
        obtain ⟨S, hS, hp⟩ := forall₂_exists_left hpassed mem_cons_self
        have hfrom := hp.from_le
        have hto := hp.le
        omega
      have hupTo : Forall₂ (UpTo invalidRowId next docId · t' ·) Ss (c₀ :: cs₀) :=
        hpassed.imp fun S c hp => by
          obtain ⟨t₁, hstands⟩ := hp.stands
          exact .of_standsAt hstands (hstands.first.from_le.trans hp.le)
      have hnext := ih hne' hupTo hlt.le (by omega)
      refine ⟨⟨hnext.first.mem, hnext.first.le_last, hle.trans hnext.first.from_le, fun x hx htx => ?_⟩,
        hnext.stuck, hnext.together⟩
      exact hnext.first.least x hx (hleast x hx htx)

theorem andAt_isCursor (hne : Ss ≠ []) :
    IsCursor invalidRowId (andNext next docId) Node.docId (Common Ss) (AndAt next docId Ss) := by
  refine ⟨fun t n h => h.first, fun t n d h hd => ?_, fun t n d h hd hlast => ?_⟩
  · by_cases hend : n.docId = invalidRowId
    · obtain ⟨cs', hpass, hstuck⟩ := andPass_stuck (h.stuck hend) (hend ▸ hd)
      have hnext : andNext next docId n d = ⟨invalidRowId, cs'⟩ := by
        rw [andNext, if_neg fun hno => hno.1 hend, andLoop, hpass]
      rw [hnext]
      exact ⟨hend.symm, hend ▸ h.first, fun _ => hstuck, fun hno => absurd rfl hno⟩
    · rw [andNext, if_pos ⟨hend, hd⟩]
      exact ⟨rfl, h⟩
  · have htogether := h.together (by omega)
    have hchildren : n.children ≠ [] := fun hnil => hne (length_eq_zero_iff.mp
      (htogether.length_eq.trans (by rw [hnil]; rfl)))
    rw [andNext, if_neg fun hle => absurd hle.2 (by omega)]
    refine andLoop_spec _ hchildren (htogether.imp fun S c hc => ?_) hlast (by omega)
    obtain ⟨heq, t₁, hstands⟩ := hc
    exact .of_standsAt hstands (by
      have hfrom := hstands.first.from_le
      omega)

/-- Over fresh cursors the and iterator is a fresh cursor over the intersection. -/
theorem andNext_fresh (hne : Ss ≠ []) (h : Forall₂ (Fresh invalidRowId next docId) Ss cs) :
    Fresh invalidRowId (andNext next docId) Node.docId (Common Ss) ⟨invalidRowId, cs⟩ := by
  refine ⟨rfl, fun d hd => ⟨_, andAt_isCursor hne, ?_⟩⟩
  have hchildren : cs ≠ [] := fun hnil => hne (length_eq_zero_iff.mp
    (h.length_eq.trans (by rw [hnil]; rfl)))
  exact andLoop_spec _ hchildren (h.imp fun _ _ hc => .inl hc) hd (by omega)

/-! ### The and-not iterator -/

/-- The members of the first set that are in none of the others. -/
def Without (S : Nat → Prop) (Ss : List (Nat → Prop)) (x : Nat) : Prop := S x ∧ ∀ S' ∈ Ss, ¬ S' x

/-- A cursor beyond a document that it was asked for. -/
def Beyond (next : σ → Nat → σ) (docId : σ → Nat) (doc : Nat) (S : Nat → Prop) (c : σ) : Prop :=
  StandsAt invalidRowId next docId S doc c ∧ docId c ≠ doc

theorem Beyond.not_mem {doc : Nat} {c : σ} (h : Beyond next docId doc S c) : ¬ S doc := fun hmem =>
  h.2 (le_antisymm (h.1.first.least doc hmem (le_refl doc)) h.1.first.from_le)

theorem anyAt_spec {doc : Nat} (h : Forall₂ (UpTo invalidRowId next docId · doc ·) Ss cs) (hdoc : doc < invalidRowId) :
    (∃ cs', anyAt next docId cs doc = (true, cs') ∧ (∃ S ∈ Ss, S doc) ∧
      Forall₂ (UpTo invalidRowId next docId · doc ·) Ss cs') ∨
    (∃ cs', anyAt next docId cs doc = (false, cs') ∧ Forall₂ (Beyond next docId doc) Ss cs') := by
  induction h with
  | nil => exact .inr ⟨[], rfl, .nil⟩
  | @cons S c Ss cs hc hcs ih =>
    have hstands := hc.ask hdoc.le
    rw [anyAt]
    by_cases hat : docId (next c doc) = doc
    · refine .inl ⟨next c doc :: cs, if_pos hat, ⟨S, mem_cons_self, ?_⟩, .cons (.of_standsAt hstands (le_refl doc)) hcs⟩
      rcases hstands.first.mem with hend | hmem
      · omega
      · exact hat ▸ hmem
    · rw [if_neg hat]
      rcases ih with ⟨cs', hany, ⟨S', hS', hmem⟩, hcs'⟩ | ⟨cs', hany, hcs'⟩
      · exact .inl ⟨next c doc :: cs', by rw [hany], ⟨S', mem_cons_of_mem _ hS', hmem⟩,
          .cons (.of_standsAt hstands (le_refl doc)) hcs'⟩
      · exact .inr ⟨next c doc :: cs', by rw [hany], .cons ⟨hstands, hat⟩ hcs'⟩

/-- A node at the first document from `t` on that is in the first set and not in the others. -/
structure AndNotAt (next : σ → Nat → σ) (docId : σ → Nat) (S : Nat → Prop) (Ss : List (Nat → Prop)) (t : Nat)
    (n : Node σ) : Prop where
  first : FirstFrom invalidRowId (Without S Ss) t n.docId
  children : ∃ c cs, n.children = c :: cs ∧ docId c = n.docId ∧ (∃ t₁, StandsAt invalidRowId next docId S t₁ c) ∧
    (n.docId ≠ invalidRowId → List.Forall₂ (Beyond next docId n.docId) Ss cs)

theorem andNotLoop_spec (rounds : Nat) {c : σ} (hc : UpTo invalidRowId next docId S t c)
    (h : Forall₂ (UpTo invalidRowId next docId · t ·) Ss cs) (ht : t ≤ invalidRowId)
    (hrounds : invalidRowId - t < rounds) :
    AndNotAt next docId S Ss t (andNotLoop next docId rounds c cs t) := by
  induction rounds generalizing c cs t with
  | zero => omega
  | succ rounds ih =>
    have hstands := hc.ask ht
    have hfirst := hstands.first
    rw [andNotLoop]
    by_cases hend : docId (next c t) = invalidRowId
    · rw [if_pos hend]
      refine ⟨⟨.inl rfl, le_refl _, ht, fun x hx htx => ?_⟩, _, cs, rfl, hend, ⟨t, hstands⟩, fun hno => absurd rfl hno⟩
      exact hend ▸ hfirst.least x hx.1 htx
    have hlt : docId (next c t) < invalidRowId := lt_of_le_of_ne hfirst.le_last hend
    have hmem : S (docId (next c t)) := hfirst.mem.resolve_left hend
    rw [if_neg hend]
    rcases anyAt_spec (h.imp fun _ _ hc => hc.mono hfirst.from_le) hlt with
      ⟨cs', hany, ⟨S', hS', hmem'⟩, hcs'⟩ | ⟨cs', hany, hcs'⟩
    · rw [hany]
      have hnext := ih (c := next c t) (t := docId (next c t) + 1)
        (.of_standsAt hstands (hfirst.from_le.trans (Nat.le_succ _)))
        (hcs'.imp fun _ _ hc => hc.mono (Nat.le_succ _)) hlt
        (by have hfrom := hfirst.from_le; omega)
      refine ⟨⟨hnext.first.mem, hnext.first.le_last, ?_, fun x hx htx => ?_⟩, hnext.children⟩
      · exact hfirst.from_le.trans ((Nat.le_succ _).trans hnext.first.from_le)
      · refine hnext.first.least x hx (Nat.succ_le_of_lt (lt_of_le_of_ne (hfirst.least x hx.1 htx) ?_))
        rintro rfl
        exact hx.2 S' hS' hmem'
    · rw [hany]
      refine ⟨⟨.inr ⟨hmem, fun S' hS' => ?_⟩, hlt.le, hfirst.from_le, fun x hx => hfirst.least x hx.1⟩,
        _, cs', rfl, rfl, ⟨t, hstands⟩, fun _ => hcs'⟩
      obtain ⟨c', -, hbeyond⟩ := forall₂_exists_right hcs' hS'
      exact hbeyond.not_mem

theorem andNotAt_isCursor :
    IsCursor invalidRowId (andNotNext next docId) Node.docId (Without S Ss) (AndNotAt next docId S Ss) := by
  refine ⟨fun t n h => h.first, fun t n d h hd => ?_, fun t n d h hd hlast => ?_⟩
  · obtain ⟨c, cs, hchildren, hpos, ⟨t₁, hstands⟩, hbeyond⟩ := h.children
    obtain ⟨hstay, hstands'⟩ := hstands.stay (d := d) (hpos ▸ hd)
    rw [andNotNext, hchildren]
    show Node.docId (andNotLoop next docId (invalidRowId - d + 1) c cs d) = _ ∧
      AndNotAt next docId S Ss t (andNotLoop next docId (invalidRowId - d + 1) c cs d)
    rw [andNotLoop, hstay, hpos]
    by_cases hend : n.docId = invalidRowId
    · rw [if_pos hend]
      exact ⟨hend.symm, hend ▸ h.first, _, cs, rfl, hstay.trans (hpos.trans hend), ⟨t₁, hstands'⟩,
        fun hno => absurd rfl hno⟩
    have hlt : n.docId < invalidRowId := lt_of_le_of_ne h.first.le_last hend
    have hcs := hbeyond hend
    rw [if_neg hend]
    rcases anyAt_spec (hcs.imp fun _ _ hc => .of_standsAt hc.1 (le_refl _)) hlt with
      ⟨cs', hany, ⟨S', hS', hmem⟩, -⟩ | ⟨cs', hany, hcs'⟩
    · obtain ⟨c', -, hc'⟩ := forall₂_exists_right hcs hS'
      exact absurd hmem hc'.not_mem
    rw [hany]
    exact ⟨rfl, h.first, _, cs', rfl, hstay.trans hpos, ⟨t₁, hstands'⟩, fun _ => hcs'⟩
  · obtain ⟨c, cs, hchildren, hpos, ⟨t₁, hstands⟩, hbeyond⟩ := h.children
    have hfrom := hstands.first.from_le
    rw [andNotNext, hchildren]
    exact andNotLoop_spec _ (.of_standsAt hstands (by omega))
      ((hbeyond (by omega)).imp fun _ _ hc => .of_standsAt hc.1 hd.le) hlast (by omega)

/-- Over fresh cursors the and-not iterator is a fresh cursor over the difference. -/
theorem andNotNext_fresh {c : σ} (hc : Fresh invalidRowId next docId S c)
    (h : Forall₂ (Fresh invalidRowId next docId) Ss cs) :
    Fresh invalidRowId (andNotNext next docId) Node.docId (Without S Ss) ⟨invalidRowId, c :: cs⟩ :=
  ⟨rfl, fun _ hd => ⟨_, andNotAt_isCursor, andNotLoop_spec _ (.inl hc) (h.imp fun _ _ hc => .inl hc) hd (by omega)⟩⟩

/-! ### The must-first iterator -/

/-- A node that stands where its first child does. -/
structure MustFirstAt (next : σ → Nat → σ) (docId : σ → Nat) (S : Nat → Prop) (Ss : List (Nat → Prop)) (t : Nat)
    (n : Node σ) : Prop where
  children : ∃ c cs, n.children = c :: cs ∧ docId c = n.docId ∧ StandsAt invalidRowId next docId S t c ∧
    List.Forall₂ (Alive invalidRowId next docId) Ss cs

theorem mustFirst_step {c : σ} (hc : StandsAt invalidRowId next docId S t (next c d))
    (h : Forall₂ (Alive invalidRowId next docId) Ss cs) {doc : Nat} :
    (mustFirstNext next docId ⟨doc, c :: cs⟩ d).docId = docId (next c d) ∧
      MustFirstAt next docId S Ss t (mustFirstNext next docId ⟨doc, c :: cs⟩ d) := by
  have hnext : mustFirstNext next docId ⟨doc, c :: cs⟩ d =
      if docId (next c d) = invalidRowId then ⟨invalidRowId, next c d :: cs⟩
      else ⟨docId (next c d), next c d :: cs.map fun c' => next c' (docId (next c d))⟩ := rfl
  rw [hnext]
  by_cases hend : docId (next c d) = invalidRowId
  · rw [if_pos hend]
    exact ⟨hend.symm, _, cs, rfl, hend, hc, h⟩
  rw [if_neg hend]
  refine ⟨rfl, _, _, rfl, rfl, hc, ?_⟩
  rw [forall₂_map_right_iff]
  exact h.imp fun _ _ hc' => .inr (hc'.ask hc.first.le_last)

theorem mustFirstAt_isCursor :
    IsCursor invalidRowId (mustFirstNext next docId) Node.docId S (MustFirstAt next docId S Ss) := by
  constructor
  · rintro t n ⟨c, cs, -, hpos, hstands, -⟩
    exact hpos ▸ hstands.first
  · rintro t ⟨doc, _⟩ d ⟨c, cs, rfl, hpos, hstands, hcs⟩ hd
    obtain ⟨hstay, hstands'⟩ := hstands.stay (d := d) (hpos ▸ hd)
    obtain ⟨heq, hnext⟩ := mustFirst_step hstands' hcs
    exact ⟨heq.trans (hstay.trans hpos), hnext⟩
  · rintro t ⟨doc, _⟩ d ⟨c, cs, rfl, hpos, hstands, hcs⟩ hd hlast
    exact (mustFirst_step (hstands.move (hpos ▸ hd) hlast) hcs).2

/-- Over fresh cursors the must-first iterator is a fresh cursor over the first set. -/
theorem mustFirstNext_fresh {c : σ} (hc : Fresh invalidRowId next docId S c)
    (h : Forall₂ (Fresh invalidRowId next docId) Ss cs) :
    Fresh invalidRowId (mustFirstNext next docId) Node.docId S ⟨invalidRowId, c :: cs⟩ :=
  ⟨rfl, fun d hd => ⟨_, mustFirstAt_isCursor, (mustFirst_step (hc.start d hd) (h.imp fun _ _ hc => .inl hc)).2⟩⟩

end Iterators
end Infinity.Search
