import Mathlib

/-! The local computations of building an HNSW graph.

What a thread that inserts a vertex computes between two locks: how a layer search
takes in the neighbours of one vertex, which neighbours are selected from a search
result, and how a full neighbour list is cut down. Distances are any function of two
vertices into a linear order. The lemmas say which vertices come out, not how near
they are: every vertex in a result was put in, none comes out twice, and a selection
is short and not empty. -/
namespace Infinity.Hnsw

open List

variable {D : Type} [LinearOrder D]

/-- The parameters of an index; `layer` is the layer that each vertex draws. -/
structure Config (D : Type) where
  curVecNum : Nat
  m : Nat
  efConstruction : Nat
  layer : Nat → Nat
  dist : Nat → Nat → D
  m_pos : 0 < m
  ef_pos : 0 < efConstruction

/-- `Mmax0` on layer 0 and `Mmax` above it (`GetMmax`). -/
def Config.mmax (cfg : Config D) (layer : Nat) : Nat := if layer = 0 then 2 * cfg.m else cfg.m

/-! ### Searching a layer -/

/-- `CompareMax::Compare`: which of two results goes first when there is no room. -/
def farther (a b : D × Nat) : Bool := decide (b.1 < a.1) || (decide (a.1 = b.1) && decide (b.2 < a.2))

/-- The top of `HeapResultHandler` once it is full. -/
def farthest : List (D × Nat) → Option (D × Nat)
  | [] => none
  | p :: l =>
    match farthest l with
    | none => some p
    | some q => if farther q p then some q else some p

/-- The top of the candidate heap. -/
def nearest : List (D × Nat) → Option (D × Nat)
  | [] => none
  | p :: l =>
    match nearest l with
    | none => some p
    | some q => if q.1 < p.1 then some q else some p

/-- The state of `SearchLayer`: the candidate heap, the result handler and the marks. -/
structure Search (D : Type) where
  candidate : List (D × Nat)
  result : List (D × Nat)
  visited : List Nat

/-- `HeapResultHandler::AddResult`. -/
def addResult (ef : Nat) (result : List (D × Nat)) (p : D × Nat) : List (D × Nat) :=
  if result.length = ef then
    match farthest result with
    | some q => if farther q p then p :: result.erase q else result
    | none => result
  else p :: result

/-- The loop of `SearchLayer` at its first turn: the enter point is the only candidate
and has just been popped. -/
def Search.start (cfg : Config D) (v ep : Nat) : Search D :=
  {candidate := [], result := addResult cfg.efConstruction [] (cfg.dist v ep, ep), visited := [ep]}

/-- One neighbour of the vertex being expanded. -/
def Search.visit (cfg : Config D) (v : Nat) (s : Search D) (n : Nat) : Search D :=
  if cfg.curVecNum ≤ n ∨ n ∈ s.visited then s
  else
    let d := cfg.dist v n
    if s.result.length < cfg.efConstruction ∨ (∀ q ∈ farthest s.result, d ≤ q.1) then
      {candidate := (d, n) :: s.candidate, result := addResult cfg.efConstruction s.result (d, n),
        visited := n :: s.visited}
    else {s with visited := n :: s.visited}

/-- The neighbours of the vertex being expanded, last one first. -/
def Search.expand (cfg : Config D) (v : Nat) (s : Search D) (neighbors : List Nat) : Search D :=
  neighbors.reverse.foldl (Search.visit cfg v) s

/-- The next vertex to expand, or nothing when the search is over. -/
def Search.pop (cfg : Config D) (s : Search D) : Option (Nat × Search D) :=
  match nearest s.candidate with
  | none => none
  | some c =>
    if s.result.length = cfg.efConstruction ∧ (∃ q ∈ farthest s.result, q.1 < c.1) then none
    else some (c.2, {s with candidate := s.candidate.erase c})

/-- One neighbour in the loop of `SearchLayerNearest`. -/
def closerStep (cfg : Config D) (v : Nat) (r : Nat × Bool) (n : Nat) : Nat × Bool :=
  if cfg.dist v n < cfg.dist v r.1 then (n, true) else r

/-- The loop of `SearchLayerNearest` over one list: the vertex to go on with and `check`. -/
def closer (cfg : Config D) (v cur : Nat) (neighbors : List Nat) : Nat × Bool :=
  neighbors.reverse.foldl (closerStep cfg v) (cur, false)

/-! ### Selecting neighbours -/

/-- The loop of `SelectNeighborsHeuristic`, over the candidates from the nearest on. -/
def keepDiverse (cfg : Config D) (m : Nat) : List (D × Nat) → List Nat → List Nat
  | [], result => result
  | c :: cs, result =>
    if result.length < m then
      if result.all (fun r => !decide (cfg.dist c.2 r < c.1)) then keepDiverse cfg m cs (result ++ [c.2])
      else keepDiverse cfg m cs result
    else result

/-- `SelectNeighborsHeuristic`, farthest first. -/
def selectNeighbors (cfg : Config D) (candidates : List (D × Nat)) (m : Nat) : List Nat :=
  let sorted := candidates.mergeSort (fun a b => decide (a.1 ≤ b.1))
  if candidates.length < m then (sorted.map Prod.snd).reverse else (keepDiverse cfg m sorted []).reverse

/-- What `ConnectNeighbors` makes of the list of a neighbour `n` of `v`. -/
def connectOne (cfg : Config D) (v n layer : Nat) (list : List Nat) : List Nat :=
  if list.length < cfg.mmax layer then list ++ [v]
  else selectNeighbors cfg ((cfg.dist n v, v) :: list.map fun u => (cfg.dist n u, u)) (cfg.mmax layer)

/-! ### What comes out -/

theorem nearest_mem {l : List (D × Nat)} {q : D × Nat} (h : nearest l = some q) : q ∈ l := by
  induction l with
  | nil => cases h
  | cons p l ih =>
    rw [nearest] at h
    split at h
    · cases h
      exact mem_cons_self ..
    rename_i q' hq'
    split at h
    · cases h
      exact mem_cons_of_mem _ (ih hq')
    · cases h
      exact mem_cons_self ..

/-- The vertices of a list of results. -/
def ids (l : List (D × Nat)) : List Nat := l.map Prod.snd

omit [LinearOrder D] in
theorem mem_ids {l : List (D × Nat)} {u : Nat} : u ∈ ids l ↔ ∃ d, (d, u) ∈ l := by
  simp [ids]

theorem addResult_sublist (ef : Nat) (result : List (D × Nat)) (p : D × Nat) :
    (addResult ef result p).Sublist (p :: result) := by
  unfold addResult
  split
  · split
    · split
      · exact (erase_sublist ..).cons_cons p
      · exact sublist_cons_self ..
    · exact sublist_cons_self ..
  · exact Sublist.refl _

theorem addResult_ne_nil {ef : Nat} (hef : 0 < ef) (result : List (D × Nat)) (p : D × Nat) :
    addResult ef result p ≠ [] := by
  have hne : result.length = ef → result ≠ [] := by
    rintro hlen rfl
    exact absurd hlen (by simp only [length_nil]; omega)
  unfold addResult
  split_ifs with hlen
  · split
    · split
      · exact cons_ne_nil _ _
      · exact hne hlen
    · exact hne hlen
  · exact cons_ne_nil _ _

/-- A search that only knows vertices of `K`: candidates and results are marked,
no result is held twice and there is one. -/
structure Search.Good (s : Search D) (K : Nat → Prop) : Prop where
  known : ∀ u ∈ s.visited, K u
  candidates : ∀ u ∈ ids s.candidate, u ∈ s.visited
  results : ∀ u ∈ ids s.result, u ∈ s.visited
  nodup : (ids s.result).Nodup
  nonempty : s.result ≠ []

theorem Search.good_start (cfg : Config D) (v : Nat) {ep : Nat} {K : Nat → Prop} (h : K ep) :
    (Search.start cfg v ep).Good K where
  known := fun u hu => by
    rwa [mem_singleton.mp hu]
  candidates := fun u hu => by cases hu
  results := fun u hu => by
    obtain ⟨d, hd⟩ := mem_ids.mp hu
    have := (addResult_sublist ..).subset hd
    rw [mem_singleton] at this
    cases this
    exact mem_singleton_self _
  nodup := ((addResult_sublist ..).map Prod.snd).nodup (nodup_singleton _)
  nonempty := addResult_ne_nil cfg.ef_pos _ _

omit [LinearOrder D] in
theorem Search.Good.mono {s : Search D} {K K' : Nat → Prop} (h : s.Good K) (hK : ∀ u, K u → K' u) : s.Good K' :=
  {h with known := fun u hu => hK u (h.known u hu)}

theorem Search.Good.visit {s : Search D} {K : Nat → Prop} (h : s.Good K) (cfg : Config D) (v : Nat) {n : Nat}
    (hn : K n) : (s.visit cfg v n).Good K := by
  have known : ∀ u ∈ n :: s.visited, K u := by
    intro u hu
    rcases mem_cons.mp hu with rfl | hu
    · exact hn
    · exact h.known u hu
  rw [Search.visit]
  split_ifs with hnew
  · exact h
  · have hfresh : n ∉ ids s.result := fun hr => hnew (.inr (h.results n hr))
    dsimp only
    split
    · have hsub := (addResult_sublist cfg.efConstruction s.result (cfg.dist v n, n)).map Prod.snd
      refine ⟨known, ?_, ?_, ?_, addResult_ne_nil cfg.ef_pos _ _⟩
      · intro u hu
        rcases mem_cons.mp hu with rfl | hu
        · exact mem_cons_self ..
        · exact mem_cons_of_mem _ (h.candidates u hu)
      · intro u hu
        rcases mem_cons.mp (hsub.subset hu) with rfl | hu
        · exact mem_cons_self ..
        · exact mem_cons_of_mem _ (h.results u hu)
      · exact hsub.nodup (nodup_cons.mpr ⟨hfresh, h.nodup⟩)
    · exact ⟨known, fun u hu => mem_cons_of_mem _ (h.candidates u hu),
        fun u hu => mem_cons_of_mem _ (h.results u hu), h.nodup, h.nonempty⟩

theorem Search.Good.expand {s : Search D} {K : Nat → Prop} (h : s.Good K) (cfg : Config D) (v : Nat) {l : List Nat}
    (hl : ∀ u ∈ l, K u) : (s.expand cfg v l).Good K := by
  rw [Search.expand]
  have hl' : ∀ u ∈ l.reverse, K u := fun u hu => hl u (mem_reverse.mp hu)
  generalize l.reverse = l' at hl' ⊢
  induction l' generalizing s with
  | nil => exact h
  | cons n rest ih =>
    exact ih (h.visit cfg v (hl' n (mem_cons_self ..))) fun u hu => hl' u (mem_cons_of_mem _ hu)

theorem Search.Good.pop {s s' : Search D} {K : Nat → Prop} (h : s.Good K) {cfg : Config D} {c : Nat}
    (hp : s.pop cfg = some (c, s')) : K c ∧ s'.Good K := by
  rw [Search.pop] at hp
  split at hp
  · cases hp
  rename_i q hq
  split at hp
  · cases hp
  cases hp
  have hmem : q.2 ∈ ids s.candidate := mem_map_of_mem (nearest_mem hq)
  refine ⟨h.known _ (h.candidates _ hmem), {h with candidates := fun u hu => ?_}⟩
  exact h.candidates u (((erase_sublist ..).map Prod.snd).subset hu)

/-- The nearest search ends at the vertex it is at, or at one of that vertex's list. -/
theorem closer_mem (cfg : Config D) (v cur : Nat) (l : List Nat) :
    (closer cfg v cur l).1 = cur ∧ (closer cfg v cur l).2 = false ∨
      (closer cfg v cur l).1 ∈ l ∧ (closer cfg v cur l).2 = true := by
  refine foldlRecOn (motive := fun r : Nat × Bool => r.1 = cur ∧ r.2 = false ∨ r.1 ∈ l ∧ r.2 = true) _ _
    (.inl ⟨rfl, rfl⟩) ?_
  intro r hr n hn
  rw [closerStep]
  split
  · exact .inr ⟨mem_reverse.mp hn, rfl⟩
  · exact hr

/-! ### What is selected -/

theorem keepDiverse_spec (cfg : Config D) (m : Nat) (cs : List (D × Nat)) (result : List Nat)
    (hlen : result.length ≤ m) (hnd : (result ++ ids cs).Nodup) :
    (keepDiverse cfg m cs result).length ≤ m ∧ (keepDiverse cfg m cs result).Nodup ∧
      (∀ u ∈ keepDiverse cfg m cs result, u ∈ result ∨ u ∈ ids cs) ∧
      (result ≠ [] ∨ (0 < m ∧ cs ≠ []) → keepDiverse cfg m cs result ≠ []) := by
  induction cs generalizing result with
  | nil =>
    have hnd' : result.Nodup := by simpa [ids] using hnd
    exact ⟨hlen, hnd', fun u hu => .inl hu, fun h => h.resolve_right fun h => h.2 rfl⟩
  | cons c cs ih =>
    rw [keepDiverse]
    split
    · rename_i hroom
      split
      · rename_i hdiverse
        obtain ⟨h1, h2, h3, h4⟩ := ih (result ++ [c.2]) (by simp only [length_append, length_singleton]; omega)
          (by rwa [append_assoc])
        refine ⟨h1, h2, ?_, fun _ => h4 (.inl (by simp))⟩
        intro u hu
        rcases h3 u hu with hu | hu
        · rcases mem_append.mp hu with hu | hu
          · exact .inl hu
          · rw [mem_singleton.mp hu]
            exact .inr (mem_cons_self ..)
        · exact .inr (mem_cons_of_mem _ hu)
      · rename_i hdiverse
        have hsub : (result ++ ids cs).Sublist (result ++ c.2 :: ids cs) :=
          (Sublist.refl _).append (sublist_cons_self ..)
        obtain ⟨h1, h2, h3, h4⟩ := ih result hlen (hsub.nodup hnd)
        -- nothing selected yet means nothing to be too close to
        have hne : result ≠ [] := by
          rintro rfl
          exact hdiverse rfl
        refine ⟨h1, h2, fun u hu => (h3 u hu).imp_right (mem_cons_of_mem _), fun _ => h4 (.inl hne)⟩
    · rename_i hfull
      refine ⟨hlen, hnd.of_append_left, fun u hu => .inl hu, ?_⟩
      rintro (hne | ⟨hm, -⟩) rfl
      · exact hne rfl
      · exact hfull (by simpa using hm)

/-- **A selection is short, has no vertex twice, none that was not a candidate, and is
not empty when there was a candidate.** -/
theorem selectNeighbors_spec (cfg : Config D) (candidates : List (D × Nat)) {m : Nat} (hm : 0 < m)
    (hnd : (ids candidates).Nodup) :
    (selectNeighbors cfg candidates m).length ≤ m ∧ (selectNeighbors cfg candidates m).Nodup ∧
      (∀ u ∈ selectNeighbors cfg candidates m, u ∈ ids candidates) ∧
      (candidates ≠ [] → selectNeighbors cfg candidates m ≠ []) := by
  have hperm := mergeSort_perm candidates (fun a b => decide (a.1 ≤ b.1))
  have hids : (ids (candidates.mergeSort (fun a b => decide (a.1 ≤ b.1)))).Perm (ids candidates) := hperm.map Prod.snd
  have hne : candidates ≠ [] → candidates.mergeSort (fun a b => decide (a.1 ≤ b.1)) ≠ [] := by
    intro h hnil
    rw [hnil] at hperm
    exact h hperm.nil_eq.symm
  unfold selectNeighbors
  split_ifs with hlt
  · refine ⟨?_, ?_, ?_, ?_⟩
    · rw [length_reverse, length_map, length_mergeSort]
      omega
    · exact nodup_reverse.mpr (hids.nodup_iff.mpr hnd)
    · intro u hu
      exact hids.mem_iff.mp (mem_reverse.mp hu)
    · intro h
      simpa using hne h
  · obtain ⟨h1, h2, h3, h4⟩ := keepDiverse_spec cfg m (candidates.mergeSort (fun a b => decide (a.1 ≤ b.1))) []
      (Nat.zero_le _) (by simpa using hids.nodup_iff.mpr hnd)
    refine ⟨by simpa using h1, nodup_reverse.mpr h2, ?_, ?_⟩
    · intro u hu
      rcases h3 u (mem_reverse.mp hu) with hu | hu
      · cases hu
      · exact hids.mem_iff.mp hu
    · intro h
      simpa using h4 (.inr ⟨hm, hne h⟩)

/-- A neighbour's list with the new vertex in it, or some of it when it was full. -/
theorem connectOne_spec (cfg : Config D) {v : Nat} (n layer : Nat) {list : List Nat} (hnd : list.Nodup) (hv : v ∉ list) :
    (connectOne cfg v n layer list).length ≤ cfg.mmax layer ∧ (connectOne cfg v n layer list).Nodup ∧
      ∀ u ∈ connectOne cfg v n layer list, u = v ∨ u ∈ list := by
  have hm : 0 < cfg.mmax layer := by
    have := cfg.m_pos
    unfold Config.mmax
    split <;> omega
  unfold connectOne
  split_ifs with hlt
  · refine ⟨by simp only [length_append, length_singleton]; omega, ?_, ?_⟩
    · rw [nodup_append]
      refine ⟨hnd, nodup_singleton _, ?_⟩
      rintro a ha b hb rfl
      exact hv (mem_singleton.mp hb ▸ ha)
    · intro u hu
      rcases mem_append.mp hu with hu | hu
      · exact .inr hu
      · exact .inl (mem_singleton.mp hu)
  · have hids : ids ((cfg.dist n v, v) :: list.map fun u => (cfg.dist n u, u)) = v :: list := by
      simp [ids, Function.comp_def]
    obtain ⟨h1, h2, h3, -⟩ := selectNeighbors_spec cfg ((cfg.dist n v, v) :: list.map fun u => (cfg.dist n u, u)) hm
      (by rw [hids]; exact nodup_cons.mpr ⟨hv, hnd⟩)
    refine ⟨h1, h2, fun u hu => ?_⟩
    have := h3 u hu
    rw [hids] at this
    exact mem_cons.mp this

end Infinity.Hnsw
