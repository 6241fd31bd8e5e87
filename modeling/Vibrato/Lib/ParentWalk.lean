import Mathlib.Data.List.Nodup
import Mathlib.Data.List.Chain

/-! Walks along parent links.  `next` gives the parent of a node, `key` its identity, and a walk
stops at a node without parent or at one it has visited. -/

namespace ParentWalk

open List

variable {α κ : Type*} [DecidableEq κ] (key : α → κ) (next : α → Option α)

def walk : Nat → List κ → Option α → List α
  | 0, _, _ => []
  | _ + 1, _, none => []
  | fuel + 1, visited, some node =>
    if key node ∈ visited then [] else node :: walk fuel (key node :: visited) (next node)

variable {fuel : Nat} {visited : List κ} {start : Option α}

theorem head?_walk {node : α} (h : (walk key next fuel visited start).head? = some node) :
    start = some node := by
  cases fuel with
  | zero => simp [walk] at h
  | succ fuel =>
    cases start with
    | none => simp [walk] at h
    | some first =>
      rw [walk] at h
      split at h
      · simp at h
      · simpa using h

theorem isChain_walk (fuel : Nat) (visited : List κ) (start : Option α) :
    (walk key next fuel visited start).IsChain fun a b => next a = some b := by
  induction fuel generalizing visited start with
  | zero => exact List.IsChain.nil
  | succ fuel ih =>
    cases start with
    | none => exact List.IsChain.nil
    | some node =>
      rw [walk]
      split
      · exact List.IsChain.nil
      · rw [isChain_cons]
        refine ⟨fun b hb => ?_, ih _ _⟩
        exact head?_walk key next hb

theorem nodup_walk (fuel : Nat) (visited : List κ) (start : Option α) :
    ((walk key next fuel visited start).map key).Nodup ∧
      ∀ node ∈ walk key next fuel visited start, key node ∉ visited := by
  induction fuel generalizing visited start with
  | zero => simp [walk]
  | succ fuel ih =>
    cases start with
    | none => simp [walk]
    | some node =>
      rw [walk]
      split
      · simp
      · next hvisited =>
        obtain ⟨hnodup, hfresh⟩ := ih (key node :: visited) (next node)
        refine ⟨?_, ?_⟩
        · rw [map_cons, nodup_cons]
          refine ⟨fun hmem => ?_, hnodup⟩
          obtain ⟨other, hother, hkey⟩ := mem_map.1 hmem
          exact hfresh other hother (hkey ▸ mem_cons_self)
        · intro other hmem
          rcases mem_cons.1 hmem with rfl | hmem
          · exact hvisited
          · exact fun hv => hfresh other hmem (mem_cons_of_mem _ hv)

theorem walk_eq_nil (h : ∀ node, start = some node → key node ∈ visited) (fuel : Nat) :
    walk key next fuel visited start = [] := by
  cases fuel with
  | zero => rfl
  | succ fuel =>
    cases start with
    | none => rfl
    | some node => rw [walk, if_pos (h node rfl)]

variable {nodes : List α}

theorem walk_eq (hchain : nodes.IsChain fun a b => next a = some b) (hnodup : (nodes.map key).Nodup)
    (hfresh : ∀ node ∈ nodes, key node ∉ visited)
    (hlast : ∀ last, nodes.getLast? = some last → ∀ node, next last = some node →
      key node ∈ visited ∨ key node ∈ nodes.map key)
    (hfuel : nodes.length ≤ fuel) : walk key next fuel visited nodes.head? = nodes := by
  induction nodes generalizing visited fuel with
  | nil => exact walk_eq_nil key next (by simp) fuel
  | cons node nodes ih =>
    obtain ⟨fuel, rfl⟩ : ∃ n, fuel = n + 1 := ⟨fuel - 1, by simp at hfuel; omega⟩
    rw [head?_cons, walk, if_neg (hfresh node mem_cons_self)]
    rw [map_cons, nodup_cons] at hnodup
    congr 1
    cases nodes with
    | nil =>
      refine walk_eq_nil key next (fun other hother => ?_) fuel
      rcases hlast node rfl other hother with hv | hk
      · exact mem_cons_of_mem _ hv
      · rw [map_singleton, mem_singleton] at hk
        exact hk ▸ mem_cons_self
    | cons second nodes =>
      rw [isChain_cons_cons] at hchain
      rw [hchain.1]
      refine ih hchain.2 hnodup.2 ?_ ?_ (by simpa using hfuel)
      · intro other hother hmem
        rcases mem_cons.1 hmem with heq | hv
        · exact hnodup.1 (heq ▸ mem_map_of_mem hother)
        · exact hfresh other (mem_cons_of_mem _ hother) hv
      · intro last hlast' other hother
        have hlastCons : (node :: second :: nodes).getLast? = some last := by
          rw [getLast?_cons_cons, hlast']
        rcases hlast last hlastCons other hother with hv | hk
        · exact .inl (mem_cons_of_mem _ hv)
        · rcases mem_cons.1 hk with heq | hk
          · exact .inl (heq ▸ mem_cons_self)
          · exact .inr hk

theorem key_mem_of_length_lt (h : (walk key next fuel visited start).length < fuel) :
    (∀ node, start = some node → key node ∈ visited ∨
      key node ∈ (walk key next fuel visited start).map key) ∧
    ∀ node ∈ walk key next fuel visited start, ∀ parent, next node = some parent →
      key parent ∈ visited ∨ key parent ∈ (walk key next fuel visited start).map key := by
  induction fuel generalizing visited start with
  | zero => omega
  | succ fuel ih =>
    cases start with
    | none => simp [walk]
    | some first =>
      rw [walk] at h ⊢
      split at h
      · next hvisited =>
        rw [if_pos hvisited]
        refine ⟨fun node hnode => ?_, by simp⟩
        cases hnode
        exact .inl hvisited
      · next hvisited =>
        rw [if_neg hvisited]
        have hrestLength :
            (walk key next fuel (key first :: visited) (next first)).length < fuel := by
          simpa using h
        obtain ⟨hfirst, hrest⟩ := ih hrestLength
        -- a key that the rest of the walk has seen is the first one, or was seen before
        have hseen : ∀ k, k ∈ key first :: visited ∨
            k ∈ (walk key next fuel (key first :: visited) (next first)).map key →
            k ∈ visited ∨
              k ∈ (first :: walk key next fuel (key first :: visited) (next first)).map key := by
          intro k hk
          rcases hk with hk | hk
          · rcases mem_cons.1 hk with rfl | hk
            · exact .inr mem_cons_self
            · exact .inl hk
          · exact .inr (mem_cons_of_mem _ hk)
        refine ⟨fun node hnode => ?_, fun node hnode parent hparent => ?_⟩
        · cases hnode
          exact .inr mem_cons_self
        · rcases mem_cons.1 hnode with rfl | hnode
          · exact hseen _ (hfirst parent hparent)
          · exact hseen _ (hrest node hnode parent hparent)

def climb (stop : α → Bool) : Nat → Option α → Option (List α)
  | 0, _ => none
  | _ + 1, none => some []
  | fuel + 1, some node =>
    if stop node then some [] else (climb stop fuel (next node)).map (node :: ·)

variable {next}

variable {stop : α → Bool}

theorem climb_eq (hstart : ∀ node, nodes.head? = some node → start = some node)
    (hchain : nodes.IsChain fun a b => next a = some b) (hstop : ∀ node ∈ nodes, stop node = false)
    (hend : ∀ node, (match nodes.getLast? with
      | some last => next last
      | none => start) = some node → stop node = true)
    (hfuel : nodes.length < fuel) : climb next stop fuel start = some nodes := by
  induction nodes generalizing fuel start with
  | nil =>
    obtain ⟨fuel, rfl⟩ : ∃ n, fuel = n + 1 := ⟨fuel - 1, by simp at hfuel; omega⟩
    cases start with
    | none => rfl
    | some node => rw [climb, if_pos (hend node rfl)]
  | cons node nodes ih =>
    obtain ⟨fuel, rfl⟩ : ∃ n, fuel = n + 1 := ⟨fuel - 1, by omega⟩
    rw [hstart node rfl, climb, if_neg (by simp [hstop node mem_cons_self]),
      ih _ (isChain_cons.1 hchain).2 (fun other h => hstop other (mem_cons_of_mem _ h)) _
        (by simpa using hfuel)]
    · rfl
    · intro second hsecond
      exact (isChain_cons.1 hchain).1 second hsecond
    · intro other hother
      refine hend other ?_
      rw [getLast?_cons]
      cases hlast : nodes.getLast? with
      | none => simpa [hlast] using hother
      | some last => simpa [hlast] using hother

theorem climb_eq_none {first : α} (hfirst : first ∈ nodes)
    (hnext : ∀ node ∈ nodes, ∃ parent ∈ nodes, next node = some parent)
    (hstop : ∀ node ∈ nodes, stop node = false) (fuel : Nat) :
    climb next stop fuel (some first) = none := by
  induction fuel generalizing first with
  | zero => rfl
  | succ fuel ih =>
    obtain ⟨parent, hparent, hlink⟩ := hnext first hfirst
    rw [climb, if_neg (by simp [hstop first hfirst]), hlink, ih hparent, Option.map_none]

end ParentWalk
