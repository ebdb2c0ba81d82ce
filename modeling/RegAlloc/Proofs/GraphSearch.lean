import Mathlib.Logic.Relation
import RegAlloc.Flow.Graph
import RegAlloc.Proofs.DepthFirstOrder

/-!
# The work-list search is exact

The search with a work list finds what the roots lead to, and nothing else.

Its invariant (`Exploring`) holds whatever the budget is.  That the budget suffices is a count of
rounds: the elements on the work list, and one for each edge whose near end has not been seen.  When
a block is seen its edges leave the count, and at most as many neighbours come onto the work list.
-/

namespace RegAlloc

variable {next : Nat → List Nat} {roots work : List Nat} {seen : IdSet} {x y : Nat}

/-- Along `next` one gets from one of the roots to `x`. -/
def LeadTo (next : Nat → List Nat) (roots : List Nat) (x : Nat) : Prop :=
  ∃ root ∈ roots, Relation.ReflTransGen (fun a b => b ∈ next a) root x

theorem LeadTo.of_mem (hx : x ∈ roots) : LeadTo next roots x := ⟨x, hx, Relation.ReflTransGen.refl⟩

theorem LeadTo.step (hx : LeadTo next roots x) (hy : y ∈ next x) : LeadTo next roots y := by
  obtain ⟨root, hroot, hpath⟩ := hx
  exact ⟨root, hroot, hpath.tail hy⟩

/-- **The state of a search** that started from the roots. -/
structure Exploring (next : Nat → List Nat) (roots : List Nat) (seen : IdSet) (work : List Nat) :
    Prop where
  /-- The roots lead to everything that has been seen or is on the work list. -/
  reached : ∀ x, x ∈ seen ∨ x ∈ work → LeadTo next roots x
  /-- No root is forgotten. -/
  roots : ∀ x ∈ roots, x ∈ seen ∨ x ∈ work
  /-- Nor is a neighbour of something seen. -/
  closed : ∀ x ∈ seen, ∀ y ∈ next x, y ∈ seen ∨ y ∈ work

namespace Exploring

theorem start (next : Nat → List Nat) (roots : List Nat) : Exploring next roots ∅ roots where
  reached x hx := LeadTo.of_mem (hx.resolve_left (IdSet.not_mem_empty x))
  roots _ hx := Or.inr hx
  closed x hx := absurd hx (IdSet.not_mem_empty x)

/-- The next element has been seen before. -/
theorem skip (h : Exploring next roots seen (x :: work)) (hx : x ∈ seen) :
    Exploring next roots seen work := by
  have hkeep : ∀ y, y ∈ seen ∨ y ∈ x :: work → y ∈ seen ∨ y ∈ work := by
    rintro y (hy | hy)
    · exact Or.inl hy
    · rcases List.mem_cons.mp hy with rfl | hy
      · exact Or.inl hx
      · exact Or.inr hy
  exact {
    reached := fun y hy => h.reached y (hy.imp_right (List.mem_cons_of_mem x))
    roots := fun y hy => hkeep y (h.roots y hy)
    closed := fun y hy z hz => hkeep z (h.closed y hy z hz) }

/-- The next element is new, and its neighbours come onto the work list. -/
theorem visit (h : Exploring next roots seen (x :: work)) :
    Exploring next roots (seen.insert x) (next x ++ work) := by
  have hkeep : ∀ y, y ∈ seen ∨ y ∈ x :: work → y ∈ seen.insert x ∨ y ∈ next x ++ work := by
    rintro y (hy | hy)
    · exact Or.inl (IdSet.mem_insert.mpr (Or.inr hy))
    · rcases List.mem_cons.mp hy with rfl | hy
      · exact Or.inl (IdSet.mem_insert.mpr (Or.inl rfl))
      · exact Or.inr (List.mem_append_right _ hy)
  have hx : LeadTo next roots x := h.reached x (Or.inr List.mem_cons_self)
  constructor
  case reached =>
    rintro y (hy | hy)
    · rcases IdSet.mem_insert.mp hy with rfl | hy
      · exact hx
      · exact h.reached y (Or.inl hy)
    · rcases List.mem_append.mp hy with hy | hy
      · exact hx.step hy
      · exact h.reached y (Or.inr (List.mem_cons_of_mem x hy))
  case roots => exact fun y hy => hkeep y (h.roots y hy)
  case closed =>
    intro y hy z hz
    rcases IdSet.mem_insert.mp hy with rfl | hy
    · exact Or.inr (List.mem_append_left _ hz)
    · exact hkeep z (h.closed y hy z hz)

/-- At the end of the search exactly what the roots lead to has been seen. -/
theorem mem_iff (h : Exploring next roots seen []) : x ∈ seen ↔ LeadTo next roots x := by
  have hwork : ∀ y, y ∈ seen ∨ y ∈ ([] : List Nat) → y ∈ seen := fun y hy =>
    hy.resolve_right List.not_mem_nil
  refine ⟨fun hx => h.reached x (Or.inl hx), ?_⟩
  rintro ⟨root, hroot, hpath⟩
  induction hpath with
  | refl => exact hwork root (h.roots root hroot)
  | tail _ hz ih => exact hwork _ (h.closed _ ih _ hz)

/-- **The search runs to its end** if the budget covers the work list and the edges at what has not
been seen. -/
theorem reachFrom {edges : List (Nat × Nat)} {near : Nat × Nat → Nat}
    (hnext : ∀ x, (next x).length ≤ edges.countP fun e => near e = x) {budget : Nat}
    (h : Exploring next roots seen work)
    (hbudget : work.length + FlowGraph.unseen seen near edges ≤ budget) :
    Exploring next roots (reachFrom next budget seen work) [] := by
  induction budget generalizing seen work with
  | zero =>
      have hdone : work = [] := List.length_eq_zero_iff.mp (by omega)
      subst hdone
      exact h
  | succ budget ih =>
      cases work with
      | nil => exact h
      | cons x work =>
          rw [List.length_cons] at hbudget
          rw [RegAlloc.reachFrom]
          split
          · rename_i hx
            exact ih (h.skip hx) (by omega)
          · rename_i hx
            refine ih h.visit ?_
            have hcount := FlowGraph.unseen_insert near edges hx
            have hle := hnext x
            rw [List.length_append]
            omega

end Exploring

namespace FlowGraph

variable {g : FlowGraph} {b c home : BlockId}

theorem length_predecessors (g : FlowGraph) (b : BlockId) :
    (g.predecessors b).length = g.edges.countP fun e => e.2 = b := by
  rw [predecessors, List.length_filterMap_eq_countP]
  congr 1
  funext e
  by_cases he : e.2 = b <;> simp [he]

private theorem mem_closure_of_near {near : BlockId × BlockId → BlockId}
    (hnext : ∀ b, (next b).length ≤ g.edges.countP fun e => near e = b) :
    b ∈ g.closure next roots ↔ LeadTo next roots b := by
  refine ((Exploring.start next roots).reachFrom hnext ?_).mem_iff
  rw [unseen_empty]

/-- **A search along successors is exact.** -/
theorem mem_closure_of_successors (hnext : ∀ b, (next b).Sublist (g.successors b)) :
    b ∈ g.closure next roots ↔ LeadTo next roots b :=
  mem_closure_of_near fun b => (hnext b).length_le.trans_eq (g.length_successors b)

/-- **A search along predecessors is exact.** -/
theorem mem_closure_of_predecessors (hnext : ∀ b, (next b).Sublist (g.predecessors b)) :
    b ∈ g.closure next roots ↔ LeadTo next roots b :=
  mem_closure_of_near fun b => (hnext b).length_le.trans_eq (g.length_predecessors b)

/-- The predecessors of a block other than `home`. -/
def backward (g : FlowGraph) (home c : BlockId) : List BlockId :=
  (g.predecessors c).filter (· != home)

theorem mem_backward : b ∈ g.backward home c ↔ c ∈ g.successors b ∧ b ≠ home := by
  simp [backward]

/-- **A search backward that leaves a block out is exact.** -/
theorem mem_closure_backward :
    b ∈ g.closure (g.backward home) roots ↔ LeadTo (g.backward home) roots b :=
  mem_closure_of_predecessors fun _ => List.filter_sublist

end FlowGraph

end RegAlloc
