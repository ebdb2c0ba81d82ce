import RegAlloc.Proofs.DepthFirstOrder
import RegAlloc.Proofs.DominatorArray
import RegAlloc.Proofs.ProgramCuts

/-!
# The dominator tree is exact

A block **dominates** another one if every path from the entry to the latter comes through it
(`FlowGraph.Dominates`).  The main result is that the dominator tree computes this relation, and
that the parent of a block is the nearest of its strict dominators.

On the positions of a search order, dominance respects the lists of predecessors, because a path to
a block is a path to one of its predecessors with the block added; and whatever respects them holds
along every path, by induction on the path.  Climbing in the final array is the greatest relation of
this kind, so it is dominance (`SearchOrder.climbs_iff`).  What is left is to read the tree through
the order.
-/

namespace RegAlloc

namespace FlowGraph

variable {g : FlowGraph} {a b c d : BlockId} {path : List BlockId}

/-! ## Paths from the entry -/

/-- A path along successors from the entry to a block, the last block first. -/
inductive EntryPath (g : FlowGraph) : BlockId → List BlockId → Prop where
  | entry : EntryPath g entryBlock [entryBlock]
  | step {b c : BlockId} {path : List BlockId} : EntryPath g b path → c ∈ g.successors b →
      EntryPath g c (c :: path)

/-- **Dominance:** every path from the entry to `b` comes through `a`. -/
def Dominates (g : FlowGraph) (a b : BlockId) : Prop := ∀ path, g.EntryPath b path → a ∈ path

theorem EntryPath.reaches (h : g.EntryPath b path) : g.Reaches b := by
  induction h with
  | entry => exact Relation.ReflTransGen.refl
  | step _ hc ih => exact ih.step hc

theorem EntryPath.reaches_of_mem (h : g.EntryPath b path) (ha : a ∈ path) : g.Reaches a := by
  induction h with
  | entry => exact List.mem_singleton.mp ha ▸ Relation.ReflTransGen.refl
  | step hb hc ih =>
      rcases List.mem_cons.mp ha with rfl | ha
      · exact hb.reaches.step hc
      · exact ih ha

theorem Reaches.exists_entryPath (h : g.Reaches b) : ∃ path, g.EntryPath b path := by
  induction h with
  | refl => exact ⟨_, EntryPath.entry⟩
  | tail _ hc ih =>
      obtain ⟨path, hpath⟩ := ih
      exact ⟨_, hpath.step hc⟩

theorem Dominates.eq_entry (h : g.Dominates a entryBlock) : a = entryBlock :=
  List.mem_singleton.mp (h _ EntryPath.entry)

/-- A strict dominator dominates every predecessor. -/
theorem Dominates.of_successor (h : g.Dominates a c) (hne : a ≠ c) (hc : c ∈ g.successors b) :
    g.Dominates a b :=
  fun path hpath => (List.mem_cons.mp (h (c :: path) (hpath.step hc))).resolve_left hne

theorem Dominates.reaches (h : g.Dominates a b) (hb : g.Reaches b) : g.Reaches a := by
  obtain ⟨path, hpath⟩ := hb.exists_entryPath
  exact hpath.reaches_of_mem (h path hpath)

theorem dominates_refl (g : FlowGraph) (b : BlockId) : g.Dominates b b := by
  intro path hpath
  cases hpath with
  | entry => exact List.mem_cons_self
  | step _ _ => exact List.mem_cons_self

/-! ## Positions -/

namespace SearchOrder

open DomArray

variable {order : List BlockId} {doms : DomArray} {p q : Nat}

/-- The predecessors of a position are the positions of the predecessors. -/
theorem mem_predecessorsAt (h : g.SearchOrder order) :
    q ∈ predecessorsAt (g.predecessorPositions order) p ↔
      ∃ a b, order[q]? = some a ∧ order[p]? = some b ∧ b ∈ g.successors a := by
  rw [predecessorsAt, predecessorPositions, List.getElem?_map]
  cases hp : order[p]? with
  | none => simp
  | some b =>
      simp only [Option.map_some, Option.getD_some, List.mem_filterMap, h.idxOf?_eq_some]
      constructor
      · rintro ⟨a, ha, hq⟩
        exact ⟨a, b, hq, rfl, mem_successors_iff_mem_predecessors.mpr ha⟩
      · rintro ⟨a, b', hq, hb, ha⟩
        cases hb
        exact ⟨a, mem_successors_iff_mem_predecessors.mp ha, hq⟩

theorem length_predecessorPositions (g : FlowGraph) (order : List BlockId) :
    (g.predecessorPositions order).length = order.length := List.length_map ..

theorem grounded (h : g.SearchOrder order) : Grounded (g.predecessorPositions order) where
  pos := by
    rw [length_predecessorPositions]
    exact (List.getElem?_eq_some_iff.mp h.getElem?_zero).1
  lt {p q} hq := by
    obtain ⟨a, b, ha, -⟩ := h.mem_predecessorsAt.mp hq
    rw [length_predecessorPositions]
    exact (List.getElem?_eq_some_iff.mp ha).1
  earlier {p} hpos hp := by
    rw [length_predecessorPositions] at hp
    have hb : order[p]? = some order[p] := List.getElem?_eq_getElem hp
    obtain ⟨q, hqp, a, ha, hab⟩ := h.exists_earlier hb hpos
    exact ⟨q, h.mem_predecessorsAt.mpr ⟨a, _, ha, hb, hab⟩, hqp⟩

/-- Dominance, read on positions. -/
def Above (g : FlowGraph) (order : List BlockId) (q p : Nat) : Prop :=
  ∃ a b, order[q]? = some a ∧ order[p]? = some b ∧ g.Dominates a b

theorem respects_above (h : g.SearchOrder order) :
    Respects (g.predecessorPositions order) (Above g order) where
  zero {q} hq := by
    obtain ⟨a, b, ha, hb, hab⟩ := hq
    cases h.getElem?_zero.symm.trans hb
    rw [hab.eq_entry] at ha
    exact h.position_unique ha h.getElem?_zero
  step {q p r} hq hne hr := by
    obtain ⟨a, b, ha, hb, hab⟩ := hq
    obtain ⟨c, b', hc, hb', hstep⟩ := h.mem_predecessorsAt.mp hr
    cases hb.symm.trans hb'
    refine ⟨a, c, ha, hc, hab.of_successor ?_ hstep⟩
    rintro rfl
    exact hne (h.position_unique ha hb)

/-- **Climbing in the final array is dominance.** -/
theorem climbs_iff (h : g.SearchOrder order) (hdoms : Settled (g.predecessorPositions order) doms)
    (ha : order[q]? = some a) (hb : order[p]? = some b) : doms.Climbs p q ↔ g.Dominates a b := by
  constructor
  · intro hclimbs path hpath
    have hrespects := hdoms.respects_climbs h.grounded
    -- along the path, back from its end
    induction hpath generalizing p with
    | entry =>
        cases h.position_unique hb h.getElem?_zero
        cases hrespects.zero hclimbs
        exact List.mem_singleton.mpr (Option.some.inj (ha.symm.trans hb))
    | @step c b path hpath hstep ih =>
        by_cases heq : q = p
        · subst heq
          cases ha.symm.trans hb
          exact List.mem_cons_self
        · obtain ⟨r, hr⟩ := h.exists_position hpath.reaches
          have hpred := h.mem_predecessorsAt.mpr ⟨c, b, hr, hb, hstep⟩
          exact List.mem_cons_of_mem b (ih hr (hrespects.step hclimbs heq hpred))
  · intro hdom
    have hp : p < (g.predecessorPositions order).length := by
      rw [length_predecessorPositions]
      exact (List.getElem?_eq_some_iff.mp hb).1
    exact hdoms.climbs_of_respects h.respects_above hp ⟨a, b, ha, hb, hdom⟩

end SearchOrder

theorem SearchOrder.length_le_size {order : List BlockId} (h : g.SearchOrder order)
    (hg : g.EdgesInRange) (hpos : 0 < g.size) : order.length ≤ g.size := by
  have hsub : order ⊆ List.range g.size := fun b hb =>
    List.mem_range.mpr (((h.mem_iff b).mp hb).lt_size hg hpos)
  have hle := (List.subperm_of_subset h.nodup hsub).length_le
  rwa [List.length_range] at hle

theorem settled_dominatorPositions (h : g.SearchOrder g.reversePostOrder) :
    DomArray.Settled (g.predecessorPositions g.reversePostOrder) g.dominatorPositions := by
  have hsettled := DomArray.settled_solve_start h.grounded
  rwa [SearchOrder.length_predecessorPositions] at hsettled

/-! ## The tree -/

theorem size_parents_domTree (g : FlowGraph) : g.domTree.parents.size = g.size := by
  simp [domTree]

section Tree

variable (hg : g.EdgesInRange) (hpos : 0 < g.size)
include hg hpos

/-- A block that control cannot reach has no parent. -/
theorem parent?_domTree_of_not_reaches (hb : ¬ g.Reaches b) : g.domTree.parent? b = none := by
  have hnone : g.reversePostOrder.idxOf? b = none := by
    rw [List.idxOf?_eq_none_iff, (searchOrder_reversePostOrder hg hpos).mem_iff]
    exact hb
  rw [DomTree.parent?, domTree, List.getElem?_toArray, List.getElem?_map]
  cases hrange : (List.range g.size)[b]? with
  | none => rfl
  | some c =>
      obtain ⟨hlt, hc⟩ := List.getElem?_eq_some_iff.mp hrange
      rw [List.getElem_range] at hc
      subst hc
      simp only [Option.map_some, Option.join_some, hnone]

/-- **The parent of a block** is the block at the position that the array has for it. -/
theorem parent?_domTree {p : Nat} (hb : g.reversePostOrder[p]? = some b) :
    g.domTree.parent? b = some d ↔
      0 < p ∧ ∃ q, g.dominatorPositions.at? p = some q ∧ g.reversePostOrder[q]? = some d := by
  have h := searchOrder_reversePostOrder hg hpos
  have hlt : b < g.size := (h.reaches hb).lt_size hg hpos
  have hindex : g.reversePostOrder.idxOf? b = some p := h.idxOf?_eq_some.mpr hb
  rw [DomTree.parent?, domTree, List.getElem?_toArray, List.getElem?_map, List.getElem?_range hlt]
  simp only [Option.map_some, Option.join_some, hindex]
  cases p with
  | zero => simp
  | succ p => simp [Option.bind_eq_some_iff]

theorem exists_parent {p : Nat} (hb : g.reversePostOrder[p]? = some b) (hp : 0 < p) :
    ∃ q < p, g.dominatorPositions.at? p = some q ∧
      ∃ d, g.reversePostOrder[q]? = some d ∧ g.domTree.parent? b = some d := by
  have hdoms := (settled_dominatorPositions (searchOrder_reversePostOrder hg hpos)).solving
  have hplt : p < g.reversePostOrder.length := (List.getElem?_eq_some_iff.mp hb).1
  obtain ⟨q, hq⟩ := hdoms.known p (SearchOrder.length_predecessorPositions g _ ▸ hplt)
  have hqp : q < p := hdoms.rooted.lt hp hq
  have hd := List.getElem?_eq_getElem (Nat.lt_trans hqp hplt)
  exact ⟨q, hqp, hq, _, hd, (parent?_domTree hg hpos hb).mpr ⟨hp, q, hq, hd⟩⟩

/-- Going up from a block meets the blocks that climbing from its position meets. -/
theorem isAbove_domTree {budget p : Nat} (hb : g.reversePostOrder[p]? = some b)
    (hbudget : p ≤ budget) :
    g.domTree.isAbove a budget b = true ↔
      ∃ q < p, g.reversePostOrder[q]? = some a ∧ g.dominatorPositions.Climbs p q := by
  have h := searchOrder_reversePostOrder hg hpos
  have hrooted := (settled_dominatorPositions h).solving.rooted
  induction budget generalizing b p with
  | zero =>
      obtain rfl := Nat.le_zero.mp hbudget
      simp [DomTree.isAbove]
  | succ budget ih =>
      rw [DomTree.isAbove]
      rcases Nat.eq_zero_or_pos p with rfl | hp
      · have hnone : g.domTree.parent? b = none := by
          refine Option.eq_none_iff_forall_ne_some.mpr fun d hd => ?_
          exact absurd ((parent?_domTree hg hpos hb).mp hd).1 (Nat.lt_irrefl 0)
        simp [hnone]
      · obtain ⟨r, hrp, hr, d, hd, hparent⟩ := exists_parent hg hpos hb hp
        simp only [hparent, Bool.or_eq_true, beq_iff_eq, ih hd (by omega)]
        constructor
        · rintro (rfl | ⟨q, hqr, hq, hclimbs⟩)
          · exact ⟨r, hrp, hd, Relation.ReflTransGen.single hr⟩
          · exact ⟨q, Nat.lt_trans hqr hrp, hq, Relation.ReflTransGen.head hr hclimbs⟩
        · rintro ⟨q, hqp, hq, hclimbs⟩
          have hrq := hclimbs.of_ne (Nat.ne_of_gt hqp) hr
          rcases Nat.eq_or_lt_of_le (hrooted.climbs_le hrq) with rfl | hlt
          · exact Or.inl (Option.some.inj (hd.symm.trans hq))
          · exact Or.inr ⟨q, hlt, hq, hrq⟩

/-- **On the blocks that control can reach, the tree computes dominance.** -/
theorem dominates_domTree (hb : g.Reaches b) :
    g.domTree.dominates a b = true ↔ g.Dominates a b := by
  have h := searchOrder_reversePostOrder hg hpos
  have hdoms := settled_dominatorPositions h
  obtain ⟨p, hp⟩ := h.exists_position hb
  have hbudget : p ≤ g.domTree.parents.size := by
    rw [size_parents_domTree]
    exact Nat.le_of_lt (Nat.lt_of_lt_of_le (List.getElem?_eq_some_iff.mp hp).1
      (h.length_le_size hg hpos))
  rw [DomTree.dominates, Bool.or_eq_true, beq_iff_eq, isAbove_domTree hg hpos hp hbudget]
  constructor
  · rintro (rfl | ⟨q, -, hq, hclimbs⟩)
    · exact dominates_refl g a
    · exact (h.climbs_iff hdoms hq hp).mp hclimbs
  · intro hdom
    obtain ⟨q, hq⟩ := h.exists_position (hdom.reaches hb)
    have hclimbs := (h.climbs_iff hdoms hq hp).mpr hdom
    rcases Nat.eq_or_lt_of_le (hdoms.solving.rooted.climbs_le hclimbs) with rfl | hlt
    · exact Or.inl (Option.some.inj (hq.symm.trans hp))
    · exact Or.inr ⟨q, hlt, hq, hclimbs⟩

theorem dominates_domTree_of_not_reaches (hb : ¬ g.Reaches b) :
    g.domTree.dominates a b = true ↔ a = b := by
  have hnone := parent?_domTree_of_not_reaches hg hpos hb
  have habove : ∀ budget, g.domTree.isAbove a budget b = false := by
    intro budget
    cases budget with
    | zero => rfl
    | succ budget => rw [DomTree.isAbove, hnone]
  rw [DomTree.dominates, habove, Bool.or_false, beq_iff_eq]

/-- The blocks with a parent are those that control can reach, apart from the entry. -/
theorem isSome_parent?_domTree :
    (g.domTree.parent? b).isSome = true ↔ g.Reaches b ∧ b ≠ entryBlock := by
  have h := searchOrder_reversePostOrder hg hpos
  by_cases hb : g.Reaches b
  · obtain ⟨p, hp⟩ := h.exists_position hb
    rw [and_iff_right hb]
    constructor
    · rintro hsome rfl
      obtain ⟨d, hd⟩ := Option.isSome_iff_exists.mp hsome
      have hppos := ((parent?_domTree hg hpos hp).mp hd).1
      exact absurd (h.position_unique h.getElem?_zero hp) (Nat.ne_of_lt hppos)
    · intro hne
      have hppos : 0 < p := by
        refine Nat.pos_of_ne_zero ?_
        rintro rfl
        exact hne (Option.some.inj (hp.symm.trans h.getElem?_zero))
      obtain ⟨q, -, -, d, -, hd⟩ := exists_parent hg hpos hp hppos
      rw [hd]
      rfl
  · rw [parent?_domTree_of_not_reaches hg hpos hb]
    exact iff_of_false (by simp) fun hreach => hb hreach.1

/-- **The parent is the nearest strict dominator.** -/
theorem nearest_of_parent? (hd : g.domTree.parent? b = some d) :
    g.Dominates d b ∧ d ≠ b ∧ ∀ a, g.Dominates a b → a ≠ b → g.Dominates a d := by
  have h := searchOrder_reversePostOrder hg hpos
  have hdoms := settled_dominatorPositions h
  have hb : g.Reaches b := ((isSome_parent?_domTree hg hpos).mp (by rw [hd]; rfl)).1
  obtain ⟨p, hp⟩ := h.exists_position hb
  obtain ⟨hppos, q, hq, hqd⟩ := (parent?_domTree hg hpos hp).mp hd
  have hqp : q < p := hdoms.solving.rooted.lt hppos hq
  refine ⟨(h.climbs_iff hdoms hqd hp).mp (Relation.ReflTransGen.single hq), ?_, fun a ha hne => ?_⟩
  · rintro rfl
    exact absurd (h.position_unique hqd hp) (Nat.ne_of_lt hqp)
  · obtain ⟨r, hr⟩ := h.exists_position (ha.reaches hb)
    have hrp : p ≠ r := by
      rintro rfl
      exact hne (Option.some.inj (hr.symm.trans hp))
    exact (h.climbs_iff hdoms hr hqd).mp (((h.climbs_iff hdoms hr hp).mpr ha).of_ne hrp hq)

end Tree

/-- **The dominator trees of a program are exact.**  On the blocks that control can reach, the tree
computes dominance, and on all others equality.  The blocks with a parent are those that control can
reach, apart from the entry, and the parent is a strict dominator that all others dominate. -/
theorem domTree_exact {is : List Instr} {gs : List FlowGraph} {g : FlowGraph}
    (hgs : ofInstrs is = .ok gs) (hg : g ∈ gs) :
    (∀ a b, g.Reaches b → (g.domTree.dominates a b = true ↔ g.Dominates a b)) ∧
      (∀ a b, ¬ g.Reaches b → (g.domTree.dominates a b = true ↔ a = b)) ∧
      (∀ b, (g.domTree.parent? b).isSome = true ↔ g.Reaches b ∧ b ≠ entryBlock) ∧
      ∀ b d, g.domTree.parent? b = some d →
        g.Dominates d b ∧ d ≠ b ∧ ∀ a, g.Dominates a b → a ≠ b → g.Dominates a d := by
  have hedges := edgesInRange_of_mem hgs hg
  have hpos := size_pos_of_mem hgs hg
  exact ⟨fun a b hb => dominates_domTree hedges hpos hb,
    fun a b hb => dominates_domTree_of_not_reaches hedges hpos hb,
    fun b => isSome_parent?_domTree hedges hpos, fun b d hd => nearest_of_parent? hedges hpos hd⟩

/-- Either block of the loop can be reached without the other one, so only the entry dominates
both, and nothing that control passes through is above the block it cannot reach. -/
theorem domTree_exact_crossing :
    ofInstrs crossing = .ok [crossingWalk, crossingAgain] ∧
      crossingWalk ∈ [crossingWalk, crossingAgain] ∧
      crossingWalk.Dominates 0 2 ∧ ¬ crossingWalk.Dominates 1 2 ∧ ¬ crossingWalk.Dominates 2 1 ∧
      crossingWalk.Dominates 1 4 ∧ ¬ crossingWalk.Reaches 3 ∧
      crossingWalk.domTree.dominates 0 3 = false := by
  have hmem : crossingWalk ∈ [crossingWalk, crossingAgain] := List.mem_cons_self
  obtain ⟨hdominates, hdead, hparent, hnearest⟩ := domTree_exact ofInstrs_crossing hmem
  have hone : crossingWalk.Reaches 1 := ((hparent 1).mp (by decide)).1
  have htwo : crossingWalk.Reaches 2 := ((hparent 2).mp (by decide)).1
  have hthree : ¬ crossingWalk.Reaches 3 := fun hreach =>
    absurd ((hparent 3).mpr ⟨hreach, by decide⟩) (by decide)
  refine ⟨ofInstrs_crossing, hmem, (hnearest 2 0 (by decide)).1, fun h => ?_, fun h => ?_,
    (hnearest 4 1 (by decide)).1, hthree, ?_⟩
  · exact absurd ((hdominates 1 2 htwo).mpr h) (by decide)
  · exact absurd ((hdominates 2 1 hone).mpr h) (by decide)
  · exact Bool.eq_false_iff.mpr fun h => absurd ((hdead 0 3 hthree).mp h) (by decide)

end FlowGraph

end RegAlloc
