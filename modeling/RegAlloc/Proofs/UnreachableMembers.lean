import RegAlloc.Proofs.LoopNesting

/-!
# Blocks in loops that control cannot reach

A header should dominate its loop, and it does dominate every block of it that control can reach.
But the search for the blocks of a loop goes against the edges and does not ask whether control can
reach what it finds.  A block that control cannot reach is taken into a loop as soon as an edge
leads from it into the loop past the header, and **no** header dominates it in the tree, which has
nothing above such blocks.

So the blocks of a loop that its header does not dominate are exactly those that control cannot
reach, and a header dominates its whole loop exactly if no edge leads from such a block into the
loop past the header (`loopNest_dominance`).
-/

namespace RegAlloc

theorem LoopNest.depth_eq_zero_iff {n : LoopNest} {b : BlockId} :
    n.depth b = 0 ↔ ∀ h, ¬ n.holds h b = true := by
  rw [← LoopNest.length_around, List.length_eq_zero_iff, List.eq_nil_iff_forall_not_mem]
  simp only [LoopNest.mem_around]

namespace FlowGraph

variable {g : FlowGraph} {b h : BlockId}

/-! ## Membership without reach -/

/-- Control cannot reach a block, but the block is in a loop: it goes on to another block of it. -/
theorem InLoop.exists_successor (hin : g.InLoop h b) (hb : ¬ g.Reaches b) :
    ∃ c ∈ g.successors b, c ≠ h ∧ g.InLoop h c := by
  have hheader := hin.reaches_header
  obtain ⟨t, hback, rfl | hwalk⟩ := hin
  · exact absurd hheader hb
  · cases hwalk with
    | here _ => exact absurd hback.1 hb
    | step _ hedge hrest => exact ⟨_, hedge, hrest.source_ne, t, hback, Or.inr hrest⟩

/-- A block other than the header is in the loop if an edge leads from it into the loop past the
header. -/
theorem InLoop.of_successor {c : BlockId} (hin : g.InLoop h c) (hch : c ≠ h) (hbh : b ≠ h)
    (hedge : c ∈ g.successors b) : g.InLoop h b := by
  obtain ⟨t, hback, hcase⟩ := hin
  exact ⟨t, hback, Or.inr (.step hbh hedge (hcase.resolve_left hch))⟩

section Nest

variable (hg : g.EdgesInRange) (hpos : 0 < g.size)
include hg hpos

/-- **A header dominates a block of its loop exactly if control can reach the block.** -/
theorem dominates_iff_reaches_of_holds (hholds : g.loopNest.holds h b = true) :
    g.domTree.dominates h b = true ↔ g.Reaches b := by
  have hin := (holds_loopNest_iff hg hpos).mp hholds
  by_cases hb : g.Reaches b
  · exact iff_of_true ((dominates_domTree hg hpos hb).mpr hin.dominates) hb
  · refine iff_of_false (fun hdom => ?_) hb
    have heq : h = b := (dominates_domTree_of_not_reaches hg hpos hb).mp hdom
    exact hb (heq ▸ hin.reaches_header)

/-- **A block that control cannot reach** is in a loop exactly if an edge leads from it into the
loop past the header. -/
theorem holds_iff_of_not_reaches (hb : ¬ g.Reaches b) :
    g.loopNest.holds h b = true ↔
      ∃ c ∈ g.successors b, c ≠ h ∧ g.loopNest.holds h c = true := by
  simp only [holds_loopNest_iff hg hpos]
  constructor
  · exact fun hin => hin.exists_successor hb
  · rintro ⟨c, hedge, hch, hin⟩
    have hbh : b ≠ h := by
      rintro rfl
      exact hb hin.reaches_header
    exact hin.of_successor hch hbh hedge

theorem not_holds_iff_of_not_reaches (hb : ¬ g.Reaches b) :
    ¬ g.loopNest.holds h b = true ↔
      ∀ c ∈ g.successors b, g.loopNest.holds h c = true → c = h := by
  rw [holds_iff_of_not_reaches hg hpos hb]
  constructor
  · intro hnone c hedge hc
    by_contra hch
    exact hnone ⟨c, hedge, hch, hc⟩
  · rintro hpast ⟨c, hedge, hch, hc⟩
    exact hch (hpast c hedge hc)

theorem depth_eq_zero_iff_of_not_reaches (hb : ¬ g.Reaches b) :
    g.loopNest.depth b = 0 ↔
      ∀ c ∈ g.successors b, ∀ h, g.loopNest.holds h c = true → c = h := by
  simp only [LoopNest.depth_eq_zero_iff, not_holds_iff_of_not_reaches hg hpos hb]
  exact ⟨fun hpast c hedge h hc => hpast h c hedge hc,
    fun hpast h c hedge hc => hpast c hedge h hc⟩

/-- **A header dominates its whole loop** exactly if no edge leads into the loop past it from a
block that control cannot reach. -/
theorem forall_dominates_iff (h : BlockId) :
    (∀ b, g.loopNest.holds h b = true → g.domTree.dominates h b = true) ↔
      ∀ b c, ¬ g.Reaches b → c ∈ g.successors b → g.loopNest.holds h c = true → c = h := by
  constructor
  · intro hall b c hb hedge hc
    refine (not_holds_iff_of_not_reaches hg hpos hb).mp (fun hholds => hb ?_) c hedge hc
    exact (dominates_iff_reaches_of_holds hg hpos hholds).mp (hall b hholds)
  · intro hpast b hholds
    refine (dominates_iff_reaches_of_holds hg hpos hholds).mpr (by_contra fun hb => ?_)
    exact (not_holds_iff_of_not_reaches hg hpos hb).mpr (fun c => hpast b c hb) hholds

end Nest

/-- **Which blocks of a loop its header dominates.**  A header dominates those blocks of its loop
that control can reach, and no others.  A block that control cannot reach is in a loop exactly if an
edge leads from it into the loop past the header; its depth is `0` exactly if no edge leads from it
past the header of a loop.  So a header dominates its whole loop exactly if no such edge leads into
it. -/
theorem loopNest_dominance {is : List Instr} {gs : List FlowGraph} (hgs : ofInstrs is = .ok gs)
    (hg : g ∈ gs) :
    (∀ h b, g.loopNest.holds h b = true → (g.domTree.dominates h b = true ↔ g.Reaches b)) ∧
      (∀ h b, ¬ g.Reaches b → (g.loopNest.holds h b = true ↔
        ∃ c ∈ g.successors b, c ≠ h ∧ g.loopNest.holds h c = true)) ∧
      (∀ b, ¬ g.Reaches b → (g.loopNest.depth b = 0 ↔
        ∀ c ∈ g.successors b, ∀ h, g.loopNest.holds h c = true → c = h)) ∧
      ∀ h, (∀ b, g.loopNest.holds h b = true → g.domTree.dominates h b = true) ↔
        ∀ b c, ¬ g.Reaches b → c ∈ g.successors b → g.loopNest.holds h c = true → c = h := by
  have hrange := edgesInRange_of_mem hgs hg
  have hpos := size_pos_of_mem hgs hg
  exact ⟨fun h b hholds => dominates_iff_reaches_of_holds hrange hpos hholds,
    fun h b hb => holds_iff_of_not_reaches hrange hpos hb,
    fun b hb => depth_eq_zero_iff_of_not_reaches hrange hpos hb,
    fun h => forall_dominates_iff hrange hpos h⟩

/-- A loop with its test at the end.  Control enters it at the test, past an instruction in front of
the body to which it never comes. -/
def rotatedLoop : List Instr :=
  [.label "f" (some ⟨0, [1], none⟩), .jump "test", .param (.symbol 1), .label "body" none,
    .param (.symbol 1), .label "test" none, .branch (.symbol 1) "body", .ret none]

/-- The control flow of its only procedure. -/
def rotatedFlow : FlowGraph := ofRegion ⟨0, "f", ⟨0, [1], none⟩, rotatedLoop⟩

theorem not_reaches_rotatedFlow : ¬ rotatedFlow.Reaches 1 := by
  have hgs : ofInstrs rotatedLoop = .ok [rotatedFlow] := rfl
  have hmem : rotatedFlow ∈ [rotatedFlow] := List.mem_singleton_self _
  have hrange := edgesInRange_of_mem hgs hmem
  have hpos := size_pos_of_mem hgs hmem
  rw [← (searchOrder_reversePostOrder hrange hpos).mem_iff]
  decide

/-- **A header need not dominate its loop.**  Block `1`, the instruction in front of the body, is in
the loop with header `3`, although control cannot reach it and block `3` does not dominate it. -/
theorem rotatedLoop_undominated :
    ofInstrs rotatedLoop = .ok [rotatedFlow] ∧
      ¬ (∀ h b, rotatedFlow.loopNest.holds h b = true → rotatedFlow.domTree.dominates h b = true) ∧
      ¬ (∀ b, ¬ rotatedFlow.Reaches b → rotatedFlow.loopNest.depth b = 0) := by
  refine ⟨rfl, fun hall => ?_, fun hall => ?_⟩
  · exact absurd (hall 3 1 (by decide +kernel)) (by decide +kernel)
  · exact absurd (hall 1 not_reaches_rotatedFlow) (by decide +kernel)

/-- In the same loop the theorem tells the two kinds of blocks apart: the header dominates the body,
which control can reach, and not the instruction in front of it. -/
theorem loopNest_dominance_rotatedLoop :
    ofInstrs rotatedLoop = .ok [rotatedFlow] ∧ rotatedFlow ∈ [rotatedFlow] ∧
      rotatedFlow.loopNest.holds 3 2 = true ∧ rotatedFlow.Reaches 2 ∧
      rotatedFlow.domTree.dominates 3 2 = true ∧
      rotatedFlow.loopNest.holds 3 1 = true ∧ ¬ rotatedFlow.Reaches 1 ∧
      ¬ rotatedFlow.domTree.dominates 3 1 = true ∧ rotatedFlow.loopNest.depth 1 ≠ 0 := by
  have hgs : ofInstrs rotatedLoop = .ok [rotatedFlow] := rfl
  have hmem : rotatedFlow ∈ [rotatedFlow] := List.mem_singleton_self _
  obtain ⟨hdominates, hdead, hdepth, -⟩ := loopNest_dominance hgs hmem
  have hbody : rotatedFlow.loopNest.holds 3 2 = true := by decide +kernel
  have htest : rotatedFlow.Reaches 3 :=
    Reaches.step (b := 0) Relation.ReflTransGen.refl (by decide)
  have hreach : rotatedFlow.Reaches 2 := htest.step (by decide)
  have hedge : 2 ∈ rotatedFlow.successors 1 := by decide
  have hfront := (hdead 3 1 not_reaches_rotatedFlow).mpr ⟨2, hedge, by decide, hbody⟩
  refine ⟨hgs, hmem, hbody, hreach, (hdominates 3 2 hbody).mpr hreach, hfront,
    not_reaches_rotatedFlow, fun hdom => ?_, fun hzero => ?_⟩
  · exact not_reaches_rotatedFlow ((hdominates 3 1 hfront).mp hdom)
  · exact absurd ((hdepth 1 not_reaches_rotatedFlow).mp hzero 2 hedge 3 hbody) (by decide)

end FlowGraph

end RegAlloc
