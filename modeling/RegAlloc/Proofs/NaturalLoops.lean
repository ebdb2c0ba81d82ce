import Mathlib.Data.Set.Card
import RegAlloc.Flow.Loops
import RegAlloc.Proofs.Dominance
import RegAlloc.Proofs.FiniteSets
import RegAlloc.Proofs.GraphSearch

/-!
# The loops are what their back edges say

A back edge leads from a block that control can reach to a block that dominates it, and the loop at
its target is the target together with all blocks from which the tail can be reached without
visiting the target.  The main result is that the computed loops are these, loop by loop and block
by block, and that the depth of a block counts them.

Three computations are read off one after the other.  The list of back edges tests dominance in the
tree, which is exact.  The loop of one back edge is a search backward that leaves the header out
(`mem_naturalLoop`).  And the fold over all back edges unites the loops that share a header,
whatever the order of the edges is (`get?_foldl_unite`).
-/

namespace RegAlloc

namespace LoopNest

variable {n : LoopNest} {h b : BlockId}

/-- Whether the loop with header `h` holds block `b`. -/
def holds (n : LoopNest) (h b : BlockId) : Bool :=
  (n.loops.get? h).any fun members => decide (b ∈ members)

theorem holds_iff :
    n.holds h b = true ↔ ∃ members, n.loops.get? h = some members ∧ b ∈ members := by
  unfold holds
  rw [Option.any_eq_true]
  simp only [decide_eq_true_eq]

/-- The headers of the loops around a block. -/
def around (n : LoopNest) (b : BlockId) : List BlockId := n.loops.keys.filter fun h => n.holds h b

theorem mem_around : h ∈ n.around b ↔ n.holds h b = true := by
  unfold around
  rw [List.mem_filter]
  refine and_iff_right_of_imp fun hholds => ?_
  obtain ⟨members, hget, -⟩ := holds_iff.mp hholds
  exact List.mem_map.mpr ⟨(h, members), IdMap.mem_toList.mpr hget, rfl⟩

theorem nodup_around (n : LoopNest) (b : BlockId) : (n.around b).Nodup :=
  n.loops.nodup_keys.filter _

theorem length_around (n : LoopNest) (b : BlockId) : (n.around b).length = n.depth b := by
  unfold around depth IdMap.keys
  rw [List.filter_map, List.length_map]
  refine congrArg List.length (List.filter_congr fun l hl => ?_)
  have hget : n.loops.get? l.1 = some l.2 := IdMap.mem_toList.mp hl
  simp [holds, hget]

/-- The depth of a block is the length of every list that names the headers around it once each. -/
theorem depth_eq_length {headers : List BlockId} (hnodup : headers.Nodup)
    (hmem : ∀ h, h ∈ headers ↔ n.holds h b = true) : n.depth b = headers.length := by
  rw [← length_around]
  refine ((List.perm_ext_iff_of_nodup (n.nodup_around b) hnodup).mpr fun h => ?_).length_eq
  rw [mem_around, hmem]

/-- **The depth of a block counts the loops around it.** -/
theorem encard_holds (n : LoopNest) (b : BlockId) :
    {h | n.holds h b = true}.encard = n.depth b := by
  have hset : {h | n.holds h b = true} = ↑(n.around b).toFinset := by
    ext h
    rw [Finset.mem_coe, List.mem_toFinset, mem_around]
    rfl
  rw [hset, Set.encard_coe_eq_coe_finsetCard, List.toFinset_card_of_nodup (n.nodup_around b),
    length_around]

end LoopNest

namespace FlowGraph

variable {g : FlowGraph} {h k t b c d : BlockId}

/-! ## Walks that avoid a block -/

/-- Some walk along successors from one block to another, of any length, never visits `h`. -/
inductive Avoids (g : FlowGraph) (h : BlockId) : BlockId → BlockId → Prop where
  | here {b : BlockId} : b ≠ h → Avoids g h b b
  | step {b c d : BlockId} : b ≠ h → c ∈ g.successors b → Avoids g h c d → Avoids g h b d

namespace Avoids

theorem source_ne (hwalk : g.Avoids h b c) : b ≠ h := by
  cases hwalk with
  | here hb => exact hb
  | step hb _ _ => exact hb

theorem target_ne (hwalk : g.Avoids h b c) : c ≠ h := by
  induction hwalk with
  | here hb => exact hb
  | step _ _ _ ih => exact ih

theorem trans (hbc : g.Avoids h b c) (hcd : g.Avoids h c d) : g.Avoids h b d := by
  induction hbc with
  | here _ => exact hcd
  | step hb hedge _ ih => exact .step hb hedge (ih hcd)

theorem tail (hbc : g.Avoids h b c) (hedge : d ∈ g.successors c) (hd : d ≠ h) : g.Avoids h b d :=
  hbc.trans (.step hbc.target_ne hedge (.here hd))

/-- A walk that avoids `h` avoids `k` as well, or comes through `k`. -/
theorem avoids_or_from (hwalk : g.Avoids h b c) (k : BlockId) :
    g.Avoids k b c ∨ g.Avoids h k c := by
  induction hwalk with
  | @here b hb =>
      by_cases hbk : b = k
      · subst hbk
        exact Or.inr (.here hb)
      · exact Or.inl (.here hbk)
  | @step b c d hb hedge hrest ih =>
      by_cases hbk : b = k
      · subst hbk
        exact Or.inr (.step hb hedge hrest)
      · exact ih.imp_left (.step hbk hedge)

end Avoids

/-- The search backward that leaves `h` out finds the blocks with a walk that avoids `h`. -/
theorem leadTo_backward_iff (ht : t ≠ h) :
    LeadTo (g.backward h) [t] b ↔ g.Avoids h b t := by
  constructor
  · intro hlead
    obtain ⟨root, hroot, hpath⟩ := hlead
    rw [List.mem_singleton.mp hroot] at hpath
    induction hpath with
    | refl => exact .here ht
    | tail _ hstep ih =>
        obtain ⟨hedge, hb⟩ := mem_backward.mp hstep
        exact .step hb hedge ih
  · intro hwalk
    induction hwalk with
    | here _ => exact .of_mem (List.mem_singleton_self _)
    | step hb hedge _ ih => exact (ih ht).step (mem_backward.mpr ⟨hedge, hb⟩)

/-! ## The loop of one back edge -/

/-- An edge from a block that control can reach to a block that dominates it. -/
def BackEdge (g : FlowGraph) (t h : BlockId) : Prop :=
  g.Reaches t ∧ h ∈ g.successors t ∧ g.Dominates h t

theorem mem_backEdges (hg : g.EdgesInRange) (hpos : 0 < g.size) :
    (t, h) ∈ g.backEdges ↔ g.BackEdge t h := by
  have hreach : t ∈ g.reachable ↔ g.Reaches t := by
    unfold reachable
    rw [IdSet.mem_ofList, (searchOrder_reversePostOrder hg hpos).mem_iff]
  unfold backEdges BackEdge
  rw [List.mem_flatMap]
  constructor
  · intro hmem
    obtain ⟨tail, -, hmem⟩ := hmem
    split at hmem
    · rename_i htail
      obtain ⟨header, hheader, hpair⟩ := List.mem_map.mp hmem
      cases hpair
      obtain ⟨hedge, hdom⟩ := List.mem_filter.mp hheader
      have ht := hreach.mp htail
      exact ⟨ht, hedge, (dominates_domTree hg hpos ht).mp hdom⟩
    · exact absurd hmem List.not_mem_nil
  · intro hback
    obtain ⟨ht, hedge, hdom⟩ := hback
    refine ⟨t, List.mem_range.mpr (ht.lt_size hg hpos), ?_⟩
    rw [if_pos (hreach.mpr ht), List.mem_map]
    exact ⟨h, List.mem_filter.mpr ⟨hedge, (dominates_domTree hg hpos ht).mpr hdom⟩, rfl⟩

/-- **The loop of one back edge.** -/
theorem mem_naturalLoop : b ∈ g.naturalLoop t h ↔ b = h ∨ g.Avoids h b t := by
  unfold naturalLoop
  split
  · -- no walk that avoids the header ends in it
    rename_i hself
    subst hself
    rw [IdSet.mem_singleton, or_iff_left]
    exact fun hwalk => hwalk.target_ne rfl
  · rename_i ht
    rw [IdSet.mem_insert]
    refine or_congr_right ?_
    exact mem_closure_backward.trans (leadTo_backward_iff ht)

/-! ## All loops -/

/-- Uniting sets under their headers: a header is there if an edge leads to it, and holds what the
sets of these edges hold. -/
theorem get?_foldl_unite (f : BlockId × BlockId → IdSet) (es : List (BlockId × BlockId))
    (loops : IdMap IdSet) :
    let result := es.foldl (fun m e => m.insert e.2 (((m.get? e.2).getD ∅) ∪ f e)) loops
    ((result.get? h).isSome = true ↔ (loops.get? h).isSome = true ∨ ∃ e ∈ es, e.2 = h) ∧
      (b ∈ (result.get? h).getD ∅ ↔
        b ∈ (loops.get? h).getD ∅ ∨ ∃ e ∈ es, e.2 = h ∧ b ∈ f e) := by
  induction es generalizing loops with
  | nil => simp
  | cons e es ih =>
      obtain ⟨hkey, hmem⟩ := ih (loops.insert e.2 (((loops.get? e.2).getD ∅) ∪ f e))
      rw [IdMap.get?_insert] at hkey hmem
      simp only [List.foldl_cons, List.exists_mem_cons_iff]
      rw [hkey, hmem, ← or_assoc, ← or_assoc]
      by_cases heh : h = e.2
      · subst heh
        simp
      · have hne : ¬ e.2 = h := fun heq => heh heq.symm
        simp [heh, hne]

/-- Block `b` is in the loop with header `h`, in terms of walks. -/
def InLoop (g : FlowGraph) (h b : BlockId) : Prop :=
  ∃ t, g.BackEdge t h ∧ (b = h ∨ g.Avoids h b t)

section Nest

variable (hg : g.EdgesInRange) (hpos : 0 < g.size)
include hg hpos

/-- The headers are the targets of back edges. -/
theorem isSome_loops_iff :
    (g.loopNest.loops.get? h).isSome = true ↔ ∃ t, g.BackEdge t h := by
  unfold loopNest
  rw [(get?_foldl_unite (b := h) (fun e => g.naturalLoop e.1 e.2) g.backEdges ∅).1, IdMap.get?_empty]
  simp only [Option.isSome_none, Bool.false_eq_true, false_or]
  constructor
  · intro hedge
    obtain ⟨⟨t, header⟩, he, rfl⟩ := hedge
    exact ⟨t, (mem_backEdges hg hpos).mp he⟩
  · intro hback
    obtain ⟨t, ht⟩ := hback
    exact ⟨(t, h), (mem_backEdges hg hpos).mpr ht, rfl⟩

/-- **A loop holds the blocks that its back edges put into it.** -/
theorem mem_loops_iff : b ∈ (g.loopNest.loops.get? h).getD ∅ ↔ g.InLoop h b := by
  unfold loopNest InLoop
  rw [(get?_foldl_unite (fun e => g.naturalLoop e.1 e.2) g.backEdges ∅).2, IdMap.get?_empty]
  simp only [Option.getD_none, IdSet.not_mem_empty, false_or, mem_naturalLoop]
  constructor
  · intro hedge
    obtain ⟨⟨t, header⟩, he, rfl, hb⟩ := hedge
    exact ⟨t, (mem_backEdges hg hpos).mp he, hb⟩
  · intro hback
    obtain ⟨t, ht, hb⟩ := hback
    exact ⟨(t, h), (mem_backEdges hg hpos).mpr ht, rfl, hb⟩

theorem holds_loopNest_iff : g.loopNest.holds h b = true ↔ g.InLoop h b := by
  rw [← mem_loops_iff hg hpos]
  unfold LoopNest.holds
  cases g.loopNest.loops.get? h <;> simp

end Nest

/-- **The loops of a program are exact.**  A block is a header exactly if a back edge leads to it:
control can reach the tail, and the header is a successor of the tail and dominates it.  The loop at
a header consists of the header and of all blocks with a walk to the tail of such an edge that never
visits the header.  The depth of a block is the number of headers whose loop holds it. -/
theorem loopNest_exact {is : List Instr} {gs : List FlowGraph} (hgs : ofInstrs is = .ok gs)
    (hg : g ∈ gs) :
    (∀ h, (∃ members, g.loopNest.loops.get? h = some members) ↔ ∃ t, g.BackEdge t h) ∧
      (∀ h members, g.loopNest.loops.get? h = some members →
        ∀ b, b ∈ members ↔ b = h ∨ ∃ t, g.BackEdge t h ∧ g.Avoids h b t) ∧
      ∀ b, {h | ∃ members, g.loopNest.loops.get? h = some members ∧ b ∈ members}.encard =
        g.loopNest.depth b := by
  have hrange := edgesInRange_of_mem hgs hg
  have hpos := size_pos_of_mem hgs hg
  have hheader : ∀ h,
      (∃ members, g.loopNest.loops.get? h = some members) ↔ ∃ t, g.BackEdge t h := by
    intro h
    rw [← Option.isSome_iff_exists]
    exact isSome_loops_iff hrange hpos
  refine ⟨hheader, fun h members hmembers b => ?_, fun b => ?_⟩
  · have hloop : b ∈ members ↔ g.InLoop h b := by
      rw [← mem_loops_iff hrange hpos, hmembers, Option.getD_some]
    rw [hloop]
    constructor
    · intro hin
      obtain ⟨t, ht, hbh | hwalk⟩ := hin
      · exact Or.inl hbh
      · exact Or.inr ⟨t, ht, hwalk⟩
    · intro hin
      rcases hin with hbh | ⟨t, ht, hwalk⟩
      · obtain ⟨t, ht⟩ := (hheader h).mp ⟨members, hmembers⟩
        exact ⟨t, ht, Or.inl hbh⟩
      · exact ⟨t, ht, Or.inr hwalk⟩
  · simp only [← LoopNest.holds_iff]
    exact g.loopNest.encard_holds b

/-- Two loops, one inside the other, and a block that jumps into the inner one although control
never comes to it. -/
def nestedLoops : List Instr :=
  [.label "nest" (some ⟨0, [], none⟩), .label "outer" none,
    .label "inner" none, .branch (.symbol 1) "inner", .branch (.symbol 2) "outer", .jump "done",
    .copy 3 (.const 0), .jump "inner", .label "done" none, .ret none]

/-- The control flow of its only procedure. -/
def nestedFlow : FlowGraph := ofRegion ⟨0, "nest", ⟨0, [], none⟩, nestedLoops⟩

/-- Block `1` is the header of the outer loop, which also holds block `5`: control cannot reach that
block, but a walk leads from it to the tail.  Around block `2`, the inner loop, are two headers. -/
theorem loopNest_exact_nestedLoops :
    ofInstrs nestedLoops = .ok [nestedFlow] ∧ nestedFlow ∈ [nestedFlow] ∧
      (∃ t, nestedFlow.BackEdge t 1 ∧ nestedFlow.Avoids 1 5 t) ∧ (¬ ∃ t, nestedFlow.BackEdge t 3) ∧
      {h | ∃ members, nestedFlow.loopNest.loops.get? h = some members ∧ 2 ∈ members}.encard =
        (2 : Nat) := by
  have hgs : ofInstrs nestedLoops = .ok [nestedFlow] := rfl
  have hmem : nestedFlow ∈ [nestedFlow] := List.mem_singleton_self _
  obtain ⟨hheader, hloop, hdepth⟩ := loopNest_exact hgs hmem
  have houter : nestedFlow.loopNest.loops.get? 1 = some (IdSet.ofList [1, 2, 3, 5]) := by
    decide +kernel
  have hthree : nestedFlow.loopNest.loops.get? 3 = none := by decide +kernel
  have htwo : nestedFlow.loopNest.depth 2 = 2 := by decide +kernel
  refine ⟨hgs, hmem, ?_, fun hback => ?_, ?_⟩
  · exact ((hloop 1 _ houter 5).mp (by decide)).resolve_left (by decide)
  · obtain ⟨members, hmembers⟩ := (hheader 3).mpr hback
    exact absurd (hthree.symm.trans hmembers) (by simp)
  · rw [hdepth 2, htwo]

end FlowGraph

end RegAlloc
