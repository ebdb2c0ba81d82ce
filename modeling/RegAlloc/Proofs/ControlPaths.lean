import Mathlib.Logic.Relation
import RegAlloc.Proofs.LivenessSolution

/-!
# Control paths, instruction by instruction

The analysis works with whole blocks.  What a symbol is needed for is a question about single
instructions: a symbol is **live at a point** if some control path from there reads it before
writing it (`LiveAt`).  A point stands before an instruction of a block, or at the end of the block,
from where control goes on to the top of a successor.

The computed sets are carried to every point by going backwards through the rest of a block from
the set at its bottom (`liveSetAt`), and there they are exact as well (`liveAt_iff`).  One half is
an induction along the path, the other goes through the walks between blocks.
-/

namespace RegAlloc

/-- A point between instructions: before instruction number `offset` of a block, or at the end of
the block if `offset` is their number. -/
structure ControlPoint where
  /-- The block. -/
  block : BlockId
  /-- How many of its instructions are done. -/
  offset : Nat
deriving DecidableEq, Repr

namespace FlowGraph

variable {g : FlowGraph} {x : SymbolId} {p q : ControlPoint} {b : BlockId} {n : Nat}

/-- The instruction that is done next at a point. -/
def instrAt? (g : FlowGraph) (p : ControlPoint) : Option Instr := (g.instrs p.block)[p.offset]?

/-- One step of control. -/
inductive Flows (g : FlowGraph) : ControlPoint → ControlPoint → Prop where
  | inside {b : BlockId} {n : Nat} : n < (g.instrs b).length → Flows g ⟨b, n⟩ ⟨b, n + 1⟩
  | across {b c : BlockId} : c ∈ g.successors b → Flows g ⟨b, (g.instrs b).length⟩ ⟨c, 0⟩

/-- The next instruction reads `x`. -/
def Reads (g : FlowGraph) (x : SymbolId) (p : ControlPoint) : Prop :=
  ∃ i, g.instrAt? p = some i ∧ x ∈ i.uses

/-- The next instruction writes `x`. -/
def Writes (g : FlowGraph) (x : SymbolId) (p : ControlPoint) : Prop :=
  ∃ i, g.instrAt? p = some i ∧ x ∈ i.defs

/-- **Live at a point:** some control path leads to a read of `x`, and nothing before that read on
the path writes `x`. -/
def LiveAt (g : FlowGraph) (x : SymbolId) (p : ControlPoint) : Prop :=
  ∃ q, Relation.ReflTransGen (fun p q => g.Flows p q ∧ ¬ g.Writes x p) p q ∧ g.Reads x q

theorem LiveAt.of_reads (h : g.Reads x p) : g.LiveAt x p := ⟨p, Relation.ReflTransGen.refl, h⟩

theorem LiveAt.of_flows (hflow : g.Flows p q) (hkeep : ¬ g.Writes x p) (h : g.LiveAt x q) :
    g.LiveAt x p := by
  obtain ⟨r, hpath, hread⟩ := h
  exact ⟨r, Relation.ReflTransGen.head ⟨hflow, hkeep⟩ hpath, hread⟩

/-- What is live at a point is read by some instruction. -/
theorem LiveAt.exists_reader (h : g.LiveAt x p) :
    ∃ block ∈ g.blocks, ∃ i ∈ block.instrs, x ∈ i.uses := by
  obtain ⟨q, -, i, hi, hx⟩ := h
  obtain ⟨block, hblock, hi⟩ := exists_block_of_mem_instrs (List.mem_of_getElem? hi)
  exact ⟨block, hblock, i, hi, hx⟩

/-- What the sets say at a point: go backwards through the rest of the block. -/
def liveSetAt (g : FlowGraph) (p : ControlPoint) : IdSet :=
  ((g.instrs p.block).drop p.offset).foldr Instr.liveBefore (g.liveness.liveOut p.block)

theorem liveSetAt_top (hg : g.EdgesInRange) (b : BlockId) :
    g.liveSetAt ⟨b, 0⟩ = g.liveness.liveIn b := by
  rw [liveIn_eq_foldr hg]
  rfl

theorem liveSetAt_bottom (g : FlowGraph) (b : BlockId) :
    g.liveSetAt ⟨b, (g.instrs b).length⟩ = g.liveness.liveOut b := by
  rw [liveSetAt, List.drop_length]
  rfl

theorem liveSetAt_of_instrAt? {i : Instr} (hi : g.instrAt? ⟨b, n⟩ = some i) :
    g.liveSetAt ⟨b, n⟩ = i.liveBefore (g.liveSetAt ⟨b, n + 1⟩) := by
  obtain ⟨hn, rfl⟩ := List.getElem?_eq_some_iff.mp hi
  rw [liveSetAt, List.drop_eq_getElem_cons hn, List.foldr_cons]
  rfl

/-- **The computed sets miss nothing at any point.** -/
theorem LiveAt.mem_liveSetAt (hg : g.EdgesInRange) (h : g.LiveAt x p) : x ∈ g.liveSetAt p := by
  obtain ⟨q, hpath, hread⟩ := h
  -- from the read at the end of the path back to its start
  induction hpath using Relation.ReflTransGen.head_induction_on with
  | refl =>
      obtain ⟨i, hi, hx⟩ := hread
      rw [liveSetAt_of_instrAt? hi]
      exact Instr.mem_liveBefore.mpr (Or.inr hx)
  | head hstep _ ih =>
      obtain ⟨hflow, hkeep⟩ := hstep
      cases hflow with
      | @inside b n hn =>
          have hi : g.instrAt? ⟨b, n⟩ = some (g.instrs b)[n] := List.getElem?_eq_getElem hn
          rw [liveSetAt_of_instrAt? hi]
          refine Instr.mem_liveBefore.mpr (Or.inl ⟨ih, fun hx => hkeep ?_⟩)
          exact ⟨_, hi, hx⟩
      | @across b c hc =>
          rw [liveSetAt_top hg] at ih
          rw [liveSetAt_bottom]
          exact (mem_liveOut hg).mpr ⟨c, hc, ih⟩

/-- Inside a block: what the rest of the block reads first, or leaves alone until its end. -/
theorem LiveAt.of_mem_foldr {out : IdSet}
    (hout : x ∈ out → g.LiveAt x ⟨b, (g.instrs b).length⟩) (hn : n ≤ (g.instrs b).length)
    (hx : x ∈ ((g.instrs b).drop n).foldr Instr.liveBefore out) : g.LiveAt x ⟨b, n⟩ := by
  induction hn using Nat.decreasingInduction with
  | self =>
      rw [List.drop_length] at hx
      exact hout hx
  | of_succ n hn ih =>
      have hi : g.instrAt? ⟨b, n⟩ = some (g.instrs b)[n] := List.getElem?_eq_getElem hn
      rw [List.drop_eq_getElem_cons hn, List.foldr_cons] at hx
      rcases Instr.mem_liveBefore.mp hx with ⟨hx, hkeep⟩ | hread
      · refine LiveAt.of_flows (Flows.inside hn) ?_ (ih hx)
        rintro ⟨i, hi', hwrite⟩
        exact hkeep (Option.some.inj (hi.symm.trans hi') ▸ hwrite)
      · exact LiveAt.of_reads ⟨_, hi, hread⟩

theorem LiveAt.of_successor {c : BlockId} (hc : c ∈ g.successors b) (h : g.LiveAt x ⟨c, 0⟩) :
    g.LiveAt x ⟨b, (g.instrs b).length⟩ := by
  refine LiveAt.of_flows (Flows.across hc) ?_ h
  rintro ⟨i, hi, -⟩
  rw [instrAt?, List.getElem?_length] at hi
  exact absurd hi (by simp)

/-- A walk between blocks is a control path. -/
theorem LiveOnEntry.liveAt (h : g.LiveOnEntry x b) : g.LiveAt x ⟨b, 0⟩ := by
  induction h with
  | @reads b h =>
      have hx : x ∈ ((g.instrs b).drop 0).foldr Instr.liveBefore ∅ := by
        rw [List.drop_zero, ← DefUse.liveIn_ofInstrs]
        exact DefUse.mem_liveIn.mpr (Or.inr h)
      exact LiveAt.of_mem_foldr (fun hx => absurd hx (IdSet.not_mem_empty x)) (Nat.zero_le _) hx
  | @keeps b c hkeeps hc _ ih =>
      have hx : x ∈ ((g.instrs b).drop 0).foldr Instr.liveBefore (IdSet.singleton x) := by
        rw [List.drop_zero, ← DefUse.liveIn_ofInstrs]
        exact DefUse.mem_liveIn.mpr (Or.inl ⟨IdSet.mem_singleton.mpr rfl, hkeeps⟩)
      exact LiveAt.of_mem_foldr (fun _ => LiveAt.of_successor hc ih) (Nat.zero_le _) hx

/-- **The computed sets are exact at every point.** -/
theorem liveAt_iff (hg : g.EdgesInRange) (hn : n ≤ (g.instrs b).length) :
    g.LiveAt x ⟨b, n⟩ ↔ x ∈ g.liveSetAt ⟨b, n⟩ := by
  refine ⟨LiveAt.mem_liveSetAt hg, LiveAt.of_mem_foldr (fun hout => ?_) hn⟩
  obtain ⟨c, hc, hlive⟩ := (mem_liveOut_iff hg).mp hout
  exact LiveAt.of_successor hc hlive.liveAt

/-- **Liveness is what control paths say.**  In every flow graph of a program a symbol is in the set
at the top of a block exactly if some control path from there reads it and nothing before that read
on the path writes it, and it is in the set at the bottom exactly if it is in the set at the top of
some successor. -/
theorem liveness_exact {is : List Instr} {gs : List FlowGraph} (hgs : ofInstrs is = .ok gs)
    (hg : g ∈ gs) (b : BlockId) (x : SymbolId) :
    (x ∈ g.liveness.liveIn b ↔ g.LiveAt x ⟨b, 0⟩) ∧
      (x ∈ g.liveness.liveOut b ↔ ∃ c ∈ g.successors b, x ∈ g.liveness.liveIn c) := by
  have hrange := edgesInRange_of_mem hgs hg
  refine ⟨?_, mem_liveOut hrange⟩
  rw [liveAt_iff hrange (Nat.zero_le _), liveSetAt_top hrange]

/-- In the loop that is entered at two places, symbol `1` is live at both, since one goes round to
the other; it is not live at the entry, which writes it first.  Symbol `4` is live where control
never comes. -/
theorem liveness_exact_crossing :
    ofInstrs crossing = .ok [crossingWalk, crossingAgain] ∧
      crossingWalk.LiveAt 1 ⟨1, 0⟩ ∧ crossingWalk.LiveAt 1 ⟨2, 0⟩ ∧
      ¬ crossingWalk.LiveAt 1 ⟨0, 0⟩ ∧ crossingWalk.LiveAt 4 ⟨3, 0⟩ ∧
      1 ∈ crossingWalk.liveness.liveOut 0 := by
  have hexact := liveness_exact ofInstrs_crossing List.mem_cons_self
  refine ⟨ofInstrs_crossing, (hexact 1 1).1.mp ?_, (hexact 2 1).1.mp ?_,
    fun hlive => absurd ((hexact 0 1).1.mpr hlive) ?_, (hexact 3 4).1.mp ?_,
    (hexact 0 1).2.mpr ⟨1, ?_, ?_⟩⟩
  all_goals decide +kernel

end FlowGraph

end RegAlloc
