import Mathlib.Logic.ExistsUnique
import RegAlloc.Proofs.ProgramRegisters

/-!
# The interference graph relates exactly the symbols it should

The graph of a procedure is described here node by node, and for live sets of any origin: which
symbols have a node, which two nodes interfere, and which two are joined by a move
(`InterferenceGraph.Describes`).  Neither an edge too few nor one too many is in it, and nothing has
been taken out or merged yet.

The work was done on symbols, where the growth of the graph is followed.  A well-formed graph has
one node per symbol, so an edge between two nodes is the same as an edge between their symbols
(`joined_iff_linked`).
-/

namespace RegAlloc

namespace InterferenceGraph

variable {g : InterferenceGraph} {s t : SymbolId} {m n : NodeId}

/-! ## From symbols to nodes -/

/-- Edges between symbols are edges between their nodes. -/
theorem joined_iff_linked {edges : Adjacency} (hg : g.WellFormed) (hm : g.symbol? m = some s)
    (hn : g.symbol? n = some t) : g.Joined edges s t ↔ edges.linked m n = true := by
  constructor
  · intro h
    obtain ⟨u, v, hu, hv, huv⟩ := h
    rwa [hg.symbols hm hu, hg.symbols hn hv]
  · intro h
    exact ⟨m, n, hm, hn, h⟩

theorem contend_iff_interferes (hg : g.WellFormed) (hm : g.symbol? m = some s)
    (hn : g.symbol? n = some t) : g.Contend s t ↔ g.interferes m n = true :=
  joined_iff_linked hg hm hn

theorem copied_iff_hasMove (hg : g.WellFormed) (hm : g.symbol? m = some s)
    (hn : g.symbol? n = some t) : g.Copied s t ↔ g.hasMove m n = true :=
  joined_iff_linked hg hm hn

/-! ## What should be in the graph -/

/-- The symbols that need a node: the receiver, what an instruction writes, both ends of a copy, and
what is live at an end of a block. -/
def NeedsNode (flow : FlowGraph) (l : Liveness) (s : SymbolId) : Prop :=
  flow.receiver? = some s ∨
    (∃ block ∈ flow.blocks, ∃ i ∈ block.instrs, s ∈ i.defs ∨ ∃ t, CopiesBetween i s t) ∨
    ∃ b < flow.size, s ∈ l.liveIn b ∨ s ∈ l.liveOut b

/-- **The graph relates exactly the symbols it should.** -/
structure Describes (flow : FlowGraph) (l : Liveness) (isField : SymbolId → Bool) (pin : Bool)
    (g : InterferenceGraph) : Prop where
  /-- Every node is active and none has been merged. -/
  untouched : g.Untouched
  /-- A symbol that needs a node has exactly one. -/
  existsUnique : ∀ s, NeedsNode flow l s → ∃! n, g.symbol? n = some s
  /-- Every node is there for a symbol that needs it. -/
  needed : ∀ n < g.size, ∃ s, g.symbol? n = some s ∧ NeedsNode flow l s
  /-- Two nodes interfere if their symbols are live together, or one must keep off the other. -/
  interferes_iff : ∀ m n s t, m ≠ n → g.symbol? m = some s → g.symbol? n = some t →
    (g.interferes m n = true ↔
      LiveAtOneEnd flow l s t ∨ KeepsOff flow isField pin s t ∨ KeepsOff flow isField pin t s)
  /-- Two nodes are joined by a move if an instruction copies one of their symbols to the other. -/
  hasMove_iff : ∀ m n s t, g.symbol? m = some s → g.symbol? n = some t →
    (g.hasMove m n = true ↔ ∃ block ∈ flow.blocks, ∃ i ∈ block.instrs, CopiesBetween i s t)

section Build

variable (flow : FlowGraph) (l : Liveness) (isField : SymbolId → Bool) (pin : Bool)

/-- The target of a copy is written anyway. -/
theorem bringsUp_iff {i : Instr} : BringsUp i s ↔ s ∈ i.defs ∨ ∃ t, CopiesBetween i s t := by
  unfold BringsUp CopiesBetween
  constructor
  · intro h
    exact h.imp_right fun ⟨d, hd⟩ => ⟨d, Or.inr hd⟩
  · intro h
    rcases h with hs | ⟨t, hst | hts⟩
    · exact Or.inl hs
    · exact Or.inl (mem_defs_of_copyPair? hst)
    · exact Or.inr ⟨t, hts⟩

theorem procedureBringsUp_iff_needsNode : ProcedureBringsUp flow l s ↔ NeedsNode flow l s := by
  unfold ProcedureBringsUp BlockBringsUp NeedsNode
  rw [← exists_zipIdx_iff, ← exists_zipIdx_fst_iff, ← exists_or]
  simp only [bringsUp_iff, ← and_or_left]

theorem symbol?_build_iff :
    (∃ n, (build flow l isField pin).symbol? n = some s) ↔ NeedsNode flow l s :=
  (holds_build flow l isField pin).trans (procedureBringsUp_iff_needsNode flow l)

/-- **The graph that is built is described by the live sets it is built from.** -/
theorem describes_build : (build flow l isField pin).Describes flow l isField pin := by
  have hwell := (fresh_build flow l isField pin).wellFormed
  constructor
  case untouched => exact (fresh_build flow l isField pin).untouched
  case existsUnique =>
    intro s hs
    obtain ⟨n, hn⟩ := (symbol?_build_iff flow l isField pin).mpr hs
    exact ⟨n, hn, fun m hm => hwell.symbols hm hn⟩
  case needed =>
    intro n hn
    obtain ⟨s, hs⟩ := symbol?_eq_some_of_lt hn
    exact ⟨s, hs, (symbol?_build_iff flow l isField pin).mp ⟨n, hs⟩⟩
  case interferes_iff =>
    intro m n s t hmn hm hn
    have hst : s ≠ t := by
      rintro rfl
      exact hmn (hwell.symbols hm hn)
    rw [← contend_iff_interferes hwell hm hn]
    exact contend_build_iff flow l isField pin hst ((holds_build flow l isField pin).mp ⟨m, hm⟩)
      ((holds_build flow l isField pin).mp ⟨n, hn⟩)
  case hasMove_iff =>
    intro m n s t hm hn
    rw [← copied_iff_hasMove hwell hm hn]
    exact copied_build flow l isField pin

end Build

end InterferenceGraph

namespace FlowGraph

open InterferenceGraph

/-- **The interference graph of a procedure is exact.**  Whatever the live sets are, the graph built
from them has all nodes active and unmerged, one for each symbol that needs it and no others; two of
them interfere exactly if their symbols are live together at one end of a block or one is the
receiver and must be kept off the other; and two are joined by a move exactly if some instruction
copies one symbol to the other.  With the computed live sets, the symbols are those that the
procedure mentions. -/
theorem interference_exact {is : List Instr} {gs : List FlowGraph} {flow : FlowGraph}
    (hgs : ofInstrs is = .ok gs) (hflow : flow ∈ gs) (isField : SymbolId → Bool) (pin : Bool) :
    (∀ l, (build flow l isField pin).Describes flow l isField pin) ∧
      ∀ s, (∃ n, (build flow flow.liveness isField pin).symbol? n = some s) ↔ flow.Mentions s := by
  refine ⟨fun l => describes_build flow l isField pin, fun s => ?_⟩
  rw [← procedureBringsUp_iff (edgesInRange_of_mem hgs hflow)]
  exact holds_build flow flow.liveness isField pin

end FlowGraph

namespace Program

open InterferenceGraph

/-- The control flow of the method that counts up. -/
def countUpFlow : FlowGraph :=
  FlowGraph.ofRegion ⟨0, "count", ⟨0, [], some 1⟩, countUp.instrs⟩

/-- Its interference graph, with symbol `4` as a field. -/
def countUpGraph : InterferenceGraph := build countUpFlow countUpFlow.liveness (· == 4) false

/-- The receiver, which nothing reads, is node `0` and interferes with the field, node `2`, but not
with the counter, node `1`; the copy in the loop is a move; and symbol `6` has a node although it is
read only where control never comes. -/
theorem interference_exact_countUp :
    FlowGraph.ofInstrs countUp.instrs = .ok [countUpFlow] ∧ countUpFlow ∈ [countUpFlow] ∧
      (∃! n, countUpGraph.symbol? n = some 6) ∧ countUpFlow.Mentions 6 ∧
      countUpGraph.interferes 0 2 = true ∧ countUpGraph.interferes 0 1 = false ∧
      countUpGraph.hasMove 1 3 = true := by
  have hgs : FlowGraph.ofInstrs countUp.instrs = .ok [countUpFlow] := rfl
  have hmem : countUpFlow ∈ [countUpFlow] := List.mem_singleton_self _
  obtain ⟨hdescribes, hmentions⟩ := FlowGraph.interference_exact hgs hmem (· == 4) false
  have hgraph : countUpGraph.Describes countUpFlow countUpFlow.liveness (· == 4) false :=
    hdescribes countUpFlow.liveness
  have hnodes : countUpGraph.symbol? 0 = some 1 ∧ countUpGraph.symbol? 1 = some 2 ∧
      countUpGraph.symbol? 2 = some 4 ∧ countUpGraph.symbol? 3 = some 3 ∧
      countUpGraph.symbol? 5 = some 6 := by decide +kernel
  obtain ⟨hreceiver, hcounter, hfield, hsum, hsixth⟩ := hnodes
  have hsix : countUpFlow.Mentions 6 := (hmentions 6).mp ⟨5, hsixth⟩
  have hlive : NeedsNode countUpFlow countUpFlow.liveness 6 :=
    Or.inr (Or.inr ⟨3, by decide, by decide +kernel⟩)
  refine ⟨hgs, hmem, hgraph.existsUnique 6 hlive, hsix, ?_, ?_, ?_⟩
  · exact (hgraph.interferes_iff 0 2 1 4 (by decide) hreceiver hfield).mpr
      (Or.inr (Or.inl ⟨rfl, Or.inl rfl⟩))
  · refine Bool.eq_false_iff.mpr fun h => ?_
    rcases (hgraph.interferes_iff 0 1 1 2 (by decide) hreceiver hcounter).mp h with
      ⟨b, hb, htogether⟩ | ⟨-, hguard⟩ | ⟨hother, -⟩
    · have hnever : ∀ b < countUpFlow.size, 1 ∉ countUpFlow.liveness.liveIn b ∧
          1 ∉ countUpFlow.liveness.liveOut b := by decide +kernel
      exact htogether.elim (fun hin => (hnever b hb).1 hin.1) fun hout => (hnever b hb).2 hout.1
    · exact absurd hguard (by decide)
    · exact absurd hother (by decide)
  · refine (hgraph.hasMove_iff 1 3 2 3 hcounter hsum).mpr
      ⟨_, List.mem_of_getElem? (show countUpFlow.blocks[1]? = some _ from rfl), ?_⟩
    exact ⟨.copy 2 (.symbol 3), by decide, Or.inl rfl⟩

end Program

end RegAlloc
