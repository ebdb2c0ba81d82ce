import RegAlloc.Proofs.ControlPaths
import RegAlloc.Proofs.ProgramRegisters

/-!
# Writing beside a value that is still needed

One would like an assignment to leave every other value alone that is read later.  The registers do
**not** promise that much: contention is taken from the two ends of blocks, so two lifetimes that
overlap only between the ends may share a register, and then the write destroys a value that is read
afterwards.

What they promise is the same law for values that meet at the top or the bottom of some block, or of
which one is the receiver and the other is guarded from it (`KeptApart`).  The two programs at the
end differ by a label between the writes and the reads, which is enough to make the values meet.
-/

namespace RegAlloc

namespace FlowGraph

open InterferenceGraph

variable {g : FlowGraph} {isField : SymbolId → Bool} {settings : Settings} {d v : SymbolId}

/-- No write lands in the register of another value that is read later, unless it copies that
value. -/
def KeepsNeeded (g : FlowGraph) (coloring : Coloring) : Prop :=
  ∀ b n i d v, g.instrAt? ⟨b, n⟩ = some i → d ∈ i.defs → v ≠ d → i.copyPair? ≠ some (d, v) →
    g.LiveAt v ⟨b, n + 1⟩ → coloring.color? d ≠ coloring.color? v

/-- Control paths from one end of some block read both symbols before writing them. -/
def Meet (g : FlowGraph) (d v : SymbolId) : Prop :=
  ∃ b, (g.LiveAt d ⟨b, 0⟩ ∧ g.LiveAt v ⟨b, 0⟩) ∨
    (g.LiveAt d ⟨b, (g.instrs b).length⟩ ∧ g.LiveAt v ⟨b, (g.instrs b).length⟩)

theorem LiveAt.mentions {p : ControlPoint} (h : g.LiveAt v p) : g.Mentions v := by
  obtain ⟨block, hblock, i, hi, hv⟩ := h.exists_reader
  exact Or.inr ⟨block, hblock, i, hi, Or.inr hv⟩

theorem Writes.mentions {p : ControlPoint} (h : g.Writes d p) : g.Mentions d := by
  obtain ⟨i, hi, hd⟩ := h
  obtain ⟨block, hblock, hi⟩ := exists_block_of_mem_instrs (List.mem_of_getElem? hi)
  exact Or.inr ⟨block, hblock, i, hi, Or.inl hd⟩

/-- The registers of `d` and `v` are kept apart. -/
def KeptApart (g : FlowGraph) (isField : SymbolId → Bool) (settings : Settings)
    (d v : SymbolId) : Prop :=
  g.Meet d v ∨ KeepsOff g isField settings.pinReceiver d v ∨
    KeepsOff g isField settings.pinReceiver v d

/-- Symbols meet exactly if they are live together in the computed sets. -/
theorem meet_iff (hg : g.EdgesInRange) : g.Meet d v ↔ LiveAtOneEnd g g.liveness d v := by
  have hends : ∀ b, (g.LiveAt d ⟨b, 0⟩ ∧ g.LiveAt v ⟨b, 0⟩ ∨
      g.LiveAt d ⟨b, (g.instrs b).length⟩ ∧ g.LiveAt v ⟨b, (g.instrs b).length⟩) ↔
      g.LiveTogether b d v := by
    refine fun b => or_congr ?_ ?_
    · rw [liveAt_iff hg (Nat.zero_le _), liveAt_iff hg (Nat.zero_le _), liveSetAt_top hg]
    · rw [liveAt_iff hg (Nat.le_refl _), liveAt_iff hg (Nat.le_refl _), liveSetAt_bottom]
  refine (exists_congr hends).trans (exists_congr fun b => ?_)
  refine ⟨fun hlive => ⟨?_, hlive⟩, fun hlive => hlive.2⟩
  exact (mentions_of_live hg (hlive.imp (fun h => h.1) (fun h => h.1))).1

/-- **Which symbols contend, in terms of control paths.** -/
theorem contend_iff_keptApart (hg : g.EdgesInRange) (hdv : v ≠ d) (hd : g.Mentions d)
    (hv : g.Mentions v) :
    (ProcedureRun.ofFlow isField settings g).interference.Contend d v ↔
      g.KeptApart isField settings d v := by
  rw [contend_iff isField settings hg hdv.symm hd hv, ← meet_iff hg]
  rfl

end FlowGraph

namespace Program

/-- **A write leaves the needed values alone that it meets at the end of a block.**  In every
procedure of an allocated program, an instruction that writes `d` and a different symbol `v` that is
read later have registers.  These differ if both symbols are live at the top, or both at the bottom,
of some block, or if one of them is the receiver and the other is guarded from it; and those are
exactly the pairs for which the interference graph asks it. -/
theorem allocate_separates_meeting (p : Program) (isField : SymbolId → Bool) (settings : Settings)
    (a : Allocation) (h : p.allocate isField settings = .ok a) :
    ∃ flows, FlowGraph.ofInstrs p.instrs = .ok flows ∧
      List.Forall₂
        (fun g r => ∀ b n i d v, g.instrAt? ⟨b, n⟩ = some i → d ∈ i.defs → v ≠ d →
          g.LiveAt v ⟨b, n + 1⟩ →
          ((ProcedureRun.ofFlow isField settings g).interference.Contend d v ↔
            g.KeptApart isField settings d v) ∧
          ∃ c e, r.coloring.color? d = some c ∧ r.coloring.color? v = some e ∧
            (g.KeptApart isField settings d v → c ≠ e))
        flows a.procedures := by
  refine forall₂_of_allocate h fun g hg hvalid => ?_
  intro b n i d v hi hd hdv hlive
  have hwrites : g.Writes d ⟨b, n⟩ := ⟨i, hi, hd⟩
  have hcontend : (ProcedureRun.ofFlow isField settings g).interference.Contend d v ↔
      g.KeptApart isField settings d v :=
    FlowGraph.contend_iff_keptApart hg hdv hwrites.mentions hlive.mentions
  obtain ⟨c, hc⟩ := (hvalid.colored d).mpr hwrites.mentions
  obtain ⟨e, he⟩ := (hvalid.colored v).mpr hlive.mentions
  refine ⟨hcontend, c, e, hc, he, fun hapart => ?_⟩
  exact FlowGraph.color_ne_of_contend isField settings (hcontend.mpr hapart) hc he

/-- Two values are written and then passed on as arguments, with something in between. -/
def twoArguments (between : List Instr) : Program where
  symbols := ∅
  instrs :=
    [.label "m" (some ⟨0, [], none⟩), .copy 1 (.const 1), .copy 2 (.const 2)] ++ between ++
      [.param (.symbol 1), .param (.symbol 2), .call none 3 2, .ret none]

/-- The control flow of its only procedure. -/
def twoArgumentsFlow (between : List Instr) : FlowGraph :=
  FlowGraph.ofRegion ⟨0, "m", ⟨0, [], none⟩, (twoArguments between).instrs⟩

/-- Its registers under the standard settings. -/
def twoArgumentsRegisters (between : List Instr) : ProcedureRegisters :=
  ⟨"m", 0, (ProcedureRun.ofFlow (fun _ => false) Settings.standard
    (twoArgumentsFlow between)).result⟩

theorem allocate_twoArguments {between : List Instr}
    (hflows : FlowGraph.ofInstrs (twoArguments between).instrs = .ok [twoArgumentsFlow between])
    (hspilled : (twoArgumentsRegisters between).coloring.spilled = []) :
    (twoArguments between).allocate (fun _ => false) Settings.standard =
      .ok ⟨[twoArgumentsRegisters between]⟩ := by
  refine allocate_eq_ok.mpr ⟨rfl, _, hflows, List.Forall₂.cons ?_ List.Forall₂.nil⟩
  exact FlowGraph.allocateNamed_eq_ok.mpr ⟨rfl, hspilled, rfl⟩

/-- **Not every needed value is kept.**  When symbol `2` is written, symbol `1` is still to be read,
but both have register `0`. -/
theorem twoArguments_overwrites :
    (twoArguments []).allocate (fun _ => false) Settings.standard =
        .ok ⟨[twoArgumentsRegisters []]⟩ ∧
      FlowGraph.ofInstrs (twoArguments []).instrs = .ok [twoArgumentsFlow []] ∧
      ¬ (twoArgumentsFlow []).KeepsNeeded (twoArgumentsRegisters []).coloring := by
  refine ⟨allocate_twoArguments rfl (by decide +kernel), rfl, fun hkeeps => ?_⟩
  have hlive : (twoArgumentsFlow []).LiveAt 1 ⟨0, 3⟩ :=
    FlowGraph.LiveAt.of_reads ⟨.param (.symbol 1), rfl, List.mem_singleton_self 1⟩
  refine hkeeps 0 2 (.copy 2 (.const 2)) 2 1 rfl (List.mem_singleton_self 2) ?_ ?_ hlive ?_
  · decide
  · decide
  · decide +kernel

/-- A label between the writes and the reads ends the block, the two values meet there, and the
theorem keeps them apart. -/
theorem allocate_separates_meeting_twoArguments :
    (twoArguments [.label "next" none]).allocate (fun _ => false) Settings.standard =
        .ok ⟨[twoArgumentsRegisters [.label "next" none]]⟩ ∧
      (twoArgumentsFlow [.label "next" none]).LiveAt 1 ⟨0, 3⟩ ∧
      (twoArgumentsFlow [.label "next" none]).Meet 2 1 ∧
      ∃ c e, (twoArgumentsRegisters [.label "next" none]).coloring.color? 2 = some c ∧
        (twoArgumentsRegisters [.label "next" none]).coloring.color? 1 = some e ∧ c ≠ e := by
  have hrange : (twoArgumentsFlow [.label "next" none]).EdgesInRange :=
    FlowGraph.edgesInRange_ofRegion _
  have hflows : FlowGraph.ofInstrs (twoArguments [.label "next" none]).instrs =
      .ok [twoArgumentsFlow [.label "next" none]] := rfl
  have hok := allocate_twoArguments hflows (by decide +kernel)
  have hlive : (twoArgumentsFlow [.label "next" none]).LiveAt 1 ⟨0, 3⟩ :=
    (FlowGraph.liveAt_iff hrange (Nat.le_refl 3)).mpr (by decide +kernel)
  have hmeet : (twoArgumentsFlow [.label "next" none]).Meet 2 1 :=
    (FlowGraph.meet_iff hrange).mpr ⟨0, by decide, Or.inr (by decide +kernel)⟩
  obtain ⟨flows, hflows', hall⟩ := allocate_separates_meeting _ _ _ _ hok
  cases hflows.symm.trans hflows'
  obtain ⟨-, c, e, hc, he, hne⟩ := (List.forall₂_cons.mp hall).1 0 2 (.copy 2 (.const 2)) 2 1 rfl
    (List.mem_singleton_self 2) (by decide) hlive
  exact ⟨hok, hlive, hmeet, c, e, hc, he, hne (Or.inl hmeet)⟩

end Program

end RegAlloc
