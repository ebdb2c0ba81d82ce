import RegAlloc.Allocation.Program
import RegAlloc.Proofs.BuiltGraph
import RegAlloc.Proofs.ColoringCorrectness
import RegAlloc.Proofs.LivenessSolution

/-!
# The registers of a program

This file joins the stages: the live sets are exact, the interference graph says which symbols are
live together at the end of a block, and the colouring respects the graph.  What comes out for one
procedure is `ValidRegisters`, in which no graph is mentioned any more.

That **every** symbol of the procedure gets a register needs an argument for the symbols that are
only read: such a symbol is written earlier in its block, or the block reads it first, and then it
is live at the top of that block.  Whether control can reach the block plays no role.
-/

namespace RegAlloc

/-- A symbol read in a run of instructions is written there, or read before it is written. -/
theorem DefUse.mem_uses_or_exists_writer {is : List Instr} {i : Instr} {x : SymbolId} (hi : i ∈ is)
    (hx : x ∈ i.uses) : x ∈ (DefUse.ofInstrs is).uses ∨ ∃ j ∈ is, x ∈ j.defs := by
  induction is with
  | nil => exact absurd hi List.not_mem_nil
  | cons j js ih =>
      rcases List.mem_cons.mp hi with rfl | hi
      · exact Or.inl (Instr.mem_liveBefore.mpr (Or.inr hx))
      · rcases ih hi with huses | ⟨w, hw, hxw⟩
        · by_cases hxj : x ∈ j.defs
          · exact Or.inr ⟨j, List.mem_cons_self, hxj⟩
          · exact Or.inl (Instr.mem_liveBefore.mpr (Or.inl ⟨huses, hxj⟩))
        · exact Or.inr ⟨w, List.mem_cons_of_mem j hw, hxw⟩

namespace FlowGraph

open InterferenceGraph

variable {g : FlowGraph} {s t : SymbolId} {b : BlockId} {isField : SymbolId → Bool}
variable {settings : Settings}

/-! ## The symbols of a procedure -/

/-- The receiver, and every symbol that an instruction writes or reads. -/
def Mentions (g : FlowGraph) (s : SymbolId) : Prop :=
  g.receiver? = some s ∨ ∃ block ∈ g.blocks, ∃ i ∈ block.instrs, s ∈ i.defs ∨ s ∈ i.uses

theorem LiveOnEntry.mentions (h : g.LiveOnEntry s b) : g.Mentions s := by
  obtain ⟨block, hblock, i, hi, hs⟩ := h.exists_reader
  exact Or.inr ⟨block, hblock, i, hi, Or.inr hs⟩

/-- **The graph of a procedure holds exactly its symbols.** -/
theorem procedureBringsUp_iff (hg : g.EdgesInRange) :
    ProcedureBringsUp g g.liveness s ↔ g.Mentions s := by
  constructor
  · rintro (hr | ⟨⟨block, b⟩, he, ⟨i, hi, hs⟩ | hs | hs⟩)
    · exact Or.inl hr
    · have hblock : block ∈ g.blocks := List.mem_of_getElem? (List.mem_zipIdx_iff_getElem?.mp he)
      exact Or.inr ⟨block, hblock, i, hi, hs.mentioned⟩
    · exact ((mem_liveIn_iff hg).mp hs).mentions
    · obtain ⟨c, -, hlive⟩ := (mem_liveOut_iff hg).mp hs
      exact hlive.mentions
  · rintro (hr | ⟨block, hblock, i, hi, hs⟩)
    · exact Or.inl hr
    · obtain ⟨b, hb⟩ := List.getElem?_of_mem hblock
      refine Or.inr ⟨(block, b), List.mem_zipIdx_iff_getElem?.mpr hb, ?_⟩
      rcases hs with hs | hs
      · exact Or.inl ⟨i, hi, Or.inl hs⟩
      · -- the block reads it first, or writes it before reading it
        rcases DefUse.mem_uses_or_exists_writer hi hs with hs | ⟨j, hj, hs⟩
        · refine Or.inr (Or.inl ((mem_liveIn_iff hg).mpr (LiveOnEntry.reads ?_)))
          rwa [ReadsFirst, instrs_of_getElem? hb]
        · exact Or.inl ⟨j, hj, Or.inl hs⟩

/-! ## One procedure -/

/-- Both symbols are live at the top of block `b`, or both at its bottom. -/
def LiveTogether (g : FlowGraph) (b : BlockId) (s t : SymbolId) : Prop :=
  s ∈ g.liveness.liveIn b ∧ t ∈ g.liveness.liveIn b ∨
    s ∈ g.liveness.liveOut b ∧ t ∈ g.liveness.liveOut b

/-- **Registers that are valid for a procedure.** -/
structure ValidRegisters (g : FlowGraph) (isField : SymbolId → Bool) (settings : Settings)
    (coloring : Coloring) : Prop where
  /-- Exactly the symbols of the procedure have a register. -/
  colored : ∀ s, (∃ c, coloring.color? s = some c) ↔ g.Mentions s
  /-- There are only so many registers. -/
  bounded : ∀ s c, coloring.color? s = some c → c < settings.registers
  /-- Symbols live together at one end of a block have different registers. -/
  apart : ∀ b s t, s ≠ t → g.LiveTogether b s t →
    ∃ c d, coloring.color? s = some c ∧ coloring.color? t = some d ∧ c ≠ d
  /-- The receiver's register is used for no field, and for no other symbol if it is pinned. -/
  guarded : ∀ r s d, g.receiver? = some r → s ≠ r → coloring.color? s = some d →
    (isField s = true ∨ settings.pinReceiver = true) → ∃ c, coloring.color? r = some c ∧ c ≠ d

section OfFlow

variable (isField settings)

theorem fresh_interference (g : FlowGraph) :
    (ProcedureRun.ofFlow isField settings g).interference.Fresh :=
  fresh_build g g.liveness isField settings.pinReceiver

/-- Symbols that contend have different registers. -/
theorem color_ne_of_contend {c d : Nat}
    (hst : (ProcedureRun.ofFlow isField settings g).interference.Contend s t)
    (hc : (ProcedureRun.ofFlow isField settings g).result.color? s = some c)
    (hd : (ProcedureRun.ofFlow isField settings g).result.color? t = some d) : c ≠ d := by
  obtain ⟨u, v, hu, hv, huv⟩ := hst
  exact ColoringRun.color_ne settings.registers settings.policy _
    (fresh_interference isField settings g) huv hu hv hc hd

/-- **Which symbols of the procedure contend.** -/
theorem contend_iff (hg : g.EdgesInRange) (hst : s ≠ t) (hs : g.Mentions s) (ht : g.Mentions t) :
    (ProcedureRun.ofFlow isField settings g).interference.Contend s t ↔
      LiveAtOneEnd g g.liveness s t ∨ KeepsOff g isField settings.pinReceiver s t ∨
        KeepsOff g isField settings.pinReceiver t s :=
  contend_build_iff g g.liveness isField settings.pinReceiver hst
    ((procedureBringsUp_iff hg).mpr hs) ((procedureBringsUp_iff hg).mpr ht)

omit isField settings in
/-- What is live at an end of a block is a symbol of the procedure, and the block exists. -/
theorem mentions_of_live (hg : g.EdgesInRange)
    (hs : s ∈ g.liveness.liveIn b ∨ s ∈ g.liveness.liveOut b) : b < g.size ∧ g.Mentions s := by
  rcases hs with hs | hs
  · have hlive := (mem_liveIn_iff hg).mp hs
    refine ⟨?_, hlive.mentions⟩
    cases hlive with
    | reads h => exact h.lt_size
    | keeps _ hc _ => exact hg.source_lt hc
  · obtain ⟨c, hc, hlive⟩ := (mem_liveOut_iff hg).mp hs
    exact ⟨hg.source_lt hc, hlive.mentions⟩

/-- Without spilled symbols, exactly the symbols of the procedure have registers. -/
theorem exists_color_iff_mentions (hg : g.EdgesInRange)
    (hspilled : (ProcedureRun.ofFlow isField settings g).result.spilled = []) (s : SymbolId) :
    (∃ c, (ProcedureRun.ofFlow isField settings g).result.color? s = some c) ↔ g.Mentions s := by
  have hfresh := fresh_interference isField settings g
  rw [← procedureBringsUp_iff hg, ← holds_build g g.liveness isField settings.pinReceiver]
  constructor
  · rintro ⟨c, hc⟩
    exact ColoringRun.exists_symbol_of_color _ _ _ hfresh hc
  · rintro ⟨n, hn⟩
    exact ColoringRun.exists_color_of_isComplete _ _ _ hfresh (List.isEmpty_iff.mpr hspilled) hn

/-- **A procedure without spilled symbols has valid registers.** -/
theorem validRegisters_ofFlow (hg : g.EdgesInRange)
    (hspilled : (ProcedureRun.ofFlow isField settings g).result.spilled = []) :
    g.ValidRegisters isField settings (ProcedureRun.ofFlow isField settings g).result := by
  have hcolored := exists_color_iff_mentions isField settings hg hspilled
  refine
    { colored := hcolored
      bounded := ?_
      apart := ?_
      guarded := ?_ }
  · intro s c hc
    exact ColoringRun.color_lt _ _ _ (fresh_interference isField settings g) hc
  · intro b s t hst hlive
    obtain ⟨hb, hs⟩ := mentions_of_live hg (hlive.imp (fun h => h.1) (fun h => h.1))
    obtain ⟨-, ht⟩ := mentions_of_live hg (hlive.imp (fun h => h.2) (fun h => h.2))
    obtain ⟨c, hc⟩ := (hcolored s).mpr hs
    obtain ⟨d, hd⟩ := (hcolored t).mpr ht
    have hcontend := (contend_iff isField settings hg hst hs ht).mpr (Or.inl ⟨b, hb, hlive⟩)
    exact ⟨c, d, hc, hd, color_ne_of_contend isField settings hcontend hc hd⟩
  · intro r s d hr hsr hd hguard
    obtain ⟨c, hc⟩ := (hcolored r).mpr (Or.inl hr)
    have hcontend := (contend_iff isField settings hg hsr.symm (Or.inl hr)
      ((hcolored s).mp ⟨d, hd⟩)).mpr (Or.inr (Or.inl ⟨hr, hguard⟩))
    exact ⟨c, hc, color_ne_of_contend isField settings hcontend hc hd⟩

end OfFlow

/-- When a procedure gets registers, and which. -/
theorem allocate_eq_ok {table : SymbolTable} {c : Coloring} :
    g.allocate table isField settings = .ok c ↔
      settings.check = .ok () ∧
        (ProcedureRun.ofFlow isField settings g).result.spilled = [] ∧
        c = (ProcedureRun.ofFlow isField settings g).result := by
  rw [allocate]
  cases hcheck : settings.check with
  | error e => simp [bind, Except.bind]
  | ok u =>
      simp only [bind, Except.bind, ProcedureRun.outcome, true_and]
      cases (ProcedureRun.ofFlow isField settings g).result.spilled with
      | nil => simp [eq_comm]
      | cons s ss => simp

/-- As part of a program it gets them under its name. -/
theorem allocateNamed_eq_ok {table : SymbolTable} {p : ProcedureRegisters} :
    allocateNamed table isField settings g = .ok p ↔
      settings.check = .ok () ∧
        (ProcedureRun.ofFlow isField settings g).result.spilled = [] ∧
        p = ⟨g.name, g.procedure.method, (ProcedureRun.ofFlow isField settings g).result⟩ := by
  rw [allocateNamed]
  constructor
  · intro h
    cases hc : g.allocate table isField settings with
    | error e =>
        rw [hc] at h
        exact absurd h (by simp [Except.map])
    | ok c =>
        obtain ⟨hcheck, hspilled, rfl⟩ := allocate_eq_ok.mp hc
        rw [hc] at h
        exact ⟨hcheck, hspilled, (Except.ok.inj h).symm⟩
  · rintro ⟨hcheck, hspilled, rfl⟩
    rw [allocate_eq_ok.mpr ⟨hcheck, hspilled, rfl⟩]
    rfl

end FlowGraph

/-! ## All procedures -/

namespace Program

variable {p : Program} {isField : SymbolId → Bool} {settings : Settings} {a : Allocation}

/-- When a program gets registers, and which. -/
theorem allocate_eq_ok :
    p.allocate isField settings = .ok a ↔
      settings.check = .ok () ∧ ∃ flows, FlowGraph.ofInstrs p.instrs = .ok flows ∧
        List.Forall₂ (fun g r => g.allocateNamed p.symbols isField settings = .ok r) flows
          a.procedures := by
  rw [allocate]
  cases hcheck : settings.check with
  | error e => simp [bind, Except.bind]
  | ok u =>
      cases hflows : FlowGraph.ofInstrs p.instrs with
      | error e => simp [bind, Except.bind]
      | ok flows =>
          simp only [bind, Except.bind, true_and, Except.ok.injEq, exists_eq_left',
            ← Progress.toExcept_run_eq_ok]
          cases (Progress.run (FlowGraph.allocateNamed p.symbols isField settings)
              flows).toExcept with
          | error e => simp
          | ok rs =>
              obtain ⟨procedures⟩ := a
              simp [pure, Except.pure]

/-- **Procedure by procedure:** what follows for a procedure from its registers being valid holds
of all procedures of an allocated program. -/
theorem forall₂_of_allocate {P : FlowGraph → ProcedureRegisters → Prop}
    (h : p.allocate isField settings = .ok a)
    (hP : ∀ g, g.EdgesInRange →
      g.ValidRegisters isField settings (ProcedureRun.ofFlow isField settings g).result →
      P g ⟨g.name, g.procedure.method, (ProcedureRun.ofFlow isField settings g).result⟩) :
    ∃ flows, FlowGraph.ofInstrs p.instrs = .ok flows ∧ List.Forall₂ P flows a.procedures := by
  obtain ⟨-, flows, hflows, hall⟩ := allocate_eq_ok.mp h
  refine ⟨flows, hflows, ?_⟩
  have hmem := (List.forall₂_and_left flows a.procedures).mpr ⟨fun _ hg => hg, hall⟩
  refine List.Forall₂.imp (fun g r hgr => ?_) hmem
  obtain ⟨hg, hr⟩ := hgr
  have hrange := FlowGraph.edgesInRange_of_mem hflows hg
  obtain ⟨-, hspilled, rfl⟩ := FlowGraph.allocateNamed_eq_ok.mp hr
  exact hP g hrange (FlowGraph.validRegisters_ofFlow isField settings hrange hspilled)

/-- **What an allocated program can rely on.**  Its procedures have, in program order, registers
that are valid for their control flow: exactly the symbols of the procedure have one, all are below
the number of registers, symbols that are live together at one end of a block differ, and so does
the receiver from every field, or from every other symbol if it is pinned. -/
theorem allocate_validRegisters (p : Program) (isField : SymbolId → Bool) (settings : Settings)
    (a : Allocation) (h : p.allocate isField settings = .ok a) :
    ∃ flows, FlowGraph.ofInstrs p.instrs = .ok flows ∧
      List.Forall₂
        (fun g r => r.name = g.name ∧ r.method = g.procedure.method ∧
          g.ValidRegisters isField settings r.coloring)
        flows a.procedures := by
  refine forall₂_of_allocate h fun g _ hvalid => ?_
  exact ⟨rfl, rfl, hvalid⟩

/-- A method with a loop, a copy, a field (symbol `4`) and a block that control never reaches. -/
def countUp : Program where
  symbols := ∅
  instrs :=
    [.label "count" (some ⟨0, [], some 1⟩), .copy 2 (.const 0), .label "loop" none,
      .binary .add 3 (.symbol 2) (.symbol 4), .copy 2 (.symbol 3), .branch (.symbol 2) "out",
      .jump "loop", .copy 5 (.symbol 6), .label "out" none, .ret (some (.symbol 3))]

/-- Three registers suffice for it, and then the theorem applies: the receiver is kept apart from
the field although nothing reads the receiver. -/
theorem allocate_validRegisters_countUp :
    ∃ a, countUp.allocate (· == 4) (Settings.withRegisters 3) = .ok a ∧
      ∃ flows, FlowGraph.ofInstrs countUp.instrs = .ok flows ∧
        List.Forall₂
          (fun g r => r.name = g.name ∧ r.method = g.procedure.method ∧
            g.ValidRegisters (· == 4) (Settings.withRegisters 3) r.coloring)
          flows a.procedures := by
  have hok : (countUp.allocate (· == 4) (Settings.withRegisters 3)).isOk = true := by
    decide +kernel
  cases ha : countUp.allocate (· == 4) (Settings.withRegisters 3) with
  | error e => simp [ha, Except.isOk, Except.toBool] at hok
  | ok a => exact ⟨a, rfl, allocate_validRegisters countUp _ _ a ha⟩

end Program

end RegAlloc
