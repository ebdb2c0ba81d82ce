import RegAlloc.Proofs.NeededValues

/-!
# The register of the receiver

A field is reached through the receiver, so the receiver should keep its register as long as a
field access lies ahead.  No instruction shows that it is needed there.  The interference graph
makes up for that by joining the receiver with the fields, and this is **not** enough: it keeps the
fields out of the receiver's register, but another value may be written into it right before a
field access.

What the registers do promise about such a value is in `allocate_guards_receiver`.  It stays out of
the receiver's register if the receiver is pinned, or if instructions read the receiver like any
other symbol and the two meet at the end of some block.  A receiver that is used for its fields
alone meets nothing, and then pinning it is the only protection.
-/

namespace RegAlloc

namespace FlowGraph

open InterferenceGraph

variable {g : FlowGraph} {isField : SymbolId → Bool} {settings : Settings} {r d : SymbolId}
variable {p : ControlPoint}

/-- The next instruction reads or writes a field. -/
def AccessesField (g : FlowGraph) (isField : SymbolId → Bool) (p : ControlPoint) : Prop :=
  ∃ f, isField f = true ∧ (g.Reads f p ∨ g.Writes f p)

/-- Some control path leads to a field access, and nothing before that access on the path writes
`r`. -/
def FieldAhead (g : FlowGraph) (isField : SymbolId → Bool) (r : SymbolId) (p : ControlPoint) :
    Prop :=
  ∃ q, Relation.ReflTransGen (fun p q => g.Flows p q ∧ ¬ g.Writes r p) p q ∧
    g.AccessesField isField q

/-- Some instruction writes `d`, which is neither the receiver `r` nor a field, and afterwards a
field access lies ahead. -/
def WrittenAhead (g : FlowGraph) (isField : SymbolId → Bool) (r d : SymbolId) : Prop :=
  g.receiver? = some r ∧ d ≠ r ∧ isField d = false ∧
    ∃ b n, g.Writes d ⟨b, n⟩ ∧ g.FieldAhead isField r ⟨b, n + 1⟩

/-- No write lands in the register of the receiver while a field access lies ahead. -/
def KeepsReceiver (g : FlowGraph) (isField : SymbolId → Bool) (coloring : Coloring) : Prop :=
  ∀ r d, g.WrittenAhead isField r d → coloring.color? d ≠ coloring.color? r

theorem Reads.mentions (h : g.Reads d p) : g.Mentions d := (LiveAt.of_reads h).mentions

/-- The receiver and another symbol that is no field are kept apart in one of two ways. -/
theorem keptApart_receiver_iff (hr : g.receiver? = some r) (hdr : d ≠ r) (hd : isField d = false) :
    g.KeptApart isField settings d r ↔ settings.pinReceiver = true ∨ g.Meet d r := by
  have hnot : ¬ KeepsOff g isField settings.pinReceiver d r := fun h =>
    hdr (Option.some.inj (h.1.symm.trans hr))
  have hpin : KeepsOff g isField settings.pinReceiver r d ↔ settings.pinReceiver = true := by
    simp [KeepsOff, hr, hd]
  rw [KeptApart, or_iff_right hnot, hpin, or_comm]

/-- When a value that is written ahead of a field access stays out of the receiver's register. -/
theorem WrittenAhead.guarded (hg : g.EdgesInRange)
    (hvalid : g.ValidRegisters isField settings (ProcedureRun.ofFlow isField settings g).result)
    (h : g.WrittenAhead isField r d) :
    ((ProcedureRun.ofFlow isField settings g).interference.Contend d r ↔
      settings.pinReceiver = true ∨ g.Meet d r) ∧
    ∃ c e, (ProcedureRun.ofFlow isField settings g).result.color? d = some c ∧
      (ProcedureRun.ofFlow isField settings g).result.color? r = some e ∧
      (settings.pinReceiver = true ∨ g.Meet d r → c ≠ e) := by
  obtain ⟨hr, hdr, hd, b, n, hwrites, -⟩ := h
  have hcontend : (ProcedureRun.ofFlow isField settings g).interference.Contend d r ↔
      settings.pinReceiver = true ∨ g.Meet d r :=
    (contend_iff_keptApart hg hdr.symm hwrites.mentions (Or.inl hr)).trans
      (keptApart_receiver_iff hr hdr hd)
  obtain ⟨c, hc⟩ := (hvalid.colored d).mpr hwrites.mentions
  obtain ⟨e, he⟩ := (hvalid.colored r).mpr (Or.inl hr)
  refine ⟨hcontend, c, e, hc, he, fun hkept => ?_⟩
  exact color_ne_of_contend isField settings (hcontend.mpr hkept) hc he

end FlowGraph

namespace Program

/-- **What is kept out of the receiver's register.**  In every procedure of an allocated program
that has a receiver, no field is in its register.  A value that is written ahead of a field access,
and is no field itself, is kept out of it if the receiver is pinned or the two meet at the end of
some block; these are exactly the values for which the interference graph asks it.  So the receiver
keeps its register if it is pinned, or meets every such value. -/
theorem allocate_guards_receiver (p : Program) (isField : SymbolId → Bool) (settings : Settings)
    (a : Allocation) (h : p.allocate isField settings = .ok a) :
    ∃ flows, FlowGraph.ofInstrs p.instrs = .ok flows ∧
      List.Forall₂
        (fun g res =>
          (∀ r f x, g.receiver? = some r → isField f = true → f ≠ r →
            g.Reads f x ∨ g.Writes f x → ∃ c e, res.coloring.color? f = some c ∧
              res.coloring.color? r = some e ∧ c ≠ e) ∧
          (∀ r d, g.WrittenAhead isField r d →
            ((ProcedureRun.ofFlow isField settings g).interference.Contend d r ↔
              settings.pinReceiver = true ∨ g.Meet d r) ∧
            ∃ c e, res.coloring.color? d = some c ∧ res.coloring.color? r = some e ∧
              (settings.pinReceiver = true ∨ g.Meet d r → c ≠ e)) ∧
          (settings.pinReceiver = true ∨ (∀ r d, g.WrittenAhead isField r d → g.Meet d r) →
            g.KeepsReceiver isField res.coloring))
        flows a.procedures := by
  refine forall₂_of_allocate h fun g hg hvalid => ?_
  refine ⟨fun r f x hr hf hfr haccess => ?_, fun r d hd => hd.guarded hg hvalid,
    fun hkept r d hd hsame => ?_⟩
  · obtain ⟨c, hc⟩ := (hvalid.colored f).mpr (haccess.elim (·.mentions) (·.mentions))
    obtain ⟨e, he, hne⟩ := hvalid.guarded r f c hr hfr hc (Or.inl hf)
    exact ⟨c, e, hc, he, hne.symm⟩
  · obtain ⟨-, c, e, hc, he, hne⟩ := hd.guarded hg hvalid
    refine hne (hkept.imp_right fun hmeet => hmeet r d hd) (Option.some.inj ?_)
    exact hc.symm.trans (hsame.trans he)

/-- A method of receiver `1` writes a value and then a field, and passes both on as arguments. -/
def setField : Program where
  symbols := ∅
  instrs :=
    [.label "m" (some ⟨0, [], some 1⟩), .copy 2 (.const 1), .copy 3 (.const 2), .label "next" none,
      .param (.symbol 2), .param (.symbol 3), .ret none]

/-- The control flow of the method. -/
def setFieldFlow : FlowGraph := FlowGraph.ofRegion ⟨0, "m", ⟨0, [], some 1⟩, setField.instrs⟩

/-- Its registers; symbol `3` is the field. -/
def setFieldRegisters (settings : Settings) : ProcedureRegisters :=
  ⟨"m", 0, (ProcedureRun.ofFlow (· == 3) settings setFieldFlow).result⟩

theorem allocate_setField {settings : Settings} (hsettings : settings.check = .ok ())
    (hspilled : (setFieldRegisters settings).coloring.spilled = []) :
    setField.allocate (· == 3) settings = .ok ⟨[setFieldRegisters settings]⟩ := by
  refine allocate_eq_ok.mpr ⟨hsettings, _, rfl, List.Forall₂.cons ?_ List.Forall₂.nil⟩
  exact FlowGraph.allocateNamed_eq_ok.mpr ⟨hsettings, hspilled, rfl⟩

theorem writtenAhead_setField : setFieldFlow.WrittenAhead (· == 3) 1 2 := by
  refine ⟨rfl, by decide, rfl, 0, 1, ⟨_, rfl, List.mem_singleton_self 2⟩, ?_⟩
  exact ⟨⟨0, 2⟩, .refl, 3, rfl, Or.inr ⟨_, rfl, List.mem_singleton_self 3⟩⟩

/-- **The receiver may be lost before a field access.**  Symbol `2` is written into the register of
the receiver, and the next instruction writes a field. -/
theorem setField_loses_receiver :
    setField.allocate (· == 3) Settings.standard = .ok ⟨[setFieldRegisters .standard]⟩ ∧
      FlowGraph.ofInstrs setField.instrs = .ok [setFieldFlow] ∧
      ¬ setFieldFlow.KeepsReceiver (· == 3) (setFieldRegisters .standard).coloring := by
  refine ⟨allocate_setField rfl (by decide +kernel), rfl, fun hkeeps => ?_⟩
  exact hkeeps 1 2 writtenAhead_setField (by decide +kernel)

/-- The standard settings, with the receiver pinned. -/
def pinned : Settings := { Settings.standard with pinReceiver := true }

/-- With the receiver pinned, the theorem keeps the value out of its register. -/
theorem allocate_guards_receiver_setField :
    setField.allocate (· == 3) pinned = .ok ⟨[setFieldRegisters pinned]⟩ ∧
      setFieldFlow.WrittenAhead (· == 3) 1 2 ∧
      setFieldFlow.KeepsReceiver (· == 3) (setFieldRegisters pinned).coloring ∧
      ∃ c e, (setFieldRegisters pinned).coloring.color? 2 = some c ∧
        (setFieldRegisters pinned).coloring.color? 1 = some e ∧ c ≠ e := by
  have hok : setField.allocate (· == 3) pinned = .ok ⟨[setFieldRegisters pinned]⟩ :=
    allocate_setField rfl (by decide +kernel)
  have hflows : FlowGraph.ofInstrs setField.instrs = .ok [setFieldFlow] := rfl
  obtain ⟨flows, hflows', hall⟩ := allocate_guards_receiver _ _ _ _ hok
  cases hflows.symm.trans hflows'
  obtain ⟨-, hvalue, hkeeps⟩ := (List.forall₂_cons.mp hall).1
  obtain ⟨-, c, e, hc, he, hne⟩ := hvalue 1 2 writtenAhead_setField
  exact ⟨hok, writtenAhead_setField, hkeeps (Or.inl rfl), c, e, hc, he, hne (Or.inl rfl)⟩

end Program

end RegAlloc
