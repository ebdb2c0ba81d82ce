import RegAlloc.Proofs.MalformedPrograms
import RegAlloc.Proofs.ProgramRegisters

/-!
# Procedures are allocated independently

Two programs that are put one behind the other get the registers that each gets alone, provided the
second one opens a procedure of its own.  This is not visible in the definitions: the text is
scanned as a whole, a region stays open until something closes it, and blocks know their place in
the program.

Two facts carry the argument.

* **The seam closes.**  A label that opens a procedure ends the region before it, so the pieces of
  the whole are those of the first program and then those of the second, moved down
  (`pieces_append`).
* **Nothing reads where a block stands.**  Moving a flow graph down changes the start of its blocks
  and nothing else, and liveness, loops, the interference graph and the costs come out the same
  (`allocateNamed_movedBy`).

What is left is bookkeeping about the order in which things can go wrong: both programs are cut into
flow graphs before any procedure gets registers.
-/

namespace RegAlloc

/-! ## Computations that may fail -/

section Except

variable {α β ε : Type} {x : Except ε α} {f : α → Except ε β} {a : α} {e : ε}

theorem bind_eq_error : (x >>= f) = .error e ↔ x = .error e ∨ ∃ a, x = .ok a ∧ f a = .error e := by
  cases x <;> simp [bind, Except.bind]

theorem mapError_eq_ok {k : ε → ε} : x.mapError k = .ok a ↔ x = .ok a := by
  cases x <;> simp [Except.mapError]

theorem mapError_eq_error {k : ε → ε} : x.mapError k = .error e ↔ ∃ d, x = .error d ∧ k d = e := by
  cases x <;> simp [Except.mapError]

end Except

/-! ## Runs over lists that are put together -/

namespace Progress

variable {α β δ ε : Type}

/-- A run over two lists is a run over the first and then over the second. -/
theorem toExcept_run_append (f : α → Except ε β) (as bs : List α) :
    (run f (as ++ bs)).toExcept = do
      let xs ← (run f as).toExcept
      let ys ← (run f bs).toExcept
      return xs ++ ys := by
  rw [run_append]
  unfold toExcept
  cases (run f as).failure with
  | some e => rfl
  | none => cases (run f bs).failure <;> rfl

/-- Results and failures may be translated one by one or at the end. -/
theorem toExcept_run_translate (f : α → Except ε β) (out : β → δ) (fail : ε → ε) (as : List α) :
    (run (fun a => ((f a).map out).mapError fail) as).toExcept =
      ((run f as).toExcept.map (List.map out)).mapError fail := by
  induction as with
  | nil => rfl
  | cons a as ih =>
      rw [toExcept_run_cons, toExcept_run_cons, ih]
      cases f a with
      | error e => rfl
      | ok b => cases (run f as).toExcept <;> rfl

end Progress

/-! ## A program that stands further down -/

/-- The block with `n` more instructions in front of the program. -/
def Block.movedBy (n : Nat) (b : Block) : Block := { b with start := b.start + n }

/-- The region with `n` more instructions in front of the program. -/
def Region.movedBy (n : Nat) (r : Region) : Region := { r with start := r.start + n }

/-- The piece with `n` more instructions in front of the program. -/
def Piece.movedBy (n : Nat) : Piece → Piece
  | .stray index => .stray (index + n)
  | .region r => .region (r.movedBy n)

/-- The flow graph with `n` more instructions in front of the program. -/
def FlowGraph.movedBy (n : Nat) (g : FlowGraph) : FlowGraph :=
  { g with blocks := g.blocks.map (Block.movedBy n) }

/-- The error with `n` more instructions in front of the program: an index moves, names stay. -/
def Error.movedBy (n : Nat) : Error → Error
  | .missingEntry index => .missingEntry (index + n)
  | e => e

/-- The text is empty or opens with a procedure. -/
def OpensProcedure (is : List Instr) : Prop := ∀ x ∈ is.head?, x.entry?.isSome = true

section Pieces

variable {p q : List Instr} {start : Nat}

/-- An open region ends where a procedure opens. -/
theorem OpensProcedure.regionBody_append (hq : OpensProcedure q) (p : List Instr) :
    regionBody (p ++ q) = regionBody p := by
  induction p with
  | nil =>
      cases q with
      | nil => rfl
      | cons x q =>
          show regionBody (x :: q) = []
          rw [regionBody, if_pos (hq x rfl)]
  | cons x p ih => rw [List.cons_append, regionBody, ih, regionBody]

/-- Where a procedure opens, it does not matter whether a region was open. -/
theorem OpensProcedure.piecesFrom_eq (hq : OpensProcedure q) (inside : Bool) (start : Nat) :
    piecesFrom inside start q = piecesFrom false start q := by
  cases q with
  | nil => rfl
  | cons x q =>
      obtain ⟨entry, hentry⟩ := Option.isSome_iff_exists.mp (hq x rfl)
      obtain ⟨name, rfl⟩ := Instr.entry?_eq_some.mp hentry
      rw [piecesFrom_entry, piecesFrom_entry]

/-- **The seam closes:** behind the first program the cut starts afresh. -/
theorem OpensProcedure.piecesFrom_append (hq : OpensProcedure q) (inside : Bool) (start : Nat)
    (p : List Instr) :
    piecesFrom inside start (p ++ q) =
      piecesFrom inside start p ++ piecesFrom false (start + p.length) q := by
  induction p generalizing inside start with
  | nil => exact hq.piecesFrom_eq inside start
  | cons x p ih =>
      have hlen : start + (x :: p).length = start + 1 + p.length := by
        rw [List.length_cons]
        omega
      rw [List.cons_append, hlen]
      cases hx : x.entry? with
      | some entry =>
          obtain ⟨name, rfl⟩ := Instr.entry?_eq_some.mp hx
          rw [piecesFrom_entry, piecesFrom_entry, ih, hq.regionBody_append, List.cons_append]
      | none =>
          rw [piecesFrom_cons hx, piecesFrom_cons hx, ih, ih]
          cases inside <;> rfl

theorem piecesFrom_movedBy (inside : Bool) (start n : Nat) (is : List Instr) :
    piecesFrom inside (start + n) is = (piecesFrom inside start is).map (Piece.movedBy n) := by
  induction is generalizing inside start with
  | nil => rfl
  | cons x is ih =>
      have hnext : start + n + 1 = start + 1 + n := by omega
      cases hx : x.entry? with
      | some entry =>
          obtain ⟨name, rfl⟩ := Instr.entry?_eq_some.mp hx
          rw [piecesFrom_entry, piecesFrom_entry, hnext, ih]
          rfl
      | none =>
          rw [piecesFrom_cons hx, piecesFrom_cons hx, hnext, ih, ih]
          cases inside <;> rfl

/-- **The pieces of two programs together.** -/
theorem pieces_append (hq : OpensProcedure q) (p : List Instr) :
    pieces (p ++ q) = pieces p ++ (pieces q).map (Piece.movedBy p.length) := by
  rw [pieces, hq.piecesFrom_append, piecesFrom_movedBy]
  rfl

end Pieces

/-! ## Cutting the moved program -/

namespace Block

theorem prepend_movedBy (start n : Nat) (x : Instr) (bs : List Block) :
    prepend (start + n) x (bs.map (movedBy n)) = (prepend start x bs).map (movedBy n) := by
  cases bs with
  | nil => rfl
  | cons b bs =>
      have hopens : (b.movedBy n).opensWithLabel = b.opensWithLabel := rfl
      rw [List.map_cons, prepend_cons, prepend_cons, hopens]
      split <;> rfl

theorem split_movedBy (start n : Nat) (is : List Instr) :
    split (start + n) is = (split start is).map (movedBy n) := by
  induction is generalizing start with
  | nil => rfl
  | cons x is ih =>
      have hnext : start + n + 1 = start + 1 + n := by omega
      rw [split_cons, split_cons, hnext, ih, prepend_movedBy]

end Block

/-- Edges depend on the instructions of the blocks only. -/
theorem blockEdges_movedBy (n : Nat) (blocks : List Block) :
    blockEdges (blocks.map (Block.movedBy n)) = blockEdges blocks := by
  have hfalls : fallEdges (blocks.map (Block.movedBy n)) = fallEdges blocks := by
    rw [fallEdges, List.zipIdx_map, List.filterMap_map, List.length_map]
    rfl
  have hlabel : ∀ l, blockOfLabel? (blocks.map (Block.movedBy n)) l = blockOfLabel? blocks l := by
    intro l
    rw [blockOfLabel?, List.findIdx?_map]
    rfl
  have hjumps : jumpEdges (blocks.map (Block.movedBy n)) = jumpEdges blocks := by
    rw [jumpEdges, List.zipIdx_map, List.filterMap_map, funext hlabel]
    rfl
  rw [blockEdges, hfalls, hjumps]
  rfl

namespace FlowGraph

variable {p q : List Instr}

theorem ofRegion_movedBy (n : Nat) (r : Region) :
    ofRegion (r.movedBy n) = (ofRegion r).movedBy n := by
  have hblocks : Block.split (r.start + n) r.instrs =
      (Block.split r.start r.instrs).map (Block.movedBy n) := Block.split_movedBy ..
  unfold ofRegion Region.movedBy movedBy
  simp only [hblocks, blockEdges_movedBy]

theorem ofPiece_movedBy (n : Nat) (piece : Piece) :
    ofPiece (piece.movedBy n) = ((ofPiece piece).map (movedBy n)).mapError (Error.movedBy n) := by
  cases piece with
  | stray index => rfl
  | region r =>
      have hfault : (r.movedBy n).fault? = r.fault? := rfl
      rw [Piece.movedBy, ofPiece, ofPiece, hfault, ofRegion_movedBy]
      cases hr : r.fault? with
      | none => rfl
      | some e =>
          -- what is wrong with a region is told by names
          rcases Region.fault?_eq_some.mp hr with ⟨l, -, rfl⟩ | ⟨-, t, -, rfl⟩ <;> rfl

/-- **The flow graphs of two programs together.** -/
theorem ofInstrs_append (hq : OpensProcedure q) (p : List Instr) :
    ofInstrs (p ++ q) = do
      let gs ← ofInstrs p
      let hs ← (ofInstrs q).mapError (Error.movedBy p.length)
      return gs ++ hs.map (movedBy p.length) := by
  rw [ofInstrs_eq, pieces_append hq, Progress.toExcept_run_append, Progress.run_map,
    funext (ofPiece_movedBy p.length), Progress.toExcept_run_translate, ofInstrs_eq, ofInstrs_eq]
  cases (Progress.run ofPiece (pieces p)).toExcept with
  | error e => rfl
  | ok gs => cases (Progress.run ofPiece (pieces q)).toExcept <;> rfl

/-! ## Nothing reads where a block stands -/

section Moved

variable (n : Nat) (g : FlowGraph)

@[simp] theorem size_movedBy : (g.movedBy n).size = g.size := List.length_map ..

@[simp] theorem defUse_movedBy : (g.movedBy n).defUse = g.defUse := by
  rw [defUse, movedBy, List.map_map]
  rfl

theorem pass_movedBy (du : Array DefUse) : LiveSets.pass (g.movedBy n) du = LiveSets.pass g du := by
  funext s
  rw [LiveSets.pass, size_movedBy]
  rfl

theorem iterate_movedBy (du : Array DefUse) (budget : Nat) (s : LiveSets) :
    LiveSets.iterate (g.movedBy n) du budget s = LiveSets.iterate g du budget s := by
  induction budget generalizing s with
  | zero => rfl
  | succ budget ih => rw [LiveSets.iterate, LiveSets.iterate, pass_movedBy, ih]

@[simp] theorem liveness_movedBy : (g.movedBy n).liveness = g.liveness := by
  rw [liveness, liveness, defUse_movedBy, passBudget, size_movedBy, iterate_movedBy]
  rfl

theorem visit_movedBy (budget : Nat) (seen : IdSet) (stack : List (BlockId × List BlockId))
    (finished : List BlockId) :
    (g.movedBy n).visit budget seen stack finished = g.visit budget seen stack finished := by
  fun_induction g.visit budget seen stack finished with
  | case1 seen stack finished => rw [visit]
  | case2 budget seen finished => rw [visit]
  | case3 budget seen finished b stack ih => rw [visit, ih]
  | case4 budget seen finished b c cs stack hseen ih => rw [visit, if_pos hseen, ih]
  | case5 budget seen finished b c cs stack hseen ih => rw [visit, if_neg hseen, ← ih]; rfl

@[simp] theorem reversePostOrder_movedBy : (g.movedBy n).reversePostOrder = g.reversePostOrder := by
  rw [reversePostOrder, size_movedBy, visit_movedBy]
  rfl

@[simp] theorem domTree_movedBy : (g.movedBy n).domTree = g.domTree := by
  have hpositions : (g.movedBy n).dominatorPositions = g.dominatorPositions := by
    rw [dominatorPositions, reversePostOrder_movedBy]
    rfl
  rw [domTree, size_movedBy, hpositions, reversePostOrder_movedBy]
  rfl

@[simp] theorem loopNest_movedBy : (g.movedBy n).loopNest = g.loopNest := by
  have hback : (g.movedBy n).backEdges = g.backEdges := by
    rw [backEdges, reachable, size_movedBy, domTree_movedBy, reversePostOrder_movedBy]
    rfl
  rw [loopNest, hback]
  rfl

theorem build_movedBy (l : Liveness) (isField : SymbolId → Bool) (pin : Bool) :
    InterferenceGraph.build (g.movedBy n) l isField pin =
      InterferenceGraph.build g l isField pin := by
  rw [InterferenceGraph.build, movedBy, List.zipIdx_map, List.foldl_map]
  rfl

theorem ofLoops_movedBy (loops : LoopNest) (graph : InterferenceGraph) :
    SpillCosts.ofLoops (g.movedBy n) loops graph = SpillCosts.ofLoops g loops graph := by
  rw [SpillCosts.ofLoops, movedBy, List.zipIdx_map, List.foldl_map]
  rfl

theorem costs_movedBy (policy : SpillPolicy) (graph : InterferenceGraph) :
    ProcedureRun.costs policy (g.movedBy n) graph = ProcedureRun.costs policy g graph := by
  cases policy with
  | firstFound => rfl
  | lowestCost => rw [ProcedureRun.costs, loopNest_movedBy, ofLoops_movedBy]; rfl

/-- **A procedure gets the same registers wherever it stands.** -/
theorem allocateNamed_movedBy (t : SymbolTable) (isField : SymbolId → Bool) (settings : Settings) :
    (g.movedBy n).allocateNamed t isField settings = g.allocateNamed t isField settings := by
  have hrun : (ProcedureRun.ofFlow isField settings (g.movedBy n)).coloring =
      (ProcedureRun.ofFlow isField settings g).coloring := by
    unfold ProcedureRun.ofFlow
    simp only [liveness_movedBy, build_movedBy, costs_movedBy]
  unfold allocateNamed allocate ProcedureRun.outcome ProcedureRun.result
  rw [hrun]
  rfl

end Moved

end FlowGraph

/-! ## Two programs in one -/

namespace Program

variable {t : SymbolTable} {isField : SymbolId → Bool} {settings : Settings} {p q : List Instr}
variable {e : Error} {gs : List FlowGraph}

/-- Registers for a list of procedures, one after the other. -/
def allocateInTurn (t : SymbolTable) (isField : SymbolId → Bool) (settings : Settings)
    (gs : List FlowGraph) : Except Error (List ProcedureRegisters) :=
  (Progress.run (FlowGraph.allocateNamed t isField settings) gs).toExcept

/-- With sensible settings, a program is cut into flow graphs, and these get registers in turn. -/
theorem allocate_eq (hsettings : settings.check = .ok ()) (p : List Instr) :
    (Program.mk t p).allocate isField settings = do
      let gs ← FlowGraph.ofInstrs p
      let rs ← allocateInTurn t isField settings gs
      return ⟨rs⟩ := by
  rw [allocate, hsettings]
  rfl

/-- What goes wrong after the program is cut is that registers run out. -/
theorem eq_outOfRegisters (hsettings : settings.check = .ok ())
    (h : allocateInTurn t isField settings gs = .error e) : ∃ s m n, e = .outOfRegisters s m n := by
  obtain ⟨-, g, -, -, -, hg⟩ := Progress.toExcept_run_eq_error.mp h
  rw [FlowGraph.allocateNamed, FlowGraph.allocate, hsettings] at hg
  simp only [bind, Except.bind, ProcedureRun.outcome] at hg
  split at hg
  · exact absurd hg (by simp [Except.map])
  · cases hg
    exact ⟨_, _, _, rfl⟩

/-- The procedures of the second program get what they get alone. -/
theorem allocateInTurn_append (n : Nat) (gs hs : List FlowGraph) :
    allocateInTurn t isField settings (gs ++ hs.map (FlowGraph.movedBy n)) = do
      let rs ← allocateInTurn t isField settings gs
      let ss ← allocateInTurn t isField settings hs
      return rs ++ ss := by
  have hmoved : (fun g => (FlowGraph.movedBy n g).allocateNamed t isField settings) =
      FlowGraph.allocateNamed t isField settings :=
    funext fun g => FlowGraph.allocateNamed_movedBy n g t isField settings
  rw [allocateInTurn, Progress.toExcept_run_append, Progress.run_map, hmoved]
  rfl

/-- **The two programs together, stage by stage.** -/
theorem allocate_append_eq (hsettings : settings.check = .ok ()) (hq : OpensProcedure q)
    (p : List Instr) :
    (Program.mk t (p ++ q)).allocate isField settings = do
      let gs ← FlowGraph.ofInstrs p
      let hs ← (FlowGraph.ofInstrs q).mapError (Error.movedBy p.length)
      let rs ← allocateInTurn t isField settings gs
      let ss ← allocateInTurn t isField settings hs
      return ⟨rs ++ ss⟩ := by
  rw [allocate_eq hsettings, FlowGraph.ofInstrs_append hq]
  simp only [bind_assoc, pure_bind, allocateInTurn_append]

/-- **What two programs, one behind the other, can fail with,** in terms of what each of them gives
alone. -/
inductive JointFailure (t : SymbolTable) (isField : SymbolId → Bool) (settings : Settings)
    (p q : List Instr) : Error → Prop where
  /-- The first is malformed. -/
  | malformedFirst {e : Error} : FlowGraph.ofInstrs p = .error e →
      JointFailure t isField settings p q e
  /-- The first is not malformed, but the second is; indices count from the start of the first. -/
  | malformedSecond {gs : List FlowGraph} {e : Error} : FlowGraph.ofInstrs p = .ok gs →
      FlowGraph.ofInstrs q = .error e → JointFailure t isField settings p q (e.movedBy p.length)
  /-- Neither is malformed, but registers run out in the first. -/
  | shortFirst {gs hs : List FlowGraph} {s m : String} {n : Nat} : FlowGraph.ofInstrs p = .ok gs →
      FlowGraph.ofInstrs q = .ok hs →
      (Program.mk t p).allocate isField settings = .error (.outOfRegisters s m n) →
      JointFailure t isField settings p q (.outOfRegisters s m n)
  /-- The first has registers; the second is not malformed, but they run out in it. -/
  | shortSecond {a : Allocation} {hs : List FlowGraph} {s m : String} {n : Nat} :
      (Program.mk t p).allocate isField settings = .ok a → FlowGraph.ofInstrs q = .ok hs →
      (Program.mk t q).allocate isField settings = .error (.outOfRegisters s m n) →
      JointFailure t isField settings p q (.outOfRegisters s m n)

/-- When a program gets registers: it can be cut, and each procedure gets some. -/
theorem allocate_eq_ok_iff (hsettings : settings.check = .ok ()) {a : Allocation} :
    (Program.mk t p).allocate isField settings = .ok a ↔
      ∃ gs, FlowGraph.ofInstrs p = .ok gs ∧
        allocateInTurn t isField settings gs = .ok a.procedures := by
  rw [allocate_eq hsettings]
  simp only [bind_eq_ok]
  refine exists_congr fun gs => and_congr_right fun _ => ⟨?_, fun hrs => ⟨_, hrs, rfl⟩⟩
  rintro ⟨rs, hrs, ha⟩
  cases ha
  exact hrs

/-- When a program fails: it cannot be cut, or some procedure gets no registers. -/
theorem allocate_eq_error_iff (hsettings : settings.check = .ok ()) :
    (Program.mk t p).allocate isField settings = .error e ↔
      FlowGraph.ofInstrs p = .error e ∨
        ∃ gs, FlowGraph.ofInstrs p = .ok gs ∧ allocateInTurn t isField settings gs = .error e := by
  rw [allocate_eq hsettings]
  simp only [bind_eq_error]
  refine or_congr_right (exists_congr fun gs => and_congr_right fun _ => or_iff_left ?_)
  rintro ⟨rs, -, hnever⟩
  cases hnever

/-- **Procedures are allocated independently.**  If the second of two programs is empty or opens
with a procedure, then the two together get registers exactly if each does alone, and the procedures
are those of the first and then those of the second.  Otherwise the failure is that of the first
program if that is malformed; else that of the second if that is malformed, with the place of a
stray instruction counted from the start of the first; else that of the first if its registers run
out; else that of the second. -/
theorem allocate_append (t : SymbolTable) (isField : SymbolId → Bool) (settings : Settings)
    (p q : List Instr) (hsettings : settings.check = .ok ()) (hq : OpensProcedure q) :
    (∀ a, (Program.mk t (p ++ q)).allocate isField settings = .ok a ↔
      ∃ b c, (Program.mk t p).allocate isField settings = .ok b ∧
        (Program.mk t q).allocate isField settings = .ok c ∧
        a.procedures = b.procedures ++ c.procedures) ∧
    ∀ e, (Program.mk t (p ++ q)).allocate isField settings = .error e ↔
      JointFailure t isField settings p q e := by
  rw [allocate_append_eq hsettings hq]
  simp only [bind_eq_ok, bind_eq_error, mapError_eq_ok, mapError_eq_error]
  constructor
  · intro a
    simp only [allocate_eq_ok_iff hsettings]
    constructor
    · rintro ⟨gs, hgs, hs, hhs, rs, hrs, ss, hss, ha⟩
      cases ha
      exact ⟨⟨rs⟩, ⟨ss⟩, ⟨gs, hgs, hrs⟩, ⟨hs, hhs, hss⟩, rfl⟩
    · rintro ⟨⟨rs⟩, ⟨ss⟩, ⟨gs, hgs, hrs⟩, ⟨hs, hhs, hss⟩, ha⟩
      exact ⟨gs, hgs, hs, hhs, rs, hrs, ss, hss, congrArg (Except.ok ∘ Allocation.mk) ha.symm⟩
  · intro e
    constructor
    · rintro (hgs | ⟨gs, hgs, ⟨d, hd, rfl⟩ | ⟨hs, hhs, hrs | ⟨rs, hrs, hss | ⟨ss, -, hnever⟩⟩⟩⟩)
      · exact .malformedFirst hgs
      · exact .malformedSecond hgs hd
      · obtain ⟨s, m, n, rfl⟩ := eq_outOfRegisters hsettings hrs
        exact .shortFirst hgs hhs ((allocate_eq_error_iff hsettings).mpr (Or.inr ⟨gs, hgs, hrs⟩))
      · obtain ⟨s, m, n, rfl⟩ := eq_outOfRegisters hsettings hss
        exact .shortSecond ((allocate_eq_ok_iff hsettings).mpr ⟨gs, hgs, hrs⟩) hhs
          ((allocate_eq_error_iff hsettings).mpr (Or.inr ⟨hs, hhs, hss⟩))
      · cases hnever
    · rintro (hgs | ⟨hgs, hd⟩ | ⟨hgs, hhs, hshort⟩ | ⟨hfirst, hhs, hshort⟩)
      · exact Or.inl hgs
      · exact Or.inr ⟨_, hgs, Or.inl ⟨_, hd, rfl⟩⟩
      · obtain ⟨gs, hgs, hrs⟩ :=
          ((allocate_eq_error_iff hsettings).mp hshort).resolve_left (by simp [hgs])
        exact Or.inr ⟨gs, hgs, Or.inr ⟨_, hhs, Or.inl hrs⟩⟩
      · obtain ⟨gs, hgs, hrs⟩ := (allocate_eq_ok_iff hsettings).mp hfirst
        obtain ⟨hs, hhs, hss⟩ :=
          ((allocate_eq_error_iff hsettings).mp hshort).resolve_left (by simp [hhs])
        exact Or.inr ⟨gs, hgs, Or.inr ⟨hs, hhs, Or.inr ⟨_, hrs, Or.inl hss⟩⟩⟩

/-- A procedure, and behind its return an instruction that belongs to none. -/
def leftOver : List Instr := [.label "again" (some ⟨5, [], none⟩), .ret none, .param (.symbol 1)]

/-- The two procedures of the crossing program may be allocated apart.  If an instruction is left
over behind the second program, its index is counted from the start of the first. -/
theorem allocate_append_crossing :
    Settings.standard.check = .ok () ∧ OpensProcedure (FlowGraph.crossing.drop 11) ∧
      (∃ a b c, (Program.mk ∅ FlowGraph.crossing).allocate (fun _ => false) .standard = .ok a ∧
        (Program.mk ∅ (FlowGraph.crossing.take 11)).allocate (fun _ => false) .standard = .ok b ∧
        (Program.mk ∅ (FlowGraph.crossing.drop 11)).allocate (fun _ => false) .standard = .ok c ∧
        a.procedures = b.procedures ++ c.procedures) ∧
      FlowGraph.ofInstrs leftOver = .error (.missingEntry 2) ∧
      (Program.mk ∅ (FlowGraph.crossing.take 11 ++ leftOver)).allocate (fun _ => false) .standard =
        .error (.missingEntry 13) := by
  have hopens : OpensProcedure (FlowGraph.crossing.drop 11) := by
    rintro x ⟨⟩
    rfl
  have hleftOpens : OpensProcedure leftOver := by
    rintro x ⟨⟩
    rfl
  have hok :
      ((Program.mk ∅ FlowGraph.crossing).allocate (fun _ => false) .standard).isOk = true := by
    decide +kernel
  have hjoint :=
    allocate_append ∅ (fun _ => false) .standard (FlowGraph.crossing.take 11) _ rfl hopens
  have hleft :=
    allocate_append ∅ (fun _ => false) .standard (FlowGraph.crossing.take 11) _ rfl hleftOpens
  have hwalk : FlowGraph.ofInstrs (FlowGraph.crossing.take 11) = .ok [FlowGraph.crossingWalk] := rfl
  have hlate : JointFailure ∅ (fun _ => false) .standard (FlowGraph.crossing.take 11) leftOver
      (Error.movedBy 11 (.missingEntry 2)) := .malformedSecond hwalk rfl
  rw [List.take_append_drop] at hjoint
  refine ⟨rfl, hopens, ?_, rfl, (hleft.2 _).mpr hlate⟩
  cases ha : (Program.mk ∅ FlowGraph.crossing).allocate (fun _ => false) .standard with
  | error e => simp [ha, Except.isOk, Except.toBool] at hok
  | ok a =>
      obtain ⟨b, c, hb, hc, hprocedures⟩ := (hjoint.1 a).mp ha
      exact ⟨a, b, c, rfl, hb, hc, hprocedures⟩

end Program

end RegAlloc
