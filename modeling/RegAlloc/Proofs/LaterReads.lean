import RegAlloc.Flow.Reads
import RegAlloc.Proofs.GraphSearch
import RegAlloc.Proofs.LivenessSolution
import RegAlloc.Proofs.StatementPaths

/-!
# Two ways to ask whether a value is still read

Whether a symbol is read after an instruction before it is written can be asked of a search that
walks forward from the instruction, or of the live sets, which were iterated backward.  The two
share nothing but the instructions, and this file shows that they agree.

What both see of a run of instructions is the first one that touches the symbol at all.  Going back
through the run keeps a set exactly as that touch says (`mem_foldr_liveBefore`), and on a block this
is the equation between its two live sets (`mem_liveIn_iff_blockTouch?`).  A walk of the search then
carries liveness from its end back to its start, and conversely the walk that makes a symbol live is
one that the search follows.
-/

namespace RegAlloc

/-- **The first touch decides** what going back through a run of instructions does to a set. -/
theorem mem_foldr_liveBefore {is : List Instr} {out : IdSet} {s : SymbolId} :
    s ∈ is.foldr Instr.liveBefore out ↔
      firstTouch? s is = some .read ∨ firstTouch? s is = none ∧ s ∈ out := by
  unfold firstTouch?
  induction is with
  | nil => simp
  | cons i is ih =>
      rw [List.foldr_cons, Instr.mem_liveBefore, ih, List.findSome?_cons, Instr.touch?]
      by_cases huse : s ∈ i.uses
      · simp [huse]
      · by_cases hdef : s ∈ i.defs
        · simp [huse, hdef]
        · simp [huse, hdef]

/-- After the last instruction of a block come no others. -/
theorem Block.statementsAfter_of_getLast? {block : Block} {stmt : Nat}
    (hlast : block.indices.getLast? = some stmt) : block.statementsAfter stmt = [] := by
  unfold statementsAfter
  rw [List.filter_eq_nil_iff]
  intro e he
  have hlt : e.1 < block.start + block.instrs.length :=
    (mem_statements.mp (show (e.1, e.2) ∈ block.statements from he)).lt
  have hend : stmt + 1 = block.start + block.size := (getLast?_indices.mp hlast).1
  rw [Block.size] at hend
  simp only [decide_eq_true_eq]
  omega

namespace FlowGraph

variable {g : FlowGraph} {b c : BlockId} {s : SymbolId} {stmt : Nat} {block : Block}

/-! ## Whole blocks -/

/-- A symbol is live at the top of a block if the block reads it first, or leaves it alone and it is
live at the bottom. -/
theorem mem_liveIn_iff_blockTouch? (hg : g.EdgesInRange) :
    s ∈ g.liveness.liveIn b ↔
      g.blockTouch? s b = some .read ∨ g.blockTouch? s b = none ∧ s ∈ g.liveness.liveOut b := by
  rw [liveIn_eq_foldr hg, mem_foldr_liveBefore]
  rfl

/-- Where the search goes on from a block: nowhere if the block touches `s`. -/
def untouchedOn (g : FlowGraph) (s : SymbolId) (b : BlockId) : List BlockId :=
  if (g.blockTouch? s b).isNone then g.successors b else []

theorem mem_untouchedOn :
    c ∈ g.untouchedOn s b ↔ g.blockTouch? s b = none ∧ c ∈ g.successors b := by
  unfold untouchedOn
  cases g.blockTouch? s b <;> simp

theorem isReadBeyond_iff_leadTo :
    g.isReadBeyond s b = true ↔
      ∃ c, LeadTo (g.untouchedOn s) (g.successors b) c ∧ g.blockTouch? s c = some .read := by
  have hsublist : ∀ c, (g.untouchedOn s c).Sublist (g.successors c) := by
    intro c
    unfold untouchedOn
    split
    · exact List.Sublist.refl _
    · exact List.nil_sublist _
  unfold isReadBeyond
  rw [List.any_eq_true]
  refine exists_congr fun c => and_congr ?_ beq_iff_eq
  exact mem_closure_of_successors hsublist

/-- A walk of the search carries liveness back to its start. -/
theorem mem_liveIn_of_path (hg : g.EdgesInRange)
    (hpath : Relation.ReflTransGen (fun a d => d ∈ g.untouchedOn s a) b c)
    (hc : s ∈ g.liveness.liveIn c) : s ∈ g.liveness.liveIn b := by
  induction hpath using Relation.ReflTransGen.head_induction_on with
  | refl => exact hc
  | @head a d hstep _ ih =>
      obtain ⟨huntouched, hd⟩ := mem_untouchedOn.mp hstep
      have hout : s ∈ g.liveness.liveOut a := (mem_liveOut hg).mpr ⟨d, hd, ih⟩
      exact (mem_liveIn_iff_blockTouch? hg).mpr (Or.inr ⟨huntouched, hout⟩)

/-- The search follows every walk that makes `s` live. -/
theorem LiveOnEntry.exists_leadTo {roots : List BlockId} (hg : g.EdgesInRange)
    (h : g.LiveOnEntry s b) (hb : LeadTo (g.untouchedOn s) roots b) :
    ∃ c, LeadTo (g.untouchedOn s) roots c ∧ g.blockTouch? s c = some .read := by
  induction h with
  | @reads b hreads =>
      -- a block that reads first is live at its top whatever is live at its bottom
      have hmem : s ∈ (g.instrs b).foldr Instr.liveBefore ∅ := by
        rw [← DefUse.liveIn_ofInstrs]
        exact DefUse.mem_liveIn.mpr (Or.inr hreads)
      refine ⟨b, hb, (mem_foldr_liveBefore.mp hmem).resolve_right ?_⟩
      exact fun hempty => IdSet.not_mem_empty s hempty.2
  | @keeps b c hkeeps hc hlive ih =>
      have hmem := (mem_liveIn_iff hg).mpr (LiveOnEntry.keeps hkeeps hc hlive)
      rcases (mem_liveIn_iff_blockTouch? hg).mp hmem with hread | ⟨huntouched, -⟩
      · exact ⟨b, hb, hread⟩
      · exact ih (hb.step (mem_untouchedOn.mpr ⟨huntouched, hc⟩))

/-- **From the end of a block the search answers what the live set says.** -/
theorem isReadBeyond_iff (hg : g.EdgesInRange) :
    g.isReadBeyond s b = true ↔ s ∈ g.liveness.liveOut b := by
  rw [isReadBeyond_iff_leadTo]
  constructor
  · intro h
    obtain ⟨c, ⟨root, hroot, hpath⟩, hread⟩ := h
    have hc : s ∈ g.liveness.liveIn c := (mem_liveIn_iff_blockTouch? hg).mpr (Or.inl hread)
    exact (mem_liveOut hg).mpr ⟨root, hroot, mem_liveIn_of_path hg hpath hc⟩
  · intro h
    obtain ⟨root, hroot, hlive⟩ := (mem_liveOut_iff hg).mp h
    exact hlive.exists_leadTo hg (LeadTo.of_mem hroot)

/-! ## The rest of a block -/

/-- What is live behind instruction `stmt` of block number `b`: go back from the bottom of the block
through the instructions after `stmt`, last to first. -/
def liveBehind (g : FlowGraph) (b : BlockId) (block : Block) (stmt : Nat) : IdSet :=
  ((block.statementsAfter stmt).map Prod.snd).foldr Instr.liveBefore (g.liveness.liveOut b)

theorem isReadAfter_iff (hg : g.EdgesInRange) (hstmt : g.blockOf? stmt = some b)
    (hb : g.block? b = some block) :
    g.isReadAfter stmt s = true ↔ s ∈ g.liveBehind b block stmt := by
  unfold isReadAfter liveBehind
  rw [hstmt, mem_foldr_liveBefore, ← isReadBeyond_iff hg]
  simp only [hb, Option.map_some, Option.getD_some]
  cases firstTouch? s ((block.statementsAfter stmt).map Prod.snd) with
  | none => simp
  | some touch => cases touch <;> simp

/-- **Searching forward and iterating backward agree.**  Every instruction of a procedure stands in
a block of it, and a symbol is found to be read after the instruction exactly if it is in the set
that is got from the live set at the bottom of the block by going back through the instructions
behind it.  After the last instruction of a block, that is the live set at its bottom. -/
theorem isReadAfter_exact {is : List Instr} {gs : List FlowGraph} (hgs : ofInstrs is = .ok gs)
    (hg : g ∈ gs) (hstmt : stmt ∈ g.indices) :
    ∃ b block, g.blockOf? stmt = some b ∧ g.block? b = some block ∧
      (∀ s, g.isReadAfter stmt s = true ↔ s ∈ g.liveBehind b block stmt) ∧
      (block.indices.getLast? = some stmt →
        ∀ s, g.isReadAfter stmt s = true ↔ s ∈ g.liveness.liveOut b) := by
  have hrange := edgesInRange_of_mem hgs hg
  obtain ⟨b, hholds⟩ := mem_indices.mp hstmt
  obtain ⟨block, hb⟩ := hholds.exists_block
  have hblockOf := (wellCut_of_mem hgs hg).number b stmt hholds
  refine ⟨b, block, hblockOf, hb, fun s => isReadAfter_iff hrange hblockOf hb, ?_⟩
  intro hlast s
  rw [isReadAfter_iff hrange hblockOf hb, liveBehind,
    Block.statementsAfter_of_getLast? hlast]
  rfl

/-- In the loop with two entries, symbol `1` is still read after instruction `6` counts it down, on
the way round through the other block; and it is read after instruction `2`, the last one of its
block, so it is live at the bottom there. -/
theorem isReadAfter_exact_crossing :
    ofInstrs crossing = .ok [crossingWalk, crossingAgain] ∧ 6 ∈ crossingWalk.indices ∧
      crossingWalk.isReadAfter 6 1 = true ∧
      (∃ b block, crossingWalk.blockOf? 6 = some b ∧ crossingWalk.block? b = some block ∧
        1 ∈ crossingWalk.liveBehind b block 6) ∧
      ∃ b, crossingWalk.blockOf? 2 = some b ∧ 1 ∈ crossingWalk.liveness.liveOut b := by
  have hmem : crossingWalk ∈ [crossingWalk, crossingAgain] := List.mem_cons_self
  have htwo : 2 ∈ crossingWalk.indices := by decide
  have hsix : 6 ∈ crossingWalk.indices := by decide
  have hread : crossingWalk.isReadAfter 6 1 = true := by decide +kernel
  obtain ⟨b, block, hb, hblock, hexact, -⟩ := isReadAfter_exact ofInstrs_crossing hmem hsix
  obtain ⟨c, last, hc, hlast, -, hend⟩ := isReadAfter_exact ofInstrs_crossing hmem htwo
  have hbottom : last.indices.getLast? = some 2 := by
    cases (show crossingWalk.blockOf? 2 = some 0 from rfl).symm.trans hc
    cases hlast
    rfl
  exact ⟨ofInstrs_crossing, hsix, hread, ⟨b, block, hb, hblock, (hexact 1).mp hread⟩,
    c, hc, (hend hbottom 1).mp (by decide +kernel)⟩

end FlowGraph

end RegAlloc
