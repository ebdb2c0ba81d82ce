import RegAlloc.Flow.Graph
import RegAlloc.Ids.IdSet

/-!
# Liveness

A symbol is **live** at a point if some path from there reads it before writing it.  The analysis
keeps two sets per block, what is live at its top and at its bottom, and they satisfy

* live at the bottom of a block = the union of what is live at the top of its successors;
* live at the top = what the block reads before writing, and what is live at the bottom and not
  written in the block.

Both sets start empty everywhere.  A pass goes through the blocks from the last to the first and
sets the two sets of each block by these equations, so that later blocks of the pass already see
the new sets.  Passes are repeated until one changes nothing, and the number of passes, the last
one included, is part of the result.

The sets are a value of their own, `LiveSets`, in which a block without an entry has empty sets.
`Liveness.violation?` checks any such value against the equations.

The text of a result has one line per block, with what is live at its top and at its bottom, by name
and in symbol order.
-/

namespace RegAlloc

/-! ### What a block reads and writes -/

/-- The symbols live before an instruction, from those live after it. -/
def Instr.liveBefore (i : Instr) (after : IdSet) : IdSet :=
  (after \ IdSet.ofList i.defs) ∪ IdSet.ofList i.uses

/-- What one block does to symbols. -/
structure DefUse where
  /-- The symbols the block writes. -/
  defs : IdSet
  /-- The symbols the block reads before it writes them. -/
  uses : IdSet
deriving DecidableEq

namespace DefUse

instance : Inhabited DefUse := ⟨⟨∅, ∅⟩⟩

/-- The symbols that a run of instructions writes, and those that it reads first. -/
def ofInstrs : List Instr → DefUse
  | [] => ⟨∅, ∅⟩
  | i :: is =>
    let rest := ofInstrs is
    ⟨IdSet.ofList i.defs ∪ rest.defs, i.liveBefore rest.uses⟩

/-- The symbols live at the top of a block, from those live at the bottom. -/
def liveIn (d : DefUse) (liveOut : IdSet) : IdSet := (liveOut \ d.defs) ∪ d.uses

end DefUse

theorem Instr.mem_liveBefore {i : Instr} {after : IdSet} {s : SymbolId} :
    s ∈ i.liveBefore after ↔ (s ∈ after ∧ s ∉ i.defs) ∨ s ∈ i.uses := by
  simp [liveBefore]

theorem DefUse.mem_liveIn {d : DefUse} {liveOut : IdSet} {s : SymbolId} :
    s ∈ d.liveIn liveOut ↔ (s ∈ liveOut ∧ s ∉ d.defs) ∨ s ∈ d.uses := by
  simp [liveIn]

/-! ### The sets of all blocks -/

/-- The two ends of a block. -/
inductive BlockEnd where
  | top
  | bottom
deriving DecidableEq, Repr, Inhabited

/-- Live symbols at the top and the bottom of each block. -/
structure LiveSets where
  /-- Live at the top. -/
  tops : Array IdSet
  /-- Live at the bottom. -/
  bottoms : Array IdSet
deriving DecidableEq

namespace LiveSets

/-- What is live at the top of a block. -/
def top (s : LiveSets) (b : BlockId) : IdSet := s.tops.getD b ∅

/-- What is live at the bottom of a block. -/
def bottom (s : LiveSets) (b : BlockId) : IdSet := s.bottoms.getD b ∅

/-- Nothing is live anywhere. -/
def allEmpty (size : Nat) : LiveSets := ⟨Array.replicate size ∅, Array.replicate size ∅⟩

/-- Replace the sets of one block. -/
def set (s : LiveSets) (b : BlockId) (top bottom : IdSet) : LiveSets :=
  ⟨s.tops.setIfInBounds b top, s.bottoms.setIfInBounds b bottom⟩

/-- Change one set of one block; a block without sets stays as it is. -/
def modify (s : LiveSets) (e : BlockEnd) (b : BlockId) (f : IdSet → IdSet) : LiveSets :=
  match e with
  | .top => { s with tops := s.tops.modify b f }
  | .bottom => { s with bottoms := s.bottoms.modify b f }

theorem top_set (s : LiveSets) (b c : BlockId) (top bottom : IdSet) :
    (s.set b top bottom).top c = if b = c ∧ c < s.tops.size then top else s.top c := by
  simp only [LiveSets.top, LiveSets.set, Array.getD_eq_getD_getElem?, Array.getElem?_setIfInBounds]
  by_cases hb : b = c
  · subst hb
    by_cases hs : b < s.tops.size
    · simp [hs]
    · simp [hs]
  · simp [hb]

theorem bottom_set (s : LiveSets) (b c : BlockId) (top bottom : IdSet) :
    (s.set b top bottom).bottom c = if b = c ∧ c < s.bottoms.size then bottom else s.bottom c := by
  simp only [LiveSets.bottom, LiveSets.set, Array.getD_eq_getD_getElem?,
    Array.getElem?_setIfInBounds]
  by_cases hb : b = c
  · subst hb
    by_cases hs : b < s.bottoms.size
    · simp [hs]
    · simp [hs]
  · simp [hb]

end LiveSets

namespace FlowGraph

/-- What each block reads and writes. -/
def defUse (g : FlowGraph) : Array DefUse :=
  (g.blocks.map fun b => DefUse.ofInstrs b.instrs).toArray

/-- What should be live at the bottom of a block. -/
def bottomEquation (g : FlowGraph) (s : LiveSets) (b : BlockId) : IdSet :=
  IdSet.unionOver s.top (g.successors b)

end FlowGraph

/-- What should be live at the top of a block, from what is live at its bottom. -/
def topEquation (du : Array DefUse) (b : BlockId) (bottom : IdSet) : IdSet :=
  (du.getD b default).liveIn bottom

/-! ### Iteration to the fixed point -/

namespace LiveSets

/-- Set the sets of one block by the equations. -/
def refine (g : FlowGraph) (du : Array DefUse) (s : LiveSets) (b : BlockId) : LiveSets :=
  let bottom := g.bottomEquation s b
  s.set b (topEquation du b bottom) bottom

/-- One pass over all blocks, last to first. -/
def pass (g : FlowGraph) (du : Array DefUse) (s : LiveSets) : LiveSets :=
  (List.range g.size).reverse.foldl (refine g du) s

/-- Repeat the pass until it changes nothing, at most `budget` times.  The result holds the sets and
the number of passes. -/
def iterate (g : FlowGraph) (du : Array DefUse) : Nat → LiveSets → LiveSets × Nat
  | 0, s => (s, 0)
  | budget + 1, s =>
    let s' := pass g du s
    if s' = s then (s, 1)
    else
      let (fixed, passes) := iterate g du budget s'
      (fixed, passes + 1)

end LiveSets

/-- The liveness of one procedure. -/
structure Liveness where
  /-- What each block reads and writes. -/
  defUse : Array DefUse
  /-- What is live at the two ends of each block. -/
  sets : LiveSets
  /-- How many passes the iteration took. -/
  passes : Nat
deriving DecidableEq

namespace Liveness

/-- What a block writes and what it reads first; an unknown block does neither. -/
def defUseOf (l : Liveness) (b : BlockId) : DefUse := l.defUse.getD b default

/-- What is live at the top of a block. -/
def liveIn (l : Liveness) (b : BlockId) : IdSet := l.sets.top b

/-- What is live at the bottom of a block. -/
def liveOut (l : Liveness) (b : BlockId) : IdSet := l.sets.bottom b

/-- Change one live set of one block. -/
def modify (l : Liveness) (e : BlockEnd) (b : BlockId) (f : IdSet → IdSet) : Liveness :=
  { l with sets := l.sets.modify e b f }

/-- Whether the sets of a block satisfy the equations. -/
def isStableAt (l : Liveness) (g : FlowGraph) (b : BlockId) : Bool :=
  let bottom := g.bottomEquation l.sets b
  l.liveOut b == bottom && l.liveIn b == topEquation l.defUse b bottom

/-- The first block whose sets do not satisfy the equations. -/
def violation? (l : Liveness) (g : FlowGraph) : Option BlockId :=
  (List.range g.size).find? fun b => !l.isStableAt g b

end Liveness

namespace FlowGraph

/-- How many passes are granted.  A fact moves along at least one edge per pass, and a path without
repetition has fewer edges than there are blocks, so twice the number of blocks is ample. -/
def passBudget (g : FlowGraph) : Nat := 2 * g.size + 2

/-- **The liveness of a procedure**: the least sets that satisfy the equations. -/
def liveness (g : FlowGraph) : Liveness :=
  let du := g.defUse
  let (sets, passes) := LiveSets.iterate g du g.passBudget (LiveSets.allEmpty g.size)
  ⟨du, sets, passes⟩

end FlowGraph

/-! ### Texts -/

namespace Liveness

/-- The line of one block. -/
def blockText (l : Liveness) (t : SymbolTable) (b : BlockId) : String :=
  "  " ++ BlockId.text b ++ " in: " ++ t.braced (l.liveIn b).toList
    ++ " out: " ++ t.braced (l.liveOut b).toList ++ "\n"

/-- The number of passes and the sets of every block. -/
def text (l : Liveness) (g : FlowGraph) (t : SymbolTable) : String :=
  "liveness " ++ g.name ++ " (" ++ toString l.passes ++ " passes)\n"
    ++ String.join ((List.range g.size).map (l.blockText t))

end Liveness

end RegAlloc
