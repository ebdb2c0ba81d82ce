import Mathlib.Data.List.Pairwise
import RegAlloc.Flow.Scan

/-!
# A program cut into regions and blocks

The scan reads a program instruction by instruction and carries along what it has to remember.
This file says without such a state what there is to find; that the scan finds it is shown later
(`FlowGraph.progress_eq`).

A **region** is the part of a program that belongs to one procedure: it opens at a label that
carries a procedure entry and runs through the next return, or up to the next entry label or the end
of the list, whichever comes first.  An instruction that no region holds is **stray**.  `pieces`
lists regions and stray instructions in program order.

A region is cut into blocks by `Block.split`: a block ends after an instruction that transfers
control, before a label, and at the end of the region.  The edges of the blocks are those into the
next block, in block order, and then those of jumps and branches, in block order, as far as they are
not listed yet (`blockEdges`).

`Region.fault?` is the first thing wrong inside a region: a label that repeats an earlier one wins
over a jump to a label that is not there, wherever the two stand.
-/

namespace RegAlloc

/-! ## Regions -/

/-- The instructions of one procedure. -/
structure Region where
  /-- The program index of the entry label. -/
  start : Nat
  /-- The name of the entry label, which names the procedure. -/
  name : Label
  /-- What the entry label says about the procedure. -/
  entry : ProcedureEntry
  /-- The instructions, entry label first. -/
  instrs : List Instr
deriving DecidableEq, Repr, Inhabited

/-- The part of a list that continues an open region. -/
def regionBody : List Instr → List Instr
  | [] => []
  | i :: is =>
    if i.entry?.isSome then []
    else if i.isReturn then [i]
    else i :: regionBody is

/-- A region, or an instruction outside every region. -/
inductive Piece where
  /-- The instruction with this index belongs to no procedure. -/
  | stray (index : Nat)
  /-- A procedure. -/
  | region (r : Region)
deriving DecidableEq, Repr, Inhabited

/-- The regions and stray instructions of a list whose first index is `start`.  `inside` says
whether a region is open, so that its instructions are not listed again. -/
def piecesFrom (inside : Bool) (start : Nat) : List Instr → List Piece
  | [] => []
  | .label name (some entry) :: is =>
    .region ⟨start, name, entry, .label name (some entry) :: regionBody is⟩
      :: piecesFrom true (start + 1) is
  | i :: is =>
    if inside then piecesFrom (!i.isReturn) (start + 1) is
    else .stray start :: piecesFrom false (start + 1) is

/-- The regions and stray instructions of a program, in order. -/
def pieces (instrs : List Instr) : List Piece := piecesFrom false 0 instrs

section Pieces

variable {x : Instr}

theorem Instr.entry?_eq_some {entry : ProcedureEntry} :
    x.entry? = some entry ↔ ∃ name, x = .label name (some entry) := by
  cases x <;> simp [Instr.entry?]

/-- What continues a region is read up to its return. -/
theorem regionBody_cons (hx : x.entry? = none) (is : List Instr) :
    regionBody (x :: is) = x :: if x.isReturn then [] else regionBody is := by
  rw [regionBody, hx, if_neg (by simp)]
  cases x.isReturn <;> rfl

/-- A label that opens a procedure begins a region. -/
theorem piecesFrom_entry (inside : Bool) (start : Nat) (name : Label) (entry : ProcedureEntry)
    (is : List Instr) :
    piecesFrom inside start (.label name (some entry) :: is) =
      .region ⟨start, name, entry, .label name (some entry) :: regionBody is⟩
        :: piecesFrom true (start + 1) is := rfl

/-- Any other instruction belongs to the region that is open, or is stray. -/
theorem piecesFrom_cons (hx : x.entry? = none) (inside : Bool) (start : Nat) (is : List Instr) :
    piecesFrom inside start (x :: is) =
      if inside then piecesFrom (!x.isReturn) (start + 1) is
      else .stray start :: piecesFrom false (start + 1) is := by
  cases x with
  | label name entry =>
      cases entry with
      | none => rfl
      | some entry => exact absurd hx (by simp [Instr.entry?])
  | _ => rfl

end Pieces

namespace Region

/-- The names of the labels, in order. -/
def labels (r : Region) : List Label := r.instrs.filterMap Instr.labelName?

/-- The labels that jumps and branches go to, in order. -/
def targets (r : Region) : List Label := r.instrs.filterMap Instr.target?

end Region

/-- The first element that occurs in `seen` or earlier in the list. -/
def firstRepeated? (seen : List Label) : List Label → Option Label
  | [] => none
  | l :: ls => if l ∈ seen then some l else firstRepeated? (l :: seen) ls

/-- **What is wrong with a region:** the first label that repeats an earlier one, else the first
target that is no label of the region. -/
def Region.fault? (r : Region) : Option Error :=
  match firstRepeated? [] r.labels with
  | some l => some (.duplicateLabel l r.name)
  | none =>
    match r.targets.find? (fun t => decide (t ∉ r.labels)) with
    | some t => some (.unresolvedLabel t r.name)
    | none => none

/-! ## Blocks -/

namespace Block

/-- Put an instruction in front of blocks that are cut already: it opens a block of its own if it
transfers control or a label follows, and joins the first block otherwise. -/
def prepend (start : Nat) (i : Instr) : List Block → List Block
  | [] => [⟨start, [i]⟩]
  | b :: bs =>
    if i.transfersControl || b.opensWithLabel then ⟨start, [i]⟩ :: b :: bs
    else ⟨start, i :: b.instrs⟩ :: bs

/-- **Cut a list of instructions into basic blocks**; `start` is the index of its first one. -/
def split (start : Nat) : List Instr → List Block
  | [] => []
  | i :: is => prepend start i (split (start + 1) is)

theorem prepend_cons (start : Nat) (i : Instr) (b : Block) (bs : List Block) :
    prepend start i (b :: bs) =
      if i.transfersControl || b.opensWithLabel then ⟨start, [i]⟩ :: b :: bs
      else ⟨start, i :: b.instrs⟩ :: bs := rfl

@[simp] theorem split_nil (start : Nat) : split start [] = [] := rfl

@[simp] theorem split_cons (start : Nat) (i : Instr) (is : List Instr) :
    split start (i :: is) = prepend start i (split (start + 1) is) := rfl

theorem flatMap_instrs_prepend (start : Nat) (i : Instr) (bs : List Block) :
    (prepend start i bs).flatMap Block.instrs = i :: bs.flatMap Block.instrs := by
  cases bs with
  | nil => rfl
  | cons b bs =>
    rw [prepend_cons]
    split <;> rfl

/-- **Nothing is lost or moved by cutting:** the blocks put together are the list. -/
theorem flatMap_instrs_split (start : Nat) (is : List Instr) :
    (split start is).flatMap Block.instrs = is := by
  induction is generalizing start with
  | nil => rfl
  | cons i is ih => rw [split_cons, flatMap_instrs_prepend, ih]

/-- No block is empty. -/
theorem instrs_ne_nil_of_mem_split {start : Nat} {is : List Instr} {b : Block}
    (h : b ∈ split start is) : b.instrs ≠ [] := by
  induction is generalizing start with
  | nil => exact absurd h List.not_mem_nil
  | cons i is ih =>
    rw [split_cons] at h
    cases hs : split (start + 1) is with
    | nil =>
      rw [hs] at h
      rcases List.mem_cons.mp h with rfl | h
      · exact List.cons_ne_nil _ _
      · exact absurd h List.not_mem_nil
    | cons c cs =>
      rw [hs, prepend_cons] at h
      split at h
      · rcases List.mem_cons.mp h with rfl | h
        · exact List.cons_ne_nil _ _
        · exact ih (hs ▸ h)
      · rcases List.mem_cons.mp h with rfl | h
        · exact List.cons_ne_nil _ _
        · exact ih (hs ▸ List.mem_cons_of_mem c h)

variable {b : Block} {start : Nat} {is : List Instr} {x : Instr}

/-- Control enters a block only at the top and leaves it only at the bottom. -/
structure Straight (b : Block) : Prop where
  /-- Only the last instruction passes control on. -/
  transfer : ∀ {o x}, b.instrs[o]? = some x → x.transfersControl = true → o + 1 = b.size
  /-- Only the first instruction is a label. -/
  label : ∀ {o x}, b.instrs[o]? = some x → x.isLabel = true → o = 0

theorem Straight.singleton (start : Nat) (x : Instr) : Straight ⟨start, [x]⟩ := by
  constructor
  · intro o y hy _
    have hlt := (List.getElem?_eq_some_iff.mp hy).1
    rw [List.length_singleton] at hlt
    show o + 1 = 1
    omega
  · intro o y hy _
    have hlt := (List.getElem?_eq_some_iff.mp hy).1
    rw [List.length_singleton] at hlt
    omega

theorem Straight.cons (hb : b.Straight) (hx : x.transfersControl = false)
    (hopen : b.opensWithLabel = false) (start : Nat) : Straight ⟨start, x :: b.instrs⟩ := by
  constructor
  · intro o y hy htransfer
    cases o with
    | zero =>
        cases hy
        exact absurd (hx.symm.trans htransfer) (by simp)
    | succ o =>
        have hlast := hb.transfer hy htransfer
        show o + 1 + 1 = (x :: b.instrs).length
        rw [List.length_cons]
        exact congrArg (· + 1) hlast
  · intro o y hy hlabel
    cases o with
    | zero => rfl
    | succ o =>
        -- a label further down would be the first instruction of the block that was there before
        have hfirst := hb.label hy hlabel
        subst hfirst
        have hhead : b.instrs.head? = some y := by
          rw [List.head?_eq_getElem?]
          exact hy
        rw [opensWithLabel, hhead] at hopen
        exact absurd (hopen.symm.trans hlabel) (by simp)

/-- **Every block is straight.** -/
theorem straight_of_mem_split (hb : b ∈ split start is) : b.Straight := by
  induction is generalizing start b with
  | nil => exact absurd hb List.not_mem_nil
  | cons x is ih =>
      rw [split_cons] at hb
      cases hs : split (start + 1) is with
      | nil =>
          rw [hs] at hb
          rw [List.mem_singleton.mp hb]
          exact Straight.singleton start x
      | cons c cs =>
          rw [hs, prepend_cons] at hb
          split at hb
          · rcases List.mem_cons.mp hb with rfl | hb
            · exact Straight.singleton start x
            · exact ih (hs ▸ hb)
          · rename_i hjoin
            rw [Bool.not_eq_true, Bool.or_eq_false_iff] at hjoin
            rcases List.mem_cons.mp hb with rfl | hb
            · exact (ih (hs ▸ List.mem_cons_self)).cons hjoin.1 hjoin.2 start
            · exact ih (hs ▸ List.mem_cons_of_mem c hb)

end Block

/-! ## Edges -/

/-- The block that a label opens. -/
def blockOfLabel? (blocks : List Block) (l : Label) : Option BlockId :=
  blocks.findIdx? fun b => b.label? == some l

/-- The edges from a block into the next one. -/
def fallEdges (blocks : List Block) : List (BlockId × BlockId) :=
  blocks.zipIdx.filterMap fun e =>
    if e.1.fallsThrough && decide (e.2 + 1 < blocks.length) then some (e.2, e.2 + 1) else none

/-- The edges of jumps and branches; a target that is no label of the blocks gives none. -/
def jumpEdges (blocks : List Block) : List (BlockId × BlockId) :=
  blocks.zipIdx.filterMap fun e =>
    (e.1.target?.bind (blockOfLabel? blocks)).map fun c => (e.2, c)

/-- All edges between the blocks of a procedure, each listed once. -/
def blockEdges (blocks : List Block) : List (BlockId × BlockId) :=
  let falls := fallEdges blocks
  falls ++ (jumpEdges blocks).filter fun e => decide (e ∉ falls)

theorem lt_length_of_mem_fallEdges {blocks : List Block} {e : BlockId × BlockId}
    (he : e ∈ fallEdges blocks) : e.1 < blocks.length ∧ e.2 < blocks.length := by
  obtain ⟨⟨block, b⟩, -, h⟩ := List.mem_filterMap.mp he
  obtain ⟨hfalls, he⟩ := Option.ite_none_right_eq_some.mp h
  cases he
  have hlt : b + 1 < blocks.length := of_decide_eq_true (Bool.and_eq_true_iff.mp hfalls).2
  exact ⟨Nat.lt_of_succ_lt hlt, hlt⟩

theorem lt_length_of_mem_jumpEdges {blocks : List Block} {e : BlockId × BlockId}
    (he : e ∈ jumpEdges blocks) : e.1 < blocks.length ∧ e.2 < blocks.length := by
  obtain ⟨⟨block, b⟩, hb, h⟩ := List.mem_filterMap.mp he
  obtain ⟨c, hc, rfl⟩ := Option.map_eq_some_iff.mp h
  obtain ⟨l, -, hl⟩ := Option.bind_eq_some_iff.mp hc
  obtain ⟨hlt, -⟩ := List.findIdx?_eq_some_iff_getElem.mp hl
  exact ⟨List.snd_lt_of_mem_zipIdx hb, hlt⟩

section Edges

variable {blocks : List Block} {b c : BlockId}

theorem mem_fallEdges :
    (b, c) ∈ fallEdges blocks ↔
      ∃ source, blocks[b]? = some source ∧ source.fallsThrough = true ∧ c = b + 1 ∧
        c < blocks.length := by
  rw [fallEdges, List.mem_filterMap]
  constructor
  · rintro ⟨⟨source, k⟩, hk, h⟩
    obtain ⟨hguard, he⟩ := Option.ite_none_right_eq_some.mp h
    cases he
    obtain ⟨hfalls, hlt⟩ := Bool.and_eq_true_iff.mp hguard
    exact ⟨source, List.mem_zipIdx_iff_getElem?.mp hk, hfalls, rfl, of_decide_eq_true hlt⟩
  · rintro ⟨source, hb, hfalls, rfl, hlt⟩
    refine ⟨(source, b), List.mem_zipIdx_iff_getElem?.mpr hb, ?_⟩
    exact if_pos (Bool.and_eq_true_iff.mpr ⟨hfalls, decide_eq_true hlt⟩)

theorem mem_jumpEdges :
    (b, c) ∈ jumpEdges blocks ↔
      ∃ source l, blocks[b]? = some source ∧ source.target? = some l ∧
        blockOfLabel? blocks l = some c := by
  rw [jumpEdges, List.mem_filterMap]
  constructor
  · rintro ⟨⟨source, k⟩, hk, h⟩
    obtain ⟨c, hc, he⟩ := Option.map_eq_some_iff.mp h
    cases he
    obtain ⟨l, hl, hc⟩ := Option.bind_eq_some_iff.mp hc
    exact ⟨source, l, List.mem_zipIdx_iff_getElem?.mp hk, hl, hc⟩
  · rintro ⟨source, l, hb, hl, hc⟩
    refine ⟨(source, b), List.mem_zipIdx_iff_getElem?.mpr hb, ?_⟩
    rw [hl, Option.bind_some, hc]
    rfl

theorem mem_blockEdges {e : BlockId × BlockId} :
    e ∈ blockEdges blocks ↔ e ∈ fallEdges blocks ∨ e ∈ jumpEdges blocks := by
  rw [blockEdges, List.mem_append, List.mem_filter, decide_eq_true_eq]
  by_cases h : e ∈ fallEdges blocks
  · simp [h]
  · simp [h]

/-- Edges that are listed block by block, at most one for each, are listed once. -/
private theorem nodup_edgesByBlock {f : Block × Nat → Option (BlockId × BlockId)}
    (hf : ∀ e edge, f e = some edge → edge.1 = e.2) : (blocks.zipIdx.filterMap f).Nodup := by
  have hnumbers : blocks.zipIdx.Pairwise fun e d => e.2 < d.2 := by
    rw [← List.pairwise_map, List.zipIdx_map_snd]
    exact List.pairwise_lt_range'
  refine List.pairwise_filterMap.mpr (hnumbers.imp fun hlt x hx y hy hxy => ?_)
  rw [← hf _ x hx, ← hf _ y hy, hxy] at hlt
  exact Nat.lt_irrefl _ hlt

theorem nodup_jumpEdges (blocks : List Block) : (jumpEdges blocks).Nodup := by
  refine nodup_edgesByBlock fun e edge he => ?_
  obtain ⟨c, -, rfl⟩ := Option.map_eq_some_iff.mp he
  rfl

/-- **No edge is listed twice.** -/
theorem nodup_blockEdges (blocks : List Block) : (blockEdges blocks).Nodup := by
  have hfalls : (fallEdges blocks).Nodup := by
    refine nodup_edgesByBlock fun e edge he => ?_
    cases (Option.ite_none_right_eq_some.mp he).2
    rfl
  refine List.nodup_append.mpr ⟨hfalls, (nodup_jumpEdges blocks).filter _, fun e he d hd hed => ?_⟩
  obtain ⟨-, hnew⟩ := List.mem_filter.mp hd
  exact of_decide_eq_true hnew (hed ▸ he)

end Edges

/-! ## Flow graphs -/

namespace FlowGraph

/-- The flow graph of a region in which every target is a label. -/
def ofRegion (r : Region) : FlowGraph :=
  let blocks := Block.split r.start r.instrs
  { name := r.name, procedure := r.entry, blocks, edges := blockEdges blocks }

/-- The flow graph of a piece of the program, or what is wrong with the piece. -/
def ofPiece : Piece → Except Error FlowGraph
  | .stray index => .error (.missingEntry index)
  | .region r =>
    match r.fault? with
    | some e => .error e
    | none => .ok (ofRegion r)

end FlowGraph

end RegAlloc
