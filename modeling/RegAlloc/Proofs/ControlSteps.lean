import RegAlloc.Proofs.ProgramCuts

/-!
# Control steps of a program and of its flow graphs

Where control can go from an instruction can be read off the **program text** alone: to the next
instruction, or to the label that a jump names, within the procedure (`ControlStep`).  It can also
be read off the **flow graphs**: down a block, or along an edge from the bottom of a block to the
top of another (`FlowGraph.StatementStep`).  The main result is that the two agree at all pairs of
indices.

In between stands the region of a procedure, in which control steps do not mention procedures any
more (`Region.PassesControl`).  Cutting the program into regions and cutting a region into blocks
are then two separate arguments.
-/

namespace RegAlloc

/-! ## Steps in the text -/

/-- No procedure opens between two indices: each one opens at or before both, or after both. -/
def SameProcedure (is : List Instr) (i j : Nat) : Prop :=
  ∀ e x, is[e]? = some x → x.entry?.isSome = true → (e ≤ i ↔ e ≤ j)

/-- **A step of control in the text of a program,** from index `i` to index `j`. -/
inductive ControlStep (is : List Instr) (i j : Nat) : Prop where
  /-- To the next instruction, unless that one opens a procedure. -/
  | fall {x y : Instr} : is[i]? = some x → x.fallsThrough = true → j = i + 1 → is[j]? = some y →
      y.entry? = none → ControlStep is i j
  /-- To the label that a jump or branch names, in the same procedure. -/
  | jump {x y : Instr} {l : Label} : is[i]? = some x → x.target? = some l → is[j]? = some y →
      y.labelName? = some l → SameProcedure is i j → ControlStep is i j

/-- A step of control inside a region. -/
inductive Region.PassesControl (r : Region) (i j : Nat) : Prop where
  | fall {x y : Instr} : InstrAt r.start r.instrs i x → x.fallsThrough = true → j = i + 1 →
      InstrAt r.start r.instrs j y → PassesControl r i j
  | jump {x y : Instr} {l : Label} : InstrAt r.start r.instrs i x → x.target? = some l →
      InstrAt r.start r.instrs j y → y.labelName? = some l → PassesControl r i j

/-- **A step of control in a flow graph,** between the program indices of its instructions. -/
inductive FlowGraph.StatementStep (g : FlowGraph) (i j : Nat) : Prop where
  /-- Between consecutive instructions of a block. -/
  | inside {block : Block} : block ∈ g.blocks → [i, j] <:+: block.indices → StatementStep g i j
  /-- From the last instruction of a block to the first of a successor. -/
  | across {b c : BlockId} {source target : Block} : g.block? b = some source →
      g.block? c = some target → c ∈ g.successors b → source.indices.getLast? = some i →
      target.indices.head? = some j → StatementStep g i j

namespace Instr

variable {x : Instr} {l : Label}

theorem transfersControl_of_not_fallsThrough (h : x.fallsThrough = false) :
    x.transfersControl = true := by
  cases x <;> simp_all [fallsThrough, transfersControl]

theorem transfersControl_of_target? (h : x.target? = some l) : x.transfersControl = true := by
  cases x <;> simp_all [target?, transfersControl]

theorem isLabel_of_labelName? (h : x.labelName? = some l) : x.isLabel = true := by
  cases x <;> simp_all [labelName?, isLabel]

end Instr

/-! ## From the program to its regions -/

namespace Region

variable {is : List Instr} {rs : List Region} {r s : Region} {i j e : Nat} {x y : Instr}

/-- In a region only the first instruction opens a procedure. -/
theorem Opens.entry?_isSome (hr : r.Opens) (hx : InstrAt r.start r.instrs i x) :
    x.entry?.isSome = true ↔ i = r.start := by
  obtain ⟨body, hinstrs, hbody⟩ := hr
  obtain ⟨hle, hx⟩ := hx
  rw [hinstrs] at hx
  cases hoffset : i - r.start with
  | zero =>
      rw [hoffset, List.getElem?_cons_zero] at hx
      cases hx
      exact iff_of_true rfl (by omega)
  | succ o =>
      rw [hoffset, List.getElem?_cons_succ] at hx
      rw [hbody x (List.mem_of_getElem? hx)]
      exact iff_of_false (by simp) (by omega)

section Program

variable (hlaid : LaidOut Region.span 0 rs) (hopens : ∀ r ∈ rs, r.Opens)
include hlaid

/-- An instruction of the program is an instruction of a region. -/
theorem getElem?_flatMap :
    (rs.flatMap Region.instrs)[i]? = some x ↔ ∃ r ∈ rs, InstrAt r.start r.instrs i x := by
  rw [← instrAt_zero]
  exact hlaid.instrAt_flatMap

/-- Two indices are in one region, or the one comes before the region of the other begins. -/
theorem eq_or_lt_start (hr : r ∈ rs) (hs : s ∈ rs) (hx : InstrAt r.start r.instrs i x)
    (hy : InstrAt s.start s.instrs j y) : r = s ∨ i < s.start ∨ j < r.start :=
  (hlaid.apart hr hs).imp_right
    (Or.imp (fun hend => hx.lt.trans_le hend) fun hend => hy.lt.trans_le hend)

include hopens

/-- The next instruction is in the same region unless it opens a procedure. -/
theorem eq_of_next (hr : r ∈ rs) (hs : s ∈ rs) (hx : InstrAt r.start r.instrs i x)
    (hy : InstrAt s.start s.instrs (i + 1) y) (hentry : y.entry? = none) : r = s := by
  rcases eq_or_lt_start hlaid hr hs hx hy with h | hlt | hlt
  · exact h
  · -- then the second region begins right after `i`, with its entry
    have hfirst : i + 1 = s.start := Nat.le_antisymm hlt hy.1
    have hopen := ((hopens s hs).entry?_isSome hy).mpr hfirst
    exact absurd hopen (by simp [hentry])
  · exact absurd (Nat.lt_of_succ_lt hlt) (Nat.not_lt.mpr hx.1)

/-- A region that holds something holds its entry. -/
theorem exists_entry (hr : r ∈ rs) (hx : InstrAt r.start r.instrs i x) :
    ∃ z, (rs.flatMap Region.instrs)[r.start]? = some z ∧ z.entry?.isSome = true := by
  obtain ⟨z, hz⟩ := exists_instrAt (Nat.le_refl r.start) (hx.1.trans_lt hx.lt)
  refine ⟨z, (getElem?_flatMap hlaid).mpr ⟨r, hr, hz⟩, ?_⟩
  exact ((hopens r hr).entry?_isSome hz).mpr rfl

/-- **Indices are in the same procedure exactly if they are in the same region.** -/
theorem sameProcedure_iff (hr : r ∈ rs) (hs : s ∈ rs) (hx : InstrAt r.start r.instrs i x)
    (hy : InstrAt s.start s.instrs j y) :
    SameProcedure (rs.flatMap Region.instrs) i j ↔ r = s := by
  constructor
  · intro hsame
    obtain ⟨z, hz, hentry⟩ := exists_entry hlaid hopens hr hx
    have hrj : r.start ≤ j := (hsame _ z hz hentry).mp hx.1
    obtain ⟨w, hw, hentry⟩ := exists_entry hlaid hopens hs hy
    have hsi : s.start ≤ i := (hsame _ w hw hentry).mpr hy.1
    rcases eq_or_lt_start hlaid hr hs hx hy with h | hlt | hlt
    · exact h
    · exact absurd hlt (Nat.not_lt.mpr hsi)
    · exact absurd hlt (Nat.not_lt.mpr hrj)
  · rintro rfl
    intro e z hz hentry
    -- the procedure that opens at `e` is this one, or an earlier one, or a later one
    obtain ⟨t, ht, hz⟩ := (getElem?_flatMap hlaid).mp hz
    have hfirst := ((hopens t ht).entry?_isSome hz).mp hentry
    have hxle := hx.1
    have hyle := hy.1
    rcases eq_or_lt_start hlaid hr ht hx hz with rfl | hlt | hlt
    · omega
    · rcases eq_or_lt_start hlaid hr ht hy hz with rfl | hlt' | hlt'
      · omega
      · omega
      · omega
    · omega

/-- **A step in the text is a step in one of the regions.** -/
theorem controlStep_flatMap :
    ControlStep (rs.flatMap Region.instrs) i j ↔ ∃ r ∈ rs, r.PassesControl i j := by
  constructor
  · rintro (⟨hx, hfalls, rfl, hy, hentry⟩ | ⟨hx, htarget, hy, hname, hsame⟩)
    · obtain ⟨r, hr, hx⟩ := (getElem?_flatMap hlaid).mp hx
      obtain ⟨s, hs, hy⟩ := (getElem?_flatMap hlaid).mp hy
      obtain rfl := eq_of_next hlaid hopens hr hs hx hy hentry
      exact ⟨r, hr, .fall hx hfalls rfl hy⟩
    · obtain ⟨r, hr, hx⟩ := (getElem?_flatMap hlaid).mp hx
      obtain ⟨s, hs, hy⟩ := (getElem?_flatMap hlaid).mp hy
      obtain rfl := (sameProcedure_iff hlaid hopens hr hs hx hy).mp hsame
      exact ⟨r, hr, .jump hx htarget hy hname⟩
  · rintro ⟨r, hr, @⟨x, y, hx, hfalls, rfl, hy⟩ | ⟨hx, htarget, hy, hname⟩⟩
    · have hentry : y.entry? = none := by
        rw [← Option.not_isSome_iff_eq_none, (hopens r hr).entry?_isSome hy]
        exact Nat.ne_of_gt (Nat.lt_succ_of_le hx.1)
      exact .fall ((getElem?_flatMap hlaid).mpr ⟨r, hr, hx⟩) hfalls rfl
        ((getElem?_flatMap hlaid).mpr ⟨r, hr, hy⟩) hentry
    · exact .jump ((getElem?_flatMap hlaid).mpr ⟨r, hr, hx⟩) htarget
        ((getElem?_flatMap hlaid).mpr ⟨r, hr, hy⟩) hname
        ((sameProcedure_iff hlaid hopens hr hr hx hy).mpr rfl)

end Program

end Region

/-! ## Edges -/

namespace FlowGraph

variable {g : FlowGraph}

/-- The far ends of the edges at a block, each edge being given by its two ends. -/
private theorem nodup_farEnds {near far : BlockId × BlockId → BlockId}
    (hends : ∀ e d, near e = near d → far e = far d → e = d) (hg : g.edges.Nodup) (b : BlockId) :
    (g.edges.filterMap fun e => if near e = b then some (far e) else none).Nodup := by
  refine List.pairwise_filterMap.mpr (hg.imp fun hne c hc d hd hcd => hne ?_)
  obtain ⟨hnear, hfar⟩ := Option.ite_none_right_eq_some.mp hc
  obtain ⟨hnear', hfar'⟩ := Option.ite_none_right_eq_some.mp hd
  refine hends _ _ (hnear.trans hnear'.symm) (Option.some.inj ?_)
  rw [hfar, hfar', hcd]

theorem nodup_successors (hg : g.edges.Nodup) (b : BlockId) : (g.successors b).Nodup :=
  nodup_farEnds (fun _ _ => Prod.ext) hg b

theorem nodup_predecessors (hg : g.edges.Nodup) (b : BlockId) : (g.predecessors b).Nodup :=
  nodup_farEnds (fun _ _ hto hfrom => Prod.ext hfrom hto) hg b

end FlowGraph

/-! ## From a region to its blocks -/

namespace Region

open FlowGraph Block

variable {r : Region} {i j : Nat} {x y : Instr} {l : Label}

theorem exists_block_of_instrAt (hx : InstrAt r.start r.instrs i x) :
    ∃ (b : BlockId) (block : Block), (ofRegion r).blocks[b]? = some block ∧
      InstrAt block.start block.instrs i x := by
  obtain ⟨block, hblock, hx⟩ := instrAt_split.mp hx
  obtain ⟨b, hb⟩ := List.getElem?_of_mem hblock
  exact ⟨b, block, hb, hx⟩

theorem instrAt_of_block {block : Block} (hblock : block ∈ (ofRegion r).blocks)
    (hx : InstrAt block.start block.instrs i x) : InstrAt r.start r.instrs i x :=
  instrAt_split.mpr ⟨block, hblock, hx⟩

/-- A jump is the last instruction of its block. -/
theorem getLast?_of_target? {block : Block} (hblock : block ∈ (ofRegion r).blocks)
    (hx : InstrAt block.start block.instrs i x) (hl : x.target? = some l) :
    block.indices.getLast? = some i ∧ block.target? = some l := by
  have hlast := (straight_of_mem_split hblock).transfer hx.2
    (Instr.transfersControl_of_target? hl)
  have hi : block.indices.getLast? = some i := by
    refine getLast?_indices.mpr ⟨?_, hx.1⟩
    have := hx.1
    omega
  refine ⟨hi, ?_⟩
  rw [target?, (terminator?_eq_some hi).mpr hx]
  exact hl

/-- A label is the first instruction of its block. -/
theorem head?_of_labelName? {block : Block} (hblock : block ∈ (ofRegion r).blocks)
    (hx : InstrAt block.start block.instrs i x) (hl : x.labelName? = some l) :
    block.indices.head? = some i ∧ block.label? = some l := by
  have hfirst := (straight_of_mem_split hblock).label hx.2 (Instr.isLabel_of_labelName? hl)
  have hi : i = block.start := by
    have := hx.1
    omega
  subst hi
  refine ⟨head?_indices.mpr ⟨rfl, List.ne_nil_of_mem hx.mem⟩, ?_⟩
  rw [label?, head?_eq_some.mpr hx]
  exact hl

/-- **The block that a label opens is found by its name.** -/
theorem blockOfLabel?_eq_some (hr : r.labels.Nodup) {c : BlockId} {block : Block}
    (hc : (ofRegion r).blocks[c]? = some block) (hl : block.label? = some l) :
    blockOfLabel? (ofRegion r).blocks l = some c := by
  have hlabel : ∀ {block : Block}, block.label? = some l →
      ∃ i x, InstrAt block.start block.instrs i x ∧ x.labelName? = some l := by
    intro block hl
    obtain ⟨x, hx, hname⟩ := Option.bind_eq_some_iff.mp hl
    exact ⟨block.start, x, head?_eq_some.mp hx, hname⟩
  cases hfind : blockOfLabel? (ofRegion r).blocks l with
  | none =>
      have hnot := List.findIdx?_eq_none_iff.mp hfind block (List.mem_of_getElem? hc)
      rw [hl] at hnot
      simp at hnot
  | some d =>
      -- the first block with this label is no other, since no label repeats
      obtain ⟨hd, hname, -⟩ := List.findIdx?_eq_some_iff_getElem.mp hfind
      obtain ⟨i, x, hx, hxl⟩ := hlabel (beq_iff_eq.mp hname)
      obtain ⟨j, y, hy, hyl⟩ := hlabel hl
      obtain rfl := label_unique hr (instrAt_of_block (List.getElem_mem hd) hx) hxl
        (instrAt_of_block (List.mem_of_getElem? hc) hy) hyl
      exact congrArg some ((laidOut_split r.start r.instrs).position_unique
        (List.getElem?_eq_getElem hd) hc hx hy)

/-- Falling through goes on in the same block or in the next one. -/
theorem statementStep_of_fall (hx : InstrAt r.start r.instrs i x) (hfalls : x.fallsThrough = true)
    (hy : InstrAt r.start r.instrs (i + 1) y) : (ofRegion r).StatementStep i (i + 1) := by
  obtain ⟨b, source, hb, hx⟩ := exists_block_of_instrAt hx
  obtain ⟨c, target, hc, hy⟩ := exists_block_of_instrAt hy
  have hlaid := laidOut_split r.start r.instrs
  have hsource := List.mem_of_getElem? hb
  have htarget := List.mem_of_getElem? hc
  have hxlt := hx.lt
  have hylt := hy.lt
  have hxle := hx.1
  have hyle := hy.1
  rcases hlaid.apart hsource htarget with rfl | h | h
  · exact .inside hsource (pair_infix_indices.mpr ⟨hxle, rfl, hylt⟩)
  · have hend : source.start + source.instrs.length ≤ target.start := h
    have htouch : target.start = source.start + source.instrs.length := by omega
    have hlast : source.indices.getLast? = some i :=
      getLast?_indices.mpr ⟨by rw [Block.size]; omega, hxle⟩
    have hnext : c = b + 1 := hlaid.eq_succ (fun _ => instrs_ne_nil_of_mem_split) hb hc htouch
    have hterm : source.fallsThrough = true := by
      rw [Block.fallsThrough, (terminator?_eq_some hlast).mpr hx]
      exact hfalls
    refine .across hb hc (mem_successors.mpr (mem_blockEdges.mpr (Or.inl (mem_fallEdges.mpr
      ⟨source, hb, hterm, hnext, (List.getElem?_eq_some_iff.mp hc).1⟩)))) hlast ?_
    exact head?_indices.mpr ⟨by omega, List.ne_nil_of_mem hy.mem⟩
  · have hend : target.start + target.instrs.length ≤ source.start := h
    omega

/-- A jump goes along an edge. -/
theorem statementStep_of_jump (hr : r.labels.Nodup) (hx : InstrAt r.start r.instrs i x)
    (hl : x.target? = some l) (hy : InstrAt r.start r.instrs j y) (hname : y.labelName? = some l) :
    (ofRegion r).StatementStep i j := by
  obtain ⟨b, source, hb, hx⟩ := exists_block_of_instrAt hx
  obtain ⟨c, target, hc, hy⟩ := exists_block_of_instrAt hy
  obtain ⟨hlast, htarget⟩ := getLast?_of_target? (List.mem_of_getElem? hb) hx hl
  obtain ⟨hfirst, hlabel⟩ := head?_of_labelName? (List.mem_of_getElem? hc) hy hname
  refine .across hb hc (mem_successors.mpr (mem_blockEdges.mpr (Or.inr (mem_jumpEdges.mpr
    ⟨source, l, hb, htarget, ?_⟩)))) hlast hfirst
  exact blockOfLabel?_eq_some hr hc hlabel

/-- Consecutive instructions of a block pass control. -/
theorem passesControl_of_inside {block : Block} (hblock : block ∈ (ofRegion r).blocks)
    (hpair : [i, j] <:+: block.indices) : r.PassesControl i j := by
  obtain ⟨hle, rfl, hlt⟩ := pair_infix_indices.mp hpair
  obtain ⟨x, hx⟩ := exists_instrAt hle (Nat.lt_of_succ_lt hlt)
  obtain ⟨y, hy⟩ := exists_instrAt (Nat.le_succ_of_le hle) hlt
  refine .fall (instrAt_of_block hblock hx) ?_ rfl (instrAt_of_block hblock hy)
  by_contra hfalls
  have hlast := (straight_of_mem_split hblock).transfer hx.2
    (Instr.transfersControl_of_not_fallsThrough (by simpa using hfalls))
  omega

/-- An edge passes control from the bottom of a block to the top of another. -/
theorem passesControl_of_edge {b c : BlockId} {source target : Block}
    (hb : (ofRegion r).blocks[b]? = some source) (hc : (ofRegion r).blocks[c]? = some target)
    (hedge : (b, c) ∈ blockEdges (ofRegion r).blocks)
    (hlast : source.indices.getLast? = some i) (hfirst : target.indices.head? = some j) :
    r.PassesControl i j := by
  have hsource := List.mem_of_getElem? hb
  have htarget := List.mem_of_getElem? hc
  obtain ⟨hend, hle⟩ := getLast?_indices.mp hlast
  obtain ⟨rfl, hne⟩ := head?_indices.mp hfirst
  obtain ⟨x, hx⟩ := exists_instrAt hle (Nat.lt_of_succ_le (Nat.le_of_eq hend))
  obtain ⟨y, hy⟩ := exists_instrAt (Nat.le_refl target.start)
    (Nat.lt_add_of_pos_right (List.length_pos_iff.mpr hne))
  rcases mem_blockEdges.mp hedge with hfall | hjump
  · obtain ⟨source', hb', hfalls, rfl, -⟩ := mem_fallEdges.mp hfall
    cases hb.symm.trans hb'
    rw [Block.fallsThrough, (terminator?_eq_some hlast).mpr hx] at hfalls
    have htouch : target.start = source.start + source.instrs.length :=
      (laidOut_split r.start r.instrs).next hb hc
    exact .fall (instrAt_of_block hsource hx) hfalls (htouch.trans hend.symm)
      (instrAt_of_block htarget hy)
  · obtain ⟨source', l, hb', hl, hfind⟩ := mem_jumpEdges.mp hjump
    cases hb.symm.trans hb'
    rw [Block.target?, (terminator?_eq_some hlast).mpr hx, Option.bind_some] at hl
    obtain ⟨_, hname, -⟩ := List.findIdx?_eq_some_iff_getElem.mp hfind
    have hlabel := beq_iff_eq.mp hname
    rw [(List.getElem?_eq_some_iff.mp hc).2, Block.label?, head?_eq_some.mpr hy, Option.bind_some]
      at hlabel
    exact .jump (instrAt_of_block hsource hx) hl (instrAt_of_block htarget hy) hlabel

/-- **A step in a region is a step in its flow graph.** -/
theorem passesControl_iff (hr : r.labels.Nodup) :
    r.PassesControl i j ↔ (ofRegion r).StatementStep i j := by
  constructor
  · rintro (⟨hx, hfalls, rfl, hy⟩ | ⟨hx, hl, hy, hname⟩)
    · exact statementStep_of_fall hx hfalls hy
    · exact statementStep_of_jump hr hx hl hy hname
  · rintro (⟨hblock, hpair⟩ | ⟨hb, hc, hedge, hlast, hfirst⟩)
    · exact passesControl_of_inside hblock hpair
    · exact passesControl_of_edge hb hc (mem_successors.mp hedge) hlast hfirst

end Region

namespace FlowGraph

/-- **Flow graphs have exactly the control steps of the program.**  For every program that has flow
graphs and any two indices, control can pass from the one to the other in the program text exactly
if it can in one of the flow graphs; and in each of these, predecessors are the inverse of
successors, and neither has a repetition. -/
theorem controlStep_iff {is : List Instr} {gs : List FlowGraph} (hgs : ofInstrs is = .ok gs) :
    (∀ i j, ControlStep is i j ↔ ∃ g ∈ gs, g.StatementStep i j) ∧
      ∀ g ∈ gs, ∀ b, (∀ c, c ∈ g.successors b ↔ b ∈ g.predecessors c) ∧
        (g.successors b).Nodup ∧ (g.predecessors b).Nodup := by
  obtain ⟨rs, hpieces, hfault, rfl⟩ := ofInstrs_eq_ok.mp hgs
  obtain ⟨rfl, hlaid, hopens⟩ := Region.laidOut_pieces hpieces
  constructor
  · intro i j
    rw [Region.controlStep_flatMap hlaid hopens]
    simp only [List.mem_map, exists_exists_and_eq_and]
    refine exists_congr fun r => and_congr_right fun hr => ?_
    exact Region.passesControl_iff (Region.fault?_eq_none.mp (hfault r hr)).1
  · intro g hg b
    obtain ⟨r, -, rfl⟩ := List.mem_map.mp hg
    have hedges : (ofRegion r).edges.Nodup := nodup_blockEdges _
    exact ⟨fun c => mem_successors_iff_mem_predecessors, nodup_successors hedges b,
      nodup_predecessors hedges b⟩

/-- The branch at index `4` passes control out of the loop, over a block that control cannot reach;
the branch at index `12` passes it back to the entry of its own procedure; and index `10` returns,
so the edges of the block that ends there lead nowhere. -/
theorem controlStep_iff_crossing :
    ofInstrs crossing = .ok [crossingWalk, crossingAgain] ∧
      ControlStep crossing 4 9 ∧ ControlStep crossing 12 11 ∧
      (∃ g ∈ [crossingWalk, crossingAgain], g.StatementStep 2 3) ∧
      crossingWalk.successors 4 = [] ∧ (crossingWalk.predecessors 1).Nodup := by
  have hsteps := controlStep_iff ofInstrs_crossing
  have hwalk : crossingWalk ∈ [crossingWalk, crossingAgain] := List.mem_cons_self
  have hagain : crossingAgain ∈ [crossingWalk, crossingAgain] :=
    List.mem_cons_of_mem _ (List.mem_singleton_self _)
  have hleave : crossingWalk.StatementStep 4 9 :=
    .across (b := 1) (c := 4) rfl rfl (by decide +kernel) rfl rfl
  have hback : crossingAgain.StatementStep 12 11 :=
    .across (b := 0) (c := 0) rfl rfl (by decide +kernel) rfl rfl
  have hfall : ControlStep crossing 2 3 := .fall rfl rfl rfl rfl rfl
  refine ⟨ofInstrs_crossing, (hsteps.1 4 9).mpr ⟨_, hwalk, hleave⟩,
    (hsteps.1 12 11).mpr ⟨_, hagain, hback⟩, (hsteps.1 2 3).mp hfall, by decide +kernel, ?_⟩
  exact (hsteps.2 crossingWalk hwalk 1).2.2

end FlowGraph

end RegAlloc
