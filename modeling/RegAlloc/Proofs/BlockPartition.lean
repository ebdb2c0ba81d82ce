import Mathlib.Data.List.Chain
import RegAlloc.Proofs.ControlSteps

/-!
# The blocks of a program

The flow graphs of a program are its text once more, cut into pieces: laid one after the other, the
blocks of all procedures **are** the program, and a block knows the index at which it begins.  So
every index belongs to exactly one block of one procedure, and looking an index up finds that block.

* `laidOut_blocks`: the blocks of all flow graphs lie end to end.  The two cuts, into regions and
  into blocks, were treated one by one; here they become one (`LaidOut.flatMap`).
* `isChain_cutBetween_split`: **no cut without a reason.**  Between two neighbouring blocks of a
  procedure control leaves the first, or a label opens the second.
* `locate?_eq_some`: the lookup answers with a block exactly if that block holds the index.  The
  search stops at the first block it meets; that there is no second one is `holds_unique`.
-/

namespace RegAlloc

/-! ## Parts of parts -/

section Parts

variable {α β : Type} {span : α → Nat × List Instr} {part : β → Nat × List Instr}
variable {as : List α} {start : Nat}

/-- **Parts of parts lie end to end** if the parts do, and each of them is made of its own parts. -/
theorem LaidOut.flatMap {f : α → List β} (h : LaidOut span start as)
    (hlaid : ∀ a ∈ as, LaidOut part (span a).1 (f a))
    (hwhole : ∀ a ∈ as, ((f a).flatMap fun b => (part b).2) = (span a).2) :
    LaidOut part start (as.flatMap f) := by
  induction as generalizing start with
  | nil => trivial
  | cons a as ih =>
      obtain ⟨rfl, has⟩ := h
      rw [List.forall_mem_cons] at hlaid hwhole
      rw [List.flatMap_cons, laidOut_append, hwhole.1]
      exact ⟨hlaid.1, ih has hlaid.2 hwhole.2⟩

end Parts

/-! ## Where blocks end -/

namespace Block

variable {b : Block} {start i : Nat} {is : List Instr} {x : Instr}

/-- Whether the last instruction of the block transfers control. -/
def endsInTransfer (b : Block) : Bool := b.terminator?.any Instr.transfersControl

/-- **A reason to cut:** control leaves the first block, or a label opens the second. -/
def CutBetween (b c : Block) : Prop := b.endsInTransfer = true ∨ c.opensWithLabel = true

/-- One more instruction at the top does not change how a block ends. -/
theorem endsInTransfer_cons (hb : b.instrs ≠ []) (start : Nat) (x : Instr) :
    endsInTransfer ⟨start, x :: b.instrs⟩ = b.endsInTransfer := by
  obtain ⟨y, ys, hinstrs⟩ := List.exists_cons_of_ne_nil hb
  unfold endsInTransfer terminator?
  rw [hinstrs, List.getLast?_cons_cons]

theorem isChain_cutBetween_prepend {bs : List Block} (h : bs.IsChain CutBetween)
    (hne : ∀ b ∈ bs, b.instrs ≠ []) : (prepend start x bs).IsChain CutBetween := by
  cases bs with
  | nil => exact List.isChain_singleton _
  | cons b bs =>
      rw [prepend_cons]
      split
      · rename_i hcut
        refine List.isChain_cons_cons.mpr ⟨?_, h⟩
        exact (Bool.or_eq_true_iff.mp hcut).imp id id
      · -- the block that grew has the same neighbour and ends as before
        obtain ⟨hnext, hrest⟩ := List.isChain_cons.mp h
        refine List.isChain_cons.mpr ⟨fun c hc => ?_, hrest⟩
        rw [CutBetween, endsInTransfer_cons (hne b List.mem_cons_self)]
        exact hnext c hc

/-- **No cut without a reason.** -/
theorem isChain_cutBetween_split (start : Nat) (is : List Instr) :
    (split start is).IsChain CutBetween := by
  induction is generalizing start with
  | nil => exact List.IsChain.nil
  | cons x is ih =>
      exact isChain_cutBetween_prepend (ih (start + 1)) fun _ => instrs_ne_nil_of_mem_split

/-- A block holds an index if it has an instruction there. -/
theorem contains_iff : b.contains i = true ↔ ∃ x, InstrAt b.start b.instrs i x := by
  unfold contains size
  rw [decide_eq_true_eq]
  constructor
  · rintro ⟨hle, hlt⟩
    exact exists_instrAt hle hlt
  · rintro ⟨x, hx⟩
    exact ⟨hx.1, hx.lt⟩

end Block

namespace FlowGraph

open Block

variable {g : FlowGraph} {gs : List FlowGraph} {r : Region} {rs : List Region} {is : List Instr}
variable {b c : BlockId} {i m n : Nat} {block : Block}

/-! ## The cut of one procedure -/

/-- Block number `b` of the flow graph holds the instruction with program index `i`. -/
def Holds (g : FlowGraph) (b : BlockId) (i : Nat) : Prop :=
  ∃ block, g.block? b = some block ∧ block.contains i = true

/-- **How a procedure is cut into blocks.** -/
structure WellCut (g : FlowGraph) : Prop where
  /-- The first instruction is the entry label, with the name of the procedure and what is known
  about it, and no other instruction opens a procedure. -/
  opens : ∃ body, g.blocks.flatMap Block.instrs = .label g.name (some g.procedure) :: body ∧
    ∀ x ∈ body, x.entry? = none
  /-- A block is known by its position: that is the answer for every index it holds. -/
  number : ∀ b i, g.Holds b i → g.blockOf? i = some b
  /-- No block is empty. -/
  nonempty : ∀ block ∈ g.blocks, block.instrs ≠ []
  /-- Only the first instruction of a block may be a label, and only the last may transfer
  control. -/
  straight : ∀ block ∈ g.blocks, block.Straight
  /-- A block ends where control is transferred, before a label, or with the procedure. -/
  ends : ∀ b block, g.block? b = some block →
    block.endsInTransfer = true ∨
      (∃ next, g.block? (b + 1) = some next ∧ next.opensWithLabel = true) ∨ b + 1 = g.size

/-- Only one block of a procedure holds an index. -/
theorem holds_ofRegion_unique (hb : (ofRegion r).Holds b i) (hc : (ofRegion r).Holds c i) :
    b = c := by
  obtain ⟨source, hsource, hi⟩ := hb
  obtain ⟨target, htarget, hj⟩ := hc
  obtain ⟨x, hx⟩ := contains_iff.mp hi
  obtain ⟨y, hy⟩ := contains_iff.mp hj
  exact (laidOut_split r.start r.instrs).position_unique hsource htarget hx hy

theorem holds_of_blockOf? (h : g.blockOf? i = some b) : g.Holds b i := by
  obtain ⟨hlt, hcontains, -⟩ := List.findIdx?_eq_some_iff_getElem.mp h
  exact ⟨_, List.getElem?_eq_getElem hlt, hcontains⟩

/-- **The block of an index is the block that holds it.** -/
theorem blockOf?_ofRegion : (ofRegion r).blockOf? i = some b ↔ (ofRegion r).Holds b i := by
  refine ⟨holds_of_blockOf?, fun hb => ?_⟩
  cases hc : (ofRegion r).blockOf? i with
  | none =>
      obtain ⟨block, hblock, hcontains⟩ := hb
      have hnot := List.findIdx?_eq_none_iff.mp hc block (List.mem_of_getElem? hblock)
      exact absurd (hnot.symm.trans hcontains) (by simp)
  | some c => rw [holds_ofRegion_unique (holds_of_blockOf? hc) hb]

/-- The flow graph of a region is well cut. -/
theorem wellCut_ofRegion (hr : r.Opens) : (ofRegion r).WellCut where
  opens := by
    obtain ⟨body, hinstrs, hbody⟩ := hr
    exact ⟨body, (flatMap_instrs_split r.start r.instrs).trans hinstrs, hbody⟩
  number _ _ h := blockOf?_ofRegion.mpr h
  nonempty _ h := instrs_ne_nil_of_mem_split h
  straight _ h := straight_of_mem_split h
  ends b block hb := by
    have hchain := List.isChain_iff_getElem.mp (isChain_cutBetween_split r.start r.instrs)
    obtain ⟨hlt, rfl⟩ := List.getElem?_eq_some_iff.mp hb
    rcases Nat.lt_or_ge (b + 1) (ofRegion r).size with hnext | hlast
    · refine (hchain b hnext).imp id fun hopens => Or.inl ?_
      exact ⟨_, List.getElem?_eq_getElem hnext, hopens⟩
    · exact Or.inr (Or.inr (Nat.le_antisymm hlt hlast))

/-! ## All procedures -/

section Program

variable (hlaid : LaidOut Region.span 0 rs)
include hlaid

/-- **The blocks of all procedures lie end to end.** -/
theorem laidOut_blocks :
    LaidOut Block.span 0 ((rs.map ofRegion).flatMap FlowGraph.blocks) := by
  rw [List.flatMap_map]
  exact hlaid.flatMap (fun r _ => laidOut_split r.start r.instrs)
    fun r _ => flatMap_instrs_split r.start r.instrs

/-- An index of a block is an index of the program, with the same instruction. -/
theorem getElem?_of_block (hr : rs[m]? = some r) (hb : (ofRegion r).block? b = some block)
    {x : Instr} (hx : InstrAt block.start block.instrs i x) :
    (rs.flatMap Region.instrs)[i]? = some x :=
  (Region.getElem?_flatMap hlaid).mpr
    ⟨r, List.mem_of_getElem? hr, Region.instrAt_of_block (List.mem_of_getElem? hb) hx⟩

/-- **Only one block of one procedure holds an index.** -/
theorem holds_unique {s : Region} (hr : rs[m]? = some r) (hs : rs[n]? = some s)
    (hb : (ofRegion r).Holds b i) (hc : (ofRegion s).Holds c i) : m = n ∧ b = c := by
  have hregion : ∀ {r : Region} {b}, (ofRegion r).Holds b i →
      ∃ x, InstrAt r.start r.instrs i x := by
    rintro r b ⟨block, hblock, hcontains⟩
    obtain ⟨x, hx⟩ := contains_iff.mp hcontains
    exact ⟨x, Region.instrAt_of_block (List.mem_of_getElem? hblock) hx⟩
  obtain ⟨x, hx⟩ := hregion hb
  obtain ⟨y, hy⟩ := hregion hc
  obtain rfl := hlaid.position_unique hr hs hx hy
  cases hr.symm.trans hs
  exact ⟨rfl, holds_ofRegion_unique hb hc⟩

/-- Every index of the program is held by a block. -/
theorem exists_holds (hi : i < (rs.flatMap Region.instrs).length) :
    ∃ (m : Nat) (r : Region) (b : BlockId), rs[m]? = some r ∧ (ofRegion r).Holds b i := by
  obtain ⟨r, hr, hx⟩ := (Region.getElem?_flatMap hlaid).mp (List.getElem?_eq_getElem hi)
  obtain ⟨m, hm⟩ := List.getElem?_of_mem hr
  obtain ⟨b, block, hblock, hx⟩ := Region.exists_block_of_instrAt hx
  exact ⟨m, r, b, hm, block, hblock, contains_iff.mpr ⟨_, hx⟩⟩

/-- **Looking an index up finds the block that holds it.** -/
theorem locate?_eq_some :
    locate? (rs.map ofRegion) i = some (m, b) ↔ ∃ r, rs[m]? = some r ∧ (ofRegion r).Holds b i := by
  have hfound : ∀ {n c}, locate? (rs.map ofRegion) i = some (n, c) →
      ∃ s, rs[n]? = some s ∧ (ofRegion s).Holds c i := by
    intro n c h
    obtain ⟨⟨g, k⟩, hg, h⟩ := List.exists_of_findSome?_eq_some h
    obtain ⟨d, hd, he⟩ := Option.map_eq_some_iff.mp h
    cases he
    have hk := List.mem_zipIdx_iff_getElem?.mp hg
    rw [List.getElem?_map] at hk
    obtain ⟨s, hs, rfl⟩ := Option.map_eq_some_iff.mp hk
    exact ⟨s, hs, blockOf?_ofRegion.mp hd⟩
  refine ⟨hfound, ?_⟩
  rintro ⟨r, hr, hb⟩
  cases h : locate? (rs.map ofRegion) i with
  | none =>
      have hmem : (ofRegion r, m) ∈ (rs.map ofRegion).zipIdx := by
        rw [List.mem_zipIdx_iff_getElem?, List.getElem?_map, hr, Option.map_some]
      have hnone := List.findSome?_eq_none_iff.mp h _ hmem
      rw [blockOf?_ofRegion.mpr hb] at hnone
      exact absurd hnone (by simp)
  | some found =>
      obtain ⟨s, hs, hc⟩ := hfound h
      obtain ⟨hn, hd⟩ := holds_unique hlaid hs hr hc hb
      rw [← hn, ← hd]

/-- The instruction found at an index that a block holds is the one of the program. -/
theorem instr?_of_holds (hr : rs[m]? = some r) (hb : (ofRegion r).Holds b i) :
    (ofRegion r).instr? i = (rs.flatMap Region.instrs)[i]? := by
  have hblockOf := blockOf?_ofRegion.mpr hb
  obtain ⟨block, hblock, hcontains⟩ := hb
  obtain ⟨x, hx⟩ := contains_iff.mp hcontains
  rw [getElem?_of_block hlaid hr hblock hx]
  unfold instr? offset?
  simp only [hblockOf, hblock, hcontains, Option.bind_eq_bind, Option.bind_some, if_true]
  exact hx.2

end Program

/-- **A program lies in its flow graphs as in itself.**  For every program that has flow graphs: the
blocks of all of them, one after the other, are the program; each block begins at the index that its
start says; each procedure is well cut; every index of the program is held by one block of one
procedure and no other, the lookup finds that block, and the instruction there is the one of the
program; and beyond the program the lookup finds nothing. -/
theorem blocks_partition {is : List Instr} {gs : List FlowGraph} (hgs : ofInstrs is = .ok gs) :
    (gs.flatMap FlowGraph.blocks).flatMap Block.instrs = is ∧
    (∀ before block after, gs.flatMap FlowGraph.blocks = before ++ block :: after →
      block.start = (before.flatMap Block.instrs).length) ∧
    (∀ g ∈ gs, g.WellCut) ∧
    (∀ i < is.length, ∃ (m : Nat) (b : BlockId) (g : FlowGraph),
      locate? gs i = some (m, b) ∧ gs[m]? = some g ∧ g.Holds b i ∧ g.instr? i = is[i]? ∧
        ∀ (n : Nat) (c : BlockId) (h : FlowGraph),
          gs[n]? = some h → h.Holds c i → n = m ∧ c = b) ∧
    ∀ i, is.length ≤ i → locate? gs i = none := by
  obtain ⟨rs, hpieces, -, rfl⟩ := ofInstrs_eq_ok.mp hgs
  obtain ⟨rfl, hlaid, hopens⟩ := Region.laidOut_pieces hpieces
  have hblocks := laidOut_blocks hlaid
  refine ⟨?_, fun before block after hcut => ?_, fun g hg => ?_, fun i hi => ?_, fun i hi => ?_⟩
  · rw [List.flatMap_assoc, List.flatMap_map]
    exact List.flatMap_congr fun r _ => flatMap_instrs_split r.start r.instrs
  · rw [hcut] at hblocks
    have hstart := hblocks.start_eq
    rwa [Nat.zero_add] at hstart
  · obtain ⟨r, hr, rfl⟩ := List.mem_map.mp hg
    exact wellCut_ofRegion (hopens r hr)
  · obtain ⟨m, r, b, hr, hb⟩ := exists_holds hlaid hi
    have hm : (rs.map ofRegion)[m]? = some (ofRegion r) := by
      rw [List.getElem?_map, hr, Option.map_some]
    refine ⟨m, b, ofRegion r, (locate?_eq_some hlaid).mpr ⟨r, hr, hb⟩, hm, hb,
      instr?_of_holds hlaid hr hb, fun n c h hn hc => ?_⟩
    rw [List.getElem?_map] at hn
    obtain ⟨s, hs, rfl⟩ := Option.map_eq_some_iff.mp hn
    exact holds_unique hlaid hs hr hc hb
  · -- a block that held the index would give the program an instruction there
    refine Option.eq_none_iff_forall_ne_some.mpr fun ⟨m, b⟩ hfound => ?_
    obtain ⟨r, hr, block, hblock, hcontains⟩ := (locate?_eq_some hlaid).mp hfound
    obtain ⟨x, hx⟩ := contains_iff.mp hcontains
    have hlt := (List.getElem?_eq_some_iff.mp (getElem?_of_block hlaid hr hblock hx)).1
    exact absurd hlt (Nat.not_lt.mpr hi)

/-- Index `11` is where the first procedure has ended without falling through: it is held by the
first block of the second procedure and by no other, and it opens that procedure.  The program ends
at index `12`. -/
theorem blocks_partition_crossing :
    ofInstrs crossing = .ok [crossingWalk, crossingAgain] ∧
      locate? [crossingWalk, crossingAgain] 11 = some (1, 0) ∧
      (∀ (n : Nat) (c : BlockId) (h : FlowGraph), [crossingWalk, crossingAgain][n]? = some h →
        h.Holds c 11 → n = 1 ∧ c = 0) ∧
      crossingAgain.instr? 11 = some (.label "again" (some ⟨5, [], none⟩)) ∧
      crossingWalk.WellCut ∧ locate? [crossingWalk, crossingAgain] 13 = none := by
  obtain ⟨-, -, hcut, hinside, hbeyond⟩ := blocks_partition ofInstrs_crossing
  obtain ⟨m, b, g, hfound, hg, -, hinstr, honly⟩ := hinside 11 (by decide)
  have hanswer : locate? [crossingWalk, crossingAgain] 11 = some (1, 0) := rfl
  cases hanswer.symm.trans hfound
  cases hg
  exact ⟨ofInstrs_crossing, hanswer, honly, hinstr, hcut crossingWalk List.mem_cons_self,
    hbeyond 13 (by decide)⟩

end FlowGraph

end RegAlloc
