import RegAlloc.Proofs.BlockPartition
import RegAlloc.Proofs.DepthFirstOrder

/-!
# Paths of control between instructions

The questions that are asked about single instructions speak of paths from one instruction to the
next (`FlowGraph.StatementPath`), and the answers are computed from whole blocks.  This file is the
bridge: what holds an index, where a block has its top and its bottom, and from where control can
come to an index that a block holds (`StatementStep.cases_target`).  Inside a block that is the
index before, so arguments inside a block are inductions along its indices; at the top it is the
bottom of a predecessor.
-/

namespace RegAlloc

namespace Block

variable {block : Block} {i : Nat} {y : Instr}

theorem mem_statements : (i, y) ∈ block.statements ↔ InstrAt block.start block.instrs i y := by
  rw [statements, List.mem_map, InstrAt]
  constructor
  · rintro ⟨⟨z, n⟩, hmem, he⟩
    cases he
    exact List.mk_mem_zipIdx_iff_le_and_getElem?_sub.mp hmem
  · intro h
    exact ⟨(y, i), List.mk_mem_zipIdx_iff_le_and_getElem?_sub.mpr h, rfl⟩

theorem pairwise_statements (block : Block) :
    block.statements.Pairwise fun d e => d.1 < e.1 := by
  have hindices : block.indices.Pairwise (· < ·) := by
    rw [indices_eq]
    exact List.pairwise_lt_range'
  exact List.pairwise_map.mp hindices

end Block

namespace FlowGraph

open Block

variable {g : FlowGraph} {b c : BlockId} {block : Block} {i j k : Nat} {x : SymbolId} {y : Instr}
variable {path : List Nat}

/-! ## The indices of a block -/

/-- The first instruction of block `b` has index `i`. -/
def Top (g : FlowGraph) (b : BlockId) (i : Nat) : Prop :=
  ∃ block, g.block? b = some block ∧ block.indices.head? = some i

/-- The last instruction of block `b` has index `i`. -/
def Bottom (g : FlowGraph) (b : BlockId) (i : Nat) : Prop :=
  ∃ block, g.block? b = some block ∧ block.indices.getLast? = some i

theorem holds_iff (hb : g.block? b = some block) :
    g.Holds b i ↔ block.start ≤ i ∧ i < block.start + block.size := by
  simp [Holds, hb, contains]

theorem Holds.exists_block (h : g.Holds b i) : ∃ block, g.block? b = some block := by
  obtain ⟨block, hb, -⟩ := h
  exact ⟨block, hb⟩

theorem Holds.lt_size (h : g.Holds b i) : b < g.size := by
  obtain ⟨block, hb⟩ := h.exists_block
  exact (List.getElem?_eq_some_iff.mp hb).1

/-- The indices of a block have no gap. -/
theorem Holds.between (hi : g.Holds b i) (hj : g.Holds b j) (hik : i ≤ k) (hkj : k ≤ j) :
    g.Holds b k := by
  obtain ⟨block, hb⟩ := hi.exists_block
  rw [holds_iff hb] at hi hj ⊢
  omega

theorem Top.holds (h : g.Top b i) : g.Holds b i := by
  obtain ⟨block, hb, hi⟩ := h
  obtain ⟨rfl, hne⟩ := head?_indices.mp hi
  refine (holds_iff hb).mpr ⟨Nat.le_refl _, Nat.lt_add_of_pos_right ?_⟩
  exact List.length_pos_iff.mpr hne

theorem Top.le (hi : g.Top b i) (hj : g.Holds b j) : i ≤ j := by
  obtain ⟨block, hb, hi⟩ := hi
  rw [(head?_indices.mp hi).1]
  exact ((holds_iff hb).mp hj).1

theorem Bottom.holds (h : g.Bottom b i) : g.Holds b i := by
  obtain ⟨block, hb, hi⟩ := h
  obtain ⟨hend, hle⟩ := getLast?_indices.mp hi
  exact (holds_iff hb).mpr ⟨hle, by omega⟩

theorem Bottom.le (hi : g.Bottom b i) (hj : g.Holds b j) : j ≤ i := by
  obtain ⟨block, hb, hi⟩ := hi
  obtain ⟨hend, -⟩ := getLast?_indices.mp hi
  have hlt := ((holds_iff hb).mp hj).2
  omega

theorem mem_indices : i ∈ g.indices ↔ ∃ b, g.Holds b i := by
  rw [indices, List.mem_flatMap]
  constructor
  · rintro ⟨block, hblock, hi⟩
    obtain ⟨b, hb⟩ := List.getElem?_of_mem hblock
    rw [indices_eq, List.mem_range'_1] at hi
    exact ⟨b, (holds_iff hb).mpr hi⟩
  · rintro ⟨b, hi⟩
    obtain ⟨block, hb⟩ := hi.exists_block
    refine ⟨block, List.mem_of_getElem? hb, ?_⟩
    rw [indices_eq, List.mem_range'_1]
    exact (holds_iff hb).mp hi

theorem wellCut_of_mem {is : List Instr} {gs : List FlowGraph} (hgs : ofInstrs is = .ok gs)
    (hg : g ∈ gs) : g.WellCut := by
  obtain ⟨rs, hpieces, -, rfl⟩ := ofInstrs_eq_ok.mp hgs
  obtain ⟨r, hr, rfl⟩ := List.mem_map.mp hg
  exact wellCut_ofRegion ((Region.laidOut_pieces hpieces).2.2 r hr)

namespace WellCut

variable (hcut : g.WellCut)
include hcut

theorem holds_unique (hb : g.Holds b i) (hc : g.Holds c i) : b = c :=
  Option.some.inj ((hcut.number b i hb).symm.trans (hcut.number c i hc))

theorem exists_top (hb : b < g.size) : ∃ i, g.Top b i := by
  have hblock : g.block? b = some _ := List.getElem?_eq_getElem hb
  exact ⟨_, _, hblock, head?_indices.mpr ⟨rfl, hcut.nonempty _ (List.mem_of_getElem? hblock)⟩⟩

theorem exists_bottom (hb : b < g.size) : ∃ i, g.Bottom b i := by
  have hblock : g.block? b = some _ := List.getElem?_eq_getElem hb
  have hpos := List.length_pos_iff.mpr (hcut.nonempty _ (List.mem_of_getElem? hblock))
  refine ⟨g.blocks[b].start + g.blocks[b].size - 1, _, hblock, getLast?_indices.mpr ?_⟩
  rw [Block.size]
  omega

/-- A procedure is entered at the top of its first block. -/
theorem head?_indices_iff : g.indices.head? = some i ↔ g.Top entryBlock i := by
  obtain ⟨body, hinstrs, -⟩ := hcut.opens
  cases hblocks : g.blocks with
  | nil =>
      rw [hblocks] at hinstrs
      exact absurd hinstrs (by simp)
  | cons first rest =>
      have hfirst : g.block? entryBlock = some first := by
        rw [block?, hblocks]
        rfl
      have hne : first.indices ≠ [] := by
        have hpos := List.length_pos_iff.mpr
          (hcut.nonempty first (hblocks ▸ List.mem_cons_self))
        rw [indices_eq, ne_eq, List.range'_eq_nil_iff, Block.size]
        omega
      rw [indices, hblocks, List.flatMap_cons, List.head?_append_of_ne_nil _ hne]
      simp [Top, hfirst]

end WellCut

/-! ## Steps -/

theorem statementStep_inside (hi : g.Holds b i) (hj : g.Holds b (i + 1)) :
    g.StatementStep i (i + 1) := by
  obtain ⟨block, hb⟩ := hi.exists_block
  rw [holds_iff hb] at hi hj
  exact .inside (List.mem_of_getElem? hb) (pair_infix_indices.mpr ⟨hi.1, rfl, hj.2⟩)

theorem statementStep_across (hi : g.Bottom b i) (hj : g.Top c j) (hc : c ∈ g.successors b) :
    g.StatementStep i j := by
  obtain ⟨source, hb, hi⟩ := hi
  obtain ⟨target, hc', hj⟩ := hj
  exact .across hb hc' hc hi hj

/-- **Where control comes from** to an index that block `c` holds: from the index before, in the
same block, or to the top of the block from the bottom of a predecessor. -/
theorem StatementStep.cases_target (h : g.StatementStep i j) (hcut : g.WellCut)
    (hj : g.Holds c j) :
    (j = i + 1 ∧ g.Holds c i) ∨ (g.Top c j ∧ ∃ b, c ∈ g.successors b ∧ g.Bottom b i) := by
  cases h with
  | @inside block hblock hpair =>
      obtain ⟨b, hb⟩ := List.getElem?_of_mem hblock
      obtain ⟨hle, rfl, hlt⟩ := pair_infix_indices.mp hpair
      obtain rfl := hcut.holds_unique hj ((holds_iff hb).mpr ⟨by omega, hlt⟩)
      exact Or.inl ⟨rfl, (holds_iff hb).mpr ⟨hle, by omega⟩⟩
  | @across b d source target hb hd hedge hlast hfirst =>
      have htop : g.Top d j := ⟨target, hd, hfirst⟩
      obtain rfl := hcut.holds_unique hj htop.holds
      exact Or.inr ⟨htop, b, hedge, source, hb, hlast⟩

/-! ## Paths -/

/-- A path of control from the entry to an instruction, the last instruction first. -/
inductive StatementPath (g : FlowGraph) : Nat → List Nat → Prop where
  | entry {i : Nat} : g.indices.head? = some i → StatementPath g i [i]
  | step {i j : Nat} {path : List Nat} : StatementPath g i path → g.StatementStep i j →
      StatementPath g j (j :: path)

theorem StatementPath.eq_cons (h : g.StatementPath i path) : ∃ rest, path = i :: rest := by
  cases h with
  | entry _ => exact ⟨[], rfl⟩
  | @step _ _ rest _ _ => exact ⟨rest, rfl⟩

/-- A path into a block goes on down the block. -/
theorem StatementPath.exists_down (h : g.StatementPath i path) (hi : g.Holds b i)
    (hj : g.Holds b j) (hij : i ≤ j) : ∃ path, g.StatementPath j path := by
  induction j, hij using Nat.le_induction with
  | base => exact ⟨path, h⟩
  | succ k hik ih =>
      have hk : g.Holds b k := hi.between hj hik (Nat.le_succ k)
      obtain ⟨path, hpath⟩ := ih hk
      exact ⟨_, hpath.step (statementStep_inside hk hj)⟩

/-- **Where the block can be reached, so can its instructions.** -/
theorem Reaches.exists_statementPath (hcut : g.WellCut) (hrange : g.EdgesInRange)
    (hb : g.Reaches b) (hj : g.Holds b j) : ∃ path, g.StatementPath j path := by
  induction hb generalizing j with
  | refl =>
      obtain ⟨i, hi⟩ := hcut.exists_top hj.lt_size
      have hpath : g.StatementPath i [i] := .entry (hcut.head?_indices_iff.mpr hi)
      exact hpath.exists_down hi.holds hj (hi.le hj)
  | tail _ hedge ih =>
      obtain ⟨k, hk⟩ := hcut.exists_bottom (hrange.source_lt hedge)
      obtain ⟨i, hi⟩ := hcut.exists_top hj.lt_size
      obtain ⟨path, hpath⟩ := ih hk.holds
      exact (hpath.step (statementStep_across hk hi hedge)).exists_down hi.holds hj (hi.le hj)

/-! ## Definitions -/

/-- The instruction with index `i` writes `x`. -/
def DefinesAt (g : FlowGraph) (x : SymbolId) (i : Nat) : Prop :=
  ∃ y, g.instr? i = some y ∧ x ∈ y.defs

/-- The instruction at an index of a block. -/
theorem WellCut.instr?_eq (hcut : g.WellCut) (hb : g.block? b = some block)
    (hy : InstrAt block.start block.instrs i y) : g.instr? i = some y := by
  have hcontains : block.contains i = true := contains_iff.mpr ⟨y, hy⟩
  have hblockOf := hcut.number b i ⟨block, hb, hcontains⟩
  unfold instr? offset?
  simp only [hblockOf, hb, hcontains, Option.bind_eq_bind, Option.bind_some, if_true]
  exact hy.2

theorem WellCut.definesAt_iff (hcut : g.WellCut) (hb : g.block? b = some block)
    (hy : InstrAt block.start block.instrs i y) : g.DefinesAt x i ↔ y.defines x = true := by
  simp [DefinesAt, hcut.instr?_eq hb hy, Instr.defines]

theorem DefinesAt.exists_holds (h : g.DefinesAt x i) : ∃ b, g.Holds b i := by
  obtain ⟨y, hy, -⟩ := h
  obtain ⟨b, hb, -⟩ := Option.bind_eq_some_iff.mp hy
  exact ⟨b, holds_of_blockOf? hb⟩

/-- A block has an instruction that writes `x`. -/
theorem WellCut.any_defines_iff (hcut : g.WellCut) :
    (g.instrs b).any (·.defines x) = true ↔ ∃ i, g.Holds b i ∧ g.DefinesAt x i := by
  cases hb : g.block? b with
  | none => simp [instrs, Holds, hb]
  | some block =>
      rw [instrs, hb, Option.map_some, Option.getD_some, List.any_eq_true]
      constructor
      · rintro ⟨y, hy, hx⟩
        obtain ⟨o, ho⟩ := List.getElem?_of_mem hy
        have hat : InstrAt block.start block.instrs (block.start + o) y :=
          ⟨Nat.le_add_right _ _, by rwa [Nat.add_sub_cancel_left]⟩
        exact ⟨_, ⟨block, hb, contains_iff.mpr ⟨y, hat⟩⟩, (hcut.definesAt_iff hb hat).mpr hx⟩
      · rintro ⟨i, hi, hx⟩
        obtain ⟨hle, hlt⟩ := (holds_iff hb).mp hi
        obtain ⟨y, hy⟩ := exists_instrAt hle hlt
        exact ⟨y, hy.mem, (hcut.definesAt_iff hb hy).mp hx⟩

end FlowGraph

end RegAlloc
