import RegAlloc.Flow.SoleDefinition
import RegAlloc.Proofs.GraphSearch
import RegAlloc.Proofs.StatementPaths

/-!
# Where a definition is the only one that arrives

Instruction `stmt` writes `x`.  An instruction is **solely reached** by this write if on every path
of control to it `stmt` comes before, with no other write of `x` since (`SolelyReached`).  The list
`soleReach` is computed from blocks, by a search forward and, for each block, a search backward.
The main result is that it holds nothing else, and, if control can reach every block, all of them.

* **What is listed is undisturbed** (`Undisturbed`), which says in terms of blocks what the two
  searches test.  An undisturbed instruction can only be reached from `stmt` or from undisturbed
  instructions, and is not the entry; so by induction along a path, `stmt` must have come before.
* **What is not undisturbed is spoiled** (`Spoiled`): some walk that avoids `stmt` leads there from
  the entry or from another write.  It gives a path that breaks the condition, provided that control
  can reach the other write at all.
-/

namespace RegAlloc

theorem Instr.head?_defs {y : Instr} {x : SymbolId} (h : x ∈ y.defs) : y.defs.head? = some x := by
  cases y <;> simp_all [Instr.defs]

namespace FlowGraph

open Block

variable {g : FlowGraph} {x : SymbolId} {stmt i j k : Nat} {home b c : BlockId} {path : List Nat}

/-- **Solely reached** by the write of `x` that `stmt` makes: on every path of control from the
entry `stmt` comes before, and no other instruction that writes `x` between its last occurrence and
the end; nor is the instruction itself another write of `x`. -/
def SolelyReached (g : FlowGraph) (x : SymbolId) (stmt i : Nat) : Prop :=
  (∀ path, g.StatementPath i path → ∃ between before, path = i :: (between ++ stmt :: before) ∧
    ∀ k ∈ between, ¬ g.DefinesAt x k) ∧ (i ≠ stmt → ¬ g.DefinesAt x i)

/-! ## What the search backward finds -/

/-- Control can arrive at the top of a block, without passing through block `home`, from the entry
or from a write of `x`. -/
inductive Arrives (g : FlowGraph) (x : SymbolId) (home : BlockId) : BlockId → Prop where
  | entry : Arrives g x home entryBlock
  | defined {b c : BlockId} {i : Nat} : c ∈ g.successors b → b ≠ home → g.Holds b i →
      g.DefinesAt x i → Arrives g x home c
  | pass {b c : BlockId} : c ∈ g.successors b → b ≠ home → Arrives g x home b → Arrives g x home c

/-- The test of the search backward. -/
theorem otherArrives_iff_leadTo (hcut : g.WellCut) :
    g.otherArrives x home b = true ↔ b = entryBlock ∨
      ∃ c, LeadTo (g.backward home) (g.backward home b) c ∧
        (c = entryBlock ∨ ∃ i, g.Holds c i ∧ g.DefinesAt x i) := by
  rw [otherArrives, Bool.or_eq_true, beq_iff_eq, List.any_eq_true]
  refine or_congr_right (exists_congr fun c => and_congr mem_closure_backward ?_)
  rw [Bool.or_eq_true, beq_iff_eq, hcut.any_defines_iff]

/-- **The search backward is exact.** -/
theorem otherArrives_iff (hcut : g.WellCut) :
    g.otherArrives x home b = true ↔ g.Arrives x home b := by
  rw [otherArrives_iff_leadTo hcut]
  constructor
  · rintro (rfl | ⟨c, ⟨root, hroot, hpath⟩, hc⟩)
    · exact .entry
    · induction hpath using Relation.ReflTransGen.head_induction_on generalizing b with
      | refl =>
          obtain ⟨hedge, hhome⟩ := mem_backward.mp hroot
          rcases hc with rfl | ⟨i, hi, hx⟩
          · exact .pass hedge hhome .entry
          · exact .defined hedge hhome hi hx
      | head hstep _ ih =>
          obtain ⟨hedge, hhome⟩ := mem_backward.mp hroot
          exact .pass hedge hhome (ih hstep)
  · intro h
    induction h with
    | entry => exact Or.inl rfl
    | @defined b c i hedge hhome hi hx =>
        exact Or.inr ⟨b, .of_mem (mem_backward.mpr ⟨hedge, hhome⟩), Or.inr ⟨i, hi, hx⟩⟩
    | @pass b c hedge hhome _ ih =>
        have hb : b ∈ g.backward home c := mem_backward.mpr ⟨hedge, hhome⟩
        rcases ih with rfl | ⟨d, ⟨root, hroot, hpath⟩, hd⟩
        · exact Or.inr ⟨entryBlock, .of_mem hb, Or.inl rfl⟩
        · exact Or.inr ⟨d, ⟨b, hb, hpath.head hroot⟩, hd⟩

/-! ## What the search forward finds -/

/-- Where the search goes on behind a block. -/
def onward (g : FlowGraph) (x : SymbolId) (home c : BlockId) : List BlockId :=
  if g.otherArrives x home c || (g.instrs c).any (·.defines x) then []
  else (g.successors c).filter (· != home)

/-- The blocks that the search forward sees. -/
def Ahead (g : FlowGraph) (x : SymbolId) (home : BlockId) : BlockId → Prop :=
  LeadTo (g.onward x home) ((g.successors home).filter (· != home))

theorem mem_onward (hcut : g.WellCut) :
    c ∈ g.onward x home b ↔ ¬ g.Arrives x home b ∧ (∀ i, g.Holds b i → ¬ g.DefinesAt x i) ∧
      c ∈ g.successors b ∧ c ≠ home := by
  have hstop : (g.otherArrives x home b || (g.instrs b).any (·.defines x)) = true ↔
      g.Arrives x home b ∨ ∃ i, g.Holds b i ∧ g.DefinesAt x i := by
    rw [Bool.or_eq_true, otherArrives_iff hcut, hcut.any_defines_iff]
  rw [onward]
  split
  · rename_i h
    have hnot := hstop.mp h
    simp only [List.not_mem_nil, false_iff]
    rintro ⟨harrives, hclear, -⟩
    rcases hnot with hb | ⟨i, hi, hx⟩
    · exact harrives hb
    · exact hclear i hi hx
  · rename_i h
    have hgo := mt hstop.mpr h
    rw [not_or, not_exists] at hgo
    rw [List.mem_filter, bne_iff_ne, ne_eq]
    constructor
    · exact fun hc => ⟨hgo.1, fun i hi hx => hgo.2 i ⟨hi, hx⟩, hc⟩
    · exact fun hc => hc.2.2

theorem Ahead.ne_home (hcut : g.WellCut) (h : g.Ahead x home b) : b ≠ home := by
  obtain ⟨root, hroot, hpath⟩ := h
  rcases Relation.ReflTransGen.cases_tail hpath with rfl | ⟨c, -, hc⟩
  · exact bne_iff_ne.mp (List.mem_filter.mp hroot).2
  · exact ((mem_onward hcut).mp hc).2.2.2

/-- **The search forward misses no block** that control can reach and where nothing else arrives. -/
theorem Reaches.ahead (hcut : g.WellCut) (hb : g.Reaches b) (hhome : b ≠ home)
    (harrives : ¬ g.Arrives x home b) : g.Ahead x home b := by
  induction hb with
  | refl => exact absurd .entry harrives
  | @tail c b _ hedge ih =>
      by_cases hc : c = home
      · subst hc
        exact .of_mem (List.mem_filter.mpr ⟨hedge, bne_iff_ne.mpr hhome⟩)
      · have hc' : ¬ g.Arrives x home c := fun h => harrives (.pass hedge hc h)
        have hclear : ∀ i, g.Holds c i → ¬ g.DefinesAt x i := fun i hi hx =>
          harrives (.defined hedge hc hi hx)
        exact LeadTo.step (ih hc hc') ((mem_onward hcut).mpr ⟨hc', hclear, hedge, hhome⟩)

/-! ## What is listed -/

/-- The instructions before the first write, in a list by ascending indices. -/
theorem mem_untilDefined {es : List (Nat × Instr)} (hes : es.Pairwise fun d e => d.1 < e.1) :
    i ∈ untilDefined x es ↔
      (∃ y, (i, y) ∈ es) ∧ ∀ e ∈ es, e.1 ≤ i → e.2.defines x = false := by
  induction es with
  | nil => simp [untilDefined]
  | cons e es ih =>
      obtain ⟨hfirst, hes⟩ := List.pairwise_cons.mp hes
      by_cases hx : e.2.defines x = true
      · have hnil : untilDefined x (e :: es) = [] := by simp [untilDefined, hx]
        rw [hnil]
        refine iff_of_false List.not_mem_nil ?_
        rintro ⟨⟨y, hy⟩, hclear⟩
        have hle : e.1 ≤ i := by
          rcases List.mem_cons.mp hy with rfl | hy
          · exact Nat.le_refl _
          · exact Nat.le_of_lt (hfirst _ hy)
        exact absurd hx (by simp [hclear e List.mem_cons_self hle])
      · have hcons : untilDefined x (e :: es) = e.1 :: untilDefined x es := by
          simp [untilDefined, hx]
        rw [Bool.not_eq_true] at hx
        rw [hcons, List.mem_cons, ih hes, List.forall_mem_cons]
        constructor
        · rintro (rfl | ⟨⟨y, hy⟩, hclear⟩)
          · refine ⟨⟨e.2, List.mem_cons_self⟩, fun _ => hx, fun d hd hle => ?_⟩
            exact absurd (hfirst d hd) (Nat.not_lt.mpr hle)
          · exact ⟨⟨y, List.mem_cons_of_mem e hy⟩, fun _ => hx, hclear⟩
        · rintro ⟨⟨y, hy⟩, -, hclear⟩
          rcases List.mem_cons.mp hy with rfl | hy
          · exact Or.inl rfl
          · exact Or.inr ⟨⟨y, hy⟩, hclear⟩

theorem pairwise_untilDefined {es : List (Nat × Instr)}
    (hes : es.Pairwise fun d e => d.1 < e.1) : (untilDefined x es).Pairwise (· < ·) :=
  List.pairwise_map.mpr (hes.sublist (List.takeWhile_sublist _))

section Listing

variable {block : Block} (hcut : g.WellCut) (hb : g.block? b = some block)
include hcut hb

/-- Some of the instructions of a block, up to the first write among them. -/
theorem mem_untilDefined_filter (p : Nat → Bool) :
    i ∈ untilDefined x (block.statements.filter fun e => p e.1) ↔
      g.Holds b i ∧ p i = true ∧
        ∀ k, g.Holds b k → p k = true → k ≤ i → ¬ g.DefinesAt x k := by
  have hholds : ∀ {k}, g.Holds b k ↔ ∃ y, InstrAt block.start block.instrs k y := by
    intro k
    simp [Holds, hb, contains_iff]
  rw [mem_untilDefined ((pairwise_statements block).filter _)]
  simp only [List.mem_filter, mem_statements, hholds]
  constructor
  · rintro ⟨⟨y, hy, hi⟩, hclear⟩
    refine ⟨⟨y, hy⟩, hi, ?_⟩
    rintro k ⟨z, hz⟩ hk hle
    rw [hcut.definesAt_iff hb hz, hclear (k, z) ⟨mem_statements.mpr hz, hk⟩ hle]
    exact Bool.false_ne_true
  · rintro ⟨⟨y, hy⟩, hi, hclear⟩
    refine ⟨⟨y, hy, hi⟩, ?_⟩
    rintro ⟨k, z⟩ ⟨hz, hk⟩ hle
    have hz := mem_statements.mp hz
    exact Bool.eq_false_iff.mpr (mt (hcut.definesAt_iff hb hz).mpr (hclear k ⟨z, hz⟩ hk hle))

theorem any_defines_statementsAfter_iff :
    (block.statementsAfter stmt).any (fun e => e.2.defines x) = true ↔
      ∃ k, g.Holds b k ∧ stmt < k ∧ g.DefinesAt x k := by
  rw [List.any_eq_true]
  constructor
  · rintro ⟨⟨k, z⟩, hmem, hx⟩
    obtain ⟨hz, hlt⟩ := List.mem_filter.mp hmem
    have hz := mem_statements.mp hz
    exact ⟨k, ⟨block, hb, contains_iff.mpr ⟨z, hz⟩⟩, of_decide_eq_true hlt,
      (hcut.definesAt_iff hb hz).mpr hx⟩
  · rintro ⟨k, hk, hlt, hx⟩
    obtain ⟨hle, hend⟩ := (holds_iff hb).mp hk
    obtain ⟨z, hz⟩ := exists_instrAt hle hend
    refine ⟨(k, z), List.mem_filter.mpr ⟨mem_statements.mpr hz, decide_eq_true hlt⟩, ?_⟩
    exact (hcut.definesAt_iff hb hz).mp hx

end Listing

theorem mem_soleReachBeyond (hcut : g.WellCut) :
    i ∈ g.soleReachBeyond x home ↔
      ∃ b, g.Ahead x home b ∧ ¬ g.Arrives x home b ∧ g.Holds b i ∧
        ∀ k, g.Holds b k → k ≤ i → ¬ g.DefinesAt x k := by
  have hclosure : ∀ b, b ∈ g.closure (g.onward x home) ((g.successors home).filter (· != home)) ↔
      g.Ahead x home b := by
    refine fun b => mem_closure_of_successors fun c => ?_
    rw [onward]
    split
    · exact List.nil_sublist _
    · exact List.filter_sublist
  have hblock : ∀ b, i ∈ untilDefined x (((g.block? b).map Block.statements).getD []) ↔
      g.Holds b i ∧ ∀ k, g.Holds b k → k ≤ i → ¬ g.DefinesAt x k := by
    intro b
    cases hb : g.block? b with
    | none => simp [untilDefined, Holds, hb]
    | some block =>
        have hall := mem_untilDefined_filter (i := i) (x := x) hcut hb fun _ => true
        rw [List.filter_true] at hall
        simpa using hall
  rw [soleReachBeyond, List.mem_flatMap]
  refine exists_congr fun b => and_congr (hclosure b) ?_
  rw [← otherArrives_iff hcut, ← hblock b]
  cases g.otherArrives x home b <;> simp

/-- **What is listed,** in terms of blocks. -/
theorem mem_soleReach (hcut : g.WellCut) (hx : g.DefinesAt x stmt) (hhome : g.Holds home stmt) :
    i ∈ g.soleReach stmt ↔
      (g.Holds home i ∧ stmt < i ∧ ∀ k, g.Holds home k → stmt < k → k ≤ i → ¬ g.DefinesAt x k) ∨
      (∀ k, g.Holds home k → stmt < k → ¬ g.DefinesAt x k) ∧
        ∃ b, g.Ahead x home b ∧ ¬ g.Arrives x home b ∧ g.Holds b i ∧
          ∀ k, g.Holds b k → k ≤ i → ¬ g.DefinesAt x k := by
  obtain ⟨y, hy, hdefs⟩ := hx
  obtain ⟨block, hb⟩ := hhome.exists_block
  have hnear := mem_untilDefined_filter (i := i) (x := x) hcut hb fun k => decide (stmt < k)
  have hany : (block.statementsAfter stmt).any (fun e => e.2.defines x) = true ↔ _ :=
    any_defines_statementsAfter_iff hcut hb
  simp only [decide_eq_true_eq] at hnear
  rw [← hnear, ← mem_soleReachBeyond hcut, soleReach, hcut.number home stmt hhome, hy]
  simp only [Option.bind_some, Instr.head?_defs hdefs, hb, Option.map_some, Option.getD_some]
  split
  · rename_i hlater
    obtain ⟨k, hk, hlt, hxk⟩ := hany.mp hlater
    exact (or_iff_left fun h => h.1 k hk hlt hxk).symm
  · rename_i hlater
    have hlast : ∀ k, g.Holds home k → stmt < k → ¬ g.DefinesAt x k := fun k hk hlt hxk =>
      hlater (hany.mpr ⟨k, hk, hlt, hxk⟩)
    rw [IdSet.mem_toList, IdSet.mem_ofList, List.mem_append, and_iff_right hlast]
    rfl

theorem pairwise_soleReach (g : FlowGraph) (stmt : Nat) : (g.soleReach stmt).Pairwise (· < ·) := by
  rw [soleReach]
  split
  · dsimp only
    split
    · cases g.block? _ with
      | none => exact List.Pairwise.nil
      | some block => exact pairwise_untilDefined ((pairwise_statements block).filter _)
    · exact IdSet.ascending _
  · exact List.Pairwise.nil

/-! ## Undisturbed instructions -/

/-- **Undisturbed** by any other write of `x` than the one that `stmt`, in block `home`, makes. -/
inductive Undisturbed (g : FlowGraph) (x : SymbolId) (stmt : Nat) (home : BlockId) (i : Nat) :
    Prop where
  /-- Behind `stmt` in its block, up to the next write. -/
  | near : g.Holds home i → stmt < i →
      (∀ k, g.Holds home k → stmt < k → k ≤ i → ¬ g.DefinesAt x k) → Undisturbed g x stmt home i
  /-- In another block where nothing else arrives, up to the next write there, if the write of
  `stmt` lasts to the end of its block. -/
  | far {b : BlockId} : (∀ k, g.Holds home k → stmt < k → ¬ g.DefinesAt x k) → b ≠ home →
      ¬ g.Arrives x home b → g.Holds b i → (∀ k, g.Holds b k → k ≤ i → ¬ g.DefinesAt x k) →
      Undisturbed g x stmt home i

/-- What is listed is undisturbed. -/
theorem undisturbed_of_mem (hcut : g.WellCut) (hx : g.DefinesAt x stmt)
    (hhome : g.Holds home stmt) (hi : i ∈ g.soleReach stmt) : g.Undisturbed x stmt home i := by
  rcases (mem_soleReach hcut hx hhome).mp hi with
    ⟨hi, hlt, hclear⟩ | ⟨hlast, b, hb, hnot, hi, hclear⟩
  · exact .near hi hlt hclear
  · exact .far hlast (hb.ne_home hcut) hnot hi hclear

/-- The converse, where control can reach. -/
theorem Undisturbed.mem_soleReach (h : g.Undisturbed x stmt home i) (hcut : g.WellCut)
    (hx : g.DefinesAt x stmt) (hhome : g.Holds home stmt)
    (hreach : ∀ b, g.Holds b i → g.Reaches b) : i ∈ g.soleReach stmt := by
  refine (FlowGraph.mem_soleReach hcut hx hhome).mpr ?_
  cases h with
  | near hi hlt hclear => exact Or.inl ⟨hi, hlt, hclear⟩
  | @far b hlast hne hnot hi hclear =>
      exact Or.inr ⟨hlast, b, (hreach b hi).ahead hcut hne hnot, hnot, hi, hclear⟩

namespace Undisturbed

theorem exists_holds (h : g.Undisturbed x stmt home i) : ∃ b, g.Holds b i := by
  cases h with
  | near hi _ _ => exact ⟨home, hi⟩
  | @far b _ _ _ hi _ => exact ⟨b, hi⟩

theorem not_definesAt (h : g.Undisturbed x stmt home i) : ¬ g.DefinesAt x i := by
  cases h with
  | near hi hlt hclear => exact hclear i hi hlt (Nat.le_refl i)
  | far _ _ _ hi hclear => exact hclear i hi (Nat.le_refl i)

/-- The entry is not undisturbed. -/
theorem not_entry (h : g.Undisturbed x stmt home i) (hcut : g.WellCut)
    (hhome : g.Holds home stmt) : g.indices.head? ≠ some i := by
  intro hentry
  have htop := hcut.head?_indices_iff.mp hentry
  cases h with
  | near hi hlt _ =>
      obtain rfl := hcut.holds_unique hi htop.holds
      exact absurd hlt (Nat.not_lt.mpr (htop.le hhome))
  | far _ _ hnot hi _ =>
      obtain rfl := hcut.holds_unique hi htop.holds
      exact hnot .entry

/-- **Control comes to an undisturbed instruction** only from `stmt` or from another one. -/
theorem of_statementStep (h : g.Undisturbed x stmt home j) (hcut : g.WellCut)
    (hhome : g.Holds home stmt) (hstep : g.StatementStep i j) :
    i = stmt ∨ g.Undisturbed x stmt home i := by
  cases h with
  | near hj hlt hclear =>
      rcases hstep.cases_target hcut hj with ⟨rfl, hi⟩ | ⟨htop, -⟩
      · rcases Nat.lt_or_eq_of_le (Nat.le_of_lt_succ hlt) with hlt | rfl
        · exact Or.inr (.near hi hlt fun k hk hlt hle => hclear k hk hlt (Nat.le_succ_of_le hle))
        · exact Or.inl rfl
      · exact absurd hlt (Nat.not_lt.mpr (htop.le hhome))
  | @far b hlast hne hnot hj hclear =>
      rcases hstep.cases_target hcut hj with ⟨rfl, hi⟩ | ⟨-, c, hedge, hbottom⟩
      · exact Or.inr (.far hlast hne hnot hi fun k hk hle => hclear k hk (Nat.le_succ_of_le hle))
      · by_cases hc : c = home
        · -- from the end of the block of `stmt`, which its write reaches
          subst hc
          rcases Nat.lt_or_eq_of_le (hbottom.le hhome) with hlt | rfl
          · exact Or.inr (.near hbottom.holds hlt fun k hk hlt _ => hlast k hk hlt)
          · exact Or.inl rfl
        · refine Or.inr (.far hlast hc (fun h => hnot (.pass hedge hc h)) hbottom.holds ?_)
          exact fun k hk _ hxk => hnot (.defined hedge hc hk hxk)

/-- **An undisturbed instruction is solely reached.** -/
theorem exists_before (h : g.Undisturbed x stmt home i) (hcut : g.WellCut)
    (hhome : g.Holds home stmt) (hpath : g.StatementPath i path) :
    ∃ between before, path = i :: (between ++ stmt :: before) ∧
      ∀ k ∈ between, ¬ g.DefinesAt x k := by
  induction hpath with
  | entry hentry => exact absurd hentry (h.not_entry hcut hhome)
  | @step i j path hpath hstep ih =>
      rcases h.of_statementStep hcut hhome hstep with rfl | hi
      · obtain ⟨before, rfl⟩ := hpath.eq_cons
        exact ⟨[], before, rfl, fun k hk => absurd hk List.not_mem_nil⟩
      · obtain ⟨between, before, rfl, hclear⟩ := ih hi
        exact ⟨i :: between, before, rfl, List.forall_mem_cons.mpr ⟨hi.not_definesAt, hclear⟩⟩

end Undisturbed

/-! ## Spoiled instructions -/

/-- **Spoiled:** a walk that avoids `stmt` leads to the instruction from the entry or from a write
of `x`. -/
inductive Spoiled (g : FlowGraph) (x : SymbolId) (stmt : Nat) : Nat → Prop where
  | entry {i : Nat} : g.indices.head? = some i → i ≠ stmt → Spoiled g x stmt i
  | defined {i : Nat} : g.DefinesAt x i → i ≠ stmt → Spoiled g x stmt i
  | pass {i j : Nat} : g.StatementStep i j → Spoiled g x stmt i → j ≠ stmt → Spoiled g x stmt j

/-- Control can come into a block spoiled. -/
def SpoiledInto (g : FlowGraph) (x : SymbolId) (stmt : Nat) (b : BlockId) : Prop :=
  b = entryBlock ∨ ∃ c i, b ∈ g.successors c ∧ g.Bottom c i ∧ g.Spoiled x stmt i

theorem Spoiled.ne (h : g.Spoiled x stmt i) : i ≠ stmt := by
  cases h with
  | entry _ hne => exact hne
  | defined _ hne => exact hne
  | pass _ _ hne => exact hne

/-- A spoiled instruction is not solely reached, if control reaches every write of `x`. -/
theorem Spoiled.exists_path (h : g.Spoiled x stmt i)
    (hpaths : ∀ k, g.DefinesAt x k → ∃ path, g.StatementPath k path) :
    ∃ path, g.StatementPath i path ∧ ¬ ∃ between before, path = i :: (between ++ stmt :: before) ∧
      ∀ k ∈ i :: between, ¬ g.DefinesAt x k := by
  induction h with
  | entry hentry _ =>
      refine ⟨_, .entry hentry, ?_⟩
      rintro ⟨between, before, he, -⟩
      simp at he
  | @defined i hx _ =>
      obtain ⟨path, hpath⟩ := hpaths i hx
      refine ⟨path, hpath, ?_⟩
      rintro ⟨between, before, -, hclear⟩
      exact hclear i List.mem_cons_self hx
  | @pass i j hstep hi hne ih =>
      obtain ⟨path, hpath, hbad⟩ := ih
      refine ⟨_, hpath.step hstep, ?_⟩
      rintro ⟨between, before, he, hclear⟩
      obtain ⟨rest, rfl⟩ := hpath.eq_cons
      cases between with
      | nil =>
          cases he
          exact hi.ne rfl
      | cons k between =>
          cases he
          exact hbad ⟨between, before, rfl, (List.forall_mem_cons.mp hclear).2⟩

/-- Down a block, as long as `stmt` does not come. -/
theorem Spoiled.down (h : g.Spoiled x stmt i) (hi : g.Holds b i) (hj : g.Holds b j) (hij : i ≤ j)
    (hne : ∀ k, g.Holds b k → i < k → k ≤ j → k ≠ stmt) : g.Spoiled x stmt j := by
  induction j, hij using Nat.le_induction with
  | base => exact h
  | succ k hik ih =>
      have hk : g.Holds b k := hi.between hj hik (Nat.le_succ k)
      refine .pass (statementStep_inside hk hj)
        (ih hk fun l hl hil hlk => hne l hl hil (Nat.le_succ_of_le hlk)) ?_
      exact hne _ hj (Nat.lt_succ_of_le hik) (Nat.le_refl _)

/-- What comes behind a write in its block is spoiled, if `stmt` is not among it. -/
theorem DefinesAt.spoiled (hx : g.DefinesAt x k) (hk : g.Holds b k) (hi : g.Holds b i)
    (hki : k ≤ i) (hne : ∀ l, g.Holds b l → k ≤ l → l ≠ stmt) : g.Spoiled x stmt i := by
  have hspoiled : g.Spoiled x stmt k := .defined hx (hne k hk (Nat.le_refl k))
  exact hspoiled.down hk hi hki fun l hl hkl _ => hne l hl (Nat.le_of_lt hkl)

section Spoiling

variable (hcut : g.WellCut) (hrange : g.EdgesInRange) (hhome : g.Holds home stmt)
include hcut

theorem SpoiledInto.spoiled (h : g.SpoiledInto x stmt b) (hi : g.Holds b i)
    (hne : ∀ k, g.Holds b k → k ≤ i → k ≠ stmt) : g.Spoiled x stmt i := by
  obtain ⟨j, hj⟩ := hcut.exists_top hi.lt_size
  have hjne : j ≠ stmt := hne j hj.holds (hj.le hi)
  have htop : g.Spoiled x stmt j := by
    rcases h with rfl | ⟨c, k, hedge, hk, hspoiled⟩
    · exact .entry (hcut.head?_indices_iff.mpr hj) hjne
    · exact .pass (statementStep_across hk hj hedge) hspoiled hjne
  exact htop.down hj.holds hi (hj.le hi) fun k hk _ hle => hne k hk hle

include hhome

theorem ne_stmt_of_holds (hb : b ≠ home) (hi : g.Holds b i) : i ≠ stmt := by
  rintro rfl
  exact hb (hcut.holds_unique hi hhome)

include hrange

/-- Outside its block nothing stops what comes in. -/
theorem SpoiledInto.next (h : g.SpoiledInto x stmt b) (hb : b ≠ home) (hc : c ∈ g.successors b) :
    g.SpoiledInto x stmt c := by
  obtain ⟨k, hk⟩ := hcut.exists_bottom (hrange.source_lt hc)
  refine Or.inr ⟨b, k, hc, hk, h.spoiled hcut hk.holds fun l hl _ => ?_⟩
  exact ne_stmt_of_holds hcut hhome hb hl

theorem Arrives.spoiledInto (h : g.Arrives x home b) : g.SpoiledInto x stmt b := by
  induction h with
  | entry => exact Or.inl rfl
  | @defined b c i hedge hb hi hx =>
      obtain ⟨k, hk⟩ := hcut.exists_bottom (hrange.source_lt hedge)
      refine Or.inr ⟨b, k, hedge, hk, hx.spoiled hi hk.holds (hk.le hi) fun l hl _ => ?_⟩
      exact ne_stmt_of_holds hcut hhome hb hl
  | pass hedge hb _ ih => exact ih.next hcut hrange hhome hb hedge

/-- **Control comes into a block spoiled when it comes for the first time,** unless it has been
through the block of `stmt` and left that undisturbed. -/
theorem Reaches.spoiledInto (hb : g.Reaches b) :
    g.SpoiledInto x stmt b ∨
      g.SpoiledInto x stmt home ∧ ∃ i, g.Bottom home i ∧ ¬ g.Spoiled x stmt i := by
  induction hb with
  | refl => exact Or.inl (Or.inl rfl)
  | @tail b c _ hedge ih =>
      rcases ih with hb | hleft
      · by_cases hbhome : b = home
        · subst hbhome
          obtain ⟨i, hi⟩ := hcut.exists_bottom (hrange.source_lt hedge)
          by_cases hspoiled : g.Spoiled x stmt i
          · exact Or.inl (Or.inr ⟨b, i, hedge, hi, hspoiled⟩)
          · exact Or.inr ⟨hb, i, hi, hspoiled⟩
        · exact Or.inl (hb.next hcut hrange hhome hbhome hedge)
      · exact Or.inr hleft

/-- **What is not spoiled is undisturbed,** where control can reach. -/
theorem undisturbed_of_not_spoiled (hb : g.Reaches b) (hi : g.Holds b i) (hne : i ≠ stmt)
    (hnot : ¬ g.Spoiled x stmt i) : g.Undisturbed x stmt home i := by
  have hinto := hb.spoiledInto hcut hrange hhome (x := x)
  by_cases hbhome : b = home
  · subst hbhome
    rcases Nat.lt_or_gt_of_ne hne with hlt | hgt
    · refine absurd ((hinto.elim id And.left).spoiled hcut hi fun k _ hle => ?_) hnot
      exact Nat.ne_of_lt (Nat.lt_of_le_of_lt hle hlt)
    · refine .near hi hgt fun k hk hlt hle hx => hnot (hx.spoiled hk hi hle fun l _ hkl => ?_)
      exact Nat.ne_of_gt (hlt.trans_le hkl)
  · have hclean : ¬ g.SpoiledInto x stmt b := fun h =>
      hnot (h.spoiled hcut hi fun k hk _ => ne_stmt_of_holds hcut hhome hbhome hk)
    obtain ⟨-, j, hj, hjnot⟩ := hinto.resolve_left hclean
    refine .far (fun k hk hlt hx => hjnot ?_) hbhome
      (fun h => hclean (h.spoiledInto hcut hrange hhome)) hi fun k hk hle hx => hnot ?_
    · exact hx.spoiled hk hj.holds (hj.le hk) fun l _ hkl => Nat.ne_of_gt (hlt.trans_le hkl)
    · exact hx.spoiled hk hi hle fun l hl _ => ne_stmt_of_holds hcut hhome hbhome hl

end Spoiling

/-! ## The listing is exact -/

/-- A path that comes to `stmt` has come to it for the first time. -/
theorem StatementPath.exists_first (h : g.StatementPath i path) :
    stmt ∉ path ∨ ∃ before, g.StatementPath stmt (stmt :: before) ∧ stmt ∉ before := by
  induction h with
  | @entry i hentry =>
      by_cases hi : i = stmt
      · subst hi
        exact Or.inr ⟨[], .entry hentry, List.not_mem_nil⟩
      · exact Or.inl (mt List.mem_singleton.mp (Ne.symm hi))
  | @step i j path hpath hstep ih =>
      rcases ih with hnot | hfirst
      · by_cases hj : j = stmt
        · subst hj
          exact Or.inr ⟨path, hpath.step hstep, hnot⟩
        · exact Or.inl (List.not_mem_cons_of_ne_of_not_mem (Ne.symm hj) hnot)
      · exact Or.inr hfirst

/-- An instruction that control reaches does not come before itself on every path. -/
theorem SolelyReached.ne (h : g.SolelyReached x stmt i) (hpath : g.StatementPath i path) :
    i ≠ stmt := by
  rintro rfl
  obtain ⟨rest, rfl⟩ := hpath.eq_cons
  rcases hpath.exists_first with hnot | ⟨before, hfirst, hnot⟩
  · exact hnot List.mem_cons_self
  · obtain ⟨between, before', he, -⟩ := h.1 _ hfirst
    rw [(List.cons.inj he).2] at hnot
    exact hnot (List.mem_append_right between List.mem_cons_self)

theorem SolelyReached.not_spoiled (h : g.SolelyReached x stmt i)
    (hpaths : ∀ k, g.DefinesAt x k → ∃ path, g.StatementPath k path) :
    ¬ g.Spoiled x stmt i := by
  intro hspoiled
  obtain ⟨path, hpath, hbad⟩ := hspoiled.exists_path hpaths
  obtain ⟨between, before, he, hclear⟩ := h.1 path hpath
  exact hbad ⟨between, before, he, List.forall_mem_cons.mpr ⟨h.2 hspoiled.ne, hclear⟩⟩

/-- **The listing is exact.**  In every flow graph of a program, for every instruction that writes
`x`: the indices are listed in ascending order, each is that of an instruction which is solely
reached by this write, and if control can reach every block then there is no other such instruction
in the procedure. -/
theorem soleReach_exact {is : List Instr} {gs : List FlowGraph} (hgs : ofInstrs is = .ok gs)
    (hg : g ∈ gs) (hx : g.DefinesAt x stmt) :
    (g.soleReach stmt).Pairwise (· < ·) ∧
      (∀ i ∈ g.soleReach stmt, i ∈ g.indices ∧ g.SolelyReached x stmt i) ∧
      ((∀ b < g.size, g.Reaches b) → ∀ i ∈ g.indices, g.SolelyReached x stmt i →
        i ∈ g.soleReach stmt) := by
  have hcut := wellCut_of_mem hgs hg
  have hrange := edgesInRange_of_mem hgs hg
  obtain ⟨home, hhome⟩ := hx.exists_holds
  refine ⟨pairwise_soleReach g stmt, fun i hi => ?_, fun hreach i hi hsole => ?_⟩
  · have hundisturbed := undisturbed_of_mem hcut hx hhome hi
    exact ⟨mem_indices.mpr hundisturbed.exists_holds,
      fun path hpath => hundisturbed.exists_before hcut hhome hpath,
      fun _ => hundisturbed.not_definesAt⟩
  · have hpaths : ∀ b k, g.Holds b k → ∃ path, g.StatementPath k path := fun b k hk =>
      (hreach b hk.lt_size).exists_statementPath hcut hrange hk
    obtain ⟨b, hb⟩ := mem_indices.mp hi
    obtain ⟨path, hpath⟩ := hpaths b i hb
    have hnot : ¬ g.Spoiled x stmt i := hsole.not_spoiled fun k hk =>
      hk.exists_holds.elim fun c hc => hpaths c k hc
    have hundisturbed := undisturbed_of_not_spoiled hcut hrange hhome (hreach b hb.lt_size) hb
      (hsole.ne hpath) hnot
    exact hundisturbed.mem_soleReach hcut hx hhome fun c hc => hreach c hc.lt_size

/-- A value is written once before a loop and again in it. -/
def countDown : List Instr :=
  [.label "m" (some ⟨0, [], none⟩), .copy 1 (.const 3), .branch (.symbol 2) "skip",
    .copy 3 (.symbol 1), .label "skip" none, .copy 4 (.symbol 1),
    .label "loop" none, .binary .sub 1 (.symbol 1) (.const 1), .branch (.symbol 1) "loop",
    .ret (some (.symbol 1))]

/-- Its control flow. -/
def countDownFlow : FlowGraph := ofRegion ⟨0, "m", ⟨0, [], none⟩, countDown⟩

/-- Up to the loop only the first write arrives, on both ways around the branch; at the top of the
loop the second one arrives as well. -/
theorem soleReach_exact_countDown :
    ofInstrs countDown = .ok [countDownFlow] ∧ countDownFlow.DefinesAt 1 1 ∧
      (∀ b < countDownFlow.size, countDownFlow.Reaches b) ∧
      countDownFlow.soleReach 1 = [2, 3, 4, 5] ∧ countDownFlow.SolelyReached 1 1 5 ∧
      ¬ countDownFlow.SolelyReached 1 1 6 := by
  have hflows : ofInstrs countDown = .ok [countDownFlow] := rfl
  have hx : countDownFlow.DefinesAt 1 1 := ⟨_, rfl, List.mem_singleton_self 1⟩
  have hlist : countDownFlow.soleReach 1 = [2, 3, 4, 5] := by decide +kernel
  have hreach : ∀ b < countDownFlow.size, countDownFlow.Reaches b := by
    have horder := searchOrder_reversePostOrder (edgesInRange_of_mem hflows List.mem_cons_self)
      (size_pos_of_mem hflows List.mem_cons_self)
    have hall : ∀ b < countDownFlow.size, b ∈ countDownFlow.reversePostOrder := by decide +kernel
    exact fun b hb => (horder.mem_iff b).mp (hall b hb)
  obtain ⟨-, hsound, hcomplete⟩ := soleReach_exact hflows List.mem_cons_self hx
  rw [hlist] at hsound hcomplete
  refine ⟨hflows, hx, hreach, hlist, (hsound 5 (by decide)).2, fun hsole => ?_⟩
  exact absurd (hcomplete hreach 6 (by decide +kernel) hsole) (by decide)

end FlowGraph

end RegAlloc
