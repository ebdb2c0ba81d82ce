import Mathlib.Data.Finset.Card
import Mathlib.Logic.Function.Iterate
import RegAlloc.Liveness
import RegAlloc.Proofs.FlowGraphLaws

/-!
# The live sets are exact

`FlowGraph.LiveOnEntry g x b` says that some walk along the edges from block `b` comes to a block
that reads `x` before writing it, through blocks that do not write `x`.  The main results are that
the computed sets hold exactly these symbols (`mem_liveIn_iff`, `mem_liveOut_iff`).

*Nothing too much* is an invariant of every single update (`Sound`).

*Nothing missing* counts passes.  `liveWithin g x m` holds the blocks with such a walk through at
most `m` blocks, and a pass that starts with all sets at level `m` ends with all of them at level
`m + 1` (`Covers.pass`); the order in which the pass visits the blocks plays no role for this.  The
levels grow strictly until they stop for good, so level `g.size` is the last one, and the budget of
passes is larger than that.
-/

namespace RegAlloc

/-! ## One block -/

theorem DefUse.exists_reader {is : List Instr} {x : SymbolId}
    (hx : x ∈ (DefUse.ofInstrs is).uses) : ∃ i ∈ is, x ∈ i.uses := by
  induction is with
  | nil => exact absurd hx (IdSet.not_mem_empty x)
  | cons i is ih =>
      rcases Instr.mem_liveBefore.mp hx with ⟨hx, -⟩ | hx
      · obtain ⟨j, hj, hxj⟩ := ih hx
        exact ⟨j, List.mem_cons_of_mem i hj, hxj⟩
      · exact ⟨i, List.mem_cons_self, hx⟩

/-- **What a block does is what its instructions do**, one after the other from the last. -/
theorem DefUse.liveIn_ofInstrs (is : List Instr) (out : IdSet) :
    (DefUse.ofInstrs is).liveIn out = is.foldr Instr.liveBefore out := by
  induction is with
  | nil =>
      ext x
      simp [DefUse.ofInstrs, DefUse.mem_liveIn]
  | cons i is ih =>
      ext x
      rw [List.foldr_cons, ← ih, Instr.mem_liveBefore, DefUse.mem_liveIn, DefUse.mem_liveIn]
      simp only [DefUse.ofInstrs, IdSet.mem_union, IdSet.mem_ofList, Instr.mem_liveBefore]
      tauto

namespace FlowGraph

variable {g : FlowGraph} {b c : BlockId} {x : SymbolId} {m : Nat}

/-- Block `b` reads `x` before writing it. -/
def ReadsFirst (g : FlowGraph) (x : SymbolId) (b : BlockId) : Prop :=
  x ∈ (DefUse.ofInstrs (g.instrs b)).uses

/-- Block `b` does not write `x`. -/
def Keeps (g : FlowGraph) (x : SymbolId) (b : BlockId) : Prop :=
  x ∉ (DefUse.ofInstrs (g.instrs b)).defs

instance : Decidable (g.ReadsFirst x b) := inferInstanceAs (Decidable (x ∈ _))

instance : Decidable (g.Keeps x b) := inferInstanceAs (Decidable (x ∉ _))

theorem ReadsFirst.lt_size (h : g.ReadsFirst x b) : b < g.size := by
  obtain ⟨i, hi, -⟩ := DefUse.exists_reader h
  exact lt_size_of_mem_instrs hi

theorem getD_defUse (g : FlowGraph) (b : BlockId) :
    g.defUse.getD b default = DefUse.ofInstrs (g.instrs b) := by
  cases hb : g.blocks[b]? with
  | none => simp [defUse, instrs, block?, hb, DefUse.ofInstrs, default]
  | some block => simp [defUse, instrs, block?, hb]

theorem mem_topEquation {out : IdSet} :
    x ∈ topEquation g.defUse b out ↔ g.ReadsFirst x b ∨ (g.Keeps x b ∧ x ∈ out) := by
  rw [topEquation, getD_defUse, DefUse.mem_liveIn, ReadsFirst, Keeps]
  tauto

theorem mem_bottomEquation {s : LiveSets} :
    x ∈ g.bottomEquation s b ↔ ∃ c ∈ g.successors b, x ∈ s.top c :=
  IdSet.mem_unionOver

/-! ## Walks between blocks -/

/-- Some walk from block `b` comes to a block that reads `x` first, through blocks that keep it. -/
inductive LiveOnEntry (g : FlowGraph) (x : SymbolId) : BlockId → Prop where
  | reads {b : BlockId} : g.ReadsFirst x b → LiveOnEntry g x b
  | keeps {b c : BlockId} : g.Keeps x b → c ∈ g.successors b → LiveOnEntry g x c →
      LiveOnEntry g x b

/-- The first block of the walk reads `x`, or keeps it and the walk goes on. -/
theorem liveOnEntry_iff :
    g.LiveOnEntry x b ↔
      g.ReadsFirst x b ∨ (g.Keeps x b ∧ ∃ c ∈ g.successors b, g.LiveOnEntry x c) := by
  constructor
  · intro h
    cases h with
    | reads h => exact Or.inl h
    | keeps hkeeps hc h => exact Or.inr ⟨hkeeps, _, hc, h⟩
  · rintro (h | ⟨hkeeps, c, hc, h⟩)
    · exact LiveOnEntry.reads h
    · exact LiveOnEntry.keeps hkeeps hc h

/-- What is live on entry is read by some instruction. -/
theorem LiveOnEntry.exists_reader (h : g.LiveOnEntry x b) :
    ∃ block ∈ g.blocks, ∃ i ∈ block.instrs, x ∈ i.uses := by
  induction h with
  | reads h =>
      obtain ⟨i, hi, hx⟩ := DefUse.exists_reader h
      obtain ⟨block, hblock, hi⟩ := exists_block_of_mem_instrs hi
      exact ⟨block, hblock, i, hi, hx⟩
  | keeps _ _ _ ih => exact ih

/-- The blocks from which such a walk through at most `m` blocks exists. -/
def liveWithin (g : FlowGraph) (x : SymbolId) : Nat → Finset BlockId
  | 0 => ∅
  | m + 1 => (Finset.range g.size).filter fun b =>
      g.ReadsFirst x b ∨ (g.Keeps x b ∧ ∃ c ∈ g.successors b, c ∈ g.liveWithin x m)

theorem mem_liveWithin_succ :
    b ∈ g.liveWithin x (m + 1) ↔
      b < g.size ∧
        (g.ReadsFirst x b ∨ (g.Keeps x b ∧ ∃ c ∈ g.successors b, c ∈ g.liveWithin x m)) := by
  rw [liveWithin, Finset.mem_filter, Finset.mem_range]

theorem liveWithin_subset_range (g : FlowGraph) (x : SymbolId) (m : Nat) :
    g.liveWithin x m ⊆ Finset.range g.size := by
  cases m with
  | zero => exact Finset.empty_subset _
  | succ m => exact Finset.filter_subset _ _

theorem liveWithin_subset_succ (g : FlowGraph) (x : SymbolId) (m : Nat) :
    g.liveWithin x m ⊆ g.liveWithin x (m + 1) := by
  induction m with
  | zero => exact Finset.empty_subset _
  | succ m ih =>
      intro b hb
      obtain ⟨hlt, hb⟩ := mem_liveWithin_succ.mp hb
      refine mem_liveWithin_succ.mpr ⟨hlt, hb.imp_right ?_⟩
      rintro ⟨hkeeps, c, hc, hmem⟩
      exact ⟨hkeeps, c, hc, ih hmem⟩

theorem liveWithin_mono (g : FlowGraph) (x : SymbolId) : Monotone (g.liveWithin x) :=
  monotone_nat_of_le_succ (g.liveWithin_subset_succ x)

/-- **The levels grow strictly until they stop:** level `m + 1` is level `m`, or has more than `m`
blocks. -/
theorem liveWithin_grows (g : FlowGraph) (x : SymbolId) (m : Nat) :
    g.liveWithin x m = g.liveWithin x (m + 1) ∨ m + 1 ≤ (g.liveWithin x (m + 1)).card := by
  induction m with
  | zero =>
      rcases (g.liveWithin x 1).eq_empty_or_nonempty with h | h
      · exact Or.inl h.symm
      · exact Or.inr h.card_pos
  | succ m ih =>
      rcases ih with h | h
      · left
        rw [liveWithin, liveWithin, h]
      · rcases (g.liveWithin_subset_succ x (m + 1)).eq_or_ssubset with heq | hlt
        · exact Or.inl heq
        · exact Or.inr (Nat.succ_le_of_lt (h.trans_lt (Finset.card_lt_card hlt)))

/-- Level `g.size` is the last one. -/
theorem liveWithin_size (g : FlowGraph) (x : SymbolId) :
    g.liveWithin x (g.size + 1) = g.liveWithin x g.size := by
  rcases g.liveWithin_grows x g.size with h | h
  · exact h.symm
  · have hcard := Finset.card_le_card (g.liveWithin_subset_range x (g.size + 1))
    rw [Finset.card_range] at hcard
    exact absurd (h.trans hcard) (Nat.not_succ_le_self _)

/-- **The last level is everything:** a walk can be cut down to one through at most `g.size`
blocks. -/
theorem LiveOnEntry.mem_liveWithin_size (hg : g.EdgesInRange) (h : g.LiveOnEntry x b) :
    b ∈ g.liveWithin x g.size := by
  induction h with
  | reads h =>
      rw [← liveWithin_size]
      exact mem_liveWithin_succ.mpr ⟨h.lt_size, Or.inl h⟩
  | keeps hkeeps hc _ ih =>
      rw [← liveWithin_size]
      exact mem_liveWithin_succ.mpr ⟨hg.source_lt hc, Or.inr ⟨hkeeps, _, hc, ih⟩⟩

end FlowGraph

/-! ## One update and one pass -/

namespace LiveSets

open FlowGraph

variable {g : FlowGraph} {s : LiveSets} {b c : BlockId} {x : SymbolId} {m : Nat}

/-- Nothing is in the sets that should not be. -/
structure Sound (g : FlowGraph) (s : LiveSets) : Prop where
  top : ∀ {b x}, x ∈ s.top b → g.LiveOnEntry x b
  bottom : ∀ {b x}, x ∈ s.bottom b → ∃ c ∈ g.successors b, g.LiveOnEntry x c

/-- There is a pair of sets for each block. -/
structure Sized (g : FlowGraph) (s : LiveSets) : Prop where
  tops : s.tops.size = g.size
  bottoms : s.bottoms.size = g.size

/-- The sets of block `b` hold everything up to level `m`. -/
structure Covers (g : FlowGraph) (m : Nat) (s : LiveSets) (b : BlockId) : Prop where
  top : ∀ {x}, b ∈ g.liveWithin x m → x ∈ s.top b
  bottom : ∀ {j c x}, j < m → c ∈ g.successors b → c ∈ g.liveWithin x j → x ∈ s.bottom b

theorem Sized.refine (hs : s.Sized g) (du : Array DefUse) (b : BlockId) :
    (s.refine g du b).Sized g :=
  ⟨Array.size_setIfInBounds.trans hs.tops, Array.size_setIfInBounds.trans hs.bottoms⟩

theorem Sound.refine (hs : s.Sound g) (b : BlockId) : (s.refine g g.defUse b).Sound g := by
  have hnew : ∀ {x}, x ∈ g.bottomEquation s b → ∃ c ∈ g.successors b, g.LiveOnEntry x c := by
    intro x hx
    obtain ⟨c, hc, hx⟩ := mem_bottomEquation.mp hx
    exact ⟨c, hc, hs.top hx⟩
  constructor
  · intro c x hx
    rw [LiveSets.refine, top_set] at hx
    split at hx
    next h =>
      obtain ⟨rfl, -⟩ := h
      rcases mem_topEquation.mp hx with hreads | ⟨hkeeps, hx⟩
      · exact LiveOnEntry.reads hreads
      · obtain ⟨c, hc, hlive⟩ := hnew hx
        exact LiveOnEntry.keeps hkeeps hc hlive
    next => exact hs.top hx
  · intro c x hx
    rw [LiveSets.refine, bottom_set] at hx
    split at hx
    next h =>
      obtain ⟨rfl, -⟩ := h
      exact hnew hx
    next => exact hs.bottom hx

theorem top_refine_of_ne (du : Array DefUse) (hbc : b ≠ c) :
    (s.refine g du b).top c = s.top c := by
  rw [LiveSets.refine, top_set, if_neg (fun h => hbc h.1)]

theorem bottom_refine_of_ne (du : Array DefUse) (hbc : b ≠ c) :
    (s.refine g du b).bottom c = s.bottom c := by
  rw [LiveSets.refine, bottom_set, if_neg (fun h => hbc h.1)]

theorem Covers.refine_of_ne (hs : s.Covers g m c) (du : Array DefUse) (hbc : b ≠ c) :
    (s.refine g du b).Covers g m c := by
  constructor
  · intro x hx
    rw [top_refine_of_ne du hbc]
    exact hs.top hx
  · intro j d x hj hd hx
    rw [bottom_refine_of_ne du hbc]
    exact hs.bottom hj hd hx

/-- **One update climbs one level:** if all sets are at level `m`, those of the updated block get to
level `m + 1`. -/
theorem Covers.refine_self (hsized : s.Sized g) (hs : ∀ c, s.Covers g m c) (hb : b < g.size) :
    (s.refine g g.defUse b).Covers g (m + 1) b := by
  have hbottom : ∀ {j c x}, j < m + 1 → c ∈ g.successors b → c ∈ g.liveWithin x j →
      x ∈ g.bottomEquation s b := by
    intro j c x hj hc hx
    have hm : c ∈ g.liveWithin x m := g.liveWithin_mono x (Nat.le_of_lt_succ hj) hx
    exact mem_bottomEquation.mpr ⟨c, hc, (hs c).top hm⟩
  constructor
  · intro x hx
    rw [LiveSets.refine, top_set, if_pos ⟨rfl, hsized.tops ▸ hb⟩, mem_topEquation]
    obtain ⟨-, hx⟩ := mem_liveWithin_succ.mp hx
    refine hx.imp_right ?_
    rintro ⟨hkeeps, c, hc, hx⟩
    exact ⟨hkeeps, hbottom (Nat.lt_succ_self m) hc hx⟩
  · intro j c x hj hc hx
    rw [LiveSets.refine, bottom_set, if_pos ⟨rfl, hsized.bottoms ▸ hb⟩]
    exact hbottom hj hc hx

theorem Covers.of_succ (hs : s.Covers g (m + 1) b) : s.Covers g m b := by
  constructor
  · intro x hx
    exact hs.top (g.liveWithin_subset_succ x m hx)
  · intro j c x hj hc hx
    exact hs.bottom (Nat.lt_succ_of_lt hj) hc hx

/-- A run of updates keeps every block at level `m` and lifts the updated ones to level `m + 1`. -/
theorem Covers.foldl_refine {bs : List BlockId} (hbs : ∀ b ∈ bs, b < g.size)
    (hsized : s.Sized g) (hs : ∀ c, s.Covers g m c)
    (hdone : ∀ c, c ∈ bs ∨ s.Covers g (m + 1) c) :
    ∀ c, (bs.foldl (LiveSets.refine g g.defUse) s).Covers g (m + 1) c := by
  -- every block is still to come, or has reached the next level already
  induction bs generalizing s with
  | nil =>
      intro c
      exact (hdone c).resolve_left List.not_mem_nil
  | cons b bs ih =>
      have hself := Covers.refine_self hsized hs (hbs b List.mem_cons_self)
      refine ih (fun c hc => hbs c (List.mem_cons_of_mem b hc)) (hsized.refine _ b) ?_ ?_
      · intro c
        rcases eq_or_ne b c with rfl | hbc
        · exact hself.of_succ
        · exact (hs c).refine_of_ne _ hbc
      · intro c
        rcases eq_or_ne b c with rfl | hbc
        · exact Or.inr hself
        · rcases hdone c with hc | hc
          · exact Or.inl ((List.mem_cons.mp hc).resolve_left (Ne.symm hbc))
          · exact Or.inr (hc.refine_of_ne _ hbc)

/-- **One pass climbs one level.** -/
theorem Covers.pass (hg : g.EdgesInRange) (hsized : s.Sized g) (hs : ∀ c, s.Covers g m c) :
    ∀ c, (s.pass g g.defUse).Covers g (m + 1) c := by
  refine Covers.foldl_refine (fun b hb => ?_) hsized hs (fun c => ?_)
  · exact List.mem_range.mp (List.mem_reverse.mp hb)
  · rcases Nat.lt_or_ge c g.size with hc | hc
    · exact Or.inl (List.mem_reverse.mpr (List.mem_range.mpr hc))
    · -- beyond the graph there is nothing to cover
      refine Or.inr ⟨fun hx => ?_, fun _ hd _ => ?_⟩
      · have hlt := Finset.mem_range.mp (g.liveWithin_subset_range _ _ hx)
        exact absurd hlt (Nat.not_lt.mpr hc)
      · exact absurd (hg.source_lt hd) (Nat.not_lt.mpr hc)

theorem Sized.pass (hs : s.Sized g) (du : Array DefUse) : (s.pass g du).Sized g :=
  List.foldlRecOn _ _ hs fun _ ht b _ => ht.refine du b

theorem Sound.pass (hs : s.Sound g) : (s.pass g g.defUse).Sound g :=
  List.foldlRecOn _ _ hs fun _ ht b _ => ht.refine b

/-! ## All passes -/

/-- Stopping at the fixed point gives what all passes would give. -/
theorem iterate_fst (g : FlowGraph) (du : Array DefUse) (budget : Nat) (s : LiveSets) :
    (iterate g du budget s).1 = (LiveSets.pass g du)^[budget] s := by
  induction budget generalizing s with
  | zero => rfl
  | succ budget ih =>
      rw [iterate, Function.iterate_succ_apply]
      split
      next hfixed => rw [hfixed, Function.iterate_fixed hfixed]
      next => exact ih (s.pass g du)

theorem top_allEmpty (size : Nat) (b : BlockId) : (allEmpty size).top b = ∅ := by
  simp only [top, allEmpty, Array.getD_eq_getD_getElem?, Array.getElem?_replicate]
  split <;> rfl

theorem bottom_allEmpty (size : Nat) (b : BlockId) : (allEmpty size).bottom b = ∅ := by
  simp only [bottom, allEmpty, Array.getD_eq_getD_getElem?, Array.getElem?_replicate]
  split <;> rfl

theorem sound_allEmpty (g : FlowGraph) : (allEmpty g.size).Sound g := by
  constructor
  · intro b x hx
    rw [top_allEmpty] at hx
    exact absurd hx (IdSet.not_mem_empty x)
  · intro b x hx
    rw [bottom_allEmpty] at hx
    exact absurd hx (IdSet.not_mem_empty x)

theorem sized_allEmpty (g : FlowGraph) : (allEmpty g.size).Sized g :=
  ⟨Array.size_replicate, Array.size_replicate⟩

/-- After `j` passes the sets are sound and at level `j`. -/
theorem covers_passes (hg : g.EdgesInRange) (j : Nat) :
    let s := (LiveSets.pass g g.defUse)^[j] (allEmpty g.size)
    s.Sized g ∧ s.Sound g ∧ ∀ c, s.Covers g j c := by
  induction j with
  | zero =>
      refine ⟨sized_allEmpty g, sound_allEmpty g, fun c => ⟨fun hx => ?_, fun hj => ?_⟩⟩
      · exact absurd hx (Finset.notMem_empty c)
      · exact absurd hj (Nat.not_lt_zero _)
  | succ j ih =>
      obtain ⟨hsized, hsound, hcovers⟩ := ih
      rw [Function.iterate_succ_apply']
      exact ⟨hsized.pass _, hsound.pass, Covers.pass hg hsized hcovers⟩

/-- **As many passes as there are blocks make the top sets exact,** -/
theorem mem_top_passes (hg : g.EdgesInRange) {j : Nat} (hj : g.size ≤ j) :
    x ∈ ((LiveSets.pass g g.defUse)^[j] (allEmpty g.size)).top b ↔ g.LiveOnEntry x b := by
  obtain ⟨-, hsound, hcovers⟩ := covers_passes hg j
  refine ⟨hsound.top, fun h => (hcovers b).top ?_⟩
  exact g.liveWithin_mono x hj (h.mem_liveWithin_size hg)

/-- and one more makes the bottom sets exact, too. -/
theorem mem_bottom_passes (hg : g.EdgesInRange) {j : Nat} (hj : g.size < j) :
    x ∈ ((LiveSets.pass g g.defUse)^[j] (allEmpty g.size)).bottom b ↔
      ∃ c ∈ g.successors b, g.LiveOnEntry x c := by
  obtain ⟨-, hsound, hcovers⟩ := covers_passes hg j
  refine ⟨hsound.bottom, ?_⟩
  rintro ⟨c, hc, h⟩
  exact (hcovers b).bottom hj hc (h.mem_liveWithin_size hg)

end LiveSets

namespace FlowGraph

variable {g : FlowGraph} {b c : BlockId} {x : SymbolId}

theorem sets_liveness (g : FlowGraph) :
    g.liveness.sets = (LiveSets.pass g g.defUse)^[g.passBudget] (LiveSets.allEmpty g.size) :=
  LiveSets.iterate_fst g g.defUse g.passBudget _

theorem size_lt_passBudget (g : FlowGraph) : g.size < g.passBudget := by
  unfold passBudget
  omega

/-- **The top sets are exact.** -/
theorem mem_liveIn_iff (hg : g.EdgesInRange) :
    x ∈ g.liveness.liveIn b ↔ g.LiveOnEntry x b := by
  rw [Liveness.liveIn, sets_liveness]
  exact LiveSets.mem_top_passes hg g.size_lt_passBudget.le

/-- **The bottom sets are exact.** -/
theorem mem_liveOut_iff (hg : g.EdgesInRange) :
    x ∈ g.liveness.liveOut b ↔ ∃ c ∈ g.successors b, g.LiveOnEntry x c := by
  rw [Liveness.liveOut, sets_liveness]
  exact LiveSets.mem_bottom_passes hg g.size_lt_passBudget

/-- The computed sets satisfy the equation at the bottom of a block. -/
theorem mem_liveOut (hg : g.EdgesInRange) :
    x ∈ g.liveness.liveOut b ↔ ∃ c ∈ g.successors b, x ∈ g.liveness.liveIn c := by
  simp only [mem_liveOut_iff hg, mem_liveIn_iff hg]

/-- The computed sets satisfy the equation at the top of a block, instruction by instruction. -/
theorem liveIn_eq_foldr (hg : g.EdgesInRange) (b : BlockId) :
    g.liveness.liveIn b = (g.instrs b).foldr Instr.liveBefore (g.liveness.liveOut b) := by
  rw [← DefUse.liveIn_ofInstrs]
  ext x
  rw [DefUse.mem_liveIn, mem_liveIn_iff hg, mem_liveOut_iff hg, liveOnEntry_iff, or_comm, and_comm]
  rfl

end FlowGraph

end RegAlloc
