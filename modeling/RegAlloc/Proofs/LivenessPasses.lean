import RegAlloc.Proofs.LivenessSolution

/-!
# How many passes the live sets take

Nothing in the iteration to the fixed point says how often it goes round.  It sets the sets of one
block after the other by the equations, notes whether a block had other sets before, and starts
over as long as some block had.  `LiveSets.Converges` is this loop as a relation, without any
budget: a derivation of it is a loop that came to its end, and it counts the passes.

* **It ends in one way** (`Converges.unique`), so there is one number of passes to speak of.
* **It ends soon.**  The top sets are exact after as many passes as there are blocks, and the bottom
  sets after one more (`mem_top_passes`, `mem_bottom_passes`).  Exact sets are all the same, so the
  pass after that finds nothing to change, and it is the last one.

The loop asks each block at its turn, and `LiveSets.iterate` compares the sets before and after the
whole pass.  `changes_iff` says that this is the same question, because no block has two turns in a
pass.
-/

namespace RegAlloc

namespace LiveSets

open FlowGraph

variable {g : FlowGraph} {du : Array DefUse} {s t fixed : LiveSets} {b c : BlockId}
variable {bs : List BlockId} {passes : Nat}

/-! ## The loop -/

/-- The sets of a block are not what the equations ask for. -/
def StaleAt (g : FlowGraph) (du : Array DefUse) (s : LiveSets) (b : BlockId) : Prop :=
  s.bottom b ≠ g.bottomEquation s b ∨ s.top b ≠ topEquation du b (g.bottomEquation s b)

/-- Some block of a run of updates has stale sets when its turn comes. -/
def Changes (g : FlowGraph) (du : Array DefUse) : List BlockId → LiveSets → Prop
  | [], _ => False
  | b :: bs, s => s.StaleAt g du b ∨ Changes g du bs (s.refine g du b)

/-- **The loop that makes passes until one finds nothing to change,** with the number of passes. -/
inductive Converges (g : FlowGraph) (du : Array DefUse) : LiveSets → LiveSets → Nat → Prop
  /-- The pass found nothing to change. -/
  | stop {s : LiveSets} (settled : ¬ Changes g du (List.range g.size).reverse s) :
      Converges g du s (s.pass g du) 1
  /-- The pass changed some block; make another. -/
  | again {s fixed : LiveSets} {passes : Nat} (changed : Changes g du (List.range g.size).reverse s)
      (rest : Converges g du (s.pass g du) fixed passes) : Converges g du s fixed (passes + 1)

/-- **The loop ends in one way.** -/
theorem Converges.unique {fixed' : LiveSets} {passes' : Nat}
    (h : Converges g du s fixed passes) (h' : Converges g du s fixed' passes') :
    fixed = fixed' ∧ passes = passes' := by
  induction h generalizing passes' with
  | stop settled =>
      cases h' with
      | stop => exact ⟨rfl, rfl⟩
      | again changed => exact absurd changed settled
  | again changed _ ih =>
      cases h' with
      | stop settled => exact absurd changed settled
      | again _ rest =>
          obtain ⟨rfl, rfl⟩ := ih rest
          exact ⟨rfl, rfl⟩

/-! ## What a pass changes -/

/-- Sets of one size are equal if they are equal block by block. -/
theorem Sized.ext (hs : s.Sized g) (ht : t.Sized g) (htop : ∀ b, s.top b = t.top b)
    (hbottom : ∀ b, s.bottom b = t.bottom b) : s = t := by
  obtain ⟨tops, bottoms⟩ := s
  obtain ⟨tops', bottoms'⟩ := t
  have hrows : ∀ {rows rows' : Array IdSet}, rows.size = rows'.size →
      (∀ b, rows.getD b ∅ = rows'.getD b ∅) → rows = rows' := by
    intro rows rows' hsize hget
    refine Array.ext hsize fun i hi hi' => ?_
    have h := hget i
    rwa [Array.getD_eq_getD_getElem?, Array.getD_eq_getD_getElem?, Array.getElem?_eq_getElem hi,
      Array.getElem?_eq_getElem hi'] at h
  congr
  · exact hrows (hs.tops.trans ht.tops.symm) htop
  · exact hrows (hs.bottoms.trans ht.bottoms.symm) hbottom

/-- Updating a block whose sets are right changes nothing. -/
theorem refine_of_not_staleAt (hs : s.Sized g) (hb : ¬ s.StaleAt g du b) :
    s.refine g du b = s := by
  obtain ⟨hbottom, htop⟩ := not_or.mp hb
  refine (hs.refine du b).ext hs (fun c => ?_) (fun c => ?_)
  · rcases eq_or_ne b c with rfl | hbc
    · rw [LiveSets.refine, top_set, ← not_ne_iff.mp htop, ite_self]
    · exact top_refine_of_ne du hbc
  · rcases eq_or_ne b c with rfl | hbc
    · rw [LiveSets.refine, bottom_set, ← not_ne_iff.mp hbottom, ite_self]
    · exact bottom_refine_of_ne du hbc

/-- A run of updates leaves the other blocks alone. -/
theorem foldl_refine_of_notMem (du : Array DefUse) (hc : c ∉ bs) (s : LiveSets) :
    (bs.foldl (LiveSets.refine g du) s).top c = s.top c ∧
      (bs.foldl (LiveSets.refine g du) s).bottom c = s.bottom c := by
  induction bs generalizing s with
  | nil => exact ⟨rfl, rfl⟩
  | cons b bs ih =>
      rw [List.mem_cons, not_or] at hc
      obtain ⟨htop, hbottom⟩ := ih hc.2 (s.refine g du b)
      rw [List.foldl_cons, htop, hbottom]
      exact ⟨top_refine_of_ne du (Ne.symm hc.1), bottom_refine_of_ne du (Ne.symm hc.1)⟩

/-- If the sets are the same before and after a run of updates in which every block has one turn,
the first block was right: the later updates would not have put its sets back. -/
theorem not_staleAt_of_foldl_eq (hs : s.Sized g) (hb : b < g.size) (hbs : b ∉ bs)
    (h : bs.foldl (LiveSets.refine g du) (s.refine g du b) = s) : ¬ s.StaleAt g du b := by
  obtain ⟨htop, hbottom⟩ := foldl_refine_of_notMem (g := g) du hbs (s.refine g du b)
  rw [h, LiveSets.refine, top_set, if_pos ⟨rfl, hs.tops ▸ hb⟩] at htop
  rw [h, LiveSets.refine, bottom_set, if_pos ⟨rfl, hs.bottoms ▸ hb⟩] at hbottom
  exact not_or.mpr ⟨not_not.mpr hbottom, not_not.mpr htop⟩

/-- A run of updates in which every block has one turn changes a block if and only if it changes
the sets as a whole. -/
theorem changes_iff_foldl_ne (hs : s.Sized g) (hnodup : bs.Nodup) (hbs : ∀ b ∈ bs, b < g.size) :
    Changes g du bs s ↔ bs.foldl (LiveSets.refine g du) s ≠ s := by
  induction bs with
  | nil => exact iff_of_false not_false (not_not.mpr rfl)
  | cons b bs ih =>
      obtain ⟨hb, hnodup⟩ := List.nodup_cons.mp hnodup
      by_cases hstale : s.StaleAt g du b
      · refine iff_of_true (Or.inl hstale) fun h => ?_
        exact not_staleAt_of_foldl_eq hs (hbs b List.mem_cons_self) hb h hstale
      · rw [Changes, List.foldl_cons, refine_of_not_staleAt hs hstale, or_iff_right hstale]
        exact ih hnodup fun c hc => hbs c (List.mem_cons_of_mem b hc)

/-- **A pass changes some block if and only if it changes the sets.** -/
theorem changes_iff (hs : s.Sized g) :
    Changes g du (List.range g.size).reverse s ↔ s.pass g du ≠ s :=
  changes_iff_foldl_ne hs (List.nodup_reverse.mpr List.nodup_range)
    fun _ hb => List.mem_range.mp (List.mem_reverse.mp hb)

/-! ## The loop ends -/

/-- If the sets are settled after `k` passes, the loop ends with what the iteration returns, after
at most one pass more. -/
theorem converges_iterate {k budget : Nat} (hs : s.Sized g)
    (hsettled : ((LiveSets.pass g du)^[k] s).pass g du = (LiveSets.pass g du)^[k] s)
    (hk : k < budget) :
    Converges g du s (iterate g du budget s).1 (iterate g du budget s).2 ∧
      (iterate g du budget s).2 ≤ k + 1 := by
  induction budget generalizing s k with
  | zero => exact absurd hk (Nat.not_lt_zero k)
  | succ budget ih =>
      unfold iterate
      by_cases hfixed : s.pass g du = s
      · rw [if_pos hfixed]
        have hstop : Converges g du s (s.pass g du) 1 := .stop fun h => (changes_iff hs).mp h hfixed
        rw [hfixed] at hstop
        exact ⟨hstop, Nat.le_add_left 1 k⟩
      · rw [if_neg hfixed]
        cases k with
        | zero => exact absurd hsettled hfixed
        | succ k =>
            rw [Function.iterate_succ_apply] at hsettled
            obtain ⟨hrest, hle⟩ := ih (hs.pass du) hsettled (Nat.lt_of_succ_lt_succ hk)
            exact ⟨.again ((changes_iff hs).mpr hfixed) hrest, Nat.succ_le_succ hle⟩

/-- **Exact sets are settled:** once the number of passes is past the number of blocks, another pass
changes nothing. -/
theorem pass_passes (hg : g.EdgesInRange) {j : Nat} (hj : g.size < j) :
    ((LiveSets.pass g g.defUse)^[j] (allEmpty g.size)).pass g g.defUse =
      (LiveSets.pass g g.defUse)^[j] (allEmpty g.size) := by
  rw [← Function.iterate_succ_apply' (LiveSets.pass g g.defUse)]
  refine (covers_passes hg (j + 1)).1.ext (covers_passes hg j).1 (fun b => ?_) (fun b => ?_)
  · ext x
    rw [mem_top_passes hg (Nat.le_succ_of_le hj.le), mem_top_passes hg hj.le]
  · ext x
    rw [mem_bottom_passes hg (Nat.lt_succ_of_lt hj), mem_bottom_passes hg hj]

end LiveSets

namespace FlowGraph

open LiveSets

/-- **The live sets take at most two passes more than there are blocks.**  For every flow graph of a
program, the loop that starts with empty sets and makes passes until one finds nothing to change
comes to its end, in exactly one way: with the computed sets, after the recorded number of passes;
and this number is at most the number of blocks plus two. -/
theorem liveness_passes_le {is : List Instr} {gs : List FlowGraph} {g : FlowGraph}
    (hgs : ofInstrs is = .ok gs) (hg : g ∈ gs) :
    (∀ fixed passes, Converges g g.defUse (allEmpty g.size) fixed passes ↔
      fixed = g.liveness.sets ∧ passes = g.liveness.passes) ∧
    g.liveness.passes ≤ g.size + 2 := by
  have hsettled := pass_passes (edgesInRange_of_mem hgs hg) (Nat.lt_succ_self g.size)
  have hbudget : g.size + 1 < g.passBudget := by
    unfold passBudget
    omega
  obtain ⟨hends, hle⟩ := converges_iterate (sized_allEmpty g) hsettled hbudget
  refine ⟨fun fixed passes => ⟨fun h => h.unique hends, ?_⟩, hle⟩
  rintro ⟨rfl, rfl⟩
  exact hends

/-- The second crossing procedure is one block that reads a symbol and goes back to itself.  The
first pass puts the symbol at the top of the block, the second at the bottom, and the third finds
nothing to change: all the passes that the bound allows. -/
theorem liveness_passes_le_crossing :
    crossingAgain.size = 1 ∧ crossingAgain.liveness.passes = 3 ∧
      Converges crossingAgain crossingAgain.defUse (allEmpty 1) crossingAgain.liveness.sets 3 ∧
      crossingWalk.size = 5 ∧ crossingWalk.liveness.passes ≤ 7 := by
  have hagain := liveness_passes_le ofInstrs_crossing (List.mem_cons_of_mem _ List.mem_cons_self)
  have hwalk := liveness_passes_le ofInstrs_crossing List.mem_cons_self
  have hthree : crossingAgain.liveness.passes = 3 := by decide +kernel
  refine ⟨rfl, hthree, ?_, rfl, hwalk.2⟩
  exact (hagain.1 _ _).mpr ⟨rfl, hthree.symm⟩

end FlowGraph

end RegAlloc
