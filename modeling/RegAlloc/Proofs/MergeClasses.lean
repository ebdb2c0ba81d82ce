import RegAlloc.Proofs.ColoringCorrectness

/-!
# The classes that merges form

Nodes with the same representative form a class, and the nodes of a class share one register.  This
file says why they may, and why they should: **no two of them interfere, and moves join them.**

That no conflict lies inside a class, and which classes conflict, is the quotient law of the
reduction.  Moves are another matter.  A merge hands the moves of one node to another, so a merge
that comes later may use a move that no two nodes had in the beginning; and moves are thrown away
all the time, so the moves of the reduced graph say nothing about the original ones.  What holds
throughout is `AlongMoves`: **every move that is left comes from an original one between the two
classes**, and any two nodes of a class are joined by original moves without leaving the class.  The
first part is what carries the second through a merge.

Of the five kinds of step only a merge changes classes, and the others only lose moves; this is
`KeepsClasses`, and every proof below is in two cases.
-/

namespace RegAlloc

namespace InterferenceGraph

variable {origin g h : InterferenceGraph} {u v n x y : NodeId}

/-! ## Changes that leave the classes alone -/

/-- From `g` to `h` no node is merged and no move is added. -/
structure KeepsClasses (g h : InterferenceGraph) : Prop where
  representative : ∀ n, h.representative n = g.representative n
  isMerged : ∀ n, h.isMerged n = g.isMerged n
  moves : ∀ {a b : NodeId}, b ∈ h.moves.neighbors a → b ∈ g.moves.neighbors a

theorem keepsClasses_takeOut (hn : g.isActive n = true) : KeepsClasses g (g.takeOut n) where
  representative := representative_takeOut g n
  isMerged := isMerged_takeOut (lt_size_of_isActive hn) (isMerged_of_isActive hn)
  moves := id

theorem keepsClasses_removeMove (g : InterferenceGraph) (u v : NodeId) :
    KeepsClasses g (g.removeMove u v) where
  representative := (sameNodes_removeMove g u v).representative
  isMerged := (sameNodes_removeMove g u v).isMerged
  moves hb := by
    rw [moves_removeMove, Adjacency.mem_neighbors_unlink] at hb
    exact hb.1

theorem keepsClasses_dropMoves (hg : g.WellFormed) (n : NodeId) :
    KeepsClasses g (g.dropMoves n) where
  representative := (sameNodes_dropMoves g n).representative
  isMerged := (sameNodes_dropMoves g n).isMerged
  moves hb := by
    rw [moves_dropMoves, Adjacency.mem_neighbors_isolate hg.moves] at hb
    exact hb.1

theorem KeepsClasses.trans {g' : InterferenceGraph} (hgh : KeepsClasses g h)
    (hh : KeepsClasses h g') : KeepsClasses g g' where
  representative n := (hh.representative n).trans (hgh.representative n)
  isMerged n := (hh.isMerged n).trans (hgh.isMerged n)
  moves hb := hgh.moves (hh.moves hb)

/-- **Only a merge changes classes,** and only a merge is counted. -/
theorem merge_or_keepsClasses {k : Nat} {r : Reduction} {step : Step} (hg : r.graph.WellFormed)
    (hs : step.Allowed k r.graph) :
    (∃ u v, step = .merge u v) ∨
      KeepsClasses r.graph (r.apply step).graph ∧ (r.apply step).merges = r.merges := by
  cases hs with
  | simplify active unmarked low => exact Or.inr ⟨keepsClasses_takeOut active, rfl⟩
  | constrain left right move conflict => exact Or.inr ⟨keepsClasses_removeMove r.graph _ _, rfl⟩
  | merge left right move free safe => exact Or.inl ⟨_, _, rfl⟩
  | freeze active marked low stuck => exact Or.inr ⟨keepsClasses_dropMoves hg _, rfl⟩
  | @spill n active high stuck =>
      refine Or.inr ⟨(keepsClasses_dropMoves hg n).trans (keepsClasses_takeOut ?_), rfl⟩
      rw [(sameNodes_dropMoves r.graph n).isActive]
      exact active

/-! ## Classes and moves -/

/-- Nodes `x` and `y` are joined by moves of `origin` between nodes of one class of `g`. -/
def JoinedInClass (origin g : InterferenceGraph) : NodeId → NodeId → Prop :=
  Relation.ReflTransGen fun a b =>
    b ∈ origin.moves.neighbors a ∧ g.representative a = g.representative b

/-- **Merges went along moves.** -/
structure AlongMoves (origin g : InterferenceGraph) : Prop where
  /-- Every move comes from an original one between the classes of its ends, -/
  inherited : ∀ {a b : NodeId}, b ∈ g.moves.neighbors a →
    ∃ x y, y ∈ origin.moves.neighbors x ∧ g.representative x = a ∧ g.representative y = b
  /-- and the nodes of a class are joined by original moves. -/
  joined : ∀ {x y : NodeId}, g.representative x = g.representative y → JoinedInClass origin g x y

/-- Nodes that are joined stay so while classes grow. -/
theorem JoinedInClass.mono (hxy : JoinedInClass origin g x y)
    (hgh : ∀ a b, g.representative a = g.representative b →
      h.representative a = h.representative b) : JoinedInClass origin h x y :=
  Relation.ReflTransGen.mono (fun a b hab => ⟨hab.1, hgh a b hab.2⟩) _ _ hxy

theorem JoinedInClass.symm (horigin : origin.WellFormed) (hxy : JoinedInClass origin g x y) :
    JoinedInClass origin g y x := by
  induction hxy with
  | refl => exact .refl
  | tail _ hab ih => exact .head ⟨horigin.moves.symm hab.1, hab.2.symm⟩ ih

theorem AlongMoves.of_untouched (hg : g.Untouched) : AlongMoves g g := by
  have hrep := hg.representative
  refine ⟨fun {a b} hb => ⟨a, b, hb, hrep a, hrep b⟩, fun {x y} hxy => ?_⟩
  rw [hrep, hrep] at hxy
  subst hxy
  exact Relation.ReflTransGen.refl

theorem AlongMoves.keep (hm : AlongMoves origin g) (hgh : KeepsClasses g h) :
    AlongMoves origin h where
  inherited hb := by
    obtain ⟨x, y, hy, hx, hy'⟩ := hm.inherited (hgh.moves hb)
    exact ⟨x, y, hy, (hgh.representative x).trans hx, (hgh.representative y).trans hy'⟩
  joined {x y} hxy := by
    rw [hgh.representative, hgh.representative] at hxy
    refine (hm.joined hxy).mono fun a b hab => ?_
    rw [hgh.representative, hgh.representative, hab]

/-- **A merge along a move keeps the classes joined:** the move comes from an original one, which
joins the two classes that become one. -/
theorem AlongMoves.merge (hm : AlongMoves origin g) (horigin : origin.WellFormed)
    (hg : g.WellFormed) (hf : g.MergeForest) (hu : g.isActive u = true) (hv : g.isActive v = true)
    (hmove : v ∈ g.moves.neighbors u) : AlongMoves origin (g.merge u v) := by
  have huv : u ≠ v := (hg.moves.ne hmove).symm
  have hrep := hf.representative_merge huv (lt_size_of_isActive hv) (isMerged_of_isActive hu)
    (isMerged_of_isActive hv)
  have hgrow : ∀ a b, g.representative a = g.representative b →
      (g.merge u v).representative a = (g.merge u v).representative b := by
    intro a b hab
    rw [hrep, hrep, hab]
  -- from the class of `u` to that of `v`, over the original of the move
  have hcross : ∀ {x y}, g.representative x = u → g.representative y = v →
      JoinedInClass origin (g.merge u v) x y := by
    intro x y hx hy
    obtain ⟨p, q, hpq, hp, hq⟩ := hm.inherited hmove
    have hstep : (g.merge u v).representative p = (g.merge u v).representative q := by
      rw [hrep, hrep, hp, hq, Adjacency.rename_self, Adjacency.rename_of_ne huv]
    have hleft := (hm.joined (hx.trans hp.symm)).mono hgrow
    have hright := (hm.joined (hq.trans hy.symm)).mono hgrow
    exact (hleft.tail ⟨hpq, hstep⟩).trans hright
  constructor
  · intro a b hb
    rw [moves_merge huv,
      Adjacency.mem_neighbors_merge hg.moves huv (hg.moves_size ▸ lt_size_of_isActive hu)] at hb
    obtain ⟨-, a', b', hb, rfl, rfl⟩ := hb
    obtain ⟨x, y, hy, rfl, rfl⟩ := hm.inherited hb
    exact ⟨x, y, hy, hrep x, hrep y⟩
  · intro x y hxy
    rw [hrep, hrep] at hxy
    rcases Adjacency.rename_eq_rename hxy with he | ⟨hx, hy⟩ | ⟨hx, hy⟩
    · exact (hm.joined he).mono hgrow
    · exact hcross hx hy
    · exact (hcross hy hx).symm horigin

end InterferenceGraph

/-! ## Whole runs -/

namespace Reduction

open InterferenceGraph

variable {origin : InterferenceGraph} {k : Nat} {policy : SpillPolicy} {r : Reduction} {step : Step}

/-- Merges went along moves, and they were counted. -/
structure MergesWell (origin : InterferenceGraph) (r : Reduction) : Prop where
  alongMoves : AlongMoves origin r.graph
  merges : r.merges = r.graph.mergedNodes.card

theorem MergesWell.start (hg : origin.Fresh) (costs : SpillCosts) :
    (start origin costs).MergesWell origin where
  alongMoves := AlongMoves.of_untouched hg.untouched
  merges := by
    have hforest := MergeForest.of_untouched hg.untouched
    refine (Finset.card_eq_zero.mpr (Finset.eq_empty_of_forall_notMem fun n hn => ?_)).symm
    obtain ⟨m, hm⟩ := (hforest.merged_iff n).mp (mem_mergedNodes.mp hn)
    cases (hg.untouched.mergedInto? n).symm.trans hm

theorem MergesWell.apply (hr : r.MergesWell origin) (horigin : origin.WellFormed)
    (htracks : r.Tracks origin k) (hs : step.Allowed k r.graph) :
    (r.apply step).MergesWell origin := by
  rcases merge_or_keepsClasses htracks.wellFormed hs with ⟨u, v, rfl⟩ | ⟨hkeep, hmerges⟩
  · cases hs with
    | merge left right move free safe =>
        have huv : u ≠ v := (htracks.wellFormed.moves.ne move).symm
        refine ⟨hr.alongMoves.merge horigin htracks.wellFormed htracks.forest left right move, ?_⟩
        show r.merges + 1 = (r.graph.merge u v).mergedNodes.card
        rw [MergeForest.card_mergedNodes_merge huv (lt_size_of_isActive right)
          (isMerged_of_isActive right), hr.merges]
  · refine ⟨hr.alongMoves.keep hkeep, ?_⟩
    rw [hmerges, hr.merges, mergedNodes_congr hkeep.isMerged]

theorem MergesWell.reduce (hg : origin.Fresh) (k : Nat) (policy : SpillPolicy)
    (costs : SpillCosts) : (Reduction.reduce k policy origin costs).2.MergesWell origin :=
  Tracks.run_induction (fun htracks hr hs => hr.apply hg.wellFormed htracks hs) _
    (Tracks.start hg k costs) (MergesWell.start hg costs)

end Reduction

namespace ColoringRun

open InterferenceGraph

variable {g : InterferenceGraph}

/-- **Merging is sound over whole runs.**  In every colouring of a fresh graph: the nodes of a class
are joined by moves of the given graph that do not leave the class; no two of them interfere in the
given graph; two nodes interfere in the reduced graph if and only if a conflict of the given graph
joins the classes they stand for; the symbols of a class have the same register, or none has one;
and the merges that are reported are as many as the nodes that were merged. -/
theorem merge_classes_sound (hg : g.Fresh) (k : Nat) (policy : SpillPolicy) (costs : SpillCosts) :
    let run := color k policy g costs
    let rep := run.graph.representative
    (∀ x y, rep x = rep y →
      Relation.ReflTransGen (fun a b => g.hasMove a b = true ∧ rep a = rep b) x y) ∧
    (∀ x y, rep x = rep y → g.interferes x y = false) ∧
    (∀ a b, run.graph.interferes a b = true ↔
      ∃ x y, g.interferes x y = true ∧ rep x = a ∧ rep y = b) ∧
    (∀ x y s t, rep x = rep y → g.symbol? x = some s → g.symbol? y = some t →
      run.result.color? s = run.result.color? t) ∧
    run.result.merges = run.graph.mergedNodes.card := by
  intro run rep
  have htracks := tracks_color k policy costs hg
  have hmerges := Reduction.MergesWell.reduce hg k policy costs
  have hserves := serves_color k policy costs hg
  refine ⟨fun x y hxy => ?_, fun x y hxy => ?_, fun a b => ?_, fun x y s t hxy hx hy => ?_,
    hmerges.merges⟩
  · refine Relation.ReflTransGen.mono (fun a b hab => ?_) _ _ (hmerges.alongMoves.joined hxy)
    exact ⟨decide_eq_true hab.1, hab.2⟩
  · -- a conflict inside a class would be one of the representative with itself
    rw [Bool.eq_false_iff]
    intro hconf
    have hself := (htracks.quotient _ _).mpr ⟨x, y, interferes_iff.mp hconf, rfl, rfl⟩
    exact htracks.wellFormed.conflicts.ne hself hxy.symm
  · simp only [interferes_iff]
    exact htracks.quotient a b
  · rw [color?_color k policy costs hg hx, color?_color k policy costs hg hy,
      ← hserves.color?_representative x, ← hserves.color?_representative y]
    exact congrArg _ hxy

end ColoringRun

/-- A chain of two copies: moves join the first two nodes and the last two, and nothing
interferes. -/
def InterferenceGraph.copyChain : InterferenceGraph :=
  (Edit.performAll? ∅ [.addNode 4, .addNode 5, .addNode 6, .addMove 0 1, .addMove 1 2]).getD ∅

theorem InterferenceGraph.fresh_copyChain : InterferenceGraph.copyChain.Fresh :=
  ⟨[.addNode 4, .addNode 5, .addNode 6, .addMove 0 1, .addMove 1 2], by decide, by decide +kernel⟩

/-- The second merge uses a move that the first one handed on: no move joins the ends of the chain,
and yet the whole chain becomes one class, joined over its middle. -/
theorem ColoringRun.merge_classes_sound_copyChain :
    let run := ColoringRun.color 2 .firstFound InterferenceGraph.copyChain SpillCosts.unknown
    run.steps = [.merge 0 1, .merge 0 2, .simplify 0] ∧
      InterferenceGraph.copyChain.hasMove 0 2 = false ∧
      run.graph.representative 0 = run.graph.representative 2 ∧
      Relation.ReflTransGen (fun a b => InterferenceGraph.copyChain.hasMove a b = true ∧
        run.graph.representative a = run.graph.representative b) 0 2 ∧
      run.result.color? 4 = run.result.color? 6 ∧ run.graph.mergedNodes.card = 2 := by
  intro run
  have hclass : run.graph.representative 0 = run.graph.representative 2 := by decide +kernel
  obtain ⟨hjoined, -, -, hcolor, hmerges⟩ := ColoringRun.merge_classes_sound
    InterferenceGraph.fresh_copyChain 2 .firstFound SpillCosts.unknown
  refine ⟨by decide +kernel, by decide +kernel, hclass, hjoined 0 2 hclass,
    hcolor 0 2 4 6 hclass (by decide +kernel) (by decide +kernel), ?_⟩
  rw [show run.graph.mergedNodes.card = run.result.merges from hmerges.symm]
  decide +kernel

end RegAlloc
