import Mathlib.Order.UpperLower.Basic
import RegAlloc.Proofs.ColoringCorrectness

/-!
# No register is skipped

A node gets the **lowest** register that no neighbour holds at its turn.  So whoever holds register
`c` has, for every register below `c`, a neighbour that holds it, and the registers in use are the
first so many.

At its turn a node looks at the conflicts between representatives and at the registers given out so
far.  That the same can be said at the end, and of the given graph, takes three facts: a register
that was given is never taken back (`Serves.color?_serve`), a node holds the register of its
representative, and a conflict between representatives comes from one of the given graph between
their classes.
-/

namespace RegAlloc

namespace Selection

open InterferenceGraph Reduction

variable {origin g : InterferenceGraph} {k c d : Nat} {s : Selection} {n m : NodeId}
variable {served : List NodeId} {r : Reduction}

/-- **Every register below that of a node** is held by a neighbour of the node that stands for
it. -/
def Gapless (g : InterferenceGraph) (s : Selection) : Prop :=
  ∀ n c, s.color? n = some c → ∀ d < c, ∃ m ∈ g.neighbors (g.representative n), s.color? m = some d

theorem gapless_start (g : InterferenceGraph) (size : Nat) : (start size).Gapless g := by
  intro n c hc
  rw [color?_start] at hc
  exact absurd hc (by simp)

section Serve

variable (hs : Serves k g served s) (hf : g.MergeForest) (hn : n < g.size)
variable (hu : g.isMerged n = false) (hnew : n ∉ served)

include hs hf hn hu hnew

/-- **A register that was given is never taken back.** -/
theorem Serves.color?_serve (hm : s.color? m = some d) :
    (Selection.serve k g s n).color? m = some d := by
  rw [Selection.serve]
  cases hc : s.free? k g n with
  | none => exact hm
  | some c =>
      show (s.give c (n :: g.members n)).color? m = some d
      -- a class that holds a register has been served already
      have hother : g.representative m ≠ n := fun e => hnew (e ▸ hs.served_of_color? hm)
      rw [hs.color?_give_class hf hn hu, if_neg hother]
      exact hm

/-- Serving one more node leaves no gap. -/
theorem Gapless.serve (hgap : s.Gapless g) : (Selection.serve k g s n).Gapless g := by
  have hkeep : ∀ {m d}, s.color? m = some d → (Selection.serve k g s n).color? m = some d :=
    fun hm => hs.color?_serve hf hn hu hnew hm
  intro x e hx d hd
  -- it is enough to find the holder before the turn
  suffices hholder : ∃ m ∈ g.neighbors (g.representative x), s.color? m = some d by
    obtain ⟨m, hm, hmd⟩ := hholder
    exact ⟨m, hm, hkeep hmd⟩
  rw [Selection.serve] at hx
  cases hc : s.free? k g n with
  | none =>
      rw [hc] at hx
      exact hgap x e hx d hd
  | some c =>
      rw [hc] at hx
      simp only [hs.color?_give_class hf hn hu] at hx
      split at hx
      · rename_i hxn
        cases hx
        rw [hxn]
        exact mem_taken.mp ((free?_eq_some hc).2.2 d hd)
      · exact hgap x e hx d hd

end Serve

/-- **The service of a whole stack leaves no gap.** -/
theorem gapless_ofStack (hr : r.Tracks origin k) :
    (ofStack k r.graph r.stack).Gapless r.graph := by
  refine ofStack_induction
    (P := fun served s => Serves k r.graph served s ∧ s.Gapless r.graph)
    ⟨Serves.start k r.graph, gapless_start r.graph r.graph.size⟩ ?_
    (List.append_nil r.stack).symm |>.2
  rintro served n below hstack ⟨hs, hgap⟩
  obtain ⟨hn, hu, hnew, -⟩ := turn_of_stacked hr.stacked hstack
  exact ⟨hs.serve hr.wellFormed hr.forest hr.quotient hn hu hnew,
    hgap.serve hs hr.forest hn hu hnew⟩

end Selection

namespace ColoringRun

open InterferenceGraph

variable {g : InterferenceGraph}

/-- Below the register of a symbol, every register belongs to a symbol that contends with its
class. -/
theorem exists_color_below (hg : g.Fresh) (k : Nat) (policy : SpillPolicy) (costs : SpillCosts)
    {s : SymbolId} {c d : Nat} (hc : (color k policy g costs).result.color? s = some c)
    (hd : d < c) :
    ∃ n x y t, g.symbol? n = some s ∧
      (color k policy g costs).graph.representative x =
        (color k policy g costs).graph.representative n ∧
      g.interferes x y = true ∧ g.symbol? y = some t ∧
      (color k policy g costs).result.color? t = some d := by
  have htracks := tracks_color k policy costs hg
  have hserves := serves_color k policy costs hg
  obtain ⟨n, hn, hnc⟩ := (color?_result _ htracks.wellFormed).mp hc
  rw [symbol?_color k policy costs hg] at hn
  obtain ⟨m, hm, hmd⟩ := Selection.gapless_ofStack htracks n c hnc d hd
  -- the conflict between the representatives comes from one between their classes
  obtain ⟨x, y, hy, hx, rfl⟩ := (htracks.quotient _ _).mp hm
  obtain ⟨t, ht⟩ := symbol?_eq_some_of_lt (hg.wellFormed.lt_size_of_neighbor hy)
  refine ⟨n, x, y, t, hn, hx, interferes_iff.mpr hy, ht, ?_⟩
  rw [color?_color k policy costs hg ht, ← hserves.color?_representative]
  exact hmd

/-- **No register is skipped.**  In every colouring of a fresh graph, if a symbol has register `c`,
then for each register below `c` there is a symbol that has it and whose node interferes, in the
given graph, with a node of the same class; hence the registers in use are the first so many. -/
theorem registers_initial_segment (hg : g.Fresh) (k : Nat) (policy : SpillPolicy)
    (costs : SpillCosts) :
    let run := color k policy g costs
    let rep := run.graph.representative
    (∀ s c, run.result.color? s = some c → ∀ d < c, ∃ n x y t, g.symbol? n = some s ∧
      rep x = rep n ∧ g.interferes x y = true ∧ g.symbol? y = some t ∧
      run.result.color? t = some d) ∧
    ∃ m ≤ k, ∀ c, (∃ s, run.result.color? s = some c) ↔ c < m := by
  intro run rep
  refine ⟨fun s c hc d hd => exists_color_below hg k policy costs hc hd, ?_⟩
  have hlower : IsLowerSet {c | ∃ s, run.result.color? s = some c} := by
    rintro c d hdc ⟨s, hc⟩
    rcases Nat.eq_or_lt_of_le hdc with rfl | hlt
    · exact ⟨s, hc⟩
    · obtain ⟨-, -, -, t, -, -, -, -, ht⟩ := exists_color_below hg k policy costs hc hlt
      exact ⟨t, ht⟩
  have hunused : ¬ ∃ s, run.result.color? s = some k := by
    rintro ⟨s, hs⟩
    exact absurd (color_lt k policy costs hg hs) (Nat.lt_irrefl k)
  rcases hlower.eq_univ_or_Iio with hall | ⟨m, hm⟩
  · exact absurd (Set.eq_univ_iff_forall.mp hall k) hunused
  · have hiff : ∀ c, (∃ s, run.result.color? s = some c) ↔ c < m := Set.ext_iff.mp hm
    exact ⟨m, Nat.not_lt.mp fun hlt => hunused ((hiff k).mpr hlt), hiff⟩

/-- In the torn chain the middle node interferes with nobody.  It has register `1` all the same,
because it was merged with the first node, and register `0` belongs to the last one. -/
theorem registers_initial_segment_tornChain :
    let run := color 3 .lowestCost tornChain SpillCosts.unknown
    (∀ m < 3, tornChain.interferes 1 m = false) ∧ run.result.color? 5 = some 1 ∧
      (∃ n x y t, tornChain.symbol? n = some 5 ∧
        run.graph.representative x = run.graph.representative n ∧
        tornChain.interferes x y = true ∧ tornChain.symbol? y = some t ∧
        run.result.color? t = some 0) ∧
      ∃ m ≤ 3, ∀ c, (∃ s, run.result.color? s = some c) ↔ c < m := by
  intro run
  have hcolor : run.result.color? 5 = some 1 := by decide +kernel
  obtain ⟨hbelow, hsegment⟩ :=
    registers_initial_segment fresh_tornChain 3 .lowestCost SpillCosts.unknown
  exact ⟨by decide +kernel, hcolor, hbelow 5 1 hcolor 0 Nat.zero_lt_one, hsegment⟩

end ColoringRun

end RegAlloc
