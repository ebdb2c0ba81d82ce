import Mathlib.Data.Set.Card
import RegAlloc.Proofs.LivenessSolution

/-!
# The computed live sets are the least solution

`Liveness.violation?` checks given live sets against the equations.  Sets that pass need not be the
computed ones: where control goes round in a circle, a symbol that nobody reads may be carried along
in all sets of the circle, each justified by the next.  What can be said is that the computed sets
are the **least** ones that pass, and that they are the **only** ones where there is no circle.

Both halves compare a solution with walks (`FlowGraph.LiveOnEntry`).  A solution has room for every
walk, by induction on the walk.  Conversely the presence of a symbol in a solution is pushed along
the successors, block after block, and unless the blocks form a circle this comes to a block that
reads the symbol (`wellFounded_successors`).
-/

namespace RegAlloc

namespace FlowGraph

variable {g : FlowGraph} {b c : BlockId}

/-- No block leads back to itself. -/
def Acyclic (g : FlowGraph) : Prop :=
  ∀ b, ¬ Relation.TransGen (fun a c => c ∈ g.successors a) b b

/-- The blocks that control can come to after `b`. -/
def ahead (g : FlowGraph) (b : BlockId) : Set BlockId :=
  {c | Relation.TransGen (fun a c => c ∈ g.successors a) b c}

theorem finite_ahead (hg : g.EdgesInRange) (b : BlockId) : (g.ahead b).Finite := by
  refine (Set.finite_lt_nat g.size).subset fun c hc => ?_
  obtain ⟨a, -, hac⟩ := Relation.TransGen.tail'_iff.mp hc
  exact hg.target_lt hac

/-- Fewer blocks lie ahead of a successor than of the block: the successor itself is left behind. -/
theorem ncard_ahead_lt (hg : g.EdgesInRange) (hacyclic : g.Acyclic) (hc : c ∈ g.successors b) :
    (g.ahead c).ncard < (g.ahead b).ncard := by
  refine Set.ncard_lt_ncard ⟨fun d hd => ?_, fun hsub => ?_⟩ (finite_ahead hg b)
  · exact Relation.TransGen.head hc hd
  · exact hacyclic c (hsub (Relation.TransGen.single hc))

/-- In a graph without circles, going on to a successor comes to an end. -/
theorem wellFounded_successors (hg : g.EdgesInRange) (hacyclic : g.Acyclic) :
    WellFounded fun c b => c ∈ g.successors b :=
  Subrelation.wf (ncard_ahead_lt hg hacyclic) (measure fun b => (g.ahead b).ncard).wf

/-- A graph whose edges all lead to later blocks has no circles. -/
theorem acyclic_of_forward (hg : ∀ e ∈ g.edges, e.1 < e.2) : g.Acyclic := by
  have hlt : ∀ {b c}, Relation.TransGen (fun a c => c ∈ g.successors a) b c → b < c := by
    intro b c h
    induction h with
    | single hc => exact hg _ (mem_successors.mp hc)
    | tail _ hc ih => exact ih.trans (hg _ (mem_successors.mp hc))
  exact fun b h => Nat.lt_irrefl b (hlt h)

end FlowGraph

namespace Liveness

open FlowGraph

variable {g : FlowGraph} {l l' : Liveness} {b : BlockId} {x : SymbolId}

/-! ## Solutions -/

/-- **The sets satisfy the equations** at both ends of every block. -/
structure Solves (g : FlowGraph) (l : Liveness) : Prop where
  bottom : ∀ b < g.size, ∀ x, x ∈ l.liveOut b ↔ ∃ c ∈ g.successors b, x ∈ l.liveIn c
  top : ∀ b < g.size, ∀ x, x ∈ l.liveIn b ↔ g.ReadsFirst x b ∨ (g.Keeps x b ∧ x ∈ l.liveOut b)

theorem isStableAt_iff (hdu : l.defUse = g.defUse) :
    l.isStableAt g b = true ↔
      (∀ x, x ∈ l.liveOut b ↔ ∃ c ∈ g.successors b, x ∈ l.liveIn c) ∧
        ∀ x, x ∈ l.liveIn b ↔ g.ReadsFirst x b ∨ (g.Keeps x b ∧ x ∈ l.liveOut b) := by
  unfold isStableAt
  rw [Bool.and_eq_true, beq_iff_eq, beq_iff_eq, hdu]
  constructor
  · rintro ⟨hout, hin⟩
    refine ⟨fun x => ?_, fun x => ?_⟩
    · rw [hout, mem_bottomEquation]
      rfl
    · rw [hin, mem_topEquation, ← hout]
  · rintro ⟨hout, hin⟩
    have hbottom : l.liveOut b = g.bottomEquation l.sets b := by
      ext x
      rw [hout, mem_bottomEquation]
      rfl
    refine ⟨hbottom, ?_⟩
    ext x
    rw [hin, mem_topEquation, ← hbottom]

/-- **The check accepts the solutions** and nothing else. -/
theorem violation?_eq_none (hdu : l.defUse = g.defUse) : l.violation? g = none ↔ l.Solves g := by
  rw [violation?, List.find?_eq_none]
  simp only [List.mem_range, Bool.not_eq_true', Bool.not_eq_false, isStableAt_iff hdu]
  constructor
  · intro h
    exact ⟨fun b hb => (h b hb).1, fun b hb => (h b hb).2⟩
  · intro h b hb
    exact ⟨h.bottom b hb, h.top b hb⟩

theorem solves_liveness (hg : g.EdgesInRange) : g.liveness.Solves g where
  bottom _ _ _ := mem_liveOut hg
  top _ _ _ := by rw [mem_liveIn_iff hg, mem_liveOut_iff hg, liveOnEntry_iff]

/-! ## Leastness and uniqueness -/

/-- On every block of the graph, the sets of `l` are contained in those of `l'`. -/
def Within (g : FlowGraph) (l l' : Liveness) : Prop :=
  ∀ b < g.size, (∀ x ∈ l.liveIn b, x ∈ l'.liveIn b) ∧ ∀ x ∈ l.liveOut b, x ∈ l'.liveOut b

/-- On every block of the graph, the two have the same sets. -/
def Agree (g : FlowGraph) (l l' : Liveness) : Prop :=
  ∀ b < g.size, l.liveIn b = l'.liveIn b ∧ l.liveOut b = l'.liveOut b

instance : Decidable (Within g l l') :=
  inferInstanceAs (Decidable (∀ b < g.size, (∀ x ∈ (l.liveIn b).toList, x ∈ l'.liveIn b) ∧
    ∀ x ∈ (l.liveOut b).toList, x ∈ l'.liveOut b))

instance : Decidable (Agree g l l') :=
  inferInstanceAs (Decidable (∀ b < g.size, l.liveIn b = l'.liveIn b ∧ l.liveOut b = l'.liveOut b))

theorem Within.antisymm (h : Within g l l') (h' : Within g l' l) : Agree g l l' := by
  intro b hb
  refine ⟨?_, ?_⟩
  · ext x
    exact ⟨(h b hb).1 x, (h' b hb).1 x⟩
  · ext x
    exact ⟨(h b hb).2 x, (h' b hb).2 x⟩

/-- Of two solutions, the one whose top sets are contained in those of the other is contained in
it. -/
theorem Solves.within (hl : l.Solves g) (hl' : l'.Solves g) (hg : g.EdgesInRange)
    (htop : ∀ b < g.size, ∀ x ∈ l.liveIn b, x ∈ l'.liveIn b) : Within g l l' := by
  refine fun b hb => ⟨htop b hb, fun x hx => ?_⟩
  obtain ⟨c, hc, hx⟩ := (hl.bottom b hb x).mp hx
  exact (hl'.bottom b hb x).mpr ⟨c, hc, htop c (hg.target_lt hc) x hx⟩

/-- A solution has room for every walk. -/
theorem Solves.mem_of_liveOnEntry (hl : l.Solves g) (hg : g.EdgesInRange)
    (h : g.LiveOnEntry x b) : x ∈ l.liveIn b := by
  induction h with
  | reads h => exact (hl.top _ h.lt_size x).mpr (Or.inl h)
  | keeps hkeeps hc _ ih =>
      have hb := hg.source_lt hc
      exact (hl.top _ hb x).mpr (Or.inr ⟨hkeeps, (hl.bottom _ hb x).mpr ⟨_, hc, ih⟩⟩)

/-- Without circles, what a solution holds is justified by a walk. -/
theorem Solves.liveOnEntry_of_mem (hl : l.Solves g) (hg : g.EdgesInRange) (hacyclic : g.Acyclic)
    (hb : b < g.size) (hx : x ∈ l.liveIn b) : g.LiveOnEntry x b := by
  -- by the blocks ahead, which are fewer at every successor
  induction b using (wellFounded_successors hg hacyclic).induction with
  | _ b ih =>
      rcases (hl.top b hb x).mp hx with hreads | ⟨hkeeps, hout⟩
      · exact LiveOnEntry.reads hreads
      · obtain ⟨c, hc, hx⟩ := (hl.bottom b hb x).mp hout
        exact LiveOnEntry.keeps hkeeps hc (ih c hc (hg.target_lt hc) hx)

/-- **The computed sets are the least solution.** -/
theorem Solves.liveness_within (hl : l.Solves g) (hg : g.EdgesInRange) :
    Within g g.liveness l := by
  refine (solves_liveness hg).within hl hg fun b _ x hx => ?_
  exact hl.mem_of_liveOnEntry hg ((mem_liveIn_iff hg).mp hx)

/-- **Without circles they are the only one.** -/
theorem Solves.agree_liveness (hl : l.Solves g) (hg : g.EdgesInRange) (hacyclic : g.Acyclic) :
    Agree g l g.liveness := by
  refine Within.antisymm (hl.within (solves_liveness hg) hg fun b hb x hx => ?_)
    (hl.liveness_within hg)
  exact (mem_liveIn_iff hg).mpr (hl.liveOnEntry_of_mem hg hacyclic hb hx)

/-! ## Edited sets -/

/-- Add a symbol to both sets of some blocks. -/
def carry (x : SymbolId) (bs : List BlockId) (l : Liveness) : Liveness :=
  bs.foldl (fun l b => (l.modify .top b (·.insert x)).modify .bottom b (·.insert x)) l

theorem defUse_liveness (g : FlowGraph) : g.liveness.defUse = g.defUse := rfl

theorem defUse_modify (l : Liveness) (e : BlockEnd) (b : BlockId) (f : IdSet → IdSet) :
    (l.modify e b f).defUse = l.defUse := rfl

theorem defUse_carry (x : SymbolId) (bs : List BlockId) (l : Liveness) :
    (l.carry x bs).defUse = l.defUse := by
  induction bs generalizing l with
  | nil => rfl
  | cons b bs ih => exact ih _

end Liveness

namespace FlowGraph

open Liveness

/-- **The check accepts the computed live sets, and nothing smaller.**  For every flow graph of a
program and any live sets for it, with what its blocks read and write: the computed sets pass; if
the given ones pass, they contain the computed ones, and are equal to them if no block leads back to
itself; hence sets that lack something of the computed ones and hold nothing else are reported. -/
theorem liveness_least {is : List Instr} {gs : List FlowGraph} {g : FlowGraph}
    (hgs : ofInstrs is = .ok gs) (hg : g ∈ gs) (l : Liveness) (hdu : l.defUse = g.defUse) :
    g.liveness.violation? g = none ∧
    (l.violation? g = none →
      Within g g.liveness l ∧ (g.Acyclic → Agree g l g.liveness)) ∧
    (Within g l g.liveness → ¬ Agree g l g.liveness → ∃ b, l.violation? g = some b) := by
  have hrange := edgesInRange_of_mem hgs hg
  refine ⟨(violation?_eq_none (defUse_liveness g)).mpr (solves_liveness hrange), fun hpass => ?_,
    fun hwithin hdiffer => ?_⟩
  · have hl := (violation?_eq_none hdu).mp hpass
    exact ⟨hl.liveness_within hrange, hl.agree_liveness hrange⟩
  · rw [← Option.isSome_iff_exists, ← Option.ne_none_iff_isSome]
    intro hpass
    have hl := (violation?_eq_none hdu).mp hpass
    exact hdiffer (hwithin.antisymm (hl.liveness_within hrange))

/-- A procedure that skips a copy, or makes it, and ends. -/
def skipping : List Instr :=
  [.label "skip" (some ⟨0, [], none⟩), .branch (.symbol 1) "end", .copy 2 (.symbol 3),
    .label "end" none, .ret (some (.symbol 2))]

/-- Its control flow. -/
def skippingFlow : FlowGraph := ofRegion ⟨0, "skip", ⟨0, [], none⟩, skipping⟩

/-- In the first crossing procedure nobody reads symbol `3`.  Sets that carry it round the loop all
the same pass, and they contain the computed ones.  The computed ones without symbol `1` at the top
of the loop are reported.  Where every edge leads onwards, no sets pass but the computed ones. -/
theorem liveness_least_crossing :
    ((crossingWalk.liveness.carry 3 [0, 1, 2]).violation? crossingWalk = none ∧
      3 ∈ (crossingWalk.liveness.carry 3 [0, 1, 2]).liveIn 1 ∧
      3 ∉ crossingWalk.liveness.liveIn 1 ∧
      Within crossingWalk crossingWalk.liveness (crossingWalk.liveness.carry 3 [0, 1, 2])) ∧
    (∃ b, (crossingWalk.liveness.modify .top 1 (·.erase 1)).violation? crossingWalk = some b) ∧
    ∀ l : Liveness, l.defUse = skippingFlow.defUse → l.violation? skippingFlow = none →
      Agree skippingFlow l skippingFlow.liveness := by
  have hwalk : crossingWalk ∈ [crossingWalk, crossingAgain] := List.mem_cons_self
  have hpass : (crossingWalk.liveness.carry 3 [0, 1, 2]).violation? crossingWalk = none := by
    decide +kernel
  refine ⟨⟨hpass, by decide +kernel, by decide +kernel, ?_⟩, ?_, fun l hdu hl => ?_⟩
  · have hdu := (defUse_carry 3 [0, 1, 2] crossingWalk.liveness).trans (defUse_liveness _)
    exact ((liveness_least ofInstrs_crossing hwalk _ hdu).2.1 hpass).1
  · have hdu := (defUse_modify crossingWalk.liveness .top 1 (·.erase 1)).trans (defUse_liveness _)
    exact (liveness_least ofInstrs_crossing hwalk _ hdu).2.2 (by decide +kernel)
      (by decide +kernel)
  · have hflow : ofInstrs skipping = .ok [skippingFlow] := rfl
    exact ((liveness_least hflow List.mem_cons_self l hdu).2.1 hl).2
      (acyclic_of_forward (by decide))

end FlowGraph

end RegAlloc
