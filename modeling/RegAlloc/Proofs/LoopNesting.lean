import RegAlloc.Proofs.NaturalLoops

/-!
# Loops are nested

Two loops with different headers that share a block which control can reach lie one inside the
other, in reducible and irreducible graphs alike.  So the loops around such a block form a chain, and
depth is the place in that chain.

What makes this work is dominance.  A header dominates every block of its loop, for a path to the
block that missed the header could be continued to the tail without it.  Now let `h` and `k` be
headers of loops that share a block, and let `k` not dominate `h`.  Walks in the loop at `k` then
cannot come through `h`, and from `k` a walk leads to the shared block that does not come through
`h` either; put together, they lead from every block of the loop at `k` to the tail of the loop at
`h`, and the one loop lies in the other (`InLoop.subset`).  Two blocks that dominate each other are
the same, so one of the two ways always works.

The chain is read off the depth-first order, in which no block is dominated by a later one.
-/

namespace RegAlloc

namespace FlowGraph

variable {g : FlowGraph} {a b c h k t : BlockId} {path : List BlockId}

/-! ## Dominance orders the blocks -/

section Order

variable (hg : g.EdgesInRange) (hpos : 0 < g.size)
include hg hpos

theorem position_le_of_dominates {p q : Nat} (ha : g.reversePostOrder[q]? = some a)
    (hb : g.reversePostOrder[p]? = some b) (hab : g.Dominates a b) : q ≤ p := by
  have horder := searchOrder_reversePostOrder hg hpos
  have hdoms := settled_dominatorPositions horder
  exact hdoms.solving.rooted.climbs_le ((horder.climbs_iff hdoms ha hb).mpr hab)

/-- Two blocks that dominate each other are the same. -/
theorem Dominates.antisymm (hab : g.Dominates a b) (hba : g.Dominates b a) (hb : g.Reaches b) :
    a = b := by
  have horder := searchOrder_reversePostOrder hg hpos
  obtain ⟨p, hp⟩ := horder.exists_position hb
  obtain ⟨q, hq⟩ := horder.exists_position (hab.reaches hb)
  have hqp := position_le_of_dominates hg hpos hq hp hab
  have hpq := position_le_of_dominates hg hpos hp hq hba
  obtain rfl := Nat.le_antisymm hqp hpq
  exact Option.some.inj (hq.symm.trans hp)

/-- No block is dominated by one that comes later in the order. -/
theorem pairwise_reversePostOrder :
    g.reversePostOrder.Pairwise fun a b => ¬ g.Dominates b a := by
  refine List.pairwise_iff_getElem.mpr fun p q hp hq hpq hdom => ?_
  have hle := position_le_of_dominates hg hpos (List.getElem?_eq_getElem hq)
    (List.getElem?_eq_getElem hp) hdom
  exact absurd hle (Nat.not_le.mpr hpq)

end Order

/-! ## Walks and dominance -/

/-- A path from the entry that misses `h` goes on along a walk that avoids `h`. -/
theorem EntryPath.exists_missing (hpath : g.EntryPath b path) (hmiss : h ∉ path)
    (hwalk : g.Avoids h b c) : ∃ longer, g.EntryPath c longer ∧ h ∉ longer := by
  induction hwalk generalizing path with
  | here _ => exact ⟨path, hpath, hmiss⟩
  | @step b c d _ hedge hrest ih =>
      refine ih (hpath.step hedge) fun hmem => ?_
      rcases List.mem_cons.mp hmem with heq | hmem
      · exact hrest.source_ne heq.symm
      · exact hmiss hmem

/-- Where a walk that avoids `h` ends in a block that `h` dominates, `h` dominates its start. -/
theorem Dominates.of_avoids (hdom : g.Dominates h t) (hwalk : g.Avoids h b t) :
    g.Dominates h b := by
  intro path hpath
  by_contra hmiss
  obtain ⟨longer, hlonger, hnot⟩ := hpath.exists_missing hmiss hwalk
  exact hnot (hdom longer hlonger)

/-- From a dominator a walk leads to the block that avoids everything not dominated: on a path from
the entry, after the last visit to the dominator. -/
theorem Dominates.avoids (hdom : g.Dominates h b) (hb : g.Reaches b) (hk : ¬ g.Dominates h k) :
    g.Avoids k h b := by
  have hhk : h ≠ k := by
    rintro rfl
    exact hk (dominates_refl g h)
  obtain ⟨path, hpath⟩ := hb.exists_entryPath
  induction hpath with
  | entry =>
      obtain rfl := hdom.eq_entry
      exact .here hhk
  | @step b c path hpath hedge ih =>
      by_cases hhc : h = c
      · subst hhc
        exact .here hhk
      · have hck : c ≠ k := by
          rintro rfl
          exact hk hdom
        exact (ih (hdom.of_successor hhc hedge) hpath.reaches).tail hedge hck

/-! ## One loop inside another -/

/-- **A header dominates its loop.** -/
theorem InLoop.dominates (hin : g.InLoop h b) : g.Dominates h b := by
  obtain ⟨t, ⟨-, -, hdom⟩, hbh | hwalk⟩ := hin
  · subst hbh
    exact dominates_refl g b
  · exact hdom.of_avoids hwalk

theorem InLoop.header (hin : g.InLoop h b) : g.InLoop h h := by
  obtain ⟨t, ht, -⟩ := hin
  exact ⟨t, ht, Or.inl rfl⟩

theorem InLoop.reaches_header (hin : g.InLoop h b) : g.Reaches h := by
  obtain ⟨t, ⟨ht, -, hdom⟩, -⟩ := hin
  exact hdom.reaches ht

/-- **Loops that meet are nested:** if they share a block that control can reach and `k` does not
dominate `h`, then the loop at `k` lies in the loop at `h`. -/
theorem InLoop.subset (hout : g.InLoop h b) (hin : g.InLoop k b) (hb : g.Reaches b)
    (hnot : ¬ g.Dominates k h) (hc : g.InLoop k c) : g.InLoop h c := by
  have hkh : k ≠ h := by
    rintro rfl
    exact hnot (dominates_refl g k)
  have hbh : b ≠ h := by
    rintro rfl
    exact hnot hin.dominates
  -- from the inner header through the shared block to the tail of the outer loop
  obtain ⟨t, ht, hcase⟩ := hout
  have hheader : g.Avoids h k t :=
    (hin.dominates.avoids hb hnot).trans (hcase.resolve_left hbh)
  obtain ⟨tail, ⟨-, hedge, hdom⟩, hck | hwalk⟩ := hc
  · subst hck
    exact ⟨t, ht, Or.inr hheader⟩
  · -- a walk in the inner loop cannot come through the outer header
    have havoids : g.Avoids h c tail :=
      (hwalk.avoids_or_from h).resolve_right fun hthrough => hnot (hdom.of_avoids hthrough)
    exact ⟨t, ht, Or.inr ((havoids.tail hedge hkh).trans hheader)⟩

/-! ## The chain of loops around a block -/

/-- The loop at `inner` lies in the loop at `outer`, whose header is outside of it. -/
def NestedIn (g : FlowGraph) (outer inner : BlockId) : Prop :=
  (∀ c, g.loopNest.holds inner c = true → g.loopNest.holds outer c = true) ∧
    g.loopNest.holds outer outer = true ∧ g.loopNest.holds inner outer = false

section Chain

variable (hg : g.EdgesInRange) (hpos : 0 < g.size)
include hg hpos

theorem holds_header (hholds : g.loopNest.holds h b = true) : g.loopNest.holds h h = true :=
  (holds_loopNest_iff hg hpos).mpr ((holds_loopNest_iff hg hpos).mp hholds).header

theorem nestedIn_of_not_dominates (hout : g.loopNest.holds h b = true)
    (hin : g.loopNest.holds k b = true) (hb : g.Reaches b) (hnot : ¬ g.Dominates k h) :
    g.NestedIn h k := by
  refine ⟨fun c hc => ?_, holds_header hg hpos hout, Bool.eq_false_iff.mpr fun hholds => ?_⟩
  · rw [holds_loopNest_iff hg hpos] at hout hin hc ⊢
    exact hout.subset hin hb hnot hc
  · exact hnot ((holds_loopNest_iff hg hpos).mp hholds).dominates

/-- Different loops that share a block that control can reach are nested one way or the other. -/
theorem nestedIn_or_nestedIn (hhk : h ≠ k) (hh : g.loopNest.holds h b = true)
    (hk : g.loopNest.holds k b = true) (hb : g.Reaches b) : g.NestedIn h k ∨ g.NestedIn k h := by
  by_cases hkh : g.Dominates k h
  · right
    refine nestedIn_of_not_dominates hg hpos hk hh hb fun hdom => ?_
    exact hhk (hdom.antisymm hg hpos hkh ((holds_loopNest_iff hg hpos).mp hk).reaches_header)
  · left
    exact nestedIn_of_not_dominates hg hpos hh hk hb hkh

/-- The headers around a block, in the depth-first order. -/
theorem exists_chain (hb : g.Reaches b) :
    ∃ headers : List BlockId, headers.Nodup ∧
      (∀ h, h ∈ headers ↔ g.loopNest.holds h b = true) ∧ headers.Pairwise g.NestedIn := by
  have horder := searchOrder_reversePostOrder hg hpos
  refine ⟨g.reversePostOrder.filter fun h => g.loopNest.holds h b, horder.nodup.filter _, ?_, ?_⟩
  · intro h
    rw [List.mem_filter]
    refine and_iff_right_of_imp fun hholds => ?_
    exact (horder.mem_iff h).mpr ((holds_loopNest_iff hg hpos).mp hholds).reaches_header
  · refine List.pairwise_filter.mpr ((pairwise_reversePostOrder hg hpos).imp ?_)
    intro outer inner hnot hout hin
    exact nestedIn_of_not_dominates hg hpos hout hin hb hnot

/-- **The place in the chain is the depth:** around a header of the chain there are the headers up
to it and no others. -/
theorem depth_of_chain {outer inner : List BlockId} (hnodup : (outer ++ h :: inner).Nodup)
    (hmem : ∀ k, k ∈ outer ++ h :: inner ↔ g.loopNest.holds k b = true)
    (hchain : (outer ++ h :: inner).Pairwise g.NestedIn) :
    g.loopNest.depth h = outer.length + 1 := by
  obtain ⟨-, hfrom, hacross⟩ := List.pairwise_append.mp hchain
  have hhb : g.loopNest.holds h b = true :=
    (hmem h).mp (List.mem_append_right _ List.mem_cons_self)
  have hhh : g.loopNest.holds h h = true := holds_header hg hpos hhb
  have hreach : g.Reaches h := ((holds_loopNest_iff hg hpos).mp hhb).reaches_header
  have hnames : ∀ k, k ∈ outer ++ [h] ↔ g.loopNest.holds k h = true := by
    intro k
    rw [List.mem_append, List.mem_singleton]
    constructor
    · intro hk
      rcases hk with hk | hk
      · exact (hacross k hk h List.mem_cons_self).1 h hhh
      · rwa [hk]
    · intro hholds
      by_cases hkh : k = h
      · exact Or.inr hkh
      · rcases nestedIn_or_nestedIn hg hpos hkh hholds hhh hreach with hnested | hnested
        · -- it is around the block as well, and not one of the inner ones
          rcases List.mem_append.mp ((hmem k).mpr (hnested.1 b hhb)) with hk | hk
          · exact Or.inl hk
          · have hk' : k ∈ inner := (List.mem_cons.mp hk).resolve_left hkh
            have hout := ((List.pairwise_cons.mp hfrom).1 k hk').2.2
            exact absurd hholds (by simp [hout])
        · exact absurd hholds (by simp [hnested.2.2])
  have hsublist : (outer ++ [h]).Sublist (outer ++ h :: inner) :=
    (List.singleton_sublist.mpr List.mem_cons_self).append_left outer
  rw [LoopNest.depth_eq_length (hnodup.sublist hsublist) hnames, List.length_append,
    List.length_singleton]

end Chain

/-- **Loops are properly nested.**  On the blocks that control can reach, two loops with different
headers are disjoint or one contains the other, and a header dominates the blocks of its loop.  So
depth is nesting depth: the headers around such a block can be listed from the outside in, each loop
strictly inside the one before, their number is the depth of the block, and the depth of each of the
headers is its place in the list. -/
theorem loopNest_nested {is : List Instr} {gs : List FlowGraph} (hgs : ofInstrs is = .ok gs)
    (hg : g ∈ gs) :
    (∀ h k, h ≠ k →
        (∀ b, g.Reaches b → ¬ (g.loopNest.holds h b = true ∧ g.loopNest.holds k b = true)) ∨
        (∀ b, g.Reaches b → g.loopNest.holds k b = true → g.loopNest.holds h b = true) ∨
        ∀ b, g.Reaches b → g.loopNest.holds h b = true → g.loopNest.holds k b = true) ∧
      (∀ h b, g.Reaches b → g.loopNest.holds h b = true → g.Dominates h b) ∧
      ∀ b, g.Reaches b → ∃ headers : List BlockId, headers.length = g.loopNest.depth b ∧
        (∀ h, h ∈ headers ↔ g.loopNest.holds h b = true) ∧ headers.Pairwise g.NestedIn ∧
        ∀ outer h inner, headers = outer ++ h :: inner → g.loopNest.depth h = outer.length + 1 := by
  have hrange := edgesInRange_of_mem hgs hg
  have hpos := size_pos_of_mem hgs hg
  refine ⟨fun h k hhk => ?_, fun h b _ hholds => ?_, fun b hb => ?_⟩
  · by_cases hshare : ∃ b, g.Reaches b ∧ g.loopNest.holds h b = true ∧ g.loopNest.holds k b = true
    · obtain ⟨b, hb, hh, hk⟩ := hshare
      right
      exact (nestedIn_or_nestedIn hrange hpos hhk hh hk hb).imp
        (fun hnested c _ hc => hnested.1 c hc) (fun hnested c _ hc => hnested.1 c hc)
    · exact Or.inl fun b hb hboth => hshare ⟨b, hb, hboth⟩
  · exact ((holds_loopNest_iff hrange hpos).mp hholds).dominates
  · obtain ⟨headers, hnodup, hmem, hchain⟩ := exists_chain hrange hpos hb
    refine ⟨headers, (LoopNest.depth_eq_length hnodup hmem).symm, hmem, hchain, ?_⟩
    rintro outer h inner rfl
    exact depth_of_chain hrange hpos hnodup hmem hchain

/-- Around block `2`, the inner loop, are the headers `1` and `2` and no others; the inner loop lies
in the outer one, whose header dominates it. -/
theorem loopNest_nested_nestedLoops :
    ofInstrs nestedLoops = .ok [nestedFlow] ∧ nestedFlow ∈ [nestedFlow] ∧ nestedFlow.Reaches 2 ∧
      (∀ b, nestedFlow.Reaches b → nestedFlow.loopNest.holds 2 b = true →
        nestedFlow.loopNest.holds 1 b = true) ∧
      nestedFlow.Dominates 1 2 ∧
      ∃ headers : List BlockId, headers.length = 2 ∧ headers.Pairwise nestedFlow.NestedIn ∧
        1 ∈ headers ∧ 2 ∈ headers := by
  have hgs : ofInstrs nestedLoops = .ok [nestedFlow] := rfl
  have hmem : nestedFlow ∈ [nestedFlow] := List.mem_singleton_self _
  have hstart : nestedFlow.Reaches 1 :=
    Reaches.step (b := 0) Relation.ReflTransGen.refl (by decide)
  have hreach : nestedFlow.Reaches 2 := hstart.step (by decide)
  have hone : nestedFlow.loopNest.holds 1 2 = true := by decide +kernel
  have htwo : nestedFlow.loopNest.holds 2 2 = true := by decide +kernel
  have hout : nestedFlow.loopNest.holds 2 1 = false := by decide +kernel
  have hdepth : nestedFlow.loopNest.depth 2 = 2 := by decide +kernel
  obtain ⟨hnested, hdom, hchain⟩ := loopNest_nested hgs hmem
  have hinside : ∀ b, nestedFlow.Reaches b → nestedFlow.loopNest.holds 2 b = true →
      nestedFlow.loopNest.holds 1 b = true := by
    rcases hnested 1 2 (by decide) with hapart | hinside | hinside
    · exact absurd ⟨hone, htwo⟩ (hapart 2 hreach)
    · exact hinside
    · exact absurd (hinside 1 hstart (by decide +kernel)) (by simp [hout])
  obtain ⟨headers, hlength, hheaders, hpairwise, -⟩ := hchain 2 hreach
  exact ⟨hgs, hmem, hreach, hinside, hdom 1 2 hreach hone, headers, hlength.trans hdepth, hpairwise,
    (hheaders 1).mpr hone, (hheaders 2).mpr htwo⟩

end FlowGraph

end RegAlloc
