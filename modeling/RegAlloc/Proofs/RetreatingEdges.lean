import RegAlloc.Proofs.DepthFirstOrder
import RegAlloc.Proofs.ProgramCuts

/-!
# Edges against the depth-first order

Most edges lead forward in the reverse post-order.  The main result of this file is about the
others: an edge whose target does not come later than its source closes a circle, for control can
get from its target back to its source.  Together with what makes the list a search order, this is
all that the analyses on top of it ever use.

The reason lies in what the search finds when it looks at an edge out of the innermost open block.
If the target is new, it is entered and stands behind the source.  If it is finished, it stands
behind all open blocks.  Otherwise it is open itself, and the open blocks between the two are a path
from the target to the source.  Blocks never change places, so what was found stays true.
-/

namespace RegAlloc

namespace FlowGraph

variable {g : FlowGraph} {stack : List (BlockId × List BlockId)}
  {finished cs order order' : List BlockId} {b c u v : BlockId}

/-- Control can get from one block to another. -/
def Leads (g : FlowGraph) : BlockId → BlockId → Prop :=
  Relation.ReflTransGen fun b c => c ∈ g.successors b

/-- Block `c` stands behind block `b`, or control can get back from it. -/
def BehindOrBack (g : FlowGraph) (order : List BlockId) (b c : BlockId) : Prop :=
  List.Sublist [b, c] order ∨ g.Leads c b

/-- A longer order in which no block changes places says the same. -/
theorem BehindOrBack.mono (h : g.BehindOrBack order b c) (hsub : order.Sublist order') :
    g.BehindOrBack order' b c :=
  h.imp_left fun hbc => hbc.trans hsub

/-! ## The edges that the search has looked at -/

/-- **What the search knows about the edges it has looked at.** -/
structure Explored (g : FlowGraph) (stack : List (BlockId × List BlockId))
    (finished : List BlockId) : Prop where
  /-- The open blocks lie on a path from the outermost to the innermost. -/
  nested : (stack.map Prod.fst).Pairwise fun inner outer => g.Leads outer inner
  /-- Open blocks have looked at their successors, but for those they have yet to look at. -/
  opened : ∀ e ∈ stack, ∀ c ∈ g.successors e.1,
    c ∈ e.2 ∨ g.BehindOrBack (orderSoFar stack finished) e.1 c
  /-- Finished blocks have looked at all of them. -/
  closed : ∀ b ∈ finished, ∀ c ∈ g.successors b,
    g.BehindOrBack (orderSoFar stack finished) b c

theorem explored_start (g : FlowGraph) :
    g.Explored [(entryBlock, g.successors entryBlock)] [] where
  nested := List.pairwise_singleton _ _
  opened _ he _ hc := Or.inl (List.mem_singleton.mp he ▸ hc)
  closed _ hb := absurd hb List.not_mem_nil

theorem Explored.finish (h : g.Explored ((b, []) :: stack) finished) :
    g.Explored stack (b :: finished) := by
  obtain ⟨hb, hstack⟩ := List.forall_mem_cons.mp h.opened
  have hclosed := h.closed
  rw [orderSoFar_cons] at hb hstack hclosed
  exact {
    nested := (List.pairwise_cons.mp h.nested).2
    opened := hstack
    closed := List.forall_mem_cons.mpr
      ⟨fun c hc => (hb c hc).resolve_left List.not_mem_nil, hclosed⟩ }

/-- A successor that has been seen is finished, or leads back over the open blocks. -/
theorem Explored.behindOrBack_of_seen (h : g.Explored ((b, cs) :: stack) finished)
    (hc : c ∈ orderSoFar ((b, cs) :: stack) finished) :
    g.BehindOrBack (orderSoFar ((b, cs) :: stack) finished) b c := by
  rcases List.mem_append.mp hc with hopen | hfinished
  · right
    rcases List.mem_cons.mp (List.mem_reverse.mp hopen) with rfl | hopen
    · exact Relation.ReflTransGen.refl
    · exact (List.pairwise_cons.mp h.nested).1 c hopen
  · left
    have hb : b ∈ (((b, cs) :: stack).map Prod.fst).reverse :=
      List.mem_reverse.mpr List.mem_cons_self
    exact (List.singleton_sublist.mpr hb).append (List.singleton_sublist.mpr hfinished)

theorem Explored.skip (h : g.Explored ((b, c :: cs) :: stack) finished)
    (hc : c ∈ orderSoFar ((b, c :: cs) :: stack) finished) :
    g.Explored ((b, cs) :: stack) finished where
  nested := h.nested
  opened := by
    obtain ⟨hb, hstack⟩ := List.forall_mem_cons.mp h.opened
    refine List.forall_mem_cons.mpr ⟨fun d hd => ?_, hstack⟩
    rcases hb d hd with hahead | hknown
    · rcases List.mem_cons.mp hahead with rfl | hahead
      · exact Or.inr (h.behindOrBack_of_seen hc)
      · exact Or.inl hahead
    · exact Or.inr hknown
  closed := h.closed

/-- A block that is entered stands behind the one it is entered from and lies on its path. -/
theorem Explored.enter (h : g.Explored ((b, c :: cs) :: stack) finished)
    (hbc : c ∈ g.successors b) :
    g.Explored ((c, g.successors c) :: (b, cs) :: stack) finished := by
  obtain ⟨hb, hstack⟩ := List.forall_mem_cons.mp h.opened
  have hsub : (orderSoFar ((b, c :: cs) :: stack) finished).Sublist
      (orderSoFar ((c, g.successors c) :: (b, cs) :: stack) finished) := sublist_orderSoFar_cons
  refine ⟨List.pairwise_cons.mpr ⟨fun outer houter => ?_, h.nested⟩, ?_, fun d hd e he => ?_⟩
  · have hto : g.Leads outer b := by
      rcases List.mem_cons.mp houter with rfl | houter
      · exact Relation.ReflTransGen.refl
      · exact (List.pairwise_cons.mp h.nested).1 outer houter
    exact hto.tail hbc
  · refine List.forall_mem_cons.mpr ⟨fun d hd => Or.inl hd, List.forall_mem_cons.mpr ⟨?_, ?_⟩⟩
    · intro d hd
      rcases hb d hd with hahead | hknown
      · rcases List.mem_cons.mp hahead with rfl | hahead
        · exact Or.inr (Or.inl pair_sublist_orderSoFar)
        · exact Or.inl hahead
      · exact Or.inr (hknown.mono hsub)
    · exact fun e he d hd => (hstack e he d hd).imp_right fun hknown => hknown.mono hsub
  · exact (h.closed d hd e he).mono hsub

/-- Both invariants of the search together are kept by every round. -/
theorem keptBySearch_explored (hg : g.EdgesInRange) :
    g.KeptBySearch fun seen stack finished =>
      g.Searching seen stack finished ∧ g.Explored stack finished where
  lt_size h := (keptBySearch_searching hg).lt_size h.1
  finish h := ⟨h.1.finish, h.2.finish⟩
  skip h hc := ⟨h.1.skip hc, h.2.skip ((h.1.mem_seen _).mp hc)⟩
  enter h hc := ⟨h.1.enter hc, h.2.enter (h.1.ahead _ List.mem_cons_self _ List.mem_cons_self)⟩

/-! ## The order -/

/-- **Every edge leads behind its source or closes a circle.** -/
theorem behindOrBack_reversePostOrder (hg : g.EdgesInRange) (hpos : 0 < g.size)
    (hu : g.Reaches u) (huv : v ∈ g.successors u) :
    g.BehindOrBack g.reversePostOrder u v := by
  obtain ⟨seen, hsearching, hexplored⟩ :=
    (keptBySearch_explored hg).reversePostOrder hpos ⟨searching_start g, explored_start g⟩
  exact hexplored.closed u ((hsearching.searchOrder.mem_iff u).mpr hu) v huv

/-- **The depth-first orders of a program.**  The reverse post-order is the post-order turned
around.  It lists exactly the blocks that control can reach, each once, and the entry first.  Every
other block comes after one of its predecessors.  And where an edge leads to a block that does not
come later than its source, control can get back from there. -/
theorem depthFirst_orders {is : List Instr} {gs : List FlowGraph} (hgs : ofInstrs is = .ok gs)
    (hg : g ∈ gs) :
    g.reversePostOrder = g.postOrder.reverse ∧
      (∀ b, b ∈ g.reversePostOrder ↔ g.Reaches b) ∧ g.reversePostOrder.Nodup ∧
      g.reversePostOrder.head? = some entryBlock ∧
      (∀ (p : Nat) b, g.reversePostOrder[p]? = some b → b ≠ entryBlock →
        ∃ q < p, ∃ a ∈ g.predecessors b, g.reversePostOrder[q]? = some a) ∧
      ∀ (p q : Nat) u v, g.reversePostOrder[p]? = some u → g.reversePostOrder[q]? = some v →
        v ∈ g.successors u → q ≤ p → g.Leads v u := by
  have hrange := edgesInRange_of_mem hgs hg
  have hpos := size_pos_of_mem hgs hg
  have horder := searchOrder_reversePostOrder hrange hpos
  refine ⟨(List.reverse_reverse _).symm, horder.mem_iff, horder.nodup, horder.head,
    fun p b hb hne => ?_, fun p q u v hu hv huv hqp => ?_⟩
  · have hp : 0 < p := by
      refine Nat.pos_of_ne_zero ?_
      rintro rfl
      exact hne (Option.some.inj (hb.symm.trans horder.getElem?_zero))
    obtain ⟨q, hqp, a, ha, hab⟩ := horder.exists_earlier hb hp
    exact ⟨q, hqp, a, mem_successors_iff_mem_predecessors.mp hab, ha⟩
  · rcases behindOrBack_reversePostOrder hrange hpos (horder.reaches hu) huv with hbehind | hback
    · have hpq := horder.position_lt_of_sublist hbehind hu hv
      exact absurd hqp (Nat.not_le.mpr hpq)
    · exact hback

/-- The loop with two ways in has one edge against the order, from block `2` to block `1`, and
control gets back along it; the block that control cannot reach is not listed. -/
theorem depthFirst_orders_crossing :
    ofInstrs crossing = .ok [crossingWalk, crossingAgain] ∧
      crossingWalk ∈ [crossingWalk, crossingAgain] ∧
      crossingWalk.reversePostOrder = [0, 1, 4, 2] ∧ crossingWalk.postOrder = [2, 4, 1, 0] ∧
      ¬ crossingWalk.Reaches 3 ∧ 1 ∈ crossingWalk.successors 2 ∧ crossingWalk.Leads 1 2 ∧
      ∃ q < 2, ∃ a ∈ crossingWalk.predecessors 4, crossingWalk.reversePostOrder[q]? = some a := by
  have hmem : crossingWalk ∈ [crossingWalk, crossingAgain] := List.mem_cons_self
  have horder : crossingWalk.reversePostOrder = [0, 1, 4, 2] := by decide
  have hedge : 1 ∈ crossingWalk.successors 2 := by decide
  obtain ⟨-, hlists, -, -, hearlier, hback⟩ := depthFirst_orders ofInstrs_crossing hmem
  rw [horder] at hlists hearlier hback
  have hdead : ¬ crossingWalk.Reaches 3 := fun hreach => by simpa using (hlists 3).mpr hreach
  rw [postOrder, horder]
  exact ⟨ofInstrs_crossing, hmem, rfl, rfl, hdead, hedge,
    hback 3 1 2 1 rfl rfl hedge (by decide), hearlier 2 4 rfl (by decide)⟩

end FlowGraph

end RegAlloc
