import Mathlib.Data.List.NodupEquivFin
import Mathlib.Logic.Relation
import RegAlloc.Flow.Dominators
import RegAlloc.Proofs.FlowGraphLaws

/-!
# What the depth-first order satisfies

The reverse post-order lists exactly the blocks that control can reach, each once, the entry first,
and every other block after one of its predecessors.

The invariant of the search is about one list, the order as far as it is known (`orderSoFar`): the
open blocks from the entry inwards, and then the finished ones.  To finish a block does not change
this list, and to enter a block puts it between the open blocks and the finished ones.  So blocks
never change places, and a block stands behind the one that it was entered from for good.

That the search comes to its end is a count of rounds.  Every round takes one off `roundsLeft`,
which at the start is the budget.  So whatever every round keeps true (`KeptBySearch`) holds of the
list that the search returns.
-/

namespace RegAlloc

namespace FlowGraph

variable {g : FlowGraph} {seen : IdSet} {stack : List (BlockId × List BlockId)}
  {finished cs : List BlockId} {a b c : BlockId}

/-- Control can get from the entry to a block. -/
def Reaches (g : FlowGraph) : BlockId → Prop :=
  Relation.ReflTransGen (fun b c => c ∈ g.successors b) entryBlock

theorem Reaches.step (hb : g.Reaches b) (hc : c ∈ g.successors b) : g.Reaches c :=
  Relation.ReflTransGen.tail hb hc

theorem Reaches.lt_size (hg : g.EdgesInRange) (hpos : 0 < g.size) (hb : g.Reaches b) :
    b < g.size := by
  rcases Relation.ReflTransGen.cases_tail hb with rfl | ⟨a, -, hab⟩
  · exact hpos
  · exact hg.target_lt hab

/-! ## One round of the search -/

/-- The order as far as the search knows it. -/
def orderSoFar (stack : List (BlockId × List BlockId)) (finished : List BlockId) : List BlockId :=
  (stack.map Prod.fst).reverse ++ finished

/-- A block keeps its place when it is finished. -/
theorem orderSoFar_cons (b : BlockId) (cs : List BlockId) (stack : List (BlockId × List BlockId))
    (finished : List BlockId) :
    orderSoFar ((b, cs) :: stack) finished = orderSoFar stack (b :: finished) := by
  simp [orderSoFar]

theorem mem_orderSoFar_cons :
    a ∈ orderSoFar ((b, cs) :: stack) finished ↔ a = b ∨ a ∈ orderSoFar stack finished := by
  simp only [orderSoFar, List.mem_append, List.mem_reverse, List.map_cons, List.mem_cons, or_assoc]

theorem nodup_orderSoFar_cons :
    (orderSoFar ((b, cs) :: stack) finished).Nodup ↔
      b ∉ orderSoFar stack finished ∧ (orderSoFar stack finished).Nodup := by
  rw [orderSoFar_cons, orderSoFar, List.nodup_middle, List.nodup_cons]
  rfl

theorem sublist_orderSoFar_cons :
    (orderSoFar stack finished).Sublist (orderSoFar ((b, cs) :: stack) finished) := by
  rw [orderSoFar_cons]
  exact (List.sublist_cons_self b finished).append_left _

/-- An open block comes before the one that is entered from it. -/
theorem pair_sublist_orderSoFar {ds : List BlockId} :
    List.Sublist [b, c] (orderSoFar ((c, ds) :: (b, cs) :: stack) finished) := by
  have hb : b ∈ (((b, cs) :: stack).map Prod.fst).reverse := by simp
  rw [orderSoFar_cons]
  exact (List.singleton_sublist.mpr hb).append (List.singleton_sublist.mpr List.mem_cons_self)

/-- The outermost open block comes first. -/
theorem head?_orderSoFar_cons {ds : List BlockId} :
    (orderSoFar ((c, ds) :: (b, cs) :: stack) finished).head? =
      (orderSoFar ((b, cs) :: stack) finished).head? := by
  simp [orderSoFar, List.head?_append]

/-- **What the search keeps true.** -/
structure Searching (g : FlowGraph) (seen : IdSet) (stack : List (BlockId × List BlockId))
    (finished : List BlockId) : Prop where
  mem_seen : ∀ b, b ∈ seen ↔ b ∈ orderSoFar stack finished
  nodup : (orderSoFar stack finished).Nodup
  head : (orderSoFar stack finished).head? = some entryBlock
  reaches : ∀ b ∈ orderSoFar stack finished, g.Reaches b
  /-- Every block but the entry stands behind one of its predecessors. -/
  parent : ∀ b ∈ orderSoFar stack finished, b ≠ entryBlock →
    ∃ a, List.Sublist [a, b] (orderSoFar stack finished) ∧ b ∈ g.successors a
  /-- What an open block has yet to look at are successors of it. -/
  ahead : ∀ e ∈ stack, ∀ c ∈ e.2, c ∈ g.successors e.1
  /-- The other successors of an open block have been seen. -/
  behind : ∀ e ∈ stack, ∀ c ∈ g.successors e.1, c ∈ e.2 ∨ c ∈ seen
  /-- All successors of a finished block have been seen. -/
  closed : ∀ b ∈ finished, ∀ c ∈ g.successors b, c ∈ seen

theorem searching_start (g : FlowGraph) :
    g.Searching (IdSet.singleton entryBlock) [(entryBlock, g.successors entryBlock)] [] where
  mem_seen b := by simp [orderSoFar]
  nodup := List.nodup_singleton _
  head := rfl
  reaches b hb := List.mem_singleton.mp hb ▸ Relation.ReflTransGen.refl
  parent b hb hne := absurd (List.mem_singleton.mp hb) hne
  ahead e he c hc := List.mem_singleton.mp he ▸ hc
  behind e he c hc := Or.inl (List.mem_singleton.mp he ▸ hc)
  closed b hb := absurd hb List.not_mem_nil

/-- A block with nothing left to look at is finished. -/
theorem Searching.finish (h : g.Searching seen ((b, []) :: stack) finished) :
    g.Searching seen stack (b :: finished) where
  mem_seen := orderSoFar_cons b [] stack finished ▸ h.mem_seen
  nodup := orderSoFar_cons b [] stack finished ▸ h.nodup
  head := orderSoFar_cons b [] stack finished ▸ h.head
  reaches := orderSoFar_cons b [] stack finished ▸ h.reaches
  parent := orderSoFar_cons b [] stack finished ▸ h.parent
  ahead e he := h.ahead e (List.mem_cons_of_mem _ he)
  behind e he := h.behind e (List.mem_cons_of_mem _ he)
  closed d hd c hc := by
    rcases List.mem_cons.mp hd with rfl | hd
    · exact (h.behind _ List.mem_cons_self c hc).resolve_left List.not_mem_nil
    · exact h.closed d hd c hc

/-- A successor that has been seen before is passed over. -/
theorem Searching.skip (h : g.Searching seen ((b, c :: cs) :: stack) finished) (hc : c ∈ seen) :
    g.Searching seen ((b, cs) :: stack) finished where
  mem_seen := h.mem_seen
  nodup := h.nodup
  head := h.head
  reaches := h.reaches
  parent := h.parent
  ahead := by
    obtain ⟨hb, hstack⟩ := List.forall_mem_cons.mp h.ahead
    exact List.forall_mem_cons.mpr ⟨fun d hd => hb d (List.mem_cons_of_mem c hd), hstack⟩
  behind := by
    obtain ⟨hb, hstack⟩ := List.forall_mem_cons.mp h.behind
    refine List.forall_mem_cons.mpr ⟨fun d hd => ?_, hstack⟩
    rcases hb d hd with hd | hd
    · rcases List.mem_cons.mp hd with rfl | hd
      · exact Or.inr hc
      · exact Or.inl hd
    · exact Or.inr hd
  closed := h.closed

/-- A new successor is entered, behind all open blocks and before all finished ones. -/
theorem Searching.enter (h : g.Searching seen ((b, c :: cs) :: stack) finished) (hc : c ∉ seen) :
    g.Searching (seen.insert c) ((c, g.successors c) :: (b, cs) :: stack) finished := by
  obtain ⟨hahead, hrest⟩ := List.forall_mem_cons.mp h.ahead
  obtain ⟨hbehind, hrest'⟩ := List.forall_mem_cons.mp h.behind
  have hbc : c ∈ g.successors b := hahead c List.mem_cons_self
  have hseen : ∀ {d}, d ∈ seen → d ∈ seen.insert c := fun hd => IdSet.mem_insert.mpr (Or.inr hd)
  exact {
    mem_seen := fun d => by
      rw [IdSet.mem_insert, mem_orderSoFar_cons, h.mem_seen]
      rfl
    nodup := nodup_orderSoFar_cons.mpr ⟨fun hmem => hc ((h.mem_seen c).mpr hmem), h.nodup⟩
    head := head?_orderSoFar_cons.trans h.head
    reaches := fun d hd => by
      rcases mem_orderSoFar_cons.mp hd with rfl | hd
      · exact (h.reaches b (mem_orderSoFar_cons.mpr (Or.inl rfl))).step hbc
      · exact h.reaches d hd
    parent := fun d hd hne => by
      rcases mem_orderSoFar_cons.mp hd with rfl | hd
      · exact ⟨b, pair_sublist_orderSoFar, hbc⟩
      · obtain ⟨a, ha, hda⟩ := h.parent d hd hne
        exact ⟨a, ha.trans sublist_orderSoFar_cons, hda⟩
    ahead := by
      refine List.forall_mem_cons.mpr ⟨fun d hd => hd, List.forall_mem_cons.mpr ⟨?_, hrest⟩⟩
      exact fun d hd => hahead d (List.mem_cons_of_mem c hd)
    behind := by
      refine List.forall_mem_cons.mpr
        ⟨fun d hd => Or.inl hd, List.forall_mem_cons.mpr ⟨fun d hd => ?_, fun e he d hd => ?_⟩⟩
      · rcases hbehind d hd with hd | hd
        · rcases List.mem_cons.mp hd with rfl | hd
          · exact Or.inr (IdSet.mem_insert.mpr (Or.inl rfl))
          · exact Or.inl hd
        · exact Or.inr (hseen hd)
      · exact (hrest' e he d hd).imp_right hseen
    closed := fun d hd e he => hseen (h.closed d hd e he) }

/-! ## The number of rounds -/

/-- How many elements of a list belong to blocks that have not been seen. -/
def unseen {α : Type} (seen : IdSet) (block : α → BlockId) (xs : List α) : Nat :=
  xs.countP fun x => block x ∉ seen

theorem unseen_empty {α : Type} (block : α → BlockId) (xs : List α) :
    unseen ∅ block xs = xs.length := by
  simp [unseen]

/-- When a block is seen, the elements that belong to it are taken off. -/
theorem unseen_insert {α : Type} (f : α → BlockId) (xs : List α) (hc : c ∉ seen) :
    unseen seen f xs = unseen (seen.insert c) f xs + xs.countP (fun x => f x = c) := by
  rw [unseen, unseen]
  induction xs with
  | nil => rfl
  | cons x xs ih =>
      rw [List.countP_cons, List.countP_cons, List.countP_cons, ih]
      by_cases hx : f x = c
      · subst hx
        simp [hc]
        omega
      · simp [hx]
        omega

theorem length_successors (g : FlowGraph) (b : BlockId) :
    (g.successors b).length = g.edges.countP fun e => e.1 = b := by
  rw [successors, List.length_filterMap_eq_countP]
  congr 1
  funext e
  by_cases he : e.1 = b <;> simp [he]

theorem countP_range_eq (hc : c < g.size) : (List.range g.size).countP (fun b => id b = c) = 1 := by
  have hcount : (List.range g.size).count c = 1 :=
    List.count_eq_one_of_mem List.nodup_range (List.mem_range.mpr hc)
  rw [← hcount, List.count]
  rfl

/-- How many rounds the search still takes: one for each block to be finished, open or not yet seen,
and one for each successor to be looked at, of open blocks and of blocks not yet seen. -/
def roundsLeft (g : FlowGraph) (seen : IdSet) (stack : List (BlockId × List BlockId)) : Nat :=
  stack.length + (stack.flatMap Prod.snd).length +
    (unseen seen id (List.range g.size) + unseen seen Prod.fst g.edges)

/-- When a block is seen, it and its successors are taken off. -/
theorem unseen_enter (hlt : c < g.size) (hc : c ∉ seen) :
    unseen seen id (List.range g.size) + unseen seen Prod.fst g.edges =
      unseen (seen.insert c) id (List.range g.size) + unseen (seen.insert c) Prod.fst g.edges +
        (1 + (g.successors c).length) := by
  rw [unseen_insert id _ hc, unseen_insert Prod.fst _ hc, countP_range_eq hlt, length_successors]
  omega

/-- To enter a block is one of the rounds. -/
theorem roundsLeft_enter (hlt : c < g.size) (hc : c ∉ seen) :
    g.roundsLeft seen ((b, c :: cs) :: stack) =
      g.roundsLeft (seen.insert c) ((c, g.successors c) :: (b, cs) :: stack) + 1 := by
  simp only [roundsLeft, unseen_enter hlt hc, List.length_cons, List.flatMap_cons,
    List.length_append]
  omega

theorem roundsLeft_start (hpos : 0 < g.size) :
    g.roundsLeft (IdSet.singleton entryBlock) [(entryBlock, g.successors entryBlock)] =
      g.size + g.edges.length := by
  have hall := unseen_enter (c := entryBlock) hpos (IdSet.not_mem_empty entryBlock)
  rw [unseen_empty, unseen_empty, List.length_range] at hall
  simp only [roundsLeft, IdSet.singleton, List.length_singleton, List.flatMap_singleton, hall]
  omega

/-- **A property of the search that every round keeps.**  That the next successor exists is part of
it, because only blocks that exist are counted by `roundsLeft`. -/
structure KeptBySearch (g : FlowGraph)
    (P : IdSet → List (BlockId × List BlockId) → List BlockId → Prop) : Prop where
  lt_size : ∀ {seen b c cs stack finished}, P seen ((b, c :: cs) :: stack) finished → c < g.size
  finish : ∀ {seen b stack finished}, P seen ((b, []) :: stack) finished →
    P seen stack (b :: finished)
  skip : ∀ {seen b c cs stack finished}, P seen ((b, c :: cs) :: stack) finished → c ∈ seen →
    P seen ((b, cs) :: stack) finished
  enter : ∀ {seen b c cs stack finished}, P seen ((b, c :: cs) :: stack) finished → c ∉ seen →
    P (seen.insert c) ((c, g.successors c) :: (b, cs) :: stack) finished

theorem keptBySearch_searching (hg : g.EdgesInRange) : g.KeptBySearch g.Searching where
  lt_size h := hg.target_lt (h.ahead _ List.mem_cons_self _ List.mem_cons_self)
  finish h := h.finish
  skip h hc := h.skip hc
  enter h hc := h.enter hc

/-- **The search runs to its end**, and what its rounds keep holds there. -/
theorem KeptBySearch.visit {P : IdSet → List (BlockId × List BlockId) → List BlockId → Prop}
    (hP : g.KeptBySearch P) {budget : Nat} (h : P seen stack finished)
    (hbudget : g.roundsLeft seen stack ≤ budget) :
    ∃ seen', P seen' [] (g.visit budget seen stack finished) := by
  induction budget generalizing seen stack finished with
  | zero =>
      have hdone : stack = [] := by
        rw [← List.length_eq_zero_iff]
        rw [roundsLeft] at hbudget
        omega
      subst hdone
      exact ⟨seen, h⟩
  | succ budget ih =>
      rcases stack with _ | ⟨⟨b, _ | ⟨c, cs⟩⟩, stack⟩
      · exact ⟨seen, h⟩
      · refine ih (hP.finish h) ?_
        simp only [roundsLeft, List.length_cons, List.flatMap_cons, List.nil_append] at hbudget ⊢
        omega
      · rw [FlowGraph.visit]
        split
        · rename_i hc
          refine ih (hP.skip h hc) ?_
          simp only [roundsLeft, List.length_cons, List.flatMap_cons, List.length_append]
            at hbudget ⊢
          omega
        · rename_i hc
          rw [roundsLeft_enter (hP.lt_size h) hc] at hbudget
          exact ih (hP.enter h hc) (Nat.le_of_succ_le_succ hbudget)

/-- What holds at the start and is kept by every round holds of the reverse post-order. -/
theorem KeptBySearch.reversePostOrder
    {P : IdSet → List (BlockId × List BlockId) → List BlockId → Prop} (hP : g.KeptBySearch P)
    (hpos : 0 < g.size)
    (hstart : P (IdSet.singleton entryBlock) [(entryBlock, g.successors entryBlock)] []) :
    ∃ seen, P seen [] g.reversePostOrder :=
  hP.visit hstart (Nat.le_of_eq (roundsLeft_start hpos))

/-! ## The order -/

/-- **A search order:** the blocks that control can reach, each once, the entry first and every other
block after one of its predecessors. -/
structure SearchOrder (g : FlowGraph) (order : List BlockId) : Prop where
  nodup : order.Nodup
  head : order.head? = some entryBlock
  mem_iff : ∀ b, b ∈ order ↔ g.Reaches b
  parent : ∀ b ∈ order, b ≠ entryBlock → ∃ a, List.Sublist [a, b] order ∧ b ∈ g.successors a

/-- With no block open, the finished blocks are in a search order. -/
theorem Searching.searchOrder (h : g.Searching seen [] finished) : g.SearchOrder finished where
  nodup := h.nodup
  head := h.head
  mem_iff b := by
    refine ⟨h.reaches b, fun hb => ?_⟩
    induction hb with
    | refl => exact List.mem_of_mem_head? h.head
    | tail _ hc ih => exact (h.mem_seen _).mp (h.closed _ ih _ hc)
  parent := h.parent

/-- **The reverse post-order is a search order.** -/
theorem searchOrder_reversePostOrder (hg : g.EdgesInRange) (hpos : 0 < g.size) :
    g.SearchOrder g.reversePostOrder := by
  obtain ⟨seen, h⟩ := (keptBySearch_searching hg).reversePostOrder hpos (searching_start g)
  exact h.searchOrder

namespace SearchOrder

variable {order : List BlockId} {p q : Nat}

/-- A block stands at one position. -/
theorem position_unique (h : g.SearchOrder order) (hp : order[p]? = some b)
    (hq : order[q]? = some b) : p = q := by
  have hlt := (List.getElem?_eq_some_iff.mp hp).1
  exact (List.getElem?_inj hlt h.nodup).mp (hp.trans hq.symm)

theorem getElem?_zero (h : g.SearchOrder order) : order[0]? = some entryBlock :=
  List.head?_eq_getElem? ▸ h.head

theorem reaches (h : g.SearchOrder order) (hp : order[p]? = some b) : g.Reaches b :=
  (h.mem_iff b).mp (List.mem_of_getElem? hp)

theorem exists_position (h : g.SearchOrder order) (hb : g.Reaches b) :
    ∃ p : Nat, order[p]? = some b :=
  List.mem_iff_getElem?.mp ((h.mem_iff b).mpr hb)

theorem idxOf?_eq_some (h : g.SearchOrder order) :
    order.idxOf? b = some p ↔ order[p]? = some b := by
  rw [List.idxOf?, List.findIdx?_eq_some_iff_getElem]
  constructor
  · rintro ⟨hp, heq, -⟩
    exact List.getElem?_eq_some_iff.mpr ⟨hp, beq_iff_eq.mp heq⟩
  · intro hb
    obtain ⟨hp, hpb⟩ := List.getElem?_eq_some_iff.mp hb
    refine ⟨hp, beq_iff_eq.mpr hpb, fun q hq heq => ?_⟩
    have hqb : order[q]? = some b :=
      List.getElem?_eq_some_iff.mpr ⟨Nat.lt_trans hq hp, beq_iff_eq.mp heq⟩
    exact absurd (h.position_unique hqb hb) (Nat.ne_of_lt hq)

/-- A block that stands behind another one has the larger position. -/
theorem position_lt_of_sublist (h : g.SearchOrder order) (hsub : List.Sublist [a, b] order)
    (ha : order[p]? = some a) (hb : order[q]? = some b) : p < q := by
  obtain ⟨f, hf⟩ := List.sublist_iff_exists_orderEmbedding_getElem?_eq.mp hsub
  have hfa : f 0 = p := h.position_unique (hf 0).symm ha
  have hfb : f 1 = q := h.position_unique (hf 1).symm hb
  rw [← hfa, ← hfb]
  exact f.lt_iff_lt.mpr Nat.one_pos

/-- **Every position but the first has a predecessor at a smaller one.** -/
theorem exists_earlier (h : g.SearchOrder order) (hb : order[p]? = some b) (hpos : 0 < p) :
    ∃ q < p, ∃ a, order[q]? = some a ∧ b ∈ g.successors a := by
  have hne : b ≠ entryBlock := by
    rintro rfl
    exact absurd (h.position_unique h.getElem?_zero hb) (Nat.ne_of_lt hpos)
  obtain ⟨a, hsub, hab⟩ := h.parent b (List.mem_of_getElem? hb) hne
  obtain ⟨q, hq⟩ := List.mem_iff_getElem?.mp (hsub.subset List.mem_cons_self)
  exact ⟨q, h.position_lt_of_sublist hsub hq hb, a, hq, hab⟩

end SearchOrder

end FlowGraph

end RegAlloc
