import RegAlloc.Proofs.Dominance

/-!
# The dominator iteration, step by step

The correctness of the dominator tree is a statement about the final array.  This file is about the
way there: the array as it is after any number of passes and any number of steps of the next one
(`DomArray.stage`).

Every stage satisfies the invariant of the passes, at the position that comes next
(`solving_stage`).  So the values form a tree at all times, and from every position with a value
climbing comes down to `0`; two such positions always meet, and no climb ends at a position without
a value.  From one stage to the next, values that are there stay there and do not grow
(`below_stage`).  A pass that changes the array therefore lowers the sum of the values, and after at
most as many passes as the square of the number of positions there is one that changes nothing.
-/

namespace RegAlloc

namespace DomArray

variable {doms : DomArray} {preds : List (List Nat)} {x k k' i j j' : Nat}

/-! ## Climbing to the root -/

/-- From a position with a value, climbing comes down to `0`. -/
theorem Rooted.climbs_zero (h : doms.Rooted) (hx : doms.Known x) : doms.Climbs x 0 := by
  induction x using Nat.strongRecOn with
  | ind x ih =>
      rcases Nat.eq_zero_or_pos x with rfl | hpos
      · exact Relation.ReflTransGen.refl
      · obtain ⟨d, hd⟩ := hx
        exact Relation.ReflTransGen.head hd (ih d (h.lt hpos hd) (h.known hd))

/-- While the meet of `ps` is taken, `q` is compared with `c`, the meet of the positions before it.
Positions without a value are passed over, and the first one with a value is compared with none. -/
def Compares (doms : DomArray) (ps : List Nat) (q c : Nat) : Prop :=
  ∃ before after, ps = before ++ q :: after ∧ doms.Known q ∧ doms.meetAll before = some c

/-- **Only positions that climb to the root are compared**, and they meet. -/
theorem Rooted.of_compares (h : doms.Rooted) {ps : List Nat} {q c : Nat}
    (hcompares : doms.Compares ps q c) :
    doms.Climbs q 0 ∧ doms.Climbs c 0 ∧ doms.Meets q c (doms.meet q c) := by
  obtain ⟨before, after, -, hq, hc⟩ := hcompares
  rcases h.meetAll_cases before with ⟨hnone, -⟩ | ⟨m, hm, hmeet⟩
  · exact absurd (hnone.symm.trans hc) (by simp)
  · cases hm.symm.trans hc
    exact ⟨h.climbs_zero hq, h.climbs_zero hmeet.known,
      h.meets_meetWithin (Nat.le_refl (q + c)) hq hmeet.known⟩

/-! ## Stages -/

/-- The array after `k` passes and the first `j` steps of the next one. -/
def stage (preds : List (List Nat)) (k j : Nat) : DomArray :=
  ((preds.zipIdx.drop 1).take j).foldl (fun doms e => doms.refine e.2 e.1)
    ((pass preds)^[k] (start preds.length))

/-- The step that comes next refines position `j + 1`. -/
theorem stage_succ (hj : j + 1 < preds.length) :
    stage preds k (j + 1) =
      (stage preds k j).refine (j + 1) (predecessorsAt preds (j + 1)) := by
  have hnext : (preds.zipIdx.drop 1)[j]? = some (predecessorsAt preds (j + 1), j + 1) := by
    rw [List.getElem?_drop, Nat.add_comm, List.getElem?_zipIdx, predecessorsAt,
      List.getElem?_eq_getElem hj, Nat.zero_add]
    rfl
  unfold stage
  rw [List.take_add_one, hnext, List.foldl_append]
  rfl

/-- With no step left the next pass begins. -/
theorem stage_of_length_le (hj : preds.length ≤ j + 1) :
    stage preds k j = stage preds (k + 1) 0 := by
  have hall : (preds.zipIdx.drop 1).take j = preds.zipIdx.drop 1 := by
    refine List.take_of_length_le ?_
    rw [List.length_drop, List.length_zipIdx]
    omega
  unfold stage
  rw [hall, List.take_zero, List.foldl_nil, Function.iterate_succ_apply']
  rfl

theorem stage_succ_zero (preds : List (List Nat)) (k : Nat) :
    stage preds (k + 1) 0 = pass preds (stage preds k 0) :=
  Function.iterate_succ_apply' (pass preds) k _

section Grounded

variable (hpreds : Grounded preds)
include hpreds

/-- Every pass begins with the invariant. -/
theorem solving_stage_zero (k : Nat) : Solving preds 1 (stage preds k 0) := by
  induction k with
  | zero => exact solving_start hpreds
  | succ k ih =>
      rw [stage_succ_zero]
      exact (ih.pass hpreds).1.restart hpreds

/-- **Every stage satisfies the invariant**, at the position that comes next. -/
theorem solving_stage (hj : j < preds.length) : Solving preds (j + 1) (stage preds k j) := by
  induction j with
  | zero => exact solving_stage_zero hpreds k
  | succ j ih =>
      have hbefore := ih (by omega)
      obtain ⟨m, hm, hmeet, hrefine⟩ := hbefore.refine_eq hpreds (Nat.succ_pos j) hj
      rw [stage_succ hj, hrefine]
      exact hbefore.put hpreds (Nat.succ_pos j) hj hm hmeet

/-- Steps past the last position change nothing, so there too the invariant holds somewhere. -/
theorem exists_solving_stage (k j : Nat) : ∃ p, Solving preds p (stage preds k j) := by
  rcases Nat.lt_or_ge j preds.length with hj | hj
  · exact ⟨j + 1, solving_stage hpreds hj⟩
  · rw [stage_of_length_le (Nat.le_succ_of_le hj)]
    exact ⟨1, solving_stage_zero hpreds (k + 1)⟩

/-- The values form a tree at all times. -/
theorem rooted_stage (k j : Nat) : (stage preds k j).Rooted := by
  obtain ⟨p, hsolving⟩ := exists_solving_stage hpreds k j
  exact hsolving.rooted

theorem size_stage (k j : Nat) : (stage preds k j).size = preds.length := by
  obtain ⟨p, hsolving⟩ := exists_solving_stage hpreds k j
  exact hsolving.size

/-! ## Values decrease -/

theorem below_stage_succ (k j : Nat) : (stage preds k (j + 1)).Below (stage preds k j) := by
  rcases Nat.lt_or_ge (j + 1) preds.length with hj | hj
  · have h := solving_stage hpreds (k := k) (Nat.lt_of_succ_lt hj)
    obtain ⟨m, hm, hmeet, hrefine⟩ := h.refine_eq hpreds (Nat.succ_pos j) hj
    rw [stage_succ hj, hrefine]
    exact h.below_put (Nat.succ_pos j) (h.size ▸ hj) hmeet
  · rw [stage_of_length_le hj, stage_of_length_le (Nat.le_succ_of_le hj)]
    exact Below.refl _

theorem below_stage_of_le (hj : j ≤ j') : (stage preds k j').Below (stage preds k j) := by
  induction hj with
  | refl => exact Below.refl _
  | step _ ih => exact (below_stage_succ hpreds k _).trans ih

/-- The next pass begins below every stage of this one. -/
theorem below_next (k j : Nat) : (stage preds (k + 1) 0).Below (stage preds k j) := by
  rw [← stage_of_length_le (j := max j preds.length) (by omega)]
  exact below_stage_of_le hpreds (Nat.le_max_left j preds.length)

/-- **Values that are there stay there and do not grow**, from any stage to any later one. -/
theorem below_stage (h : k < k' ∨ k = k' ∧ j ≤ j') :
    (stage preds k' j').Below (stage preds k j) := by
  rcases h with hk | ⟨rfl, hj⟩
  · have hstart : (stage preds k' 0).Below (stage preds k j) := by
      induction hk with
      | refl => exact below_next hpreds k j
      | step _ ih => exact (below_next hpreds _ 0).trans ih
    exact (below_stage_of_le hpreds (Nat.zero_le j')).trans hstart
  · exact below_stage_of_le hpreds hj

/-- After the first pass every position has a value. -/
theorem known_stage (hx : x < preds.length) (k j : Nat) : (stage preds (k + 1) j).Known x := by
  have hend := ((solving_stage_zero hpreds k).pass hpreds).1
  rw [← stage_succ_zero] at hend
  obtain ⟨d, hd⟩ := hend.known x hx
  obtain ⟨d', hd', -⟩ := below_stage_of_le hpreds (Nat.zero_le j) x d hd
  exact ⟨d', hd'⟩

/-! ## The last pass -/

/-- A pass that leaves the array as it was has no step that changes it. -/
theorem stage_eq_of_pass_eq (hfix : stage preds (k + 1) 0 = stage preds k 0) (j : Nat) :
    stage preds k j = stage preds k 0 := by
  refine Below.antisymm ?_ (below_stage_of_le hpreds (Nat.zero_le j)) ?_
  · rw [size_stage hpreds, size_stage hpreds]
  · have hbelow := below_next hpreds k j
    rwa [hfix] at hbelow

/-- Each pass that changes the array lowers the sum of its values. -/
theorem total_stage_add_le (hchanges : ∀ i < k, stage preds (i + 1) 0 ≠ stage preds i 0) :
    total preds.length (stage preds k 0) + k ≤ preds.length * preds.length := by
  induction k with
  | zero => exact (rooted_stage hpreds 0 0).total_le preds.length
  | succ k ih =>
      have hle := ih fun i hi => hchanges i (Nat.lt_succ_of_lt hi)
      have hlt := (below_next hpreds k 0).total_lt (rooted_stage hpreds (k + 1) 0)
        ((size_stage hpreds (k + 1) 0).trans (size_stage hpreds k 0).symm)
        (hchanges k (Nat.lt_succ_self k))
      rw [size_stage hpreds] at hlt
      omega

end Grounded

/-- The iteration goes through the stages at the beginning of the passes, until one of them changes
nothing or the budget is spent. -/
theorem exists_solve_eq (preds : List (List Nat)) (budget k : Nat) :
    ∃ i ≤ budget, solve preds budget (stage preds k 0) = stage preds (k + i) 0 ∧
      (∀ i' < i, stage preds (k + i' + 1) 0 ≠ stage preds (k + i') 0) ∧
      (i < budget → stage preds (k + i + 1) 0 = stage preds (k + i) 0) := by
  induction budget generalizing k with
  | zero => exact ⟨0, Nat.le_refl 0, rfl, by simp, by simp⟩
  | succ budget ih =>
      rw [solve]
      simp only [← stage_succ_zero]
      split
      · rename_i hfix
        exact ⟨0, Nat.zero_le _, rfl, by simp, fun _ => hfix⟩
      · rename_i hne
        obtain ⟨i, hi, hsolve, hchanges, hfix⟩ := ih (k + 1)
        have hshift : ∀ n, k + 1 + n = k + (n + 1) := fun n => by omega
        simp only [hshift] at hsolve hchanges hfix
        refine ⟨i + 1, Nat.succ_le_succ hi, hsolve, fun i' hi' => ?_, fun hlt => ?_⟩
        · cases i' with
          | zero => exact hne
          | succ i' => exact hchanges i' (Nat.lt_of_succ_lt_succ hi')
        · exact hfix (Nat.lt_of_succ_lt_succ hlt)

/-- **The iteration ends with a pass that changes nothing**, the first one of this kind. -/
theorem exists_last_pass (hpreds : Grounded preds) :
    ∃ k ≤ preds.length * preds.length,
      solve preds (preds.length * preds.length + 1) (start preds.length) = stage preds k 0 ∧
        (∀ j, stage preds k j = stage preds k 0) ∧
        ∀ i < k, stage preds (i + 1) 0 ≠ stage preds i 0 := by
  obtain ⟨k, -, hsolve, hchanges, hfix⟩ :=
    exists_solve_eq preds (preds.length * preds.length + 1) 0
  simp only [Nat.zero_add] at hsolve hchanges hfix
  have htotal := total_stage_add_le hpreds hchanges
  exact ⟨k, by omega, hsolve, stage_eq_of_pass_eq hpreds (hfix (by omega)), hchanges⟩

end DomArray

namespace FlowGraph

open DomArray

/-- **The dominator iteration at every step.**  It ends with a pass of which no step changes
anything, after at most as many others as the square of the number of positions, each of which
changed the array.  Between any two stages, values that are there stay there and do not grow.  At
every stage, the value of a position other than `0` is smaller than the position, and from the end
of the first pass on every position has one.  Whenever two positions are compared, climbing from
either comes down to `0`, and the comparison ends where the two climbs meet, without coming to a
position that has no value. -/
theorem dominatorPositions_stages {is : List Instr} {gs : List FlowGraph} {g : FlowGraph}
    (hgs : ofInstrs is = .ok gs) (hg : g ∈ gs) :
    let preds := g.predecessorPositions g.reversePostOrder
    (∃ k ≤ preds.length * preds.length, g.dominatorPositions = stage preds k 0 ∧
        (∀ j, stage preds k j = stage preds k 0) ∧
        ∀ i < k, stage preds (i + 1) 0 ≠ stage preds i 0) ∧
      (∀ k j k' j', k < k' ∨ k = k' ∧ j ≤ j' → (stage preds k' j').Below (stage preds k j)) ∧
      (∀ k j x d, 0 < x → (stage preds k j).at? x = some d → d < x) ∧
      (∀ k j, ∀ x < preds.length, (stage preds (k + 1) j).Known x) ∧
      ∀ k j q c, (stage preds k j).Compares (predecessorsAt preds (j + 1)) q c →
        (stage preds k j).Climbs q 0 ∧ (stage preds k j).Climbs c 0 ∧
          (stage preds k j).Meets q c ((stage preds k j).meet q c) := by
  intro preds
  have horder := searchOrder_reversePostOrder (edgesInRange_of_mem hgs hg) (size_pos_of_mem hgs hg)
  have hpreds : Grounded preds := horder.grounded
  have hlength : preds.length = g.reversePostOrder.length :=
    SearchOrder.length_predecessorPositions g _
  refine ⟨?_, fun k j k' j' h => below_stage hpreds h,
    fun k j x d hx hd => (rooted_stage hpreds k j).lt hx hd,
    fun k j x hx => known_stage hpreds hx k j,
    fun k j q c h => (rooted_stage hpreds k j).of_compares h⟩
  obtain ⟨k, hk, hsolve, hstill, hchanges⟩ := exists_last_pass hpreds
  refine ⟨k, hk, ?_, hstill, hchanges⟩
  rw [← hsolve, dominatorPositions, hlength]

/-- In the first pass over a loop with two ways in, the last position is compared over its
predecessors `1` and `0`, and the two meet in `0`. -/
theorem dominatorPositions_stages_crossing :
    ofInstrs crossing = .ok [crossingWalk, crossingAgain] ∧
      crossingWalk ∈ [crossingWalk, crossingAgain] ∧
      crossingWalk.predecessorPositions crossingWalk.reversePostOrder =
        [[], [0, 3], [1], [1, 0]] ∧
      (stage [[], [0, 3], [1], [1, 0]] 0 2).Compares [1, 0] 0 1 ∧
      (stage [[], [0, 3], [1], [1, 0]] 0 2).Meets 0 1 0 ∧
      (∀ x < 4, (stage [[], [0, 3], [1], [1, 0]] 1 0).Known x) ∧
      ∃ k ≤ 16, crossingWalk.dominatorPositions = stage [[], [0, 3], [1], [1, 0]] k 0 := by
  have hmem : crossingWalk ∈ [crossingWalk, crossingAgain] := List.mem_cons_self
  have hpreds : crossingWalk.predecessorPositions crossingWalk.reversePostOrder =
      [[], [0, 3], [1], [1, 0]] := by decide
  have hcompares : (stage [[], [0, 3], [1], [1, 0]] 0 2).Compares [1, 0] 0 1 :=
    ⟨[1], [], rfl, ⟨0, by decide⟩, by decide⟩
  have hmeet : (stage [[], [0, 3], [1], [1, 0]] 0 2).meet 0 1 = 0 := by decide
  have hstages := dominatorPositions_stages ofInstrs_crossing hmem
  simp only [hpreds] at hstages
  obtain ⟨⟨k, hk, hend, -, -⟩, -, -, hknown, hcalls⟩ := hstages
  obtain ⟨-, -, hmeets⟩ := hcalls 0 2 0 1 hcompares
  rw [hmeet] at hmeets
  exact ⟨ofInstrs_crossing, hmem, hpreds, hcompares, hmeets, hknown 0 0, k, hk, hend⟩

end FlowGraph

end RegAlloc
