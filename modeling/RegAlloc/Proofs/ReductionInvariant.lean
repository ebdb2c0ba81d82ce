import RegAlloc.Proofs.ReductionSteps

/-!
# What a reduction keeps of the graph it started from

A reduction takes nodes out, merges nodes and throws moves away.  This file says what remains true
of the **original** graph while it does so.  The invariant is `Reduction.Tracks origin k r`, and it
has three parts beyond the well-formedness of the graph.

* `IsQuotient`: two nodes interfere now if and only if an original conflict joins a node that the
  one represents to a node that the other represents.  In particular no two nodes of one class
  interfere originally, because no node interferes with itself.
* `Stacked`: the stack holds exactly the nodes that were taken out, each once.
* `Admits`: **a node that was not a spill candidate has fewer than `k` neighbours that did not leave
  before it.**  The neighbours below it on the stack will be served after it, so they do not matter
  when its turn comes; the others number at most as many as its active neighbours at the moment it
  left, since later merges only identify some of them.

The last point is what makes the choice of a register succeed, and it is stated on suffixes of the
stack so that pushing a node leaves it alone for everything below.
-/

namespace RegAlloc

namespace InterferenceGraph

variable {origin g h : InterferenceGraph} {u v n m : NodeId}

/-! ## Conflicts between classes -/

/-- The conflicts of `g` are those of `origin` between the classes that merges have formed. -/
def IsQuotient (origin g : InterferenceGraph) : Prop :=
  ∀ a b, b ∈ g.neighbors a ↔
    ∃ x y, y ∈ origin.neighbors x ∧ g.representative x = a ∧ g.representative y = b

theorem IsQuotient.congr (hg : IsQuotient origin g) (hconf : h.conflicts = g.conflicts)
    (hrep : ∀ n, h.representative n = g.representative n) : IsQuotient origin h := by
  intro a b
  rw [neighbors, hconf]
  simp only [hrep]
  exact hg a b

theorem IsQuotient.of_untouched (hg : g.Untouched) : IsQuotient g g := by
  intro a b
  simp only [hg.representative]
  constructor
  · intro hb
    exact ⟨a, b, hb, rfl, rfl⟩
  · rintro ⟨x, y, hy, rfl, rfl⟩
    exact hy

/-- Nodes that have been merged away have no conflicts left. -/
theorem IsQuotient.isMerged_of_neighbor (hq : IsQuotient origin g) (hf : g.MergeForest)
    (hm : m ∈ g.neighbors n) : g.isMerged m = false := by
  obtain ⟨-, y, -, -, rfl⟩ := (hq n m).mp hm
  exact hf.isMerged_representative y

/-- **Merging two nodes that do not interfere keeps the quotient.** -/
theorem IsQuotient.merge (hq : IsQuotient origin g) (hg : g.WellFormed) (hf : g.MergeForest)
    (huv : u ≠ v) (hu : g.isActive u = true) (hv : g.isActive v = true)
    (hfree : v ∉ g.neighbors u) : IsQuotient origin (g.merge u v) := by
  have hrep := hf.representative_merge huv (lt_size_of_isActive hv) (isMerged_of_isActive hu)
    (isMerged_of_isActive hv)
  -- classes that interfere stay apart: only `u` and `v` are identified, and they do not interfere
  have hapart : ∀ {a b}, b ∈ g.neighbors a →
      Adjacency.rename u v a ≠ Adjacency.rename u v b := by
    intro a b hb he
    rcases Adjacency.rename_eq_rename he with rfl | ⟨rfl, rfl⟩ | ⟨rfl, rfl⟩
    · exact hg.conflicts.irrefl _ hb
    · exact hfree hb
    · exact hfree (hg.conflicts.symm hb)
  intro a b
  rw [neighbors, conflicts_merge huv,
    Adjacency.mem_neighbors_merge hg.conflicts huv (hg.conflicts_size ▸ lt_size_of_isActive hu)]
  constructor
  · rintro ⟨-, a', b', hb, rfl, rfl⟩
    obtain ⟨x, y, hy, rfl, rfl⟩ := (hq a' b').mp hb
    exact ⟨x, y, hy, hrep x, hrep y⟩
  · rintro ⟨x, y, hy, rfl, rfl⟩
    have hb : g.representative y ∈ g.neighbors (g.representative x) :=
      (hq _ _).mpr ⟨x, y, hy, rfl, rfl⟩
    rw [hrep, hrep]
    exact ⟨hapart hb, _, _, hb, rfl, rfl⟩

end InterferenceGraph

namespace Reduction

open InterferenceGraph

variable {origin : InterferenceGraph} {k : Nat} {policy : SpillPolicy} {r : Reduction} {step : Step}

/-! ## The stack -/

/-- The stack holds exactly the nodes taken out, each once, and the spill candidates are among
them. -/
structure Stacked (r : Reduction) : Prop where
  mem_iff : ∀ n, n ∈ r.stack ↔ r.graph.hasStatus n .removed = true
  nodup : r.stack.Nodup
  potential : ∀ n ∈ r.potential, n ∈ r.stack

theorem Stacked.notMem_of_isActive (hr : r.Stacked) {n : NodeId} (hn : r.graph.isActive n = true) :
    n ∉ r.stack := by
  intro hmem
  exact absurd (hasStatus_unique hn ((hr.mem_iff n).mp hmem)) (by simp)

/-- Putting a node on the stack as it is taken out of a graph with the same nodes. -/
theorem Stacked.push (hr : r.Stacked) {g : InterferenceGraph} (hsame : SameNodes g r.graph)
    {n : NodeId} (hn : r.graph.isActive n = true) {costs : SpillCosts} {potential : IdSet}
    {merges : Nat} (hpot : ∀ m ∈ potential, m = n ∨ m ∈ r.potential) :
    Stacked ⟨g.takeOut n, costs, n :: r.stack, potential, merges⟩ where
  mem_iff m := by
    have hlt : n < g.size := hsame.size ▸ lt_size_of_isActive hn
    rw [List.mem_cons, hr.mem_iff m, hasStatus_takeOut hlt, hsame.hasStatus]
    by_cases hmn : m = n
    · simp [hmn]
    · simp [hmn]
  nodup := List.nodup_cons.mpr ⟨hr.notMem_of_isActive hn, hr.nodup⟩
  potential m hm := by
    rcases hpot m hm with rfl | hm
    · exact List.mem_cons_self
    · exact List.mem_cons_of_mem n (hr.potential m hm)

/-- Changing the graph without taking a node out leaves the stack right. -/
theorem Stacked.congr (hr : r.Stacked) {g : InterferenceGraph}
    (hstatus : ∀ n, g.hasStatus n .removed = r.graph.hasStatus n .removed) {costs : SpillCosts}
    {merges : Nat} : Stacked ⟨g, costs, r.stack, r.potential, merges⟩ where
  mem_iff n := by rw [hr.mem_iff n, hstatus]
  nodup := hr.nodup
  potential := hr.potential

theorem stacked_apply (hg : r.graph.WellFormed) (hr : r.Stacked) (hs : step.Allowed k r.graph) :
    (r.apply step).Stacked := by
  cases hs with
  | simplify active unmarked low =>
      exact hr.push ⟨rfl, fun _ => rfl, fun _ _ => rfl, fun _ => rfl, fun _ => rfl⟩ active
        fun m hm => Or.inr hm
  | @constrain u v left right move conflict =>
      exact hr.congr fun n => (sameNodes_removeMove r.graph u v).hasStatus n _
  | @merge u v left right move free safe =>
      refine hr.congr fun n => ?_
      rw [hasStatus_merge (hg.moves.ne move).symm (lt_size_of_isActive right)]
      split
      · rename_i hnv
        subst hnv
        have hnot : r.graph.hasStatus n .removed = false := by
          rw [Bool.eq_false_iff]
          exact fun hn => absurd (hasStatus_unique right hn) (by simp)
        rw [hnot]
        rfl
      · rfl
  | @freeze n active marked low stuck =>
      exact hr.congr fun m => (sameNodes_dropMoves r.graph n).hasStatus m _
  | @spill n active high stuck =>
      exact hr.push (sameNodes_dropMoves r.graph n) active fun m hm => IdSet.mem_insert.mp hm

/-! ## Room for a register -/

/-- The neighbours of a node that are not among the nodes `below` it. -/
def contenders (g : InterferenceGraph) (n : NodeId) (below : List NodeId) : IdSet :=
  (g.neighbors n).filter fun m => decide (m ∉ below)

@[simp] theorem mem_contenders {g : InterferenceGraph} {n m : NodeId} {below : List NodeId} :
    m ∈ contenders g n below ↔ m ∈ g.neighbors n ∧ m ∉ below := by
  rw [contenders, IdSet.mem_filter, decide_eq_true_eq]

/-- **Every node that is no spill candidate has fewer than `k` neighbours that did not leave before
it.** -/
def Admits (k : Nat) (r : Reduction) : Prop :=
  ∀ n below, (n :: below) <:+ r.stack → n ∉ r.potential → (contenders r.graph n below).size < k

/-- When a node leaves, the neighbours that did not leave before it are its active ones. -/
theorem size_contenders_le_degree (hg : r.graph.WellFormed) (hf : r.graph.MergeForest)
    (hq : IsQuotient origin r.graph) (hr : r.Stacked) (n : NodeId) :
    (contenders r.graph n r.stack).size ≤ r.graph.degree n := by
  refine IdSet.size_le_of_subset fun m hm => ?_
  obtain ⟨hm, hnot⟩ := mem_contenders.mp hm
  refine IdSet.mem_filter.mpr ⟨hm, ?_⟩
  rcases hasStatus_cases (hg.lt_size_of_neighbor hm) with hs | hs | hs
  · exact hs
  · exact absurd ((hr.mem_iff m).mpr hs) hnot
  · exact absurd ((hq.isMerged_of_neighbor hf hm).symm.trans hs) (by simp)

/-- A merge renames the neighbours of a node on the stack, so it gives it no more of them. -/
theorem size_contenders_merge (hg : r.graph.WellFormed) (hr : r.Stacked) {u v n : NodeId}
    {below : List NodeId} (huv : u ≠ v) (hu : r.graph.isActive u = true)
    (hv : r.graph.isActive v = true) (hsuf : (n :: below) <:+ r.stack) :
    (contenders (r.graph.merge u v) n below).size ≤ (contenders r.graph n below).size := by
  have hstack : ∀ x ∈ n :: below, x ∈ r.stack := fun x hx => hsuf.subset hx
  have hnu : n ≠ u := by
    rintro rfl
    exact hr.notMem_of_isActive hu (hstack n List.mem_cons_self)
  have hbelow : v ∉ below := fun hb =>
    hr.notMem_of_isActive hv (hstack v (List.mem_cons_of_mem n hb))
  refine IdSet.size_le_of_image (Adjacency.rename u v) fun m hm => ?_
  rw [mem_contenders, neighbors, conflicts_merge huv, Adjacency.mem_neighbors_merge_of_ne
    hg.conflicts huv (hg.conflicts_size ▸ lt_size_of_isActive hu) hnu] at hm
  obtain ⟨⟨-, y, hy, rfl⟩, hnot⟩ := hm
  refine ⟨y, mem_contenders.mpr ⟨hy, ?_⟩, rfl⟩
  rcases eq_or_ne y v with rfl | hyv
  · exact hbelow
  · rwa [Adjacency.rename_of_ne hyv] at hnot

theorem admits_apply (hg : r.graph.WellFormed) (hf : r.graph.MergeForest)
    (hq : IsQuotient origin r.graph) (hr : r.Stacked) (ha : r.Admits k)
    (hs : step.Allowed k r.graph) : (r.apply step).Admits k := by
  intro n below hsuf hpot
  cases hs with
  | @simplify m active unmarked low =>
      rcases List.suffix_cons_iff.mp hsuf with he | hsuf
      · cases he
        exact (size_contenders_le_degree hg hf hq hr n).trans_lt low
      · exact ha n below hsuf hpot
  | @constrain u v left right move conflict =>
      have hrow : contenders (r.graph.removeMove u v) n below = contenders r.graph n below := by
        rw [contenders, neighbors, conflicts_removeMove]
        rfl
      show (contenders (r.graph.removeMove u v) n below).size < k
      rw [hrow]
      exact ha n below hsuf hpot
  | merge left right move free safe =>
      exact (size_contenders_merge hg hr (hg.moves.ne move).symm left right hsuf).trans_lt
        (ha n below hsuf hpot)
  | @freeze m active marked low stuck =>
      have hrow : contenders (r.graph.dropMoves m) n below = contenders r.graph n below := by
        rw [contenders, neighbors, conflicts_dropMoves]
        rfl
      show (contenders (r.graph.dropMoves m) n below).size < k
      rw [hrow]
      exact ha n below hsuf hpot
  | @spill m active high stuck =>
      have hrow : contenders ((r.graph.dropMoves m).takeOut m) n below
          = contenders r.graph n below := by
        rw [contenders, neighbors, conflicts_takeOut, conflicts_dropMoves]
        rfl
      have hne : ¬(n = m ∨ n ∈ r.potential) := fun e => hpot (IdSet.mem_insert.mpr e)
      show (contenders ((r.graph.dropMoves m).takeOut m) n below).size < k
      rw [hrow]
      rcases List.suffix_cons_iff.mp hsuf with he | hsuf
      · cases he
        exact absurd (Or.inl rfl) hne
      · exact ha n below hsuf fun e => hne (Or.inr e)

/-! ## The invariant -/

/-- **The state of a reduction that started from `origin`.** -/
structure Tracks (origin : InterferenceGraph) (k : Nat) (r : Reduction) : Prop where
  wellFormed : r.graph.WellFormed
  forest : r.graph.MergeForest
  size : r.graph.size = origin.size
  symbol? : ∀ n, r.graph.symbol? n = origin.symbol? n
  quotient : IsQuotient origin r.graph
  stacked : r.Stacked
  admits : r.Admits k

theorem isQuotient_apply (hg : r.graph.WellFormed) (hf : r.graph.MergeForest)
    (hq : IsQuotient origin r.graph) (hs : step.Allowed k r.graph) :
    IsQuotient origin (r.apply step).graph := by
  cases hs with
  | @simplify n active unmarked low =>
      exact hq.congr rfl (representative_takeOut r.graph n)
  | @constrain u v left right move conflict =>
      exact hq.congr (conflicts_removeMove r.graph u v)
        (sameNodes_removeMove r.graph u v).representative
  | merge left right move free safe =>
      exact hq.merge hg hf (hg.moves.ne move).symm left right free
  | @freeze n active marked low stuck =>
      exact hq.congr (conflicts_dropMoves r.graph n)
        (sameNodes_dropMoves r.graph n).representative
  | @spill n active high stuck =>
      refine hq.congr (conflicts_dropMoves r.graph n) fun m => ?_
      exact (representative_takeOut _ n m).trans ((sameNodes_dropMoves r.graph n).representative m)

/-- A step changes neither how many nodes there are nor what they stand for. -/
theorem symbols_apply (hg : r.graph.WellFormed) (hs : step.Allowed k r.graph) :
    (r.apply step).graph.size = r.graph.size ∧
      ∀ n, (r.apply step).graph.symbol? n = r.graph.symbol? n := by
  cases hs with
  | @simplify n active unmarked low => exact ⟨size_takeOut _ n, symbol?_takeOut _ n⟩
  | @constrain u v left right move conflict =>
      have hsame := sameNodes_removeMove r.graph u v
      exact ⟨hsame.size, hsame.symbol?⟩
  | @merge u v left right move free safe =>
      have huv : u ≠ v := (hg.moves.ne move).symm
      exact ⟨size_merge huv, symbol?_merge huv⟩
  | @freeze n active marked low stuck =>
      have hsame := sameNodes_dropMoves r.graph n
      exact ⟨hsame.size, hsame.symbol?⟩
  | @spill n active high stuck =>
      have hsame := sameNodes_dropMoves r.graph n
      exact ⟨(size_takeOut _ n).trans hsame.size,
        fun m => (symbol?_takeOut _ n m).trans (hsame.symbol? m)⟩

/-- **One step keeps the invariant.** -/
theorem Tracks.apply (hr : r.Tracks origin k) (hs : step.Allowed k r.graph) :
    (r.apply step).Tracks origin k where
  wellFormed := wellFormed_apply hr.wellFormed hs
  forest := mergeForest_apply hr.wellFormed hr.forest hs
  size := (symbols_apply hr.wellFormed hs).1.trans hr.size
  symbol? n := ((symbols_apply hr.wellFormed hs).2 n).trans (hr.symbol? n)
  quotient := isQuotient_apply hr.wellFormed hr.forest hr.quotient hs
  stacked := stacked_apply hr.wellFormed hr.stacked hs
  admits := admits_apply hr.wellFormed hr.forest hr.quotient hr.stacked hr.admits hs

/-- What every step preserves in states that track `origin`, a whole run preserves. -/
theorem Tracks.run_induction {P : Reduction → Prop}
    (hstep : ∀ {r : Reduction} {step : Step}, r.Tracks origin k → P r → step.Allowed k r.graph →
      P (r.apply step))
    (budget : Nat) (hr : r.Tracks origin k) (hP : P r) : P (run k policy budget r).2 :=
  (Reduction.run_induction (P := fun r => r.Tracks origin k ∧ P r)
    (fun h hs => ⟨h.1.apply hs, hstep h.1 h.2 hs⟩) budget ⟨hr, hP⟩).2

/-- The invariant holds before the first step. -/
theorem Tracks.start (hg : origin.Fresh) (k : Nat) (costs : SpillCosts) :
    (start origin costs).Tracks origin k where
  wellFormed := hg.wellFormed
  forest := MergeForest.of_untouched hg.untouched
  size := rfl
  symbol? _ := rfl
  quotient := IsQuotient.of_untouched hg.untouched
  stacked :=
    { mem_iff := fun n => by
        refine iff_of_false List.not_mem_nil fun hn => ?_
        have hactive := hg.untouched.isActive n (lt_size_of_hasStatus hn)
        exact absurd (hasStatus_unique hactive hn) (by simp)
      nodup := List.nodup_nil
      potential := fun n hn => absurd hn (IdSet.not_mem_empty n) }
  admits n below hsuf := absurd (List.suffix_nil.mp hsuf) (List.cons_ne_nil n below)

/-- **A whole reduction keeps the invariant.** -/
theorem Tracks.reduce (hg : origin.Fresh) (k : Nat) (policy : SpillPolicy) (costs : SpillCosts) :
    (Reduction.reduce k policy origin costs).2.Tracks origin k :=
  Reduction.run_induction (fun hr hs => hr.apply hs) _ (Tracks.start hg k costs)

end Reduction

end RegAlloc
