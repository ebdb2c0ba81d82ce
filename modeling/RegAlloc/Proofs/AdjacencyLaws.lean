import Mathlib.Algebra.BigOperators.Group.Finset.Sigma
import Mathlib.Data.Finset.Card
import RegAlloc.Interference.Adjacency
import RegAlloc.Proofs.FiniteSets

/-!
# Laws of undirected graphs

An `Adjacency` keeps every edge at both of its ends, and nothing in the type says that the two
agree.  `Adjacency.Lawful` says it: edges are symmetric and no node is joined to itself.  Every
operation keeps a graph lawful, and on a lawful graph each of them has a closed description of the
edges it leaves.

* `mem_neighbors_isolate`: isolating a node removes exactly its edges.
* `mem_neighbors_merge`: **merging is a quotient.**  Writing `rename a b` for the map that sends `b`
  to `a` and fixes everything else, the edges after `g.merge a b` are the renamed edges of `g`, less
  the loop that an edge between `a` and `b` would become.  `mem_neighbors_merge_self` and
  `mem_neighbors_merge_of_ne` say the same node by node.

The number of edge ends, `totalDegree`, is what the reduction spends on moves.  It is read here as
the cardinality of the set of ordered pairs `ends`, so that "this operation spends two ends" is a
subset statement and not an induction over rows.
-/

namespace RegAlloc

namespace Adjacency

/-- **A lawful graph:** every edge is recorded at both ends, and no node is its own neighbour. -/
structure Lawful (g : Adjacency) : Prop where
  /-- An edge is seen from both of its ends. -/
  symm : ∀ {a b : NodeId}, b ∈ g.neighbors a → a ∈ g.neighbors b
  /-- No node is joined to itself. -/
  irrefl : ∀ a : NodeId, a ∉ g.neighbors a

theorem Lawful.ne {g : Adjacency} (hg : g.Lawful) {a b : NodeId} (h : b ∈ g.neighbors a) :
    b ≠ a := by
  rintro rfl
  exact hg.irrefl b h

/-- Neighbours exist. -/
theorem Lawful.lt_size {g : Adjacency} (hg : g.Lawful) {a b : NodeId} (h : b ∈ g.neighbors a) :
    b < g.size :=
  lt_size_of_mem_neighbors (hg.symm h)

@[simp] theorem neighbors_empty (a : NodeId) : (∅ : Adjacency).neighbors a = ∅ :=
  neighbors_of_size_le (Nat.zero_le a)

theorem Lawful.empty : (∅ : Adjacency).Lawful where
  symm h := absurd (neighbors_empty _ ▸ h) (IdSet.not_mem_empty _)
  irrefl a h := absurd (neighbors_empty a ▸ h) (IdSet.not_mem_empty a)

theorem Lawful.addNode {g : Adjacency} (hg : g.Lawful) : g.addNode.Lawful where
  symm := by
    intro a b h
    rw [neighbors_addNode] at h ⊢
    exact hg.symm h
  irrefl a := by
    rw [neighbors_addNode]
    exact hg.irrefl a

theorem Lawful.link {g : Adjacency} (hg : g.Lawful) {u v : NodeId} (hu : u < g.size)
    (hv : v < g.size) : (g.link u v).Lawful where
  symm := by
    intro a b h
    rw [mem_neighbors_link hu hv] at h ⊢
    rcases h with h | ⟨hne, h | h⟩
    · exact Or.inl (hg.symm h)
    · exact Or.inr ⟨hne, Or.inr h.symm⟩
    · exact Or.inr ⟨hne, Or.inl h.symm⟩
  irrefl a := by
    rw [mem_neighbors_link hu hv]
    rintro (h | ⟨hne, ⟨rfl, h⟩ | ⟨rfl, h⟩⟩)
    · exact hg.irrefl a h
    · exact hne h
    · exact hne h.symm

theorem Lawful.unlink {g : Adjacency} (hg : g.Lawful) (u v : NodeId) : (g.unlink u v).Lawful where
  symm := by
    intro a b h
    rw [mem_neighbors_unlink] at h ⊢
    exact ⟨hg.symm h.1, fun e => h.2.2 e.symm, fun e => h.2.1 e.symm⟩
  irrefl a := by
    rw [mem_neighbors_unlink]
    exact fun h => hg.irrefl a h.1

/-! ## Isolating a node -/

/-- Parting `n` from every node of a list. -/
private theorem mem_neighbors_foldl_unlink {n a b : NodeId} (ms : List NodeId) (g : Adjacency) :
    b ∈ (ms.foldl (fun g m => g.unlink n m) g).neighbors a ↔
      b ∈ g.neighbors a ∧ ¬(a = n ∧ b ∈ ms) ∧ ¬(b = n ∧ a ∈ ms) := by
  induction ms generalizing g with
  | nil => simp
  | cons m ms ih =>
      rw [List.foldl_cons, ih, mem_neighbors_unlink]
      simp only [List.mem_cons]
      constructor
      · rintro ⟨⟨h, h₁, h₂⟩, h₃, h₄⟩
        exact ⟨h, fun ⟨ha, hb⟩ => hb.elim (fun e => h₁ ⟨ha, e⟩) fun e => h₃ ⟨ha, e⟩,
          fun ⟨hb, ha⟩ => ha.elim (fun e => h₂ ⟨e, hb⟩) fun e => h₄ ⟨hb, e⟩⟩
      · rintro ⟨h, h₁, h₂⟩
        exact ⟨⟨h, fun ⟨ha, hb⟩ => h₁ ⟨ha, Or.inl hb⟩, fun ⟨ha, hb⟩ => h₂ ⟨hb, Or.inl ha⟩⟩,
          fun ⟨ha, hb⟩ => h₁ ⟨ha, Or.inr hb⟩, fun ⟨hb, ha⟩ => h₂ ⟨hb, Or.inr ha⟩⟩

private theorem size_foldl_unlink {n : NodeId} (ms : List NodeId) (g : Adjacency) :
    (ms.foldl (fun g m => g.unlink n m) g).size = g.size := by
  induction ms generalizing g with
  | nil => rfl
  | cons m ms ih => rw [List.foldl_cons, ih, size_unlink]

@[simp] theorem size_isolate (g : Adjacency) (n : NodeId) : (g.isolate n).size = g.size :=
  size_foldl_unlink _ g

/-- **Isolating a node removes exactly its edges.** -/
theorem mem_neighbors_isolate {g : Adjacency} (hg : g.Lawful) {n a b : NodeId} :
    b ∈ (g.isolate n).neighbors a ↔ b ∈ g.neighbors a ∧ a ≠ n ∧ b ≠ n := by
  rw [isolate, mem_neighbors_foldl_unlink]
  simp only [IdSet.mem_toList]
  constructor
  · rintro ⟨h, h₁, h₂⟩
    refine ⟨h, ?_, ?_⟩
    · rintro rfl
      exact h₁ ⟨rfl, h⟩
    · rintro rfl
      exact h₂ ⟨rfl, hg.symm h⟩
  · rintro ⟨h, ha, hb⟩
    exact ⟨h, fun e => ha e.1, fun e => hb e.1⟩

theorem Lawful.isolate {g : Adjacency} (hg : g.Lawful) (n : NodeId) : (g.isolate n).Lawful where
  symm := by
    intro a b h
    rw [mem_neighbors_isolate hg] at h ⊢
    exact ⟨hg.symm h.1, h.2.2, h.2.1⟩
  irrefl a := by
    rw [mem_neighbors_isolate hg]
    exact fun h => hg.irrefl a h.1

/-! ## Merging two nodes -/

/-- The renaming that identifies `b` with `a`. -/
def rename (a b n : NodeId) : NodeId := if n = b then a else n

@[simp] theorem rename_self (a b : NodeId) : rename a b b = a := if_pos rfl

theorem rename_of_ne {a b n : NodeId} (h : n ≠ b) : rename a b n = n := if_neg h

theorem rename_ne {a b : NodeId} (hab : a ≠ b) (n : NodeId) : rename a b n ≠ b := by
  rcases eq_or_ne n b with rfl | hn
  · rw [rename_self]
    exact hab
  · rw [rename_of_ne hn]
    exact hn

/-- Renaming identifies `a` and `b` and nothing else. -/
theorem rename_eq_rename {a b m n : NodeId} (h : rename a b m = rename a b n) :
    m = n ∨ (m = a ∧ n = b) ∨ (m = b ∧ n = a) := by
  rcases eq_or_ne m b with hm | hm <;> rcases eq_or_ne n b with hn | hn
  · exact Or.inl (hm.trans hn.symm)
  · rw [hm, rename_self, rename_of_ne hn] at h
    exact Or.inr (Or.inr ⟨hm, h.symm⟩)
  · rw [hn, rename_self, rename_of_ne hm] at h
    exact Or.inr (Or.inl ⟨h, hn⟩)
  · rw [rename_of_ne hm, rename_of_ne hn] at h
    exact Or.inl h

private theorem size_foldl_merge {a b : NodeId} (ms : List NodeId) (g : Adjacency) :
    (ms.foldl (fun g n => (g.unlink b n).link a n) g).size = g.size := by
  induction ms generalizing g with
  | nil => rfl
  | cons m ms ih => rw [List.foldl_cons, ih, size_link, size_unlink]

@[simp] theorem size_merge (g : Adjacency) (a b : NodeId) : (g.merge a b).size = g.size :=
  size_foldl_merge _ g

/-- Moving the edges between `b` and the nodes of a list over to `a`, one by one. -/
private theorem mem_neighbors_foldl_merge {a b x y : NodeId} (hab : a ≠ b) (ms : List NodeId)
    (g : Adjacency) (ha : a < g.size) (hms : ∀ m ∈ ms, m < g.size ∧ m ≠ b) :
    y ∈ (ms.foldl (fun g n => (g.unlink b n).link a n) g).neighbors x ↔
      (y ∈ g.neighbors x ∧ ¬(x = b ∧ y ∈ ms) ∧ ¬(y = b ∧ x ∈ ms)) ∨
        (x = a ∧ y ∈ ms ∧ y ≠ a) ∨ (y = a ∧ x ∈ ms ∧ x ≠ a) := by
  induction ms generalizing g with
  | nil => simp
  | cons m ms ih =>
      obtain ⟨hm, hmb⟩ := hms m List.mem_cons_self
      have ha' : a < (g.unlink b m).size := by rw [size_unlink]; exact ha
      have hm' : m < (g.unlink b m).size := by rw [size_unlink]; exact hm
      rw [List.foldl_cons, ih _ (by rw [size_link]; exact ha')
        (fun n hn => by rw [size_link, size_unlink]; exact hms n (List.mem_cons_of_mem m hn)),
        mem_neighbors_link ha' hm', mem_neighbors_unlink]
      grind

/-- **Merging is a quotient.**  After `b` is merged into `a`, the edges are the renamed edges of the
old graph, less loops. -/
theorem mem_neighbors_merge {g : Adjacency} (hg : g.Lawful) {a b : NodeId} (hab : a ≠ b)
    (ha : a < g.size) {x y : NodeId} :
    y ∈ (g.merge a b).neighbors x ↔
      x ≠ y ∧ ∃ x' y', y' ∈ g.neighbors x' ∧ rename a b x' = x ∧ rename a b y' = y := by
  have hms : ∀ m ∈ (g.neighbors b).toList, m < g.size ∧ m ≠ b :=
    fun m hm => ⟨hg.lt_size hm, hg.ne hm⟩
  rw [Adjacency.merge, mem_neighbors_foldl_merge hab _ g ha hms]
  simp only [IdSet.mem_toList]
  constructor
  · rintro (⟨h, h₁, h₂⟩ | ⟨rfl, h, hne⟩ | ⟨rfl, h, hne⟩)
    · have hx : x ≠ b := fun e => h₁ ⟨e, e ▸ h⟩
      have hy : y ≠ b := fun e => h₂ ⟨e, hg.symm (e ▸ h)⟩
      exact ⟨(hg.ne h).symm, x, y, h, rename_of_ne hx, rename_of_ne hy⟩
    · exact ⟨hne.symm, b, y, h, rename_self x b, rename_of_ne (hg.ne h)⟩
    · exact ⟨hne, x, b, hg.symm h, rename_of_ne (hg.ne h), rename_self y b⟩
  · rintro ⟨hne, x', y', h, rfl, rfl⟩
    rcases eq_or_ne x' b with rfl | hx
    · rcases eq_or_ne y' x' with rfl | hy
      · exact absurd h (hg.irrefl y')
      · rw [rename_self, rename_of_ne hy] at hne ⊢
        exact Or.inr (Or.inl ⟨rfl, h, hne.symm⟩)
    · rcases eq_or_ne y' b with rfl | hy
      · rw [rename_self, rename_of_ne hx] at hne ⊢
        exact Or.inr (Or.inr ⟨rfl, hg.symm h, hne⟩)
      · rw [rename_of_ne hx, rename_of_ne hy]
        exact Or.inl ⟨h, fun e => hx e.1, fun e => hy e.1⟩

/-- The node that is kept gets the neighbours of both, less the two themselves. -/
theorem mem_neighbors_merge_self {g : Adjacency} (hg : g.Lawful) {a b : NodeId} (hab : a ≠ b)
    (ha : a < g.size) {y : NodeId} :
    y ∈ (g.merge a b).neighbors a ↔ (y ∈ g.neighbors a ∨ y ∈ g.neighbors b) ∧ y ≠ a ∧ y ≠ b := by
  rw [mem_neighbors_merge hg hab ha]
  constructor
  · rintro ⟨hne, x', y', h, hx, rfl⟩
    have hyb : y' ≠ b := by
      rintro rfl
      exact hne (rename_self a y').symm
    rw [rename_of_ne hyb] at hne ⊢
    refine ⟨?_, hne.symm, hyb⟩
    rcases eq_or_ne x' b with rfl | hxb
    · exact Or.inr h
    · rw [rename_of_ne hxb] at hx
      exact Or.inl (hx ▸ h)
  · rintro ⟨h | h, hya, hyb⟩
    · exact ⟨hya.symm, a, y, h, rename_of_ne hab, rename_of_ne hyb⟩
    · exact ⟨hya.symm, b, y, h, rename_self a b, rename_of_ne hyb⟩

/-- Any other node has its neighbours renamed, and `b` has none left. -/
theorem mem_neighbors_merge_of_ne {g : Adjacency} (hg : g.Lawful) {a b : NodeId} (hab : a ≠ b)
    (ha : a < g.size) {n y : NodeId} (hna : n ≠ a) :
    y ∈ (g.merge a b).neighbors n ↔ n ≠ b ∧ ∃ y' ∈ g.neighbors n, rename a b y' = y := by
  rw [mem_neighbors_merge hg hab ha]
  constructor
  · rintro ⟨-, x', y', h, rfl, rfl⟩
    have hxb : x' ≠ b := by
      rintro rfl
      exact hna (rename_self a x')
    rw [rename_of_ne hxb]
    exact ⟨hxb, y', h, rfl⟩
  · rintro ⟨hnb, y', h, rfl⟩
    refine ⟨?_, n, y', h, rename_of_ne hnb, rfl⟩
    rcases eq_or_ne y' b with rfl | hyb
    · rw [rename_self]
      exact hna
    · rw [rename_of_ne hyb]
      exact (hg.ne h).symm

theorem Lawful.merge {g : Adjacency} (hg : g.Lawful) {a b : NodeId} (hab : a ≠ b)
    (ha : a < g.size) : (g.merge a b).Lawful where
  symm := by
    intro x y h
    rw [mem_neighbors_merge hg hab ha] at h ⊢
    obtain ⟨hne, x', y', h, hx, hy⟩ := h
    exact ⟨hne.symm, y', x', hg.symm h, hy, hx⟩
  irrefl x := by
    rw [mem_neighbors_merge hg hab ha]
    exact fun h => h.1 rfl

/-! ## Counting edge ends -/

/-- Every edge as two ordered pairs, one per end. -/
def ends (g : Adjacency) : Finset (Σ _ : NodeId, NodeId) :=
  (Finset.range g.size).sigma fun a => (g.neighbors a).toFinset

@[simp] theorem mem_ends {g : Adjacency} {a b : NodeId} :
    (⟨a, b⟩ : Σ _ : NodeId, NodeId) ∈ g.ends ↔ b ∈ g.neighbors a := by
  rw [ends, Finset.mem_sigma, Finset.mem_range, IdSet.mem_toFinset]
  exact and_iff_right_of_imp lt_size_of_mem_neighbors

/-- The rows of a graph are the neighbour sets of its nodes, in order. -/
private theorem toList_rows (g : Adjacency) :
    g.rows.toList = (List.range g.size).map g.neighbors := by
  refine List.ext_getElem (by simp [size]) fun i h₁ h₂ => ?_
  have hi : i < g.rows.size := by simpa using h₁
  simp [neighbors, Array.getD_eq_getD_getElem?, hi]

/-- The total degree counts ordered pairs. -/
theorem totalDegree_eq_card (g : Adjacency) : g.totalDegree = g.ends.card := by
  have hfold : ∀ rows : List IdSet,
      rows.foldr (fun row n => row.size + n) 0 = (rows.map IdSet.size).sum := by
    intro rows
    induction rows with
    | nil => rfl
    | cons row rows ih => rw [List.foldr_cons, ih, List.map_cons, List.sum_cons]
  rw [totalDegree, hfold, toList_rows, List.map_map, ends, Finset.card_sigma]
  simp only [IdSet.card_toFinset]
  rfl

/-- **An operation that loses an edge and gains none spends two ends**, also if it renames nodes:
every end it leaves is the renamed end of another edge. -/
theorem totalDegree_add_two_le {g g' : Adjacency} (hg : g.Lawful) {u v : NodeId}
    (huv : v ∈ g.neighbors u) (f : NodeId → NodeId)
    (h : ∀ a b, b ∈ g'.neighbors a → ∃ a' b', b' ∈ g.neighbors a' ∧ f a' = a ∧ f b' = b ∧
      ¬(a' = u ∧ b' = v) ∧ ¬(a' = v ∧ b' = u)) :
    g'.totalDegree + 2 ≤ g.totalDegree := by
  let lost : Finset (Σ _ : NodeId, NodeId) := {⟨u, v⟩, ⟨v, u⟩}
  have hne : (⟨u, v⟩ : Σ _ : NodeId, NodeId) ≠ ⟨v, u⟩ := by
    intro e
    exact hg.ne huv (Sigma.mk.inj e).1.symm
  have hlost : lost ⊆ g.ends := by
    intro p hp
    rcases Finset.mem_insert.mp hp with rfl | hp
    · exact mem_ends.mpr huv
    · rw [Finset.mem_singleton.mp hp]
      exact mem_ends.mpr (hg.symm huv)
  have hsub : g'.ends ⊆ (g.ends \ lost).image fun p => ⟨f p.1, f p.2⟩ := by
    rintro ⟨a, b⟩ hp
    obtain ⟨a', b', hab, rfl, rfl, h₁, h₂⟩ := h a b (mem_ends.mp hp)
    refine Finset.mem_image.mpr ⟨⟨a', b'⟩, ?_, rfl⟩
    refine Finset.mem_sdiff.mpr ⟨mem_ends.mpr hab, fun hl => ?_⟩
    rcases Finset.mem_insert.mp hl with e | hl
    · cases e
      exact h₁ ⟨rfl, rfl⟩
    · cases Finset.mem_singleton.mp hl
      exact h₂ ⟨rfl, rfl⟩
  have hcard : (g.ends \ lost).card + 2 = g.ends.card := by
    rw [← Finset.card_pair hne, Finset.card_sdiff_add_card_eq_card hlost]
  rw [totalDegree_eq_card, totalDegree_eq_card, ← hcard]
  exact Nat.add_le_add_right ((Finset.card_le_card hsub).trans Finset.card_image_le) 2

theorem Lawful.totalDegree_unlink {g : Adjacency} (hg : g.Lawful) {u v : NodeId}
    (huv : v ∈ g.neighbors u) : (g.unlink u v).totalDegree + 2 ≤ g.totalDegree := by
  refine totalDegree_add_two_le hg huv id fun a b hab => ?_
  rw [mem_neighbors_unlink] at hab
  exact ⟨a, b, hab.1, rfl, rfl, hab.2⟩

/-- A merge along an edge spends it: it would become a loop. -/
theorem Lawful.totalDegree_merge {g : Adjacency} (hg : g.Lawful) {u v : NodeId}
    (huv : v ∈ g.neighbors u) : (g.merge u v).totalDegree + 2 ≤ g.totalDegree := by
  have hne : u ≠ v := (hg.ne huv).symm
  have hu : u < g.size := lt_size_of_mem_neighbors huv
  refine totalDegree_add_two_le hg huv (rename u v) fun a b hab => ?_
  rw [mem_neighbors_merge hg hne hu] at hab
  obtain ⟨hloop, a', b', hab, rfl, rfl⟩ := hab
  refine ⟨a', b', hab, rfl, rfl, ?_, ?_⟩
  · rintro ⟨rfl, rfl⟩
    exact hloop (by rw [rename_self, rename_of_ne hne])
  · rintro ⟨rfl, rfl⟩
    exact hloop (by rw [rename_self, rename_of_ne hne])

theorem Lawful.totalDegree_isolate {g : Adjacency} (hg : g.Lawful) {n m : NodeId}
    (hm : m ∈ g.neighbors n) : (g.isolate n).totalDegree + 2 ≤ g.totalDegree := by
  refine totalDegree_add_two_le hg hm id fun a b hab => ?_
  rw [mem_neighbors_isolate hg] at hab
  exact ⟨a, b, hab.1, rfl, rfl, fun e => hab.2.1 e.1, fun e => hab.2.2 e.2⟩

/-- Isolating a node gains no edge, whether it loses one or not. -/
theorem Lawful.totalDegree_isolate_le {g : Adjacency} (hg : g.Lawful) (n : NodeId) :
    (g.isolate n).totalDegree ≤ g.totalDegree := by
  rw [totalDegree_eq_card, totalDegree_eq_card]
  refine Finset.card_le_card ?_
  rintro ⟨a, b⟩ hp
  exact mem_ends.mpr ((mem_neighbors_isolate hg).mp (mem_ends.mp hp)).1

end Adjacency

end RegAlloc
