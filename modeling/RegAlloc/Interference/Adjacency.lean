import RegAlloc.Ids.IdSet

/-!
# Undirected graphs on numbered nodes

`Adjacency` holds an undirected relation between the nodes `0, 1, 2, …` as one neighbour set per
node.  The interference graph keeps two of them, one for interference and one for moves.

Every change is made at both ends of an edge, and an edge from a node to itself is never added, so
a graph that was made by the operations of this file is symmetric and has no loops.  Nodes without
a row have no neighbours, and changes to them are lost.
-/

namespace RegAlloc

/-- The number of a node: its position in the order of creation. -/
abbrev NodeId := Nat

/-- The text of a node number. -/
def NodeId.text (n : NodeId) : String := "n" ++ toString n

/-- An undirected graph, as the neighbours of each node. -/
structure Adjacency where
  /-- The neighbours of node `0`, of node `1`, and so on. -/
  rows : Array IdSet
deriving DecidableEq

namespace Adjacency

/-- The graph without nodes. -/
def empty : Adjacency := ⟨#[]⟩

instance : EmptyCollection Adjacency := ⟨empty⟩

instance : Inhabited Adjacency := ⟨∅⟩

/-- How many nodes there are. -/
def size (g : Adjacency) : Nat := g.rows.size

/-- The neighbours of a node. -/
def neighbors (g : Adjacency) (n : NodeId) : IdSet := g.rows.getD n ∅

/-- Whether two nodes are joined by an edge. -/
def linked (g : Adjacency) (u v : NodeId) : Bool := decide (v ∈ g.neighbors u)

/-- Add a node without edges. -/
def addNode (g : Adjacency) : Adjacency := ⟨g.rows.push ∅⟩

/-- Join two nodes; a node is never joined to itself. -/
def link (g : Adjacency) (u v : NodeId) : Adjacency :=
  if u = v then g else ⟨(g.rows.modify u (·.insert v)).modify v (·.insert u)⟩

/-- Remove the edge between two nodes. -/
def unlink (g : Adjacency) (u v : NodeId) : Adjacency :=
  ⟨(g.rows.modify u (·.erase v)).modify v (·.erase u)⟩

/-- Remove all edges of a node. -/
def isolate (g : Adjacency) (n : NodeId) : Adjacency :=
  (g.neighbors n).toList.foldl (fun g m => g.unlink n m) g

/-- Move every edge of `b` over to `a`; an edge between the two disappears. -/
def merge (g : Adjacency) (a b : NodeId) : Adjacency :=
  (g.neighbors b).toList.foldl (fun g n => (g.unlink b n).link a n) g

/-- The total number of neighbours, which is twice the number of edges. -/
def totalDegree (g : Adjacency) : Nat := g.rows.toList.foldr (fun row n => row.size + n) 0

/-! ### What the operations do to neighbours -/

@[simp] theorem size_addNode (g : Adjacency) : g.addNode.size = g.size + 1 := by
  simp [size, addNode]

@[simp] theorem size_link (g : Adjacency) (u v : NodeId) : (g.link u v).size = g.size := by
  unfold link
  split <;> simp [size]

@[simp] theorem size_unlink (g : Adjacency) (u v : NodeId) : (g.unlink u v).size = g.size := by
  simp [size, unlink]

/-- A node beyond the rows has no neighbours. -/
theorem neighbors_of_size_le {g : Adjacency} {n : NodeId} (h : g.size ≤ n) : g.neighbors n = ∅ := by
  simp [neighbors, Array.getD_eq_getD_getElem?, Array.getElem?_eq_none h]

theorem lt_size_of_mem_neighbors {g : Adjacency} {a b : NodeId} (h : b ∈ g.neighbors a) :
    a < g.size := by
  rcases Nat.lt_or_ge a g.size with ha | ha
  · exact ha
  · rw [neighbors_of_size_le ha] at h
    exact absurd h (IdSet.not_mem_empty b)

@[simp] theorem neighbors_addNode (g : Adjacency) (n : NodeId) :
    g.addNode.neighbors n = g.neighbors n := by
  rcases Nat.lt_trichotomy n g.size with h | h | h
  · have hne : n ≠ g.rows.size := Nat.ne_of_lt h
    simp [neighbors, addNode, Array.getD_eq_getD_getElem?, Array.getElem?_push, hne]
  · subst h
    rw [neighbors_of_size_le (Nat.le_refl _)]
    simp [neighbors, addNode, size, Array.getD_eq_getD_getElem?]
  · rw [neighbors_of_size_le (Nat.le_of_lt h), neighbors_of_size_le (by rw [size_addNode]; exact h)]

/-- Changing one row changes the neighbours of that node only. -/
theorem getD_modify (rows : Array IdSet) (u n : NodeId) (f : IdSet → IdSet) :
    (rows.modify u f).getD n ∅ =
      if u = n ∧ n < rows.size then f (rows.getD n ∅) else rows.getD n ∅ := by
  rw [Array.getD_eq_getD_getElem?, Array.getD_eq_getD_getElem?, Array.getElem?_modify]
  by_cases hn : n < rows.size
  · by_cases hu : u = n <;> simp [hu, hn]
  · by_cases hu : u = n <;> simp [hu, hn]

/-- Joining two nodes makes them neighbours of each other and changes nothing else. -/
theorem mem_neighbors_link {g : Adjacency} {u v a b : NodeId} (hu : u < g.size) (hv : v < g.size) :
    b ∈ (g.link u v).neighbors a ↔
      b ∈ g.neighbors a ∨ u ≠ v ∧ (a = u ∧ b = v ∨ a = v ∧ b = u) := by
  unfold link
  split
  · rename_i h
    simp [h]
  · rename_i h
    have hu' : u < g.rows.size := hu
    have hv' : v < g.rows.size := hv
    simp only [neighbors, getD_modify, Array.size_modify]
    by_cases ha : u = a
    · subst ha
      have hvu : ¬v = u := fun e => h e.symm
      simp [hvu, hu', h, or_comm]
    · by_cases hb : v = a
      · subst hb
        have hvu : ¬v = u := fun e => ha e.symm
        simp [ha, hvu, hv', or_comm]
      · have ha' : ¬a = u := fun e => ha e.symm
        have hb' : ¬a = v := fun e => hb e.symm
        simp [ha, hb, ha', hb']

/-- Parting two nodes makes them neighbours no longer and changes nothing else. -/
theorem mem_neighbors_unlink {g : Adjacency} {u v a b : NodeId} :
    b ∈ (g.unlink u v).neighbors a ↔
      b ∈ g.neighbors a ∧ ¬(a = u ∧ b = v) ∧ ¬(a = v ∧ b = u) := by
  rcases Nat.lt_or_ge a g.size with hs | hs
  · have hs' : a < g.rows.size := hs
    simp only [neighbors, unlink, getD_modify, Array.size_modify]
    by_cases ha : u = a
    · subst ha
      by_cases hb : v = u
      · subst hb
        simp [hs', and_comm]
      · have hb' : ¬u = v := fun e => hb e.symm
        simp [hb, hb', hs', and_comm]
    · have ha' : ¬a = u := fun e => ha e.symm
      by_cases hb : v = a
      · subst hb
        simp [ha, ha', hs', and_comm]
      · have hb' : ¬a = v := fun e => hb e.symm
        simp [ha, hb, ha', hb']
  · rw [neighbors_of_size_le hs, neighbors_of_size_le (by rw [size_unlink]; exact hs)]
    simp

end Adjacency

end RegAlloc
