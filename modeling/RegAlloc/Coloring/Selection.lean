import RegAlloc.Coloring.Reduction

/-!
# Handing out registers

The nodes taken out of an interference graph get their registers in the opposite order: the last
one out is the first one served.  A node gets the lowest register that none of its neighbours holds
yet, and everything merged into it gets the same one.  If its neighbours hold all of the `k`
registers, the node stays without.
-/

namespace RegAlloc

/-- The registers given so far. -/
structure Selection where
  /-- The register of each node. -/
  colors : Array (Option Nat)
  /-- The nodes that found no register, in the order they were served. -/
  spilled : List NodeId
deriving DecidableEq, Repr, Inhabited

/-- The least number from `c` on that is missing in an ascending list. -/
def leastMissingFrom (c : Nat) : List Nat → Nat
  | [] => c
  | x :: xs => if x = c then leastMissingFrom (c + 1) xs else c

theorem le_leastMissingFrom (c : Nat) (xs : List Nat) : c ≤ leastMissingFrom c xs := by
  induction xs generalizing c with
  | nil => exact Nat.le_refl c
  | cons x xs ih =>
    unfold leastMissingFrom
    split
    · exact Nat.le_trans (Nat.le_succ c) (ih (c + 1))
    · exact Nat.le_refl c

/-- Everything from `c` up to the least missing number is in the list. -/
theorem mem_of_lt_leastMissingFrom {c d : Nat} {xs : List Nat} (hc : c ≤ d)
    (hd : d < leastMissingFrom c xs) : d ∈ xs := by
  induction xs generalizing c with
  | nil => exact absurd hd (Nat.not_lt.mpr hc)
  | cons x xs ih =>
    unfold leastMissingFrom at hd
    split at hd
    · rename_i hx
      rcases Nat.eq_or_lt_of_le hc with rfl | hlt
      · exact List.mem_cons.mpr (Or.inl hx.symm)
      · exact List.mem_cons_of_mem x (ih hlt hd)
    · exact absurd hd (Nat.not_lt.mpr hc)

theorem leastMissingFrom_not_mem {c : Nat} {xs : List Nat} (h : xs.Pairwise (· < ·))
    (hc : ∀ x ∈ xs, c ≤ x) : leastMissingFrom c xs ∉ xs := by
  induction xs generalizing c with
  | nil => exact List.not_mem_nil
  | cons x xs ih =>
    obtain ⟨hx, hxs⟩ := List.pairwise_cons.mp h
    unfold leastMissingFrom
    split
    · rename_i he
      subst he
      intro hm
      rcases List.mem_cons.mp hm with he | hm
      · have := le_leastMissingFrom (x + 1) xs
        omega
      · exact ih hxs (fun y hy => hx y hy) hm
    · rename_i hne
      intro hm
      rcases List.mem_cons.mp hm with he | hm
      · exact hne he.symm
      · have := hx c hm
        have := hc x List.mem_cons_self
        omega

/-- The least number that is not in a set. -/
def IdSet.leastMissing (s : IdSet) : Nat := leastMissingFrom 0 s.toList

theorem IdSet.leastMissing_not_mem (s : IdSet) : s.leastMissing ∉ s :=
  leastMissingFrom_not_mem s.ascending fun x _ => Nat.zero_le x

theorem IdSet.mem_of_lt_leastMissing {s : IdSet} {c : Nat} (h : c < s.leastMissing) : c ∈ s :=
  mem_of_lt_leastMissingFrom (Nat.zero_le c) h

namespace Selection

/-- No node has a register yet. -/
def start (size : Nat) : Selection := ⟨Array.replicate size none, []⟩

/-- The register of a node. -/
def color? (s : Selection) (n : NodeId) : Option Nat := s.colors[n]?.join

/-- The registers that the neighbours of a node hold. -/
def taken (s : Selection) (g : InterferenceGraph) (n : NodeId) : IdSet :=
  IdSet.ofList ((g.neighbors n).toList.filterMap s.color?)

/-- The lowest of `k` registers that no neighbour of a node holds. -/
def free? (k : Nat) (s : Selection) (g : InterferenceGraph) (n : NodeId) : Option Nat :=
  let c := (s.taken g n).leastMissing
  if c < k then some c else none

/-- Give one register to several nodes. -/
def give (s : Selection) (c : Nat) (ns : List NodeId) : Selection :=
  { s with colors := ns.foldl (fun colors n => colors.setIfInBounds n (some c)) s.colors }

/-- Serve one node. -/
def serve (k : Nat) (g : InterferenceGraph) (s : Selection) (n : NodeId) : Selection :=
  match s.free? k g n with
  | some c => s.give c (n :: g.members n)
  | none => { s with spilled := s.spilled ++ [n] }

/-- **Serve the nodes of a stack**, last one out first. -/
def ofStack (k : Nat) (g : InterferenceGraph) (stack : List NodeId) : Selection :=
  stack.foldl (serve k g) (start g.size)

end Selection

end RegAlloc
