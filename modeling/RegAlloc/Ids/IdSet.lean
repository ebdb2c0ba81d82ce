/-!
# Finite sets of identifiers

Every analysis of this library works with finite sets of small natural numbers: the symbols that
are live at a point, the neighbours of a node, the blocks of a loop.  `IdSet` keeps such a set as
its strictly ascending list of members.

Two consequences are load-bearing.

* The representation is **canonical**: sets with the same members are equal (`IdSet.ext`), so
  "has the iteration changed anything" is plain equality.
* The listing order is **ascending**, which is the order in which every table and text of the
  library shows a set.

Nothing outside this file looks inside the list: each operation has a membership lemma.
-/

namespace RegAlloc

/-- Put `x` at its place in an ascending list, unless it is there already. -/
def insertAscending (x : Nat) : List Nat → List Nat
  | [] => [x]
  | y :: ys => if x < y then x :: y :: ys else if x = y then y :: ys else y :: insertAscending x ys

@[simp] theorem mem_insertAscending {a x : Nat} {ys : List Nat} :
    a ∈ insertAscending x ys ↔ a = x ∨ a ∈ ys := by
  induction ys with
  | nil => simp [insertAscending]
  | cons y ys ih =>
    unfold insertAscending
    split
    · simp
    · split
      · rename_i h; subst h; simp
      · simp only [List.mem_cons, ih]
        exact or_left_comm

theorem pairwise_insertAscending {x : Nat} {ys : List Nat} (h : ys.Pairwise (· < ·)) :
    (insertAscending x ys).Pairwise (· < ·) := by
  induction ys with
  | nil => simp [insertAscending]
  | cons y ys ih =>
    obtain ⟨hy, hys⟩ := List.pairwise_cons.mp h
    unfold insertAscending
    split
    · rename_i hxy
      refine List.pairwise_cons.mpr ⟨fun z hz => ?_, h⟩
      rcases List.mem_cons.mp hz with rfl | hz
      · exact hxy
      · exact Nat.lt_trans hxy (hy z hz)
    · split
      · exact h
      · refine List.pairwise_cons.mpr ⟨fun z hz => ?_, ih hys⟩
        rcases mem_insertAscending.mp hz with rfl | hz
        · omega
        · exact hy z hz

/-- Strictly ascending lists with the same members are the same list. -/
theorem eq_of_ascending_of_mem_iff {xs ys : List Nat} (hx : xs.Pairwise (· < ·))
    (hy : ys.Pairwise (· < ·)) (h : ∀ a, a ∈ xs ↔ a ∈ ys) : xs = ys := by
  induction xs generalizing ys with
  | nil =>
    cases ys with
    | nil => rfl
    | cons y ys => exact absurd ((h y).mpr List.mem_cons_self) List.not_mem_nil
  | cons x xs ih =>
    cases ys with
    | nil => exact absurd ((h x).mp List.mem_cons_self) List.not_mem_nil
    | cons y ys =>
      obtain ⟨hx₁, hx₂⟩ := List.pairwise_cons.mp hx
      obtain ⟨hy₁, hy₂⟩ := List.pairwise_cons.mp hy
      have hxy : x = y := by
        have h₁ := List.mem_cons.mp ((h x).mp List.mem_cons_self)
        have h₂ := List.mem_cons.mp ((h y).mpr List.mem_cons_self)
        rcases h₁ with h₁ | h₁
        · exact h₁
        · rcases h₂ with h₂ | h₂
          · exact h₂.symm
          · have := hy₁ x h₁
            have := hx₁ y h₂
            omega
      subst hxy
      rw [ih hx₂ hy₂]
      intro a
      have ha := h a
      simp only [List.mem_cons] at ha
      constructor
      · intro hm
        rcases ha.mp (Or.inr hm) with rfl | hm'
        · exact absurd (hx₁ a hm) (Nat.lt_irrefl a)
        · exact hm'
      · intro hm
        rcases ha.mpr (Or.inr hm) with rfl | hm'
        · exact absurd (hy₁ a hm) (Nat.lt_irrefl a)
        · exact hm'

/-- A finite set of identifiers, listed in ascending order. -/
structure IdSet where
  /-- The members, smallest first. -/
  toList : List Nat
  /-- The listing is strictly ascending, so it has no repetition. -/
  ascending : toList.Pairwise (· < ·)
deriving DecidableEq

namespace IdSet

instance : Membership Nat IdSet := ⟨fun s a => a ∈ s.toList⟩

instance (a : Nat) (s : IdSet) : Decidable (a ∈ s) := inferInstanceAs (Decidable (a ∈ s.toList))

@[simp] theorem mem_toList {a : Nat} {s : IdSet} : a ∈ s.toList ↔ a ∈ s := Iff.rfl

/-- **Sets are extensional:** the members determine the set. -/
@[ext] theorem ext {s t : IdSet} (h : ∀ a, a ∈ s ↔ a ∈ t) : s = t := by
  cases s with
  | mk xs hx =>
    cases t with
    | mk ys hy =>
      have := eq_of_ascending_of_mem_iff hx hy h
      subst this
      rfl

theorem nodup_toList (s : IdSet) : s.toList.Nodup :=
  s.ascending.imp Nat.ne_of_lt

/-- The set without members. -/
def empty : IdSet := ⟨[], List.Pairwise.nil⟩

instance : EmptyCollection IdSet := ⟨empty⟩

instance : Inhabited IdSet := ⟨∅⟩

@[simp] theorem not_mem_empty (a : Nat) : a ∉ (∅ : IdSet) := List.not_mem_nil

@[simp] theorem toList_empty : (∅ : IdSet).toList = [] := rfl

/-- Add one member. -/
def insert (s : IdSet) (a : Nat) : IdSet :=
  ⟨insertAscending a s.toList, pairwise_insertAscending s.ascending⟩

@[simp] theorem mem_insert {a x : Nat} {s : IdSet} : a ∈ s.insert x ↔ a = x ∨ a ∈ s :=
  mem_insertAscending

/-- Keep the members that satisfy `p`. -/
def filter (p : Nat → Bool) (s : IdSet) : IdSet :=
  ⟨s.toList.filter p, s.ascending.filter p⟩

@[simp] theorem mem_filter {a : Nat} {p : Nat → Bool} {s : IdSet} :
    a ∈ s.filter p ↔ a ∈ s ∧ p a = true :=
  List.mem_filter

@[simp] theorem toList_filter (p : Nat → Bool) (s : IdSet) :
    (s.filter p).toList = s.toList.filter p := rfl

/-- Remove one member. -/
def erase (s : IdSet) (x : Nat) : IdSet := s.filter (· != x)

@[simp] theorem mem_erase {a x : Nat} {s : IdSet} : a ∈ s.erase x ↔ a ≠ x ∧ a ∈ s := by
  simp [erase, and_comm]

/-- Add every element of a list. -/
def insertList (s : IdSet) (xs : List Nat) : IdSet := xs.foldl (fun t x => t.insert x) s

@[simp] theorem mem_insertList {a : Nat} {s : IdSet} {xs : List Nat} :
    a ∈ s.insertList xs ↔ a ∈ s ∨ a ∈ xs := by
  induction xs generalizing s with
  | nil => simp [insertList]
  | cons x xs ih =>
    have h : s.insertList (x :: xs) = (s.insert x).insertList xs := rfl
    rw [h, ih, mem_insert, List.mem_cons, or_assoc, or_left_comm]

/-- The set of the elements of a list. -/
def ofList (xs : List Nat) : IdSet := insertList ∅ xs

@[simp] theorem mem_ofList {a : Nat} {xs : List Nat} : a ∈ ofList xs ↔ a ∈ xs := by
  simp [ofList]

/-- The set with one member. -/
def singleton (a : Nat) : IdSet := insert ∅ a

@[simp] theorem mem_singleton {a x : Nat} : a ∈ singleton x ↔ a = x := by
  simp [singleton]

/-- The members of either set. -/
def union (s t : IdSet) : IdSet := s.insertList t.toList

instance : Union IdSet := ⟨union⟩

@[simp] theorem mem_union {a : Nat} {s t : IdSet} : a ∈ s ∪ t ↔ a ∈ s ∨ a ∈ t :=
  mem_insertList

/-- The members of `s` that are not in `t`. -/
def diff (s t : IdSet) : IdSet := s.filter (fun a => decide (a ∉ t))

instance : SDiff IdSet := ⟨diff⟩

@[simp] theorem mem_diff {a : Nat} {s t : IdSet} : a ∈ s \ t ↔ a ∈ s ∧ a ∉ t := by
  show a ∈ s.filter _ ↔ _
  simp

/-- The union of the sets `f x` for `x` in a list. -/
def unionOver (f : Nat → IdSet) (xs : List Nat) : IdSet := xs.foldl (fun s x => s ∪ f x) ∅

theorem mem_foldl_union {a : Nat} {f : Nat → IdSet} {xs : List Nat} {s : IdSet} :
    a ∈ xs.foldl (fun s x => s ∪ f x) s ↔ a ∈ s ∨ ∃ x ∈ xs, a ∈ f x := by
  induction xs generalizing s with
  | nil => simp
  | cons x xs ih =>
    simp only [List.foldl_cons, ih, mem_union, List.mem_cons, exists_eq_or_imp, or_assoc]

@[simp] theorem mem_unionOver {a : Nat} {f : Nat → IdSet} {xs : List Nat} :
    a ∈ unionOver f xs ↔ ∃ x ∈ xs, a ∈ f x := by
  simp [unionOver, mem_foldl_union]

/-- How many members there are. -/
def size (s : IdSet) : Nat := s.toList.length

/-- Whether there is no member. -/
def isEmpty (s : IdSet) : Bool := s.toList.isEmpty

theorem isEmpty_iff {s : IdSet} : s.isEmpty = true ↔ ∀ a, a ∉ s := by
  rw [isEmpty, List.isEmpty_iff]
  constructor
  · intro h a ha
    exact List.not_mem_nil (h ▸ ha : a ∈ ([] : List Nat))
  · intro h
    exact List.eq_nil_iff_forall_not_mem.mpr h

end IdSet

end RegAlloc
