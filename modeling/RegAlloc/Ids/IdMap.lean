/-!
# Finite maps keyed by identifiers

`IdMap α` holds one value per key, listed by ascending key.  It carries the assignments of the
library that are looked up by symbol and shown in symbol order: the registers of a colouring, the
fields of a class, the offset of a field.

Writing to a key that is there already **replaces** its value, so of several writes the last wins.
-/

namespace RegAlloc

/-- Put `k ↦ v` at its place in a listing by ascending key, replacing an earlier value. -/
def insertEntry {α : Type} (k : Nat) (v : α) : List (Nat × α) → List (Nat × α)
  | [] => [(k, v)]
  | e :: es =>
    if k < e.1 then (k, v) :: e :: es
    else if k = e.1 then (k, v) :: es
    else e :: insertEntry k v es

theorem fst_mem_of_mem_insertEntry {α : Type} {k : Nat} {v : α} {es : List (Nat × α)}
    {e : Nat × α} (h : e ∈ insertEntry k v es) : e.1 = k ∨ e ∈ es := by
  induction es with
  | nil => simp [insertEntry] at h; simp [h]
  | cons d ds ih =>
    unfold insertEntry at h
    split at h
    · rcases List.mem_cons.mp h with rfl | h
      · exact Or.inl rfl
      · exact Or.inr h
    · split at h
      · rcases List.mem_cons.mp h with rfl | h
        · exact Or.inl rfl
        · exact Or.inr (List.mem_cons_of_mem _ h)
      · rcases List.mem_cons.mp h with rfl | h
        · exact Or.inr List.mem_cons_self
        · exact (ih h).imp id (List.mem_cons_of_mem _)

theorem pairwise_insertEntry {α : Type} {k : Nat} {v : α} {es : List (Nat × α)}
    (h : es.Pairwise (fun a b => a.1 < b.1)) :
    (insertEntry k v es).Pairwise (fun a b => a.1 < b.1) := by
  induction es with
  | nil => simp [insertEntry]
  | cons d ds ih =>
    obtain ⟨hd, hds⟩ := List.pairwise_cons.mp h
    unfold insertEntry
    split
    · rename_i hk
      refine List.pairwise_cons.mpr ⟨fun e he => ?_, h⟩
      rcases List.mem_cons.mp he with rfl | he
      · exact hk
      · exact Nat.lt_trans hk (hd e he)
    · split
      · rename_i hk
        refine List.pairwise_cons.mpr ⟨fun e he => ?_, hds⟩
        show k < e.1
        rw [hk]
        exact hd e he
      · refine List.pairwise_cons.mpr ⟨fun e he => ?_, ih hds⟩
        rcases fst_mem_of_mem_insertEntry he with h' | he
        · omega
        · exact hd e he

/-- A finite map from identifiers, listed by ascending key. -/
structure IdMap (α : Type) where
  /-- The keys with their values, smallest key first. -/
  toList : List (Nat × α)
  /-- The keys are strictly ascending, so no key has two values. -/
  ascending : toList.Pairwise (fun a b => a.1 < b.1)
deriving DecidableEq

namespace IdMap

variable {α : Type}

/-- The map without entries. -/
def empty : IdMap α := ⟨[], List.Pairwise.nil⟩

instance : EmptyCollection (IdMap α) := ⟨empty⟩

instance : Inhabited (IdMap α) := ⟨∅⟩

/-- The value at a key. -/
def get? (m : IdMap α) (k : Nat) : Option α := m.toList.lookup k

/-- Whether the key has a value. -/
def contains (m : IdMap α) (k : Nat) : Bool := (m.get? k).isSome

/-- Give `k` the value `v`; an earlier value of `k` is replaced. -/
def insert (m : IdMap α) (k : Nat) (v : α) : IdMap α :=
  ⟨insertEntry k v m.toList, pairwise_insertEntry m.ascending⟩

/-- How many keys have a value. -/
def size (m : IdMap α) : Nat := m.toList.length

/-- The keys, smallest first. -/
def keys (m : IdMap α) : List Nat := m.toList.map Prod.fst

/-- Write every entry of a list, first to last. -/
def insertList (m : IdMap α) (es : List (Nat × α)) : IdMap α :=
  es.foldl (fun m e => m.insert e.1 e.2) m

@[simp] theorem get?_empty (k : Nat) : (∅ : IdMap α).get? k = none := rfl

theorem lookup_insertEntry (k : Nat) (v : α) (es : List (Nat × α))
    (h : es.Pairwise (fun a b => a.1 < b.1)) (j : Nat) :
    (insertEntry k v es).lookup j = if j = k then some v else es.lookup j := by
  induction es with
  | nil =>
    by_cases hj : j = k
    · simp [insertEntry, hj]
    · have hjk : (j == k) = false := by simpa using hj
      simp [insertEntry, List.lookup_cons, hj, hjk]
  | cons d ds ih =>
    obtain ⟨_, hds⟩ := List.pairwise_cons.mp h
    obtain ⟨i, w⟩ := d
    unfold insertEntry
    by_cases hj : j = k
    · subst hj
      split
      · simp
      · split
        · simp
        · rename_i hne
          simp only [List.lookup_cons, ih hds, if_true]
          have : (j == i) = false := by simpa using hne
          simp [this]
    · have hjk : (j == k) = false := by simpa using hj
      split
      · simp [List.lookup_cons, hjk]
      · split
        · rename_i hk
          have hk' : k = i := hk
          have : (j == i) = false := by rw [← hk']; exact hjk
          simp [List.lookup_cons, hjk, this]
        · simp only [List.lookup_cons, ih hds, if_neg hj]

@[simp] theorem get?_insert (m : IdMap α) (k : Nat) (v : α) (j : Nat) :
    (m.insert k v).get? j = if j = k then some v else m.get? j :=
  lookup_insertEntry k v m.toList m.ascending j

end IdMap

end RegAlloc
