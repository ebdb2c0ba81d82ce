import Mathlib.Data.Finset.Card
import Mathlib.Data.Finset.Image
import RegAlloc.Coloring.Selection
import RegAlloc.Ids.IdMap

/-!
# Counting with identifier sets

The reduction of an interference graph counts: a node is taken out if it has fewer than `k`
neighbours, two nodes are merged if few of their neighbours are significant, and a node finds a
register if its neighbours hold fewer than `k` of them.  `IdSet.size` is a length of a list, and
nothing about lengths says that a set has at most as many members as another.  This file reads an
`IdSet` as a `Finset`, where such comparisons live.

One comparison carries most of the later work: `IdSet.size_le_of_image`.  Merging two nodes renames
one into the other, and a renamed set has at most as many members as the original.

The second half is about an `IdMap`: what it lists, and what a list of writes leaves in it when no
key is written twice.
-/

namespace RegAlloc

namespace IdSet

/-- The members as a finite set of the library. -/
def toFinset (s : IdSet) : Finset Nat := s.toList.toFinset

@[simp] theorem mem_toFinset {a : Nat} {s : IdSet} : a ∈ s.toFinset ↔ a ∈ s := by
  rw [toFinset, List.mem_toFinset, mem_toList]

@[simp] theorem card_toFinset (s : IdSet) : s.toFinset.card = s.size :=
  List.toFinset_card_of_nodup s.nodup_toList

theorem size_le_of_subset {s t : IdSet} (h : ∀ a ∈ s, a ∈ t) : s.size ≤ t.size := by
  rw [← card_toFinset, ← card_toFinset]
  refine Finset.card_le_card fun a ha => ?_
  rw [mem_toFinset] at ha ⊢
  exact h a ha

/-- **A renamed set is not larger.**  If every member of `s` is the new name of a member of `t`,
then `s` has at most as many members as `t`. -/
theorem size_le_of_image {s t : IdSet} (f : Nat → Nat) (h : ∀ a ∈ s, ∃ b ∈ t, f b = a) :
    s.size ≤ t.size := by
  rw [← card_toFinset, ← card_toFinset]
  refine le_trans (Finset.card_le_card fun a ha => ?_) (Finset.card_image_le (f := f))
  obtain ⟨b, hb, rfl⟩ := h a (mem_toFinset.mp ha)
  exact Finset.mem_image_of_mem f (mem_toFinset.mpr hb)

/-- A set that lacks none of `0, …, c - 1` has at least `c` members. -/
theorem leastMissing_le_size (s : IdSet) : s.leastMissing ≤ s.size := by
  rw [← card_toFinset, ← Finset.card_range s.leastMissing]
  refine Finset.card_le_card fun c hc => ?_
  rw [mem_toFinset]
  exact mem_of_lt_leastMissing (Finset.mem_range.mp hc)

end IdSet

namespace IdMap

variable {α : Type}

/-- **The listing holds what lookups find.** -/
theorem mem_toList {m : IdMap α} {k : Nat} {v : α} : (k, v) ∈ m.toList ↔ m.get? k = some v := by
  unfold get?
  obtain ⟨es, hes⟩ := m
  show (k, v) ∈ es ↔ es.lookup k = some v
  induction es with
  | nil => simp
  | cons e es ih =>
      obtain ⟨hfirst, hrest⟩ := List.pairwise_cons.mp hes
      obtain ⟨j, w⟩ := e
      rw [List.mem_cons, ih hrest, List.lookup_cons]
      by_cases hkj : k = j
      · subst hkj
        -- the key does not come again
        have hnone : es.lookup k ≠ some v := by
          intro h
          exact absurd (hfirst _ ((ih hrest).mpr h)) (Nat.lt_irrefl k)
        simp [hnone, eq_comm]
      · have hne : (k == j) = false := beq_false_of_ne hkj
        simp [hkj, hne]

theorem nodup_keys (m : IdMap α) : m.keys.Nodup := by
  have hascending : m.keys.Pairwise (· < ·) := List.pairwise_map.mpr m.ascending
  exact hascending.imp Nat.ne_of_lt

@[simp] theorem insertList_nil (m : IdMap α) : m.insertList [] = m := rfl

@[simp] theorem insertList_cons (m : IdMap α) (e : Nat × α) (es : List (Nat × α)) :
    m.insertList (e :: es) = (m.insert e.1 e.2).insertList es := rfl

/-- A key that is not written keeps its value. -/
theorem get?_insertList_of_notMem {m : IdMap α} {es : List (Nat × α)} {k : Nat}
    (h : ∀ e ∈ es, e.1 ≠ k) : (m.insertList es).get? k = m.get? k := by
  induction es generalizing m with
  | nil => rfl
  | cons e es ih =>
      rw [insertList_cons, ih fun d hd => h d (List.mem_cons_of_mem e hd), get?_insert,
        if_neg (Ne.symm (h e List.mem_cons_self))]

/-- **Writes to distinct keys all stay:** after them a key has the value written to it. -/
theorem get?_insertList_of_mem {m : IdMap α} {es : List (Nat × α)}
    (hes : es.Pairwise fun d e => d.1 ≠ e.1) {k : Nat} {v : α} (h : (k, v) ∈ es) :
    (m.insertList es).get? k = some v := by
  induction es generalizing m with
  | nil => exact absurd h List.not_mem_nil
  | cons e es ih =>
      obtain ⟨hhead, htail⟩ := List.pairwise_cons.mp hes
      rw [insertList_cons]
      rcases List.mem_cons.mp h with rfl | h
      · rw [get?_insertList_of_notMem fun d hd => (hhead d hd).symm, get?_insert, if_pos rfl]
      · exact ih htail h

/-- From the empty map, distinct writes are exactly the entries. -/
theorem get?_insertList_empty {es : List (Nat × α)} (hes : es.Pairwise fun d e => d.1 ≠ e.1)
    {k : Nat} {v : α} :
    ((∅ : IdMap α).insertList es).get? k = some v ↔ (k, v) ∈ es := by
  refine ⟨fun h => ?_, get?_insertList_of_mem hes⟩
  by_cases hk : ∀ e ∈ es, e.1 ≠ k
  · rw [get?_insertList_of_notMem hk, get?_empty] at h
    exact absurd h (by simp)
  · push Not at hk
    obtain ⟨⟨j, w⟩, hw, rfl⟩ := hk
    rw [get?_insertList_of_mem hes hw, Option.some.injEq] at h
    exact h ▸ hw

end IdMap

end RegAlloc
