import Mathlib.Data.List.Nodup
import Mathlib.Logic.Relation
import RegAlloc.Layout.Basic
import RegAlloc.Proofs.FiniteSets

/-!
# Which tables can be laid out, and how objects look

A class is laid out behind the class it extends, so the order of declaration has to respect
inheritance.  This file says that nothing else can go wrong (`ofTable_outcome`), and what the result
looks like (`Fits`).

There is **one** map of offsets for all classes, and every class writes the offsets of the fields it
inherits once more.  That the offset of a field is nevertheless the same in every class rests on two
facts, which every step keeps (`Placed`).

* A field in two rows stands at the same place in both: each step writes, for an inherited field,
  the offset that the field already has.
* A field in a row is owned by a class that is placed, so the own fields of the next class are new.
-/

namespace RegAlloc

/-! ## Declarations -/

namespace SymbolTable

variable {t : SymbolTable} {c p f s : SymbolId}

/-- Field `f` is declared in `c`. -/
def Owns (t : SymbolTable) (c f : SymbolId) : Prop :=
  t.kind? f = some .field ∧ t.owner? f = some c

/-- Field `f` is declared in no class. -/
def Unowned (t : SymbolTable) (f : SymbolId) : Prop :=
  t.kind? f = some .field ∧ ∀ c, t.owner? f = some c → t.isClass c = false

/-- Class `c` extends `p`. -/
def Extends (t : SymbolTable) (c p : SymbolId) : Prop :=
  t.isClass c = true ∧ t.owner? c = some p

/-- What `c` extends, if anything, is a class declared before it. -/
def ParentFirst (t : SymbolTable) (c : SymbolId) : Prop :=
  ∀ p, t.owner? c = some p → p < c ∧ t.isClass p = true

/-- The list holds the symbols with a property, in order of declaration. -/
def Lists (P : SymbolId → Prop) (ss : List SymbolId) : Prop :=
  ss.Pairwise (· < ·) ∧ ∀ s, s ∈ ss ↔ P s

theorem Lists.nodup {P : SymbolId → Prop} {ss : List SymbolId} (h : Lists P ss) : ss.Nodup :=
  h.1.imp Nat.ne_of_lt

theorem parentFirst_iff (h : t.owner? c = some p) :
    t.ParentFirst c ↔ p < c ∧ t.isClass p = true := by
  simp [ParentFirst, h]

theorem mem_toList {d : Symbol} : (s, d) ∈ t.toList ↔ t.get? s = some d := by
  rw [toList, List.mem_map, get?, ← Array.getElem?_toList]
  constructor
  · rintro ⟨⟨e, i⟩, hmem, he⟩
    cases he
    exact List.mem_zipIdx_iff_getElem?.mp hmem
  · intro h
    exact ⟨(d, s), List.mem_zipIdx_iff_getElem?.mpr h, rfl⟩

theorem pairwise_toList (t : SymbolTable) : t.toList.Pairwise fun d e => d.1 < e.1 := by
  rw [toList, List.pairwise_map, ← List.pairwise_map (R := (· < ·)), List.zipIdx_map_snd]
  exact List.pairwise_lt_range'

/-- The declarations that pass a test, in order. -/
theorem lists_filter (t : SymbolTable) (test : SymbolId × Symbol → Bool) :
    Lists (fun s => ∃ d, t.get? s = some d ∧ test (s, d) = true)
      ((t.toList.filter test).map Prod.fst) := by
  refine ⟨List.pairwise_map.mpr (t.pairwise_toList.filter test), fun s => ?_⟩
  rw [List.mem_map]
  constructor
  · rintro ⟨⟨r, d⟩, hmem, rfl⟩
    obtain ⟨hmem, htest⟩ := List.mem_filter.mp hmem
    exact ⟨d, mem_toList.mp hmem, htest⟩
  · rintro ⟨d, hd, htest⟩
    exact ⟨(s, d), List.mem_filter.mpr ⟨mem_toList.mpr hd, htest⟩, rfl⟩

theorem lists_ownFields (t : SymbolTable) (c : SymbolId) : Lists (t.Owns c) (t.ownFields c) := by
  obtain ⟨hpairwise, hmem⟩ := t.lists_filter fun d => d.2.kind == .field && d.2.owner == some c
  refine ⟨hpairwise, fun s => (hmem s).trans ?_⟩
  cases hs : t.get? s <;> simp [Owns, kind?, owner?, hs]

theorem lists_looseFields (t : SymbolTable) : Lists t.Unowned t.looseFields := by
  obtain ⟨hpairwise, hmem⟩ :=
    t.lists_filter fun d => d.2.kind == .field && !d.2.owner.any t.isClass
  refine ⟨hpairwise, fun s => (hmem s).trans ?_⟩
  cases hs : t.get? s with
  | none => simp [Unowned, kind?, hs]
  | some d => cases ho : d.owner <;> simp [Unowned, kind?, owner?, hs, ho]

theorem mem_classes {o : Option SymbolId} :
    (c, o) ∈ t.classes ↔ t.isClass c = true ∧ t.owner? c = o := by
  rw [classes, List.mem_map, isClass, beq_iff_eq, kind?, owner?]
  constructor
  · rintro ⟨⟨s, d⟩, hmem, he⟩
    cases he
    obtain ⟨hmem, hkind⟩ := List.mem_filter.mp hmem
    rw [mem_toList.mp hmem]
    exact ⟨congrArg some (beq_iff_eq.mp hkind), rfl⟩
  · rintro ⟨hkind, rfl⟩
    obtain ⟨d, hd, hclass⟩ := Option.map_eq_some_iff.mp hkind
    refine ⟨(c, d), List.mem_filter.mpr ⟨mem_toList.mpr hd, beq_iff_eq.mpr hclass⟩, ?_⟩
    rw [hd]
    rfl

theorem mem_map_classes : c ∈ t.classes.map Prod.fst ↔ t.isClass c = true := by
  rw [List.mem_map]
  constructor
  · rintro ⟨⟨c, o⟩, hmem, rfl⟩
    exact (mem_classes.mp hmem).1
  · intro hc
    exact ⟨(c, t.owner? c), mem_classes.mpr ⟨hc, rfl⟩, rfl⟩

theorem pairwise_classes (t : SymbolTable) : t.classes.Pairwise fun c d => c.1 < d.1 :=
  List.pairwise_map.mpr (t.pairwise_toList.filter _)

/-- The classes listed before a class are those declared before it. -/
theorem mem_before_iff {before after : List (SymbolId × Option SymbolId)} {o : Option SymbolId}
    (hcut : t.classes = before ++ (c, o) :: after) :
    p ∈ before.map Prod.fst ↔ p < c ∧ t.isClass p = true := by
  have horder := t.pairwise_classes
  rw [hcut, List.pairwise_append] at horder
  obtain ⟨-, hafter, hbefore⟩ := horder
  constructor
  · intro hp
    obtain ⟨⟨p, r⟩, hr, rfl⟩ := List.mem_map.mp hp
    have hmem : (p, r) ∈ t.classes := by
      rw [hcut]
      exact List.mem_append_left _ hr
    exact ⟨hbefore _ hr _ List.mem_cons_self, (mem_classes.mp hmem).1⟩
  · rintro ⟨hlt, hclass⟩
    have hmem : (p, t.owner? p) ∈ t.classes := mem_classes.mpr ⟨hclass, rfl⟩
    rw [hcut] at hmem
    rcases List.mem_append.mp hmem with hmem | hmem
    · exact List.mem_map_of_mem hmem
    · rcases List.mem_cons.mp hmem with he | hmem
      · cases he
        exact absurd hlt (Nat.lt_irrefl _)
      · exact absurd hlt (Nat.lt_asymm ((List.pairwise_cons.mp hafter).1 _ hmem))

end SymbolTable

namespace Layout

open SymbolTable

variable {t : SymbolTable} {l : Layout} {c p f : SymbolId} {o : Option SymbolId}
variable {up row : List SymbolId} {i : Nat}

/-! ## What one step changes -/

/-- The fields that an object has from the class that its own class extends. -/
def inherited? (l : Layout) : Option SymbolId → Option (List SymbolId)
  | none => some []
  | some p => l.fieldsOf? p

theorem fieldsOf?_place (l : Layout) (c d : SymbolId) (row : List SymbolId) :
    (l.place c row).fieldsOf? d = if d = c then some row else l.fieldsOf? d :=
  IdMap.get?_insert ..

theorem placeClass_of_inherited? {name : SymbolId → String} {fields : List SymbolId}
    (hup : l.inherited? o = some up) :
    l.placeClass name c o fields = .ok (l.place c (up ++ fields)) := by
  cases o with
  | none =>
      cases hup
      rfl
  | some p =>
      have hp : l.fieldsOf? p = some up := hup
      rw [placeClass, hp]

theorem placeClass_of_not_inherited? {name : SymbolId → String} {fields : List SymbolId}
    (hp : ¬ ∃ up, l.inherited? (some p) = some up) :
    l.placeClass name c (some p) fields = .error (.unknownParent (name c) (name p)) := by
  have hnone : l.fieldsOf? p = none :=
    Option.eq_none_iff_forall_ne_some.mpr fun up hup => hp ⟨up, hup⟩
  rw [placeClass, hnone]

theorem mem_rowOffsets {n : Nat} :
    (f, n) ∈ rowOffsets row ↔ ∃ i, row[i]? = some f ∧ n = i * wordSize := by
  rw [rowOffsets, List.mem_map]
  constructor
  · rintro ⟨⟨s, i⟩, hmem, he⟩
    cases he
    exact ⟨i, List.mem_zipIdx_iff_getElem?.mp hmem, rfl⟩
  · rintro ⟨i, hi, rfl⟩
    exact ⟨(f, i), List.mem_zipIdx_iff_getElem?.mpr hi, rfl⟩

/-- A field of the row that is placed gets the offset of its place. -/
theorem offset?_place_of_getElem? (hrow : row.Nodup) (hi : row[i]? = some f) :
    (l.place c row).offset? f = some (i * wordSize) := by
  refine IdMap.get?_insertList_of_mem ?_ (mem_rowOffsets.mpr ⟨i, hi, rfl⟩)
  rw [rowOffsets, List.pairwise_map, ← List.pairwise_map (R := (· ≠ ·)), List.zipIdx_map_fst]
  exact hrow

/-- Any other field keeps its offset. -/
theorem offset?_place_of_notMem (hf : f ∉ row) : (l.place c row).offset? f = l.offset? f := by
  refine IdMap.get?_insertList_of_notMem ?_
  rintro ⟨s, n⟩ hmem rfl
  obtain ⟨i, hi, -⟩ := mem_rowOffsets.mp hmem
  exact hf (List.mem_of_getElem? hi)

/-! ## The classes -/

/-- The classes `done` are placed, and nothing else. -/
structure Placed (t : SymbolTable) (done : List (SymbolId × Option SymbolId)) (l : Layout) :
    Prop where
  /-- They have rows, -/
  classes : ∀ c, (∃ row, l.fieldsOf? c = some row) ↔ c ∈ done.map Prod.fst
  /-- each its own fields behind those it inherits, -/
  rows : ∀ c o, (c, o) ∈ done →
    ∃ up, l.inherited? o = some up ∧ l.fieldsOf? c = some (up ++ t.ownFields c)
  /-- without repetition, -/
  nodup : ∀ c row, l.fieldsOf? c = some row → row.Nodup
  /-- and every field of a row is owned by one of them. -/
  owned : ∀ c row f, l.fieldsOf? c = some row → f ∈ row → ∃ d ∈ done.map Prod.fst, t.Owns d f
  /-- The offset of a field is its place in every row that has it. -/
  offsets : ∀ c row i f, l.fieldsOf? c = some row → row[i]? = some f →
    l.offset? f = some (i * wordSize)
  /-- The fields that they own, and no other symbols, have an offset. -/
  fields : ∀ f, (∃ n, l.offset? f = some n) ↔ ∃ d ∈ done.map Prod.fst, t.Owns d f
  /-- No field outside them is placed. -/
  loose : l.loose = []

namespace Placed

variable {done : List (SymbolId × Option SymbolId)}

theorem empty (t : SymbolTable) : Placed t [] ∅ := by
  have hrows : ∀ c row, (∅ : Layout).fieldsOf? c ≠ some row := fun c row h => by cases h
  have hoffsets : ∀ f n, (∅ : Layout).offset? f ≠ some n := fun f n h => by cases h
  constructor
  case loose => rfl
  all_goals simp [hrows, hoffsets]

/-- What is inherited is a row, or nothing. -/
theorem inherited (h : Placed t done l) (hup : l.inherited? o = some up) :
    up.Nodup ∧ (∀ f ∈ up, ∃ d ∈ done.map Prod.fst, t.Owns d f) ∧
      ∀ i f, up[i]? = some f → l.offset? f = some (i * wordSize) := by
  cases o with
  | none =>
      cases hup
      simp
  | some p =>
      exact ⟨h.nodup p up hup, fun f => h.owned p up f hup, fun i f => h.offsets p up i f hup⟩

/-- Placing a class takes nothing away from what others inherit. -/
theorem inherited?_place (h : Placed t done l) (hc : c ∉ done.map Prod.fst)
    (hup : l.inherited? o = some up) (row : List SymbolId) :
    (l.place c row).inherited? o = some up := by
  cases o with
  | none => exact hup
  | some p =>
      have hp : p ∈ done.map Prod.fst := (h.classes p).mp ⟨up, hup⟩
      have hne : p ≠ c := fun he => hc (he ▸ hp)
      rw [inherited?, fieldsOf?_place, if_neg hne]
      exact hup

/-- A field has one owner. -/
theorem notMem_ownFields (hc : c ∉ done.map Prod.fst)
    (hf : ∃ d ∈ done.map Prod.fst, t.Owns d f) : f ∉ t.ownFields c := by
  intro hmem
  obtain ⟨d, hd, hdf⟩ := hf
  have hdc : d = c := Option.some.inj (hdf.2.symm.trans (((t.lists_ownFields c).2 f).mp hmem).2)
  exact hc (hdc ▸ hd)

section Step

variable (h : Placed t done l) (hc : c ∉ done.map Prod.fst) (hup : l.inherited? o = some up)
include h hc hup

/-- The own fields of the next class stand in no row, so its own row has no repetition, -/
theorem nodup_row : (up ++ t.ownFields c).Nodup := by
  obtain ⟨hnodup, howned, -⟩ := h.inherited hup
  refine List.nodup_append.mpr ⟨hnodup, (t.lists_ownFields c).nodup, fun f hf g hg hfg => ?_⟩
  exact notMem_ownFields hc (howned f hf) (hfg ▸ hg)

/-- and a field that has an offset keeps it: if it is inherited, it is written where it stands. -/
theorem offset?_place (hf : l.offset? f = some i) :
    (l.place c (up ++ t.ownFields c)).offset? f = some i := by
  by_cases hmem : f ∈ up ++ t.ownFields c
  · have hfup : f ∈ up := (List.mem_append.mp hmem).resolve_right
      (notMem_ownFields hc ((h.fields f).mp ⟨i, hf⟩))
    obtain ⟨j, hj⟩ := List.getElem?_of_mem hfup
    have hrow : (up ++ t.ownFields c)[j]? = some f := by
      rw [List.getElem?_append_left (List.getElem?_eq_some_iff.mp hj).1, hj]
    rw [offset?_place_of_getElem? (h.nodup_row hc hup) hrow, ← (h.inherited hup).2.2 j f hj, hf]
  · rw [offset?_place_of_notMem hmem, hf]

/-- **Placing one more class.** -/
theorem place : Placed t (done ++ [(c, o)]) (l.place c (up ++ t.ownFields c)) := by
  obtain ⟨-, howned, -⟩ := h.inherited hup
  have hrow := h.nodup_row hc hup
  have hdone : ∀ d, d ∈ (done ++ [(c, o)]).map Prod.fst ↔ d ∈ done.map Prod.fst ∨ d = c := by
    simp
  have hmem : ∀ f, (∃ d ∈ (done ++ [(c, o)]).map Prod.fst, t.Owns d f) ↔
      (∃ d ∈ done.map Prod.fst, t.Owns d f) ∨ f ∈ t.ownFields c := by
    simp only [hdone, or_and_right, exists_or, exists_eq_left, (t.lists_ownFields c).2,
      implies_true]
  -- a row is the new one, or was there before
  have hcases : ∀ {d row}, (l.place c (up ++ t.ownFields c)).fieldsOf? d = some row →
      row = up ++ t.ownFields c ∨ l.fieldsOf? d = some row := by
    intro d row hd
    rw [fieldsOf?_place] at hd
    split at hd
    · exact Or.inl (Option.some.inj hd).symm
    · exact Or.inr hd
  constructor
  case classes =>
    intro d
    rw [hdone, ← h.classes, fieldsOf?_place]
    by_cases hdc : d = c <;> simp [hdc]
  case rows =>
    intro d r hd
    rcases List.mem_append.mp hd with hd | hd
    · obtain ⟨old, hold, hrow⟩ := h.rows d r hd
      have hdc : d ≠ c := fun he => hc (he ▸ List.mem_map_of_mem hd)
      refine ⟨old, h.inherited?_place hc hold _, ?_⟩
      rw [fieldsOf?_place, if_neg hdc, hrow]
    · cases List.mem_singleton.mp hd
      refine ⟨up, h.inherited?_place hc hup _, ?_⟩
      rw [fieldsOf?_place, if_pos rfl]
  case nodup =>
    intro d row hd
    rcases hcases hd with rfl | hd
    · exact hrow
    · exact h.nodup d row hd
  case owned =>
    intro d row f hd hf
    rw [hmem]
    rcases hcases hd with rfl | hd
    · exact (List.mem_append.mp hf).imp (howned f) id
    · exact Or.inl (h.owned d row f hd hf)
  case offsets =>
    intro d row i f hd hi
    rcases hcases hd with rfl | hd
    · exact offset?_place_of_getElem? hrow hi
    · exact h.offset?_place hc hup (h.offsets d row i f hd hi)
  case fields =>
    intro f
    rw [hmem, ← h.fields]
    by_cases hf : f ∈ up ++ t.ownFields c
    · obtain ⟨i, hi⟩ := List.getElem?_of_mem hf
      rw [offset?_place_of_getElem? hrow hi]
      refine iff_of_true ⟨_, rfl⟩ ((List.mem_append.mp hf).imp (fun hf => ?_) id)
      exact (h.fields f).mpr (howned f hf)
    · rw [offset?_place_of_notMem hf]
      exact (or_iff_left fun hown => hf (List.mem_append_right _ hown)).symm
  case loose => exact h.loose

end Step

/-- What is inherited is there exactly if the class it comes from is declared before. -/
theorem exists_inherited {after : List (SymbolId × Option SymbolId)} (h : Placed t done l)
    (hcut : t.classes = done ++ (c, o) :: after) :
    (∃ up, l.inherited? o = some up) ↔ t.ParentFirst c := by
  have hmem : (c, o) ∈ t.classes := by
    rw [hcut]
    exact List.mem_append_right done List.mem_cons_self
  rw [ParentFirst, (mem_classes.mp hmem).2]
  cases o with
  | none => simp [inherited?]
  | some p =>
      simp only [Option.some.injEq, forall_eq', ← mem_before_iff hcut]
      exact h.classes p

/-- **Placing all classes, from any point on.**  They are placed if what each extends is declared
before it, and otherwise the first one for which it is not is reported. -/
theorem placeAll {rest : List (SymbolId × Option SymbolId)} (h : Placed t done l)
    (hcut : t.classes = done ++ rest) :
    (∃ l', rest.foldlM (fun l c => l.placeClass t.name c.1 c.2 (t.ownFields c.1)) l = .ok l' ∧
        Placed t t.classes l' ∧ ∀ c ∈ rest.map Prod.fst, t.ParentFirst c) ∨
      ∃ c p, (c, some p) ∈ rest ∧ ¬ t.ParentFirst c ∧
        (∀ d ∈ rest.map Prod.fst, d < c → t.ParentFirst d) ∧
        rest.foldlM (fun l c => l.placeClass t.name c.1 c.2 (t.ownFields c.1)) l =
          .error (.unknownParent (t.name c) (t.name p)) := by
  induction rest generalizing done l with
  | nil =>
      rw [List.append_nil] at hcut
      exact Or.inl ⟨l, rfl, hcut ▸ h, fun c hc => absurd hc List.not_mem_nil⟩
  | cons e rest ih =>
      obtain ⟨c, o⟩ := e
      rw [List.foldlM_cons]
      by_cases hfirst : t.ParentFirst c
      · obtain ⟨up, hup⟩ := (h.exists_inherited hcut).mpr hfirst
        have hc : c ∉ done.map Prod.fst := fun hc =>
          Nat.lt_irrefl c ((mem_before_iff hcut).mp hc).1
        rw [placeClass_of_inherited? hup]
        rcases ih (h.place hc hup) (by rw [hcut, List.append_assoc]; rfl) with
          ⟨l', hl', hplaced, hrest⟩ | ⟨d, p, hd, hnot, hbefore, herror⟩
        · exact Or.inl ⟨l', hl', hplaced, List.forall_mem_cons.mpr ⟨hfirst, hrest⟩⟩
        · refine Or.inr ⟨d, p, List.mem_cons_of_mem _ hd, hnot, ?_, herror⟩
          exact List.forall_mem_cons.mpr ⟨fun _ => hfirst, hbefore⟩
      · have hnone := mt (h.exists_inherited hcut).mp hfirst
        cases o with
        | none => exact absurd ⟨[], rfl⟩ hnone
        | some p =>
            refine Or.inr ⟨c, p, List.mem_cons_self, hfirst, fun d hd hlt => ?_, ?_⟩
            · -- the classes that follow are declared later
              have hlater := t.pairwise_classes
              rw [hcut, List.pairwise_append] at hlater
              rcases List.mem_cons.mp hd with rfl | hd
              · exact absurd hlt (Nat.lt_irrefl _)
              · obtain ⟨e, he, rfl⟩ := List.mem_map.mp hd
                exact absurd hlt (Nat.lt_asymm ((List.pairwise_cons.mp hlater.2.1).1 e he))
            · rw [placeClass_of_not_inherited? hnone]
              rfl

end Placed

/-! ## The fields outside classes -/

theorem placeField_of_none (hs : l.offset? f = none) :
    (l.placeField f).1 = { l with
      loose := l.loose ++ [f], offsets := l.offsets.insert f (l.loose.length * wordSize) } := by
  rw [placeField, hs]

/-- **Placing new fields outside classes:** they are put into a row of their own, and nothing else
changes. -/
theorem placeFields {ss : List SymbolId} (hss : ss.Nodup) (hnew : ∀ s ∈ ss, l.offset? s = none) :
    (∀ c, (ss.foldl (fun l s => (l.placeField s).1) l).fieldsOf? c = l.fieldsOf? c) ∧
      (∀ i s, ss[i]? = some s → (ss.foldl (fun l s => (l.placeField s).1) l).offset? s =
        some ((l.loose.length + i) * wordSize)) ∧
      ∀ s ∉ ss, (ss.foldl (fun l s => (l.placeField s).1) l).offset? s = l.offset? s := by
  induction ss generalizing l with
  | nil => simp
  | cons f ss ih =>
      obtain ⟨hf, hss⟩ := List.nodup_cons.mp hss
      obtain ⟨hnone, hnew⟩ := List.forall_mem_cons.mp hnew
      have hoffset : ∀ s, (l.placeField f).1.offset? s =
          if s = f then some (l.loose.length * wordSize) else l.offset? s := by
        intro s
        rw [placeField_of_none hnone]
        exact IdMap.get?_insert ..
      have hlength : (l.placeField f).1.loose.length = l.loose.length + 1 := by
        rw [placeField_of_none hnone, List.length_append, List.length_singleton]
      obtain ⟨hclasses, hplaces, hothers⟩ := ih (l := (l.placeField f).1) hss fun s hs => by
        have hsf : s ≠ f := fun he => hf (he ▸ hs)
        rw [hoffset, if_neg hsf, hnew s hs]
      rw [List.foldl_cons]
      refine ⟨fun c => ?_, fun i s hi => ?_, fun s hs => ?_⟩
      · rw [hclasses, placeField_of_none hnone]
        rfl
      · cases i with
        | zero =>
            cases hi
            rw [hothers f hf, hoffset, if_pos rfl, Nat.add_zero]
        | succ i => rw [hplaces i s hi, hlength, Nat.add_right_comm, Nat.add_assoc]
      · rw [List.mem_cons, not_or] at hs
        rw [hothers s hs.2, hoffset, if_neg hs.1]

/-! ## The whole table -/

/-- **How a layout fits the declarations.** -/
structure Fits (t : SymbolTable) (l : Layout) : Prop where
  /-- The classes have rows. -/
  classes : ∀ c, (∃ row, l.fieldsOf? c = some row) ↔ t.isClass c = true
  /-- A row is that of the parent, if there is one, and then the fields that the class owns, in
  order of declaration. -/
  rows : ∀ c, t.isClass c = true → ∃ up own, l.fieldsOf? c = some (up ++ own) ∧
    Lists (t.Owns c) own ∧ (t.owner? c = none → up = []) ∧
    ∀ p, t.owner? c = some p → l.fieldsOf? p = some up
  /-- The row of every ancestor is a prefix. -/
  ancestors : ∀ c a row, Relation.ReflTransGen t.Extends c a → l.fieldsOf? c = some row →
    ∃ up, l.fieldsOf? a = some up ∧ up <+: row
  /-- No field stands twice in a row. -/
  nodup : ∀ c row, l.fieldsOf? c = some row → row.Nodup
  /-- An object has four bytes for each field of the row. -/
  sizes : ∀ c row, l.fieldsOf? c = some row → l.size? c = some (4 * row.length)
  /-- A field is found inside the object, at its place in the row. -/
  offsets : ∀ c row i f, l.fieldsOf? c = some row → row[i]? = some f →
    l.offset? f = some (4 * i) ∧ ∃ size, l.size? c = some size ∧ 4 * i < size
  /-- The fields that no class owns make a row of their own. -/
  loose : ∃ ss, Lists t.Unowned ss ∧ ∀ i s, ss[i]? = some s → l.offset? s = some (4 * i)
  /-- The symbols with an offset are the fields. -/
  fields : ∀ s, l.isField s = true ↔ t.kind? s = some .field

/-- A field is owned by a class or by none. -/
theorem kind?_eq_field_iff :
    t.kind? f = some .field ↔ (∃ c ∈ t.classes.map Prod.fst, t.Owns c f) ∨ t.Unowned f := by
  simp only [mem_map_classes]
  constructor
  · intro hf
    by_cases howner : ∃ c, t.isClass c = true ∧ t.owner? f = some c
    · obtain ⟨c, hc, hfc⟩ := howner
      exact Or.inl ⟨c, hc, hf, hfc⟩
    · refine Or.inr ⟨hf, fun c hfc => Bool.eq_false_iff.mpr fun hc => howner ⟨c, hc, hfc⟩⟩
  · rintro (⟨c, -, hf, -⟩ | ⟨hf, -⟩)
    · exact hf
    · exact hf

theorem notMem_looseFields (hf : ∃ c ∈ t.classes.map Prod.fst, t.Owns c f) : f ∉ t.looseFields := by
  obtain ⟨c, hc, -, hfc⟩ := hf
  intro hmem
  have hnot := ((t.lists_looseFields.2 f).mp hmem).2 c hfc
  exact absurd (mem_map_classes.mp hc) (by simp [hnot])

/-- Rows end to end make every ancestor a prefix. -/
theorem prefix_of_extends (hrows : ∀ c p row, t.Extends c p → l.fieldsOf? c = some row →
      ∃ up, l.fieldsOf? p = some up ∧ up <+: row) {a : SymbolId}
    (hca : Relation.ReflTransGen t.Extends c a) (hc : l.fieldsOf? c = some row) :
    ∃ up, l.fieldsOf? a = some up ∧ up <+: row := by
  induction hca with
  | refl => exact ⟨row, hc, List.prefix_refl row⟩
  | tail _ hstep ih =>
      obtain ⟨mid, hmid, hprefix⟩ := ih
      obtain ⟨up, hup, hshort⟩ := hrows _ _ mid hstep hmid
      exact ⟨up, hup, hshort.trans hprefix⟩

/-- **When all classes are placed and then the other fields, the layout fits.** -/
theorem Placed.fits (h : Placed t t.classes l) :
    Fits t (t.looseFields.foldl (fun l s => (l.placeField s).1) l) := by
  have hnew : ∀ s ∈ t.looseFields, l.offset? s = none := by
    intro s hs
    refine Option.eq_none_iff_forall_ne_some.mpr fun n hn => ?_
    exact notMem_looseFields ((h.fields s).mp ⟨n, hn⟩) hs
  obtain ⟨hrows, hplaces, hothers⟩ := placeFields t.lists_looseFields.nodup hnew
  rw [h.loose] at hplaces
  generalize t.looseFields.foldl (fun l s => (l.placeField s).1) l = l' at hrows hplaces hothers ⊢
  have hrow : ∀ c, t.isClass c = true → ∃ up own, l'.fieldsOf? c = some (up ++ own) ∧
      Lists (t.Owns c) own ∧ (t.owner? c = none → up = []) ∧
      ∀ p, t.owner? c = some p → l'.fieldsOf? p = some up := by
    intro c hc
    obtain ⟨up, hup, hcrow⟩ := h.rows c _ (mem_classes.mpr ⟨hc, rfl⟩)
    refine ⟨up, t.ownFields c, by rw [hrows, hcrow], t.lists_ownFields c, fun ho => ?_,
      fun p ho => ?_⟩
    · rw [ho] at hup
      exact (Option.some.inj hup).symm
    · rw [ho] at hup
      rw [hrows]
      exact hup
  have hsize : ∀ c row, l'.fieldsOf? c = some row → l'.size? c = some (4 * row.length) := by
    intro c row hc
    rw [size?, hc, Nat.mul_comm]
    rfl
  constructor
  case classes =>
    intro c
    rw [hrows, h.classes, mem_map_classes]
  case rows => exact hrow
  case ancestors =>
    intro c a row hca hc
    refine prefix_of_extends (fun c p row hstep hc => ?_) hca hc
    obtain ⟨up, own, hcrow, -, -, hparent⟩ := hrow c hstep.1
    cases hc.symm.trans hcrow
    exact ⟨up, hparent p hstep.2, List.prefix_append up own⟩
  case nodup =>
    intro c row hc
    exact h.nodup c row (hrows c ▸ hc)
  case sizes => exact hsize
  case offsets =>
    intro c row i f hc hi
    have hlt := (List.getElem?_eq_some_iff.mp hi).1
    refine ⟨?_, 4 * row.length, hsize c row hc, by omega⟩
    rw [hrows] at hc
    have howned := h.owned c row f hc (List.mem_of_getElem? hi)
    rw [hothers f (notMem_looseFields howned), h.offsets c row i f hc hi, Nat.mul_comm]
    rfl
  case loose =>
    refine ⟨t.looseFields, t.lists_looseFields, fun i s hi => ?_⟩
    rw [hplaces i s hi, List.length_nil, Nat.zero_add, Nat.mul_comm]
    rfl
  case fields =>
    intro s
    rw [kind?_eq_field_iff, ← t.lists_looseFields.2, isField, IdMap.contains,
      Option.isSome_iff_exists, ← h.fields]
    show (∃ n, l'.offset? s = some n) ↔ _
    by_cases hs : s ∈ t.looseFields
    · obtain ⟨i, hi⟩ := List.getElem?_of_mem hs
      exact iff_of_true ⟨_, hplaces i s hi⟩ (Or.inr hs)
    · rw [hothers s hs, or_iff_left hs]

/-- **Which tables can be laid out, and how objects look.**  A table has a layout exactly if every
class extends nothing or a class declared before it.  Otherwise the error names the first class that
does not, and what it extends.  A layout that is found fits the table. -/
theorem ofTable_outcome (t : SymbolTable) :
    ((∃ l, ofTable t = .ok l) ↔ ∀ c, t.isClass c = true → t.ParentFirst c) ∧
    (∀ e, ofTable t = .error e ↔
      ∃ c p, t.Extends c p ∧ ¬ (p < c ∧ t.isClass p = true) ∧
        (∀ d < c, t.isClass d = true → t.ParentFirst d) ∧
        e = .unknownParent (t.name c) (t.name p)) ∧
    ∀ l, ofTable t = .ok l → Fits t l := by
  rcases (Placed.empty t).placeAll (List.nil_append _).symm with
    ⟨l, hl, hplaced, hfirst⟩ | ⟨c, p, hc, hnot, hbefore, herror⟩
  · have hok : ofTable t = .ok (t.looseFields.foldl (fun l s => (l.placeField s).1) l) := by
      rw [ofTable, hl]
      rfl
    have hall : ∀ c, t.isClass c = true → t.ParentFirst c := fun c hc =>
      hfirst c (mem_map_classes.mpr hc)
    rw [hok]
    refine ⟨iff_of_true ⟨_, rfl⟩ hall, fun e => iff_of_false (by simp) ?_, fun l' hl' => ?_⟩
    · rintro ⟨c, p, hcp, hnot, -⟩
      exact hnot (hall c hcp.1 p hcp.2)
    · cases hl'
      exact hplaced.fits
  · have hfail : ofTable t = .error (.unknownParent (t.name c) (t.name p)) := by
      rw [ofTable, herror]
      rfl
    obtain ⟨hclass, howner⟩ := mem_classes.mp hc
    have hlate : ¬ (p < c ∧ t.isClass p = true) := mt (parentFirst_iff howner).mpr hnot
    have hearlier : ∀ d < c, t.isClass d = true → t.ParentFirst d := fun d hlt hd =>
      hbefore d (mem_map_classes.mpr hd) hlt
    rw [hfail]
    refine ⟨iff_of_false (by simp) fun hall => hnot (hall c hclass), fun e => ?_, by simp⟩
    constructor
    · intro he
      cases he
      exact ⟨c, p, ⟨hclass, howner⟩, hlate, hearlier, rfl⟩
    · -- there is only one first class of this kind
      rintro ⟨d, q, ⟨hd, hq⟩, hdlate, hdearlier, rfl⟩
      rcases Nat.lt_trichotomy c d with hlt | rfl | hlt
      · exact absurd (hdearlier c hlt hclass) hnot
      · cases howner.symm.trans hq
        rfl
      · exact absurd ((parentFirst_iff hq).mp (hearlier d hlt hd)) hdlate

/-- Two classes extend one, and a third extends one of them.  Fields `3` and `6` are declared before
their classes, and the owner of field `9` is no class. -/
def family : SymbolTable :=
  (∅ : SymbolTable) |>.declareClass "Shape" none |>.declareField "id" 0
    |>.declareClass "Point" (some 0) |>.declareField "width" 5 |>.declareField "x" 2
    |>.declareClass "Box" (some 0) |>.declareField "depth" 7 |>.declareClass "Crate" (some 5)
    |>.declare "spare" .field |>.declareField "stray" 8

/-- Two classes in the wrong order. -/
def upsideDown : SymbolTable :=
  (∅ : SymbolTable) |>.declareClass "Point" (some 1) |>.declareClass "Shape" none

/-- In the family, field `1` has one offset for all four classes, and field `3` has one for the two
that have it; the fields that no class owns are counted by themselves.  Upside down there is no
layout. -/
theorem ofTable_outcome_family :
    (∃ l, ofTable family = .ok l ∧ Fits family l ∧ l.fieldsOf? 7 = some [1, 3, 6] ∧
      l.fieldsOf? 2 = some [1, 4] ∧ l.offset? 1 = some (4 * 0) ∧ l.offset? 3 = some (4 * 1) ∧
      l.offset? 4 = some (4 * 1) ∧ l.size? 7 = some 12 ∧ l.offset? 9 = some 4) ∧
    ofTable upsideDown = .error (.unknownParent "Point" "Shape") := by
  constructor
  · exact ⟨_, rfl, (ofTable_outcome family).2.2 _ rfl, rfl, rfl, rfl, rfl, rfl, rfl, rfl⟩
  · refine ((ofTable_outcome upsideDown).2.1 _).mpr ⟨0, 1, ⟨rfl, rfl⟩, by decide, ?_, rfl⟩
    intro d hd
    exact absurd hd (Nat.not_lt_zero d)

end Layout

end RegAlloc
