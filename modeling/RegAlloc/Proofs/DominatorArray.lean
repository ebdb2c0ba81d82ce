import Mathlib.Algebra.Order.BigOperators.Group.Finset
import Mathlib.Logic.Relation
import RegAlloc.Flow.Dominators

/-!
# The iteration on dominator arrays

The iteration works on positions: all it sees of a flow graph is the list of predecessors of each
position.  A relation `R` **respects** these lists if what is related to a position is the position
itself or is related to all its predecessors, and only `0` is related to `0`.  The main result is
that the positions met on the way up from `p` in the final array form the greatest relation that
respects the lists (`Settled.respects_climbs`, `Settled.climbs_of_respects`).

To set one value moves everything that climbs through it, so what a pass keeps true is about whole
climbs and not about values.  Three facts carry the development.

* A climb in the array with one new value is a climb in the old one, except that it goes on from
  there with the climb from the new value (`climbs_put`).
* A value climbs to whatever all predecessors climb to (`Solving.bound`), so the meet of the
  predecessors lies on the climb from the old value: **values only ever decrease**.
* Every position has a predecessor before it that follows the climb from the value, as far as the
  pass has not yet changed it (`Solving.support`).  This is what keeps `bound` true when a value
  further up the climb is replaced.

Since values only decrease, their sum bounds the number of passes, and the pass that changes nothing
leaves every position with the meet of its predecessors.
-/

namespace RegAlloc

namespace DomArray

variable {doms doms' : DomArray} {p q x c d m : Nat} {ps : List Nat} {preds : List (List Nat)}

/-! ## Climbing -/

/-- A position has a value. -/
def Known (doms : DomArray) (p : Nat) : Prop := ∃ d, doms.at? p = some d

/-- Climbing from one position, value by value, comes to another. -/
def Climbs (doms : DomArray) : Nat → Nat → Prop :=
  Relation.ReflTransGen fun x d => doms.at? x = some d

/-- A climb that goes anywhere goes over the value. -/
theorem Climbs.of_ne (h : doms.Climbs x c) (hne : x ≠ c) (hd : doms.at? x = some d) :
    doms.Climbs d c := by
  rcases Relation.ReflTransGen.cases_head h with heq | ⟨e, he, hec⟩
  · exact absurd heq hne
  · cases he.symm.trans hd
    exact hec

/-- **The values form a tree:** position `0` is its own value, every other value is smaller than its
position, and all values have values. -/
structure Rooted (doms : DomArray) : Prop where
  root : doms.at? 0 = some 0
  lt : ∀ {x d}, 0 < x → doms.at? x = some d → d < x
  known : ∀ {x d}, doms.at? x = some d → doms.Known d

theorem Rooted.at?_le (h : doms.Rooted) (hd : doms.at? x = some d) : d ≤ x := by
  rcases Nat.eq_zero_or_pos x with rfl | hx
  · cases h.root.symm.trans hd
    exact Nat.le_refl 0
  · exact Nat.le_of_lt (h.lt hx hd)

theorem Rooted.climbs_le (h : doms.Rooted) (hc : doms.Climbs x c) : c ≤ x := by
  induction hc with
  | refl => exact Nat.le_refl x
  | tail _ hd ih => exact Nat.le_trans (h.at?_le hd) ih

theorem Rooted.not_climbs (h : doms.Rooted) (hlt : x < c) : ¬ doms.Climbs x c :=
  fun hc => Nat.not_lt.mpr (h.climbs_le hc) hlt

theorem Rooted.known_of_climbs (h : doms.Rooted) (hx : doms.Known x) (hc : doms.Climbs x c) :
    doms.Known c := by
  rcases Relation.ReflTransGen.cases_tail hc with rfl | ⟨y, -, hy⟩
  · exact hx
  · exact h.known hy

/-! ## Meets -/

/-- A property that holds of nothing below `c` and that climbing keeps until it comes to `c`. -/
def KeptDownTo (doms : DomArray) (c : Nat) (P : Nat → Prop) : Prop :=
  ∀ x, P x → c ≤ x ∧ (x ≠ c → ∀ d, doms.at? x = some d → P d)

theorem Rooted.keptDownTo_climbs (h : doms.Rooted) (c : Nat) :
    doms.KeptDownTo c fun x => doms.Climbs x c :=
  fun _ hx => ⟨h.climbs_le hx, fun hne _ hd => hx.of_ne hne hd⟩

/-- Two positions climb until they agree, the larger one at a time, and every position that has to
climb has a value. -/
inductive Meets (doms : DomArray) : Nat → Nat → Nat → Prop where
  | here (a : Nat) : Meets doms a a a
  | left {a b up m : Nat} : b < a → doms.at? a = some up → Meets doms up b m → Meets doms a b m
  | right {a b up m : Nat} : a < b → doms.at? b = some up → Meets doms a up m → Meets doms a b m

/-- The meet of two positions lies on the climbs from both. -/
theorem Meets.climbs {a b : Nat} (h : doms.Meets a b m) : doms.Climbs a m ∧ doms.Climbs b m := by
  induction h with
  | here a => exact ⟨Relation.ReflTransGen.refl, Relation.ReflTransGen.refl⟩
  | left _ hup _ ih => exact ⟨Relation.ReflTransGen.head hup ih.1, ih.2⟩
  | right _ hup _ ih => exact ⟨ih.1, Relation.ReflTransGen.head hup ih.2⟩

/-- The climbs of two positions that have values end where they agree. -/
theorem Rooted.meets_meetWithin (h : doms.Rooted) {budget a b : Nat} (hbudget : a + b ≤ budget)
    (ha : doms.Known a) (hb : doms.Known b) : doms.Meets a b (doms.meetWithin budget a b) := by
  induction budget generalizing a b with
  | zero =>
      have hboth : b = a := by omega
      subst hboth
      exact .here b
  | succ budget ih =>
      obtain ⟨da, hda⟩ := ha
      obtain ⟨db, hdb⟩ := hb
      simp only [meetWithin, hda, hdb]
      split
      · rename_i heq
        subst heq
        exact .here a
      · split
        · rename_i hba
          have hlt : da < a := h.lt (by omega) hda
          exact .left hba hda (ih (by omega) (h.known hda) ⟨db, hdb⟩)
        · have hab : a < b := by omega
          have hlt : db < b := h.lt (by omega) hdb
          exact .right hab hdb (ih (by omega) ⟨da, hda⟩ (h.known hdb))

/-- Only the larger position climbs, so a meet never goes past `c`. -/
theorem KeptDownTo.meetWithin {P : Nat → Prop} (hP : doms.KeptDownTo c P) {budget a b : Nat}
    (ha : P a) (hb : P b) : P (doms.meetWithin budget a b) := by
  induction budget generalizing a b with
  | zero => exact ha
  | succ budget ih =>
      have hca := (hP a ha).1
      have hcb := (hP b hb).1
      rw [DomArray.meetWithin]
      split
      · exact ha
      · split
        · split
          · rename_i up hup
            exact ih ((hP a ha).2 (by omega) up hup) hb
          · exact hb
        · split
          · rename_i up hup
            exact ih ha ((hP b hb).2 (by omega) up hup)
          · exact ha

/-- **The meet of those of some positions that have a value.** -/
structure MeetOf (doms : DomArray) (ps : List Nat) (m : Nat) : Prop where
  known : doms.Known m
  /-- All climbs come past the meet. -/
  climbs : ∀ q ∈ ps, doms.Known q → doms.Climbs q m
  /-- What climbing keeps and all positions have, the meet has as well. -/
  keeps : ∀ {c P}, doms.KeptDownTo c P → (∀ q ∈ ps, doms.Known q → P q) → P m

/-- The meet comes past whatever all climbs come past. -/
theorem MeetOf.climbs_of_forall (hm : doms.MeetOf ps m) (h : doms.Rooted)
    (hc : ∀ q ∈ ps, doms.Known q → doms.Climbs q c) : doms.Climbs m c :=
  hm.keeps (h.keptDownTo_climbs c) hc

/-- With one position more that has no value, nothing changes. -/
theorem MeetOf.concat_of_not_known (hm : doms.MeetOf ps m) (hq : ¬ doms.Known q) :
    doms.MeetOf (ps ++ [q]) m where
  known := hm.known
  climbs := List.forall_mem_append.mpr
    ⟨hm.climbs, List.forall_mem_singleton.mpr fun hknown => absurd hknown hq⟩
  keeps hP hall := hm.keeps hP (List.forall_mem_append.mp hall).1

theorem MeetOf.concat (hm : doms.MeetOf ps m) (h : doms.Rooted) (hq : doms.Known q) :
    doms.MeetOf (ps ++ [q]) (doms.meet q m) := by
  obtain ⟨hqm, hmm⟩ := (h.meets_meetWithin (Nat.le_refl (q + m)) hq hm.known).climbs
  refine ⟨h.known_of_climbs hq hqm, ?_, fun {c P} hP hall => ?_⟩
  · exact List.forall_mem_append.mpr ⟨fun r hr hknown => (hm.climbs r hr hknown).trans hmm,
      List.forall_mem_singleton.mpr fun _ => hqm⟩
  · obtain ⟨hps, hlast⟩ := List.forall_mem_append.mp hall
    exact hP.meetWithin (List.forall_mem_singleton.mp hlast hq) (hm.keeps hP hps)

/-- The meet of a single value is that value. -/
theorem meetOf_concat_of_forall_not_known (hps : ∀ r ∈ ps, ¬ doms.Known r) (hq : doms.Known q) :
    doms.MeetOf (ps ++ [q]) q where
  known := hq
  climbs := List.forall_mem_append.mpr ⟨fun r hr hknown => absurd hknown (hps r hr),
    List.forall_mem_singleton.mpr fun _ => Relation.ReflTransGen.refl⟩
  keeps _ hall := List.forall_mem_singleton.mp (List.forall_mem_append.mp hall).2 hq

theorem meetAll_concat (doms : DomArray) (ps : List Nat) (q : Nat) :
    doms.meetAll (ps ++ [q]) =
      if (doms.at? q).isNone then doms.meetAll ps
      else
        match doms.meetAll ps with
        | none => some q
        | some current => some (doms.meet q current) := by
  rw [meetAll, List.foldl_append]
  rfl

/-- **What the meet of several positions is.** -/
theorem Rooted.meetAll_cases (h : doms.Rooted) (ps : List Nat) :
    (doms.meetAll ps = none ∧ ∀ q ∈ ps, ¬ doms.Known q) ∨
      ∃ m, doms.meetAll ps = some m ∧ doms.MeetOf ps m := by
  induction ps using List.reverseRecOn with
  | nil => exact Or.inl ⟨rfl, fun _ hq => absurd hq List.not_mem_nil⟩
  | append_singleton ps q ih =>
      rw [meetAll_concat]
      cases hq : doms.at? q with
      | none =>
          have hunknown : ¬ doms.Known q := by
            rintro ⟨d, hd⟩
            exact absurd (hq.symm.trans hd) (by simp)
          rcases ih with ⟨hnone, hall⟩ | ⟨m, hm, hmeet⟩
          · refine Or.inl ⟨hnone, List.forall_mem_append.mpr ⟨hall, ?_⟩⟩
            exact List.forall_mem_singleton.mpr hunknown
          · exact Or.inr ⟨m, hm, hmeet.concat_of_not_known hunknown⟩
      | some d =>
          rcases ih with ⟨hnone, hall⟩ | ⟨m, hm, hmeet⟩
          · rw [hnone]
            exact Or.inr ⟨q, rfl, meetOf_concat_of_forall_not_known hall ⟨d, hq⟩⟩
          · rw [hm]
            exact Or.inr ⟨_, rfl, hmeet.concat h ⟨d, hq⟩⟩

/-! ## One new value -/

/-- Give a position a value. -/
def put (doms : DomArray) (p d : Nat) : DomArray := doms.setIfInBounds p (some d)

theorem refine_of_meetAll (hm : doms.meetAll ps = some m) : doms.refine p ps = doms.put p m := by
  rw [DomArray.refine, hm]
  rfl

@[simp] theorem size_put : (doms.put p d).size = doms.size := Array.size_setIfInBounds

theorem at?_put (hp : p < doms.size) :
    (doms.put p d).at? x = if x = p then some d else doms.at? x := by
  rw [at?, put, Array.getElem?_setIfInBounds, at?]
  by_cases hx : p = x
  · subst hx
    simp [hp]
  · simp [hx, Ne.symm hx]

theorem lt_size_of_known (h : doms.Known p) : p < doms.size := by
  obtain ⟨d, hd⟩ := h
  by_contra hge
  rw [at?, Array.getElem?_eq_none (Nat.not_lt.mp hge)] at hd
  exact absurd hd (by simp)

theorem ext_at? (hsize : doms'.size = doms.size) (h : ∀ x, doms'.at? x = doms.at? x) :
    doms' = doms := by
  refine Array.ext hsize fun i hi hi' => ?_
  have hat := h i
  rwa [at?, at?, Array.getElem?_eq_getElem hi, Array.getElem?_eq_getElem hi', Option.join_some,
    Option.join_some] at hat

theorem known_put (hp : p < doms.size) : (doms.put p d).Known x ↔ x = p ∨ doms.Known x := by
  rw [Known, at?_put hp]
  split
  · rename_i hx
    exact iff_of_true ⟨d, rfl⟩ (Or.inl hx)
  · rename_i hx
    rw [or_iff_right hx]
    rfl

theorem Rooted.put (h : doms.Rooted) (hpos : 0 < p) (hp : p < doms.size) (hm : m < p)
    (hknown : doms.Known m) : (doms.put p m).Rooted where
  root := by
    rw [at?_put hp, if_neg (Nat.ne_of_lt hpos)]
    exact h.root
  lt {x d} hx hd := by
    rw [at?_put hp] at hd
    split at hd
    · rename_i heq
      cases hd
      exact heq ▸ hm
    · exact h.lt hx hd
  known {x d} hd := by
    rw [at?_put hp] at hd
    refine (known_put hp).mpr (Or.inr ?_)
    split at hd
    · cases hd
      exact hknown
    · exact h.known hd

/-- **Climbs with one new value.**  A climb that comes to `p` goes on with the climb from the new
value; all other climbs are as they were. -/
theorem Rooted.climbs_put (h : doms.Rooted) (hpos : 0 < p) (hp : p < doms.size) (hm : m < p) :
    (doms.put p m).Climbs x c ↔
      (doms.Climbs x c ∧ (p ≤ c ∨ ¬ doms.Climbs x p)) ∨ (doms.Climbs x p ∧ doms.Climbs m c) := by
  -- a climb that never leaves `p` is not touched
  have hkeep : ∀ {x c}, doms.Climbs x c → (p ≤ c ∨ ¬ doms.Climbs x p) →
      (doms.put p m).Climbs x c := by
    intro x c hc
    induction hc using Relation.ReflTransGen.head_induction_on with
    | refl => exact fun _ => Relation.ReflTransGen.refl
    | @head x y hxy hyc ih =>
        intro hside
        have hx : x ≠ p := by
          rintro rfl
          have hle : c ≤ y := h.climbs_le hyc
          have hlt : y < x := h.lt hpos hxy
          rcases hside with hside | hside
          · omega
          · exact hside Relation.ReflTransGen.refl
        have hstep : (doms.put p m).at? x = some y := by rwa [at?_put hp, if_neg hx]
        refine Relation.ReflTransGen.head hstep (ih (hside.imp_right fun hno hyp => hno ?_))
        exact Relation.ReflTransGen.head hxy hyp
  have hnew : (doms.put p m).at? p = some m := by rw [at?_put hp, if_pos rfl]
  constructor
  · intro hc
    induction hc using Relation.ReflTransGen.head_induction_on with
    | refl =>
        refine Or.inl ⟨Relation.ReflTransGen.refl, ?_⟩
        by_cases hcp : doms.Climbs c p
        · exact Or.inl (h.climbs_le hcp)
        · exact Or.inr hcp
    | @head x y hxy _ ih =>
        rw [at?_put hp] at hxy
        split at hxy
        · rename_i heq
          subst heq
          cases hxy
          rcases ih with ⟨hmc, -⟩ | ⟨hmx, -⟩
          · exact Or.inr ⟨Relation.ReflTransGen.refl, hmc⟩
          · exact absurd hmx (h.not_climbs hm)
        · rename_i hne
          rcases ih with ⟨hyc, hside⟩ | ⟨hyp, hmc⟩
          · refine Or.inl ⟨Relation.ReflTransGen.head hxy hyc, hside.imp_right fun hno hxp => ?_⟩
            exact hno (Climbs.of_ne hxp hne hxy)
          · exact Or.inr ⟨Relation.ReflTransGen.head hxy hyp, hmc⟩
  · rintro (⟨hxc, hside⟩ | ⟨hxp, hmc⟩)
    · exact hkeep hxc hside
    · have hto : (doms.put p m).Climbs x p := hkeep hxp (Or.inl (Nat.le_refl p))
      have hfrom : (doms.put p m).Climbs m c := hkeep hmc (Or.inr (h.not_climbs hm))
      exact hto.trans (Relation.ReflTransGen.head hnew hfrom)

/-! ## One pass -/

/-- The predecessors of a position. -/
def predecessorsAt (preds : List (List Nat)) (p : Nat) : List Nat := preds[p]?.getD []

/-- Every position but the first comes after one of its predecessors. -/
structure Grounded (preds : List (List Nat)) : Prop where
  pos : 0 < preds.length
  lt : ∀ {p q}, q ∈ predecessorsAt preds p → q < preds.length
  earlier : ∀ {p}, 0 < p → p < preds.length → ∃ q ∈ predecessorsAt preds p, q < p

/-- What is related to a position is the position itself or is related to all its predecessors, and
only `0` is related to `0`. -/
structure Respects (preds : List (List Nat)) (R : Nat → Nat → Prop) : Prop where
  zero : ∀ {a}, R a 0 → a = 0
  step : ∀ {a p q}, R a p → a ≠ p → q ∈ predecessorsAt preds p → R a q

theorem Respects.le {R : Nat → Nat → Prop} (hR : Respects preds R) (hpreds : Grounded preds)
    {a : Nat} (hp : p < preds.length) (ha : R a p) : a ≤ p := by
  induction p using Nat.strongRecOn with
  | ind p ih =>
      rcases Nat.eq_zero_or_pos p with rfl | hpos
      · exact Nat.le_of_eq (hR.zero ha)
      · by_cases heq : a = p
        · exact Nat.le_of_eq heq
        · obtain ⟨q, hq, hqp⟩ := hpreds.earlier hpos hp
          have := ih q hqp (hpreds.lt hq) (hR.step ha heq hq)
          omega

/-- **What a pass keeps true** before it comes to position `p`. -/
structure Solving (preds : List (List Nat)) (p : Nat) (doms : DomArray) : Prop where
  size : doms.size = preds.length
  rooted : doms.Rooted
  /-- The positions that the pass has been at have values. -/
  known : ∀ x < p, doms.Known x
  /-- A value climbs to whatever all predecessors climb to. -/
  bound : ∀ {x d c}, 0 < x → doms.at? x = some d →
    (∀ q ∈ predecessorsAt preds x, doms.Known q → doms.Climbs q c) → doms.Climbs d c
  /-- A predecessor before `x` climbs to what the value of `x` climbs to, up to positions that the
  pass has yet to come to if it has yet to come to `x`. -/
  support : ∀ {x d}, 0 < x → doms.at? x = some d →
    ∃ f ∈ predecessorsAt preds x, f < x ∧ doms.Known f ∧
      ∀ c, x < p ∨ p ≤ c → doms.Climbs d c → doms.Climbs f c
  /-- What is related to `x` is `x` itself or is related to its value. -/
  follows : ∀ {R}, Respects preds R → ∀ {a x d}, doms.at? x = some d → R a x → a ≠ x → R a d

/-- Values that are there stay there and do not grow. -/
def Below (doms' doms : DomArray) : Prop :=
  ∀ x d, doms.at? x = some d → ∃ d', doms'.at? x = some d' ∧ d' ≤ d

theorem Below.refl (doms : DomArray) : doms.Below doms := fun _ d hd => ⟨d, hd, Nat.le_refl d⟩

theorem Below.trans {doms'' : DomArray} (h : doms''.Below doms') (h' : doms'.Below doms) :
    doms''.Below doms := by
  intro x d hd
  obtain ⟨d', hd', hle⟩ := h' x d hd
  obtain ⟨d'', hd'', hle'⟩ := h x d' hd'
  exact ⟨d'', hd'', Nat.le_trans hle' hle⟩

theorem Below.antisymm (hsize : doms'.size = doms.size) (h : doms'.Below doms)
    (h' : doms.Below doms') : doms' = doms := by
  refine ext_at? hsize fun x => Option.ext fun d => ?_
  constructor
  · intro hd
    obtain ⟨e, he, hle⟩ := h' x d hd
    obtain ⟨d', hd', hle'⟩ := h x e he
    cases hd.symm.trans hd'
    rw [he, Nat.le_antisymm hle hle']
  · intro hd
    obtain ⟨e, he, hle⟩ := h x d hd
    obtain ⟨d', hd', hle'⟩ := h' x e he
    cases hd.symm.trans hd'
    rw [he, Nat.le_antisymm hle hle']

namespace Solving

/-- The position that comes next gets the meet of its predecessors, and that is before it. -/
theorem refine_eq (h : Solving preds p doms) (hpreds : Grounded preds) (hpos : 0 < p)
    (hp : p < preds.length) :
    ∃ m, m < p ∧ doms.MeetOf (predecessorsAt preds p) m ∧
      doms.refine p (predecessorsAt preds p) = doms.put p m := by
  obtain ⟨f, hf, hfp⟩ := hpreds.earlier hpos hp
  rcases h.rooted.meetAll_cases (predecessorsAt preds p) with ⟨-, hall⟩ | ⟨m, hm, hmeet⟩
  · exact absurd (h.known f hfp) (hall f hf)
  · have hle : m ≤ f := h.rooted.climbs_le (hmeet.climbs f hf (h.known f hfp))
    exact ⟨m, Nat.lt_of_le_of_lt hle hfp, hmeet, refine_of_meetAll hm⟩

/-- The meet of the predecessors lies on the climb from the old value. -/
theorem climbs_meet (h : Solving preds p doms) (hpos : 0 < p)
    (hmeet : doms.MeetOf (predecessorsAt preds p) m) (hp : doms.Known p) : doms.Climbs p m := by
  obtain ⟨d, hd⟩ := hp
  exact Relation.ReflTransGen.head hd (h.bound hpos hd hmeet.climbs)

theorem below_put (h : Solving preds p doms) (hpos : 0 < p) (hp : p < doms.size)
    (hmeet : doms.MeetOf (predecessorsAt preds p) m) : (doms.put p m).Below doms := by
  intro x d hd
  rw [at?_put hp]
  split
  · rename_i heq
    subst heq
    exact ⟨m, rfl, h.rooted.climbs_le (h.bound hpos hd hmeet.climbs)⟩
  · exact ⟨d, hd, Nat.le_refl d⟩

/-- From positions that have values, the new value opens no new climbs. -/
theorem climbs_of_put (h : Solving preds p doms) (hpos : 0 < p) (hp : p < doms.size) (hm : m < p)
    (hmeet : doms.MeetOf (predecessorsAt preds p) m) (hx : doms.Known x)
    (hc : (doms.put p m).Climbs x c) : doms.Climbs x c := by
  rcases (h.rooted.climbs_put hpos hp hm).mp hc with ⟨hxc, -⟩ | ⟨hxp, hmc⟩
  · exact hxc
  · have hknown : doms.Known p := h.rooted.known_of_climbs hx hxp
    exact (hxp.trans (h.climbs_meet hpos hmeet hknown)).trans hmc

/-- Climbing keeps what is related to a position until it comes there. -/
theorem keptDownTo (h : Solving preds p doms) (hpreds : Grounded preds) {R : Nat → Nat → Prop}
    (hR : Respects preds R) (a : Nat) : doms.KeptDownTo a fun x => R a x ∧ doms.Known x := by
  rintro x ⟨hx, hknown⟩
  refine ⟨hR.le hpreds (h.size ▸ lt_size_of_known hknown) hx, fun hne d hd => ?_⟩
  exact ⟨h.follows hR hd hx (Ne.symm hne), h.rooted.known hd⟩

/-- **One step of a pass.** -/
theorem put (h : Solving preds p doms) (hpreds : Grounded preds) (hpos : 0 < p)
    (hp : p < preds.length) (hm : m < p) (hmeet : doms.MeetOf (predecessorsAt preds p) m) :
    Solving preds (p + 1) (doms.put p m) := by
  have hp' : p < doms.size := h.size ▸ hp
  -- climbs from below `p` stay as they are
  have hlow : ∀ {x c}, x < p → doms.Climbs x c → (doms.put p m).Climbs x c := fun hx hc =>
    (h.rooted.climbs_put hpos hp' hm).mpr (Or.inl ⟨hc, Or.inr (h.rooted.not_climbs hx)⟩)
  have hold : ∀ {x c}, doms.Known x → (doms.put p m).Climbs x c → doms.Climbs x c :=
    fun hx hc => h.climbs_of_put hpos hp' hm hmeet hx hc
  have hstill : ∀ {x}, doms.Known x → (doms.put p m).Known x :=
    fun hx => (known_put hp').mpr (Or.inr hx)
  exact {
    size := size_put.trans h.size
    rooted := h.rooted.put hpos hp' hm hmeet.known
    known := fun x hx => by
      rcases Nat.lt_succ_iff_lt_or_eq.mp hx with hx | hx
      · exact hstill (h.known x hx)
      · exact (known_put hp').mpr (Or.inl hx)
    bound := fun {x d c} hx hd hall => by
      have hall' : ∀ q ∈ predecessorsAt preds x, doms.Known q → doms.Climbs q c :=
        fun q hq hknown => hold hknown (hall q hq (hstill hknown))
      rw [at?_put hp'] at hd
      split at hd
      · rename_i heq
        subst heq
        cases hd
        exact hlow hm (hmeet.climbs_of_forall h.rooted hall')
      · have hdc : doms.Climbs d c := h.bound hx hd hall'
        refine (h.rooted.climbs_put hpos hp' hm).mpr ?_
        by_cases hside : p ≤ c ∨ ¬ doms.Climbs d p
        · exact Or.inl ⟨hdc, hside⟩
        · -- the climb goes through `p`, and with it that of the supporting predecessor
          obtain ⟨hcp, hdp⟩ := not_or.mp hside
          have hdp := not_not.mp hdp
          obtain ⟨f, hf, -, hfknown, hfollow⟩ := h.support hx hd
          have hfp : doms.Climbs f p := hfollow p (Or.inr (Nat.le_refl p)) hdp
          rcases (h.rooted.climbs_put hpos hp' hm).mp (hall f hf (hstill hfknown)) with
            ⟨-, hno⟩ | ⟨-, hmc⟩
          · exact absurd hno (not_or.mpr ⟨hcp, not_not.mpr hfp⟩)
          · exact Or.inr ⟨hdp, hmc⟩
    support := fun {x d} hx hd => by
      rw [at?_put hp'] at hd
      split at hd
      · rename_i heq
        subst heq
        cases hd
        obtain ⟨f, hf, hfx⟩ := hpreds.earlier hpos hp
        have hfknown := h.known f hfx
        refine ⟨f, hf, hfx, hstill hfknown, fun c _ hmc => hlow hfx ?_⟩
        exact (hmeet.climbs f hf hfknown).trans (hold hmeet.known hmc)
      · rename_i hne
        obtain ⟨f, hf, hfx, hfknown, hfollow⟩ := h.support hx hd
        refine ⟨f, hf, hfx, hstill hfknown, fun c hside hdc => ?_⟩
        have hdc : doms.Climbs d c := hold (h.rooted.known hd) hdc
        rcases Nat.lt_or_ge x p with hxp | hpx
        · exact hlow (Nat.lt_trans hfx hxp) (hfollow c (Or.inl hxp) hdc)
        · have hpc : p ≤ c := by omega
          exact (h.rooted.climbs_put hpos hp' hm).mpr
            (Or.inl ⟨hfollow c (Or.inr hpc) hdc, Or.inl hpc⟩)
    follows := fun {R} hR {a x d} hd hx hne => by
      rw [at?_put hp'] at hd
      split at hd
      · rename_i heq
        subst heq
        cases hd
        have hall : ∀ q ∈ predecessorsAt preds x, doms.Known q → R a q ∧ doms.Known q :=
          fun q hq hknown => ⟨hR.step hx hne hq, hknown⟩
        exact (hmeet.keeps (h.keptDownTo hpreds hR a) hall).1
      · exact h.follows hR hd hx hne }

/-- At the end of a pass the next one can begin. -/
theorem restart (h : Solving preds preds.length doms) (hpreds : Grounded preds) :
    Solving preds 1 doms where
  size := h.size
  rooted := h.rooted
  known x hx := h.known x (by have := hpreds.pos; omega)
  bound := h.bound
  support {x d} hx hd := by
    obtain ⟨f, hf, hfx, hfknown, hfollow⟩ := h.support hx hd
    have hlt : x < preds.length := h.size ▸ lt_size_of_known ⟨d, hd⟩
    exact ⟨f, hf, hfx, hfknown, fun c _ => hfollow c (Or.inl hlt)⟩
  follows := h.follows

end Solving

theorem at?_start {n : Nat} (hn : 0 < n) : (start n).at? x = if x = 0 then some 0 else none := by
  have hsize : 0 < (Array.replicate n (none : Option Nat)).size := by
    rwa [Array.size_replicate]
  have hnone : at? (Array.replicate n none) x = none := by
    rw [at?, Array.getElem?_replicate]
    split <;> rfl
  rw [← hnone]
  exact at?_put hsize

theorem solving_start (hpreds : Grounded preds) : Solving preds 1 (start preds.length) := by
  have hat : ∀ {x d}, (start preds.length).at? x = some d → x = 0 ∧ d = 0 := by
    intro x d hd
    rw [at?_start hpreds.pos] at hd
    obtain ⟨hx, hd⟩ := Option.ite_none_right_eq_some.mp hd
    exact ⟨hx, (Option.some.inj hd).symm⟩
  have hroot : (start preds.length).at? 0 = some 0 := by rw [at?_start hpreds.pos, if_pos rfl]
  have hzero : ∀ {x d}, 0 < x → (start preds.length).at? x ≠ some d :=
    fun hx hd => absurd (hat hd).1 (Nat.ne_of_gt hx)
  exact {
    size := by rw [start, Array.size_setIfInBounds, Array.size_replicate]
    rooted :=
      { root := hroot
        lt := fun hx hd => absurd hd (hzero hx)
        known := fun hd => ⟨0, (hat hd).2 ▸ hroot⟩ }
    known := fun x hx => ⟨0, (Nat.lt_one_iff.mp hx) ▸ hroot⟩
    bound := fun hx hd => absurd hd (hzero hx)
    support := fun hx hd => absurd hd (hzero hx)
    follows := fun {R} hR {a x d} hd hx hne => by
      obtain ⟨rfl, -⟩ := hat hd
      exact absurd (hR.zero hx) hne }

/-- The part of a pass from position `p` on. -/
def passFrom (preds : List (List Nat)) (p : Nat) (doms : DomArray) : DomArray :=
  ((preds.drop p).zipIdx p).foldl (fun doms e => doms.refine e.2 e.1) doms

theorem pass_eq_passFrom (preds : List (List Nat)) (doms : DomArray) :
    pass preds doms = passFrom preds 1 doms := by
  cases preds with
  | nil => rfl
  | cons ps preds => rfl

theorem passFrom_length (preds : List (List Nat)) (doms : DomArray) :
    passFrom preds preds.length doms = doms := by
  rw [passFrom, List.drop_length]
  rfl

theorem passFrom_of_lt (hp : p < preds.length) (doms : DomArray) :
    passFrom preds p doms = passFrom preds (p + 1) (doms.refine p (predecessorsAt preds p)) := by
  rw [passFrom, List.drop_eq_getElem_cons hp, List.zipIdx_cons, List.foldl_cons, predecessorsAt,
    List.getElem?_eq_getElem hp]
  rfl

/-- **A pass keeps the invariant and lowers values.** -/
theorem Solving.passFrom (hpreds : Grounded preds) {k : Nat} (hk : p + k = preds.length)
    (hpos : 0 < p) (h : Solving preds p doms) :
    Solving preds preds.length (passFrom preds p doms) ∧ (passFrom preds p doms).Below doms := by
  induction k generalizing p doms with
  | zero =>
      rw [Nat.add_zero] at hk
      subst hk
      rw [passFrom_length]
      exact ⟨h, Below.refl doms⟩
  | succ k ih =>
      have hp : p < preds.length := by omega
      obtain ⟨m, hm, hmeet, hrefine⟩ := h.refine_eq hpreds hpos hp
      rw [passFrom_of_lt hp, hrefine]
      obtain ⟨hend, hbelow⟩ := ih (by omega) (Nat.succ_pos p) (h.put hpreds hpos hp hm hmeet)
      exact ⟨hend, hbelow.trans (h.below_put hpos (h.size ▸ hp) hmeet)⟩

theorem Solving.pass (h : Solving preds 1 doms) (hpreds : Grounded preds) :
    Solving preds preds.length (DomArray.pass preds doms) ∧
      (DomArray.pass preds doms).Below doms := by
  rw [pass_eq_passFrom]
  exact h.passFrom hpreds (Nat.add_sub_of_le hpreds.pos) Nat.one_pos

/-- Values only decrease, so a pass that changes nothing has no step that changes anything. -/
theorem Solving.refine_eq_of_passFrom_eq (hpreds : Grounded preds) {k : Nat}
    (hk : p + k = preds.length) (hpos : 0 < p) (h : Solving preds p doms)
    (hfix : DomArray.passFrom preds p doms = doms) (hpq : p ≤ q) (hq : q < preds.length) :
    doms.refine q (predecessorsAt preds q) = doms := by
  induction k generalizing p with
  | zero => omega
  | succ k ih =>
      have hp : p < preds.length := by omega
      obtain ⟨m, hm, hmeet, hrefine⟩ := h.refine_eq hpreds hpos hp
      have hnext := h.put hpreds hpos hp hm hmeet
      rw [passFrom_of_lt hp, hrefine] at hfix
      have hbelow := (hnext.passFrom (k := k) hpreds (by omega) (Nat.succ_pos p)).2
      rw [hfix] at hbelow
      have hsame : doms.put p m = doms :=
        Below.antisymm size_put (h.below_put hpos (h.size ▸ hp) hmeet) hbelow
      rcases Nat.eq_or_lt_of_le hpq with rfl | hlt
      · exact hrefine.trans hsame
      · rw [hsame] at hfix hnext
        exact ih (by omega) (Nat.succ_pos p) hnext hfix hlt

/-! ## The number of passes -/

/-- The sum of all values, where a position without one counts as much as all positions. -/
def total (n : Nat) (doms : DomArray) : Nat := ∑ x ∈ Finset.range n, (doms.at? x).getD n

theorem Rooted.getD_le {n : Nat} (h : doms.Rooted) (hx : x < n) : (doms.at? x).getD n ≤ n := by
  cases hd : doms.at? x with
  | none => exact Nat.le_refl n
  | some d => exact Nat.le_trans (h.at?_le hd) (Nat.le_of_lt hx)

theorem Rooted.total_le (h : doms.Rooted) (n : Nat) : total n doms ≤ n * n := by
  have hsum := Finset.sum_le_card_nsmul (Finset.range n) (fun x => (doms.at? x).getD n) n
    fun x hx => h.getD_le (Finset.mem_range.mp hx)
  rwa [Finset.card_range] at hsum

theorem Below.getD_le {n : Nat} (h : doms'.Below doms) (hroot : doms'.Rooted) (hx : x < n) :
    (doms'.at? x).getD n ≤ (doms.at? x).getD n := by
  cases hd : doms.at? x with
  | none => exact hroot.getD_le hx
  | some d =>
      obtain ⟨d', hd', hle⟩ := h x d hd
      rwa [hd']

theorem below_of_getD_le (hroot : doms'.Rooted)
    (h : ∀ x < doms'.size, (doms.at? x).getD doms'.size ≤ (doms'.at? x).getD doms'.size) :
    doms.Below doms' := by
  intro x d' hd'
  have hx : x < doms'.size := lt_size_of_known ⟨d', hd'⟩
  have hle := h x hx
  have hd'x := hroot.at?_le hd'
  rw [hd', Option.getD_some] at hle
  cases hd : doms.at? x with
  | none =>
      rw [hd, Option.getD_none] at hle
      omega
  | some d =>
      rw [hd, Option.getD_some] at hle
      exact ⟨d, rfl, hle⟩

theorem Below.total_lt (h : doms'.Below doms) (hroot : doms'.Rooted)
    (hsize : doms'.size = doms.size) (hne : doms' ≠ doms) :
    total doms'.size doms' < total doms'.size doms := by
  refine Finset.sum_lt_sum (fun x hx => h.getD_le hroot (Finset.mem_range.mp hx)) ?_
  by_contra hsame
  refine hne (Below.antisymm hsize h (below_of_getD_le hroot fun x hx => ?_))
  by_contra hlt
  exact hsame ⟨x, Finset.mem_range.mpr hx, Nat.not_le.mp hlt⟩

/-! ## The final array -/

/-- The invariant holds, and no step changes anything. -/
structure Settled (preds : List (List Nat)) (doms : DomArray) : Prop where
  solving : Solving preds preds.length doms
  refine_eq : ∀ {p}, 0 < p → p < preds.length → doms.refine p (predecessorsAt preds p) = doms

/-- **The iteration comes to a pass that changes nothing.** -/
theorem Solving.solve (hpreds : Grounded preds) {budget : Nat} (h : Solving preds 1 doms)
    (hbudget : total preds.length doms < budget) :
    Settled preds (DomArray.solve preds budget doms) := by
  induction budget generalizing doms with
  | zero => exact absurd hbudget (Nat.not_lt_zero _)
  | succ budget ih =>
      obtain ⟨hend, hbelow⟩ := h.pass hpreds
      rw [DomArray.solve]
      split
      · rename_i hfix
        rw [hfix] at hend
        rw [pass_eq_passFrom] at hfix
        have hlength : 1 + (preds.length - 1) = preds.length := Nat.add_sub_of_le hpreds.pos
        refine ⟨hend, fun hpos hp => ?_⟩
        exact h.refine_eq_of_passFrom_eq hpreds hlength Nat.one_pos hfix hpos hp
      · rename_i hne
        refine ih (hend.restart hpreds) ?_
        have hlt := hbelow.total_lt hend.rooted (hend.size.trans h.size.symm) hne
        rw [hend.size] at hlt
        omega

theorem settled_solve_start (hpreds : Grounded preds) :
    Settled preds (solve preds (preds.length * preds.length + 1) (start preds.length)) := by
  have hstart := solving_start hpreds
  exact hstart.solve hpreds (Nat.lt_succ_of_le (hstart.rooted.total_le preds.length))

/-- Every position but the first has the meet of its predecessors as its value. -/
theorem Settled.at?_eq (h : Settled preds doms) (hpreds : Grounded preds) (hpos : 0 < p)
    (hp : p < preds.length) :
    ∃ m, doms.at? p = some m ∧ doms.MeetOf (predecessorsAt preds p) m := by
  obtain ⟨f, hf, -⟩ := hpreds.earlier hpos hp
  have hfix := h.refine_eq hpos hp
  rcases h.solving.rooted.meetAll_cases (predecessorsAt preds p) with ⟨-, hall⟩ | ⟨m, hm, hmeet⟩
  · exact absurd (h.solving.known f (hpreds.lt hf)) (hall f hf)
  · rw [refine_of_meetAll hm] at hfix
    refine ⟨m, ?_, hmeet⟩
    rw [← hfix, at?_put (h.solving.size ▸ hp), if_pos rfl]

/-- **The climbs in the final array respect the lists.** -/
theorem Settled.respects_climbs (h : Settled preds doms) (hpreds : Grounded preds) :
    Respects preds fun a p => doms.Climbs p a where
  zero ha := Nat.le_zero.mp (h.solving.rooted.climbs_le ha)
  step {a p q} ha hne hq := by
    have hpos : 0 < p := by
      have := h.solving.rooted.climbs_le ha
      omega
    have hp : p < preds.length := by
      by_contra hge
      rw [predecessorsAt, List.getElem?_eq_none (Nat.not_lt.mp hge)] at hq
      exact absurd hq List.not_mem_nil
    obtain ⟨m, hm, hmeet⟩ := h.at?_eq hpreds hpos hp
    exact (hmeet.climbs q hq (h.solving.known q (hpreds.lt hq))).trans (ha.of_ne (Ne.symm hne) hm)

/-- **Whatever respects the lists is found by climbing in the final array.** -/
theorem Settled.climbs_of_respects (h : Settled preds doms) {R : Nat → Nat → Prop}
    (hR : Respects preds R) {a : Nat} (hp : p < preds.length) (ha : R a p) : doms.Climbs p a := by
  induction p using Nat.strongRecOn with
  | ind p ih =>
      by_cases heq : a = p
      · subst heq
        exact Relation.ReflTransGen.refl
      · have hpos : 0 < p := by
          refine Nat.pos_of_ne_zero ?_
          rintro rfl
          exact heq (hR.zero ha)
        obtain ⟨d, hd⟩ := h.solving.known p hp
        have hlt : d < p := h.solving.rooted.lt hpos hd
        have hda : R a d := h.solving.follows hR hd ha heq
        exact Relation.ReflTransGen.head hd (ih d hlt (Nat.lt_trans hlt hp) hda)

end DomArray

end RegAlloc
