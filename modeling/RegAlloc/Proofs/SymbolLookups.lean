import RegAlloc.Proofs.ProgramRegisters

/-!
# Two ways to look up a register

Procedures are coloured one by one, so a symbol that occurs in several of them may have a different
register in each.  Fields are such symbols: every method of a class reads and writes the same ones.
An allocation has two lookups that leave the procedure out, and **they need not agree**: `color?`
answers for the first procedure that mentions the symbol, the merged map for the last one.

The main result says what both of them answer in terms of the procedures that mention the symbol
(`allocate_lookups`).  They have answers for the same symbols, and they give the same answer exactly
if the first and the last of these procedures agree on the register.  That is so for every symbol
that a single procedure mentions.
-/

namespace RegAlloc

/-! ## First and last answers -/

section Answers

variable {α β : Type} {f : α → Option β} {xs : List α} {b : β}

/-- The first answer, by its position. -/
theorem findSome?_eq_some_iff_first :
    xs.findSome? f = some b ↔
      ∃ i : Nat, xs[i]?.bind f = some b ∧ ∀ j < i, xs[j]?.bind f = none := by
  induction xs with
  | nil => simp
  | cons x xs ih =>
      rw [List.findSome?_cons]
      cases hx : f x with
      | some c =>
          constructor
          · intro hc
            exact ⟨0, by simpa [hx] using hc, fun j hj => absurd hj (Nat.not_lt_zero j)⟩
          · rintro ⟨i, hi, hbefore⟩
            cases i with
            | zero => simpa [hx] using hi
            | succ i => exact absurd (hbefore 0 (Nat.succ_pos i)) (by simp [hx])
      | none =>
          show xs.findSome? f = some b ↔ _
          rw [ih]
          constructor
          · rintro ⟨i, hi, hbefore⟩
            refine ⟨i + 1, hi, fun j hj => ?_⟩
            cases j with
            | zero => simpa using hx
            | succ j => exact hbefore j (Nat.lt_of_succ_lt_succ hj)
          · rintro ⟨i, hi, hbefore⟩
            cases i with
            | zero => simp [hx] at hi
            | succ i => exact ⟨i, hi, fun j hj => hbefore (j + 1) (Nat.succ_lt_succ hj)⟩

/-- The last answer, by its position. -/
theorem findSome?_reverse_eq_some_iff_last :
    xs.reverse.findSome? f = some b ↔
      ∃ i : Nat, xs[i]?.bind f = some b ∧ ∀ j, i < j → xs[j]?.bind f = none := by
  induction xs with
  | nil => simp
  | cons x xs ih =>
      rw [List.reverse_cons, List.findSome?_append, List.findSome?_singleton, Option.or_eq_some_iff,
        ih, List.findSome?_eq_none_iff]
      constructor
      · rintro (⟨i, hi, hafter⟩ | ⟨hnone, hx⟩)
        · refine ⟨i + 1, hi, fun j hj => ?_⟩
          cases j with
          | zero => exact absurd hj (Nat.not_lt_zero _)
          | succ j => exact hafter j (Nat.lt_of_succ_lt_succ hj)
        · refine ⟨0, hx, fun j hj => ?_⟩
          cases j with
          | zero => exact absurd hj (Nat.lt_irrefl 0)
          | succ j =>
              rw [List.getElem?_cons_succ, Option.bind_eq_none_iff]
              exact fun y hy => hnone y (List.mem_reverse.mpr (List.mem_of_getElem? hy))
      · rintro ⟨i, hi, hafter⟩
        cases i with
        | succ i => exact Or.inl ⟨i, hi, fun j hj => hafter (j + 1) (Nat.succ_lt_succ hj)⟩
        | zero =>
            refine Or.inr ⟨fun y hy => ?_, hi⟩
            obtain ⟨j, hj⟩ := List.mem_iff_getElem?.mp (List.mem_reverse.mp hy)
            have hnone := hafter (j + 1) (Nat.succ_pos j)
            rw [List.getElem?_cons_succ, hj] at hnone
            exact hnone

end Answers

/-- Written over another map, a map wins. -/
theorem IdMap.get?_insertList_toList {α : Type} (m n : IdMap α) (k : Nat) :
    (m.insertList n.toList).get? k = (n.get? k).or (m.get? k) := by
  cases hk : n.get? k with
  | some v =>
      have hdistinct : n.toList.Pairwise fun d e => d.1 ≠ e.1 := n.ascending.imp Nat.ne_of_lt
      exact IdMap.get?_insertList_of_mem hdistinct (IdMap.mem_toList.mpr hk)
  | none =>
      refine IdMap.get?_insertList_of_notMem fun e he hek => ?_
      have hget : n.get? k = some e.2 := IdMap.mem_toList.mp (hek ▸ he)
      exact absurd (hk.symm.trans hget) (by simp)

namespace Allocation

variable {a : Allocation} {s : SymbolId} {c : Nat}

/-- The register of a symbol in one of the procedures, by its place in the program. -/
def colorAt? (a : Allocation) (i : Nat) (s : SymbolId) : Option Nat :=
  a.procedures[i]?.bind fun r => r.coloring.color? s

/-- **`color?` answers for the first procedure that has a register for the symbol.** -/
theorem color?_eq_some_iff :
    a.color? s = some c ↔ ∃ i, a.colorAt? i s = some c ∧ ∀ j < i, a.colorAt? j s = none :=
  findSome?_eq_some_iff_first

theorem get?_merged (a : Allocation) (s : SymbolId) :
    a.merged.get? s = a.procedures.reverse.findSome? fun r => r.coloring.color? s := by
  unfold merged
  induction a.procedures using List.reverseRecOn with
  | nil => rfl
  | append_singleton rs r ih =>
      rw [List.foldl_append, List.foldl_cons, List.foldl_nil, IdMap.get?_insertList_toList, ih,
        List.reverse_append, List.reverse_singleton, List.singleton_append, List.findSome?_cons]
      show (r.coloring.color? s).or _ = _
      cases r.coloring.color? s <;> rfl

/-- **The merged map answers for the last one.** -/
theorem get?_merged_eq_some_iff :
    a.merged.get? s = some c ↔
      ∃ i, a.colorAt? i s = some c ∧ ∀ j, i < j → a.colorAt? j s = none := by
  rw [get?_merged]
  exact findSome?_reverse_eq_some_iff_last

theorem color?_eq_none_iff_merged : a.color? s = none ↔ a.merged.get? s = none := by
  rw [get?_merged, color?, List.findSome?_eq_none_iff, List.findSome?_eq_none_iff]
  simp only [List.mem_reverse]

/-- **The lookups agree on a symbol** if its registers in the first and in the last procedure that
have one for it are the same. -/
theorem color?_eq_get?_merged_iff :
    a.color? s = a.merged.get? s ↔
      ∀ i j, (∃ c, a.colorAt? i s = some c) → (∀ k < i, a.colorAt? k s = none) →
        (∃ c, a.colorAt? j s = some c) → (∀ k, j < k → a.colorAt? k s = none) →
        a.colorAt? i s = a.colorAt? j s := by
  constructor
  · rintro heq i j ⟨c, hc⟩ hbefore ⟨d, hd⟩ hafter
    have hfirst := color?_eq_some_iff.mpr ⟨i, hc, hbefore⟩
    have hlast := get?_merged_eq_some_iff.mpr ⟨j, hd, hafter⟩
    rw [hc, hd, ← hfirst, ← hlast, heq]
  · intro hsame
    cases hc : a.color? s with
    | none => exact (color?_eq_none_iff_merged.mp hc).symm
    | some c =>
        cases hd : a.merged.get? s with
        | none => exact absurd (color?_eq_none_iff_merged.mpr hd) (by simp [hc])
        | some d =>
            obtain ⟨i, hi, hbefore⟩ := color?_eq_some_iff.mp hc
            obtain ⟨j, hj, hafter⟩ := get?_merged_eq_some_iff.mp hd
            rw [← hi, ← hj]
            exact hsame i j ⟨c, hi⟩ hbefore ⟨d, hj⟩ hafter

end Allocation

/-! ## Procedures that mention a symbol -/

/-- The procedure at place `i` mentions the symbol. -/
def MentionedIn (flows : List FlowGraph) (i : Nat) (s : SymbolId) : Prop :=
  ∃ g, flows[i]? = some g ∧ g.Mentions s

/-- Where every procedure has registers for the symbols it mentions, so has every place. -/
theorem exists_bind_color?_iff {flows : List FlowGraph} {rs : List ProcedureRegisters}
    (hall : List.Forall₂ (fun g r => ∀ s, (∃ c, r.coloring.color? s = some c) ↔ g.Mentions s)
      flows rs) (i : Nat) (s : SymbolId) :
    (∃ c, rs[i]?.bind (fun r => r.coloring.color? s) = some c) ↔ MentionedIn flows i s := by
  unfold MentionedIn
  induction hall generalizing i with
  | nil => simp
  | cons hgr _ ih =>
      cases i with
      | zero => simpa using hgr s
      | succ i => exact ih i

namespace Program

/-- **What the two lookups answer.**  In an allocated program, a symbol has a register at exactly
the places of the procedures that mention it.  The one lookup answers for the first of these places
and the other for the last one, so they agree exactly if these two procedures agree on the register.
In particular they agree on every symbol that only one procedure mentions. -/
theorem allocate_lookups (p : Program) (isField : SymbolId → Bool) (settings : Settings)
    (a : Allocation) (h : p.allocate isField settings = .ok a) :
    ∃ flows, FlowGraph.ofInstrs p.instrs = .ok flows ∧
      (∀ i s, (∃ c, a.colorAt? i s = some c) ↔ MentionedIn flows i s) ∧
      (∀ s c, a.color? s = some c ↔
        ∃ i, a.colorAt? i s = some c ∧ ∀ j < i, ¬ MentionedIn flows j s) ∧
      (∀ s c, a.merged.get? s = some c ↔
        ∃ i, a.colorAt? i s = some c ∧ ∀ j, i < j → ¬ MentionedIn flows j s) ∧
      (∀ s, a.color? s = a.merged.get? s ↔
        ∀ i j, MentionedIn flows i s → (∀ k < i, ¬ MentionedIn flows k s) →
          MentionedIn flows j s → (∀ k, j < k → ¬ MentionedIn flows k s) →
          a.colorAt? i s = a.colorAt? j s) ∧
      ∀ s, (∀ i j, MentionedIn flows i s → MentionedIn flows j s → i = j) →
        a.color? s = a.merged.get? s := by
  obtain ⟨flows, hflows, hall⟩ := forall₂_of_allocate
    (P := fun g r => ∀ s, (∃ c, r.coloring.color? s = some c) ↔ g.Mentions s) h
    fun g _ hvalid => hvalid.colored
  have hat : ∀ i s, (∃ c, a.colorAt? i s = some c) ↔ MentionedIn flows i s :=
    exists_bind_color?_iff hall
  have hnone : ∀ i s, a.colorAt? i s = none ↔ ¬ MentionedIn flows i s := by
    intro i s
    rw [← hat, Option.eq_none_iff_forall_ne_some, not_exists]
  refine ⟨flows, hflows, hat, fun s c => ?_, fun s c => ?_, fun s => ?_, fun s honce => ?_⟩
  · simp only [Allocation.color?_eq_some_iff, hnone]
  · simp only [Allocation.get?_merged_eq_some_iff, hnone]
  · simp only [Allocation.color?_eq_get?_merged_iff, hat, hnone]
  · refine Allocation.color?_eq_get?_merged_iff.mpr fun i j hi _ hj _ => ?_
    rw [honce i j ((hat i s).mp hi) ((hat j s).mp hj)]

/-- Two methods of one class.  Both read its field, symbol `1`, and the second one writes it. -/
def sharedField : Program where
  symbols := ∅
  instrs :=
    [.label "Counter.get" (some ⟨2, [], some 3⟩), .ret (some (.symbol 1)),
      .label "Counter.inc" (some ⟨4, [6], some 5⟩), .binary .add 1 (.symbol 1) (.symbol 6),
      .ret none]

/-- The control flow of the two methods. -/
def sharedFieldFlows : List FlowGraph :=
  [FlowGraph.ofRegion ⟨0, "Counter.get", ⟨2, [], some 3⟩, sharedField.instrs.take 2⟩,
    FlowGraph.ofRegion ⟨2, "Counter.inc", ⟨4, [6], some 5⟩, sharedField.instrs.drop 2⟩]

/-- Their registers. -/
def sharedFieldRegisters : Allocation where
  procedures := sharedFieldFlows.map fun g =>
    ⟨g.name, g.procedure.method, (ProcedureRun.ofFlow (· == 1) Settings.standard g).result⟩

theorem allocate_sharedField :
    sharedField.allocate (· == 1) Settings.standard = .ok sharedFieldRegisters := by
  refine allocate_eq_ok.mpr ⟨rfl, sharedFieldFlows, rfl, List.forall₂_map_right_iff.mpr ?_⟩
  refine List.forall₂_same.mpr fun g hg => FlowGraph.allocateNamed_eq_ok.mpr ⟨rfl, ?_, rfl⟩
  have hspilled : ∀ g ∈ sharedFieldFlows,
      (ProcedureRun.ofFlow (· == 1) Settings.standard g).result.spilled = [] := by
    decide +kernel
  exact hspilled g hg

/-- **The two lookups may differ.**  The field is in register `0` for the first method and in
register `1` for the second one. -/
theorem sharedField_lookups_differ :
    sharedField.allocate (· == 1) Settings.standard = .ok sharedFieldRegisters ∧
      ¬ ∀ s, sharedFieldRegisters.color? s = sharedFieldRegisters.merged.get? s := by
  refine ⟨allocate_sharedField, fun hagree => ?_⟩
  have hfirst : sharedFieldRegisters.color? 1 = some 0 := by decide +kernel
  have hlast : sharedFieldRegisters.merged.get? 1 = some 1 := by decide +kernel
  have hsame := hagree 1
  rw [hfirst, hlast] at hsame
  exact absurd hsame (by decide)

/-- Both methods mention the field.  The receiver of the first one is mentioned there alone, and on
it the lookups agree. -/
theorem allocate_lookups_sharedField :
    sharedField.allocate (· == 1) Settings.standard = .ok sharedFieldRegisters ∧
      MentionedIn sharedFieldFlows 0 1 ∧ MentionedIn sharedFieldFlows 1 1 ∧
      (∀ i, MentionedIn sharedFieldFlows i 3 → i = 0) ∧
      sharedFieldRegisters.color? 3 = sharedFieldRegisters.merged.get? 3 := by
  have hflows : FlowGraph.ofInstrs sharedField.instrs = .ok sharedFieldFlows := rfl
  obtain ⟨flows, hflows', hat, -, -, -, hagree⟩ := allocate_lookups _ _ _ _ allocate_sharedField
  cases hflows.symm.trans hflows'
  have honce : ∀ i, MentionedIn sharedFieldFlows i 3 → i = 0 := by
    intro i hi
    obtain ⟨c, hc⟩ := (hat i 3).mpr hi
    rcases i with _ | _ | i
    · rfl
    · have hsecond : sharedFieldRegisters.colorAt? 1 3 = none := by decide +kernel
      exact absurd (hsecond.symm.trans hc) (by simp)
    · have hbeyond : sharedFieldRegisters.colorAt? (i + 2) 3 = none := rfl
      exact absurd (hbeyond.symm.trans hc) (by simp)
  refine ⟨allocate_sharedField, (hat 0 1).mp ⟨0, by decide +kernel⟩,
    (hat 1 1).mp ⟨1, by decide +kernel⟩, honce, hagree 3 fun i j hi hj => ?_⟩
  rw [honce i hi, honce j hj]

end Program

end RegAlloc
