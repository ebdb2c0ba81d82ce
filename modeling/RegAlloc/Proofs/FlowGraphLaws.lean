import Mathlib.Data.List.Forall2
import RegAlloc.Proofs.ProgramScan

/-!
# What every flow graph of a program satisfies

A flow graph is a plain record, so a block number in its edge list could be anything.  The graphs
that come out of a program are better: their edges join blocks that exist.  The analyses keep one
entry per block, so this is what makes it safe to read the entry of a successor.

The first section is about working through a list: the run succeeds exactly if every element does,
with the results in the order of the elements, and otherwise fails as the first element does that
fails.
-/

namespace RegAlloc

/-! ## Runs that succeed, and runs that fail -/

namespace Progress

variable {α β ε : Type} {f : α → Except ε β}

theorem toExcept_run_cons (a : α) (as : List α) :
    (run f (a :: as)).toExcept =
      match f a with
      | .error e => .error e
      | .ok b => (run f as).toExcept.map (b :: ·) := by
  cases hfa : f a with
  | error e => rw [run_cons_error hfa]; rfl
  | ok b =>
      rw [run_cons_ok hfa, toExcept, toExcept]
      cases (run f as).failure with
      | none => rfl
      | some e => rfl

/-- **A run succeeds exactly if every element does.** -/
theorem toExcept_run_eq_ok {as : List α} {bs : List β} :
    (run f as).toExcept = .ok bs ↔ List.Forall₂ (fun a b => f a = .ok b) as bs := by
  induction as generalizing bs with
  | nil =>
      rw [List.forall₂_nil_left_iff]
      constructor
      · intro h
        exact (Except.ok.inj h).symm
      · rintro rfl
        rfl
  | cons a as ih =>
      rw [toExcept_run_cons, List.forall₂_cons_left_iff]
      cases hfa : f a with
      | error e => simp
      | ok b =>
          cases hrest : (run f as).toExcept with
          | error e =>
              have hnone : ∀ cs, ¬ List.Forall₂ (fun a b => f a = .ok b) as cs := by
                intro cs hcs
                exact absurd (hrest.symm.trans (ih.mpr hcs)) (by simp)
              simp [Except.map, hnone]
          | ok cs =>
              have hcs : List.Forall₂ (fun a b => f a = .ok b) as cs := ih.mp hrest
              constructor
              · intro h
                exact ⟨b, cs, rfl, hcs, (Except.ok.inj h).symm⟩
              · rintro ⟨b', cs', hb, hcs', rfl⟩
                cases hb
                cases hrest.symm.trans (ih.mpr hcs')
                rfl

/-- A run has results exactly if every element has one. -/
theorem exists_toExcept_run_eq_ok {as : List α} :
    (∃ bs, (run f as).toExcept = .ok bs) ↔ ∀ a ∈ as, ∃ b, f a = .ok b := by
  simp only [toExcept_run_eq_ok]
  induction as with
  | nil => simp
  | cons a as ih =>
      rw [List.forall_mem_cons, ← ih]
      simp only [List.forall₂_cons_left_iff]
      constructor
      · rintro ⟨-, b, bs, hb, hbs, -⟩
        exact ⟨⟨b, hb⟩, bs, hbs⟩
      · rintro ⟨⟨b, hb⟩, bs, hbs⟩
        exact ⟨b :: bs, b, bs, hb, hbs, rfl⟩

/-- **A run fails with the failure of the first element that fails.** -/
theorem toExcept_run_eq_error {as : List α} {e : ε} :
    (run f as).toExcept = .error e ↔
      ∃ before a after, as = before ++ a :: after ∧ (∀ a ∈ before, ∃ b, f a = .ok b) ∧
        f a = .error e := by
  induction as with
  | nil => simp [run, toExcept]
  | cons a as ih =>
      rw [toExcept_run_cons]
      cases hfa : f a with
      | error d =>
          constructor
          · intro h
            cases h
            exact ⟨[], a, as, rfl, fun _ h => absurd h List.not_mem_nil, hfa⟩
          · rintro ⟨before, c, after, has, hbefore, hc⟩
            cases before with
            | nil =>
                cases has
                cases hfa.symm.trans hc
                rfl
            | cons a' before =>
                cases has
                obtain ⟨b, hb⟩ := hbefore a List.mem_cons_self
                exact absurd (hfa.symm.trans hb) (by simp)
      | ok b =>
          have hmap : (run f as).toExcept.map (b :: ·) = .error e ↔
              (run f as).toExcept = .error e := by
            cases (run f as).toExcept <;> simp [Except.map]
          rw [hmap, ih]
          constructor
          · rintro ⟨before, c, after, rfl, hbefore, hc⟩
            exact ⟨a :: before, c, after, rfl, List.forall_mem_cons.mpr ⟨⟨b, hfa⟩, hbefore⟩, hc⟩
          · rintro ⟨before, c, after, has, hbefore, hc⟩
            cases before with
            | nil =>
                cases has
                exact absurd (hfa.symm.trans hc) (by simp)
            | cons a' before =>
                cases has
                exact ⟨before, c, after, rfl, (List.forall_mem_cons.mp hbefore).2, hc⟩

/-- Every result of a run comes from an element of the list. -/
theorem exists_of_mem_results {as : List α} {bs : List β} (h : (run f as).toExcept = .ok bs) {b : β}
    (hb : b ∈ bs) : ∃ a ∈ as, f a = .ok b := by
  have hall := toExcept_run_eq_ok.mp h
  clear h
  induction hall with
  | nil => exact absurd hb List.not_mem_nil
  | @cons a c as bs hac hrest ih =>
      rcases List.mem_cons.mp hb with rfl | hb
      · exact ⟨a, List.mem_cons_self, hac⟩
      · obtain ⟨a', ha', hfa⟩ := ih hb
        exact ⟨a', List.mem_cons_of_mem a ha', hfa⟩

end Progress

/-! ## Edges -/

namespace FlowGraph

variable {g : FlowGraph} {b c : BlockId}

/-- Every edge joins two blocks of the graph. -/
def EdgesInRange (g : FlowGraph) : Prop := ∀ e ∈ g.edges, e.1 < g.size ∧ e.2 < g.size

theorem EdgesInRange.source_lt (hg : g.EdgesInRange) (hc : c ∈ g.successors b) : b < g.size :=
  (hg _ (mem_successors.mp hc)).1

theorem EdgesInRange.target_lt (hg : g.EdgesInRange) (hc : c ∈ g.successors b) : c < g.size :=
  (hg _ (mem_successors.mp hc)).2

theorem edgesInRange_ofRegion (r : Region) : (ofRegion r).EdgesInRange := by
  intro e he
  rcases List.mem_append.mp he with he | he
  · exact lt_length_of_mem_fallEdges he
  · exact lt_length_of_mem_jumpEdges (List.mem_filter.mp he).1

/-- The flow graphs of a program are those of its regions. -/
theorem exists_region_of_mem {is : List Instr} {gs : List FlowGraph} {g : FlowGraph}
    (hgs : ofInstrs is = .ok gs) (hg : g ∈ gs) : ∃ r, g = ofRegion r := by
  rw [ofInstrs_eq] at hgs
  obtain ⟨piece, -, hpiece⟩ := Progress.exists_of_mem_results hgs hg
  cases piece with
  | stray index => exact absurd hpiece (by simp [ofPiece])
  | region r =>
      rw [ofPiece] at hpiece
      split at hpiece
      · exact absurd hpiece (by simp)
      · exact ⟨r, (Except.ok.inj hpiece).symm⟩

theorem edgesInRange_of_mem {is : List Instr} {gs : List FlowGraph} {g : FlowGraph}
    (hgs : ofInstrs is = .ok gs) (hg : g ∈ gs) : g.EdgesInRange := by
  obtain ⟨r, rfl⟩ := exists_region_of_mem hgs hg
  exact edgesInRange_ofRegion r

/-! ## The instructions of a block -/

theorem instrs_of_getElem? {g : FlowGraph} {b : BlockId} {block : Block}
    (hb : g.blocks[b]? = some block) : g.instrs b = block.instrs := by
  simp [instrs, block?, hb]

theorem exists_block_of_mem_instrs {g : FlowGraph} {b : BlockId} {i : Instr}
    (hi : i ∈ g.instrs b) : ∃ block ∈ g.blocks, i ∈ block.instrs := by
  cases hb : g.blocks[b]? with
  | none => simp [instrs, block?, hb] at hi
  | some block =>
      rw [instrs_of_getElem? hb] at hi
      exact ⟨block, List.mem_of_getElem? hb, hi⟩

theorem lt_size_of_mem_instrs {g : FlowGraph} {b : BlockId} {i : Instr} (hi : i ∈ g.instrs b) :
    b < g.size := by
  cases hb : g.blocks[b]? with
  | none => simp [instrs, block?, hb] at hi
  | some block => exact (List.getElem?_eq_some_iff.mp hb).1

/-! ## A program with crossing jumps -/

/-- Two procedures.  The loop of the first can be entered at either of its two blocks, and block `3`
of it cannot be reached; the second goes back to its own entry or runs off the end. -/
def crossing : List Instr :=
  [.label "walk" (some ⟨0, [], none⟩), .copy 1 (.const 3), .branch (.symbol 2) "body",
    .label "head" none, .branch (.symbol 1) "done",
    .label "body" none, .binary .sub 1 (.symbol 1) (.const 1), .jump "head",
    .copy 3 (.symbol 4),
    .label "done" none, .ret (some (.symbol 1)),
    .label "again" (some ⟨5, [], none⟩), .branch (.symbol 1) "again"]

/-- The control flow of its first procedure. -/
def crossingWalk : FlowGraph := ofRegion ⟨0, "walk", ⟨0, [], none⟩, crossing.take 11⟩

/-- The control flow of its second procedure. -/
def crossingAgain : FlowGraph := ofRegion ⟨11, "again", ⟨5, [], none⟩, crossing.drop 11⟩

theorem ofInstrs_crossing : ofInstrs crossing = .ok [crossingWalk, crossingAgain] := rfl

end FlowGraph

end RegAlloc
