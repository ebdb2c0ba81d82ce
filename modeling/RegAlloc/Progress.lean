/-!
# Working through a list until something fails

Procedures are built, and later allocated, one after the other, and the first failure ends the
work.  What was finished before it stays visible in the log, so a run is a value that holds both:
the results in order, and the failure if there was one.
-/

namespace RegAlloc

/-- The results of a run over a list, up to its first failure. -/
structure Progress (ε β : Type) where
  /-- The results before the failure, in order. -/
  done : List β
  /-- The failure that ended the run, if one did. -/
  failure : Option ε

namespace Progress

variable {α β ε : Type}

/-- Apply `f` to the elements in order and stop at the first failure. -/
def run (f : α → Except ε β) : List α → Progress ε β
  | [] => ⟨[], none⟩
  | a :: as =>
    match f a with
    | .error e => ⟨[], some e⟩
    | .ok b => let rest := run f as; ⟨b :: rest.done, rest.failure⟩

/-- All results, or the failure. -/
def toExcept (p : Progress ε β) : Except ε (List β) :=
  match p.failure with
  | none => .ok p.done
  | some e => .error e

@[simp] theorem run_nil (f : α → Except ε β) : run f [] = ⟨[], none⟩ := rfl

theorem run_cons_ok {f : α → Except ε β} {a : α} {b : β} (h : f a = .ok b) (as : List α) :
    run f (a :: as) = ⟨b :: (run f as).done, (run f as).failure⟩ := by
  simp [run, h]

theorem run_cons_error {f : α → Except ε β} {a : α} {e : ε} (h : f a = .error e) (as : List α) :
    run f (a :: as) = ⟨[], some e⟩ := by
  simp [run, h]

/-- **A run over two lists** is the run over the first and, unless it failed, the second. -/
theorem run_append (f : α → Except ε β) (as bs : List α) :
    run f (as ++ bs) =
      match (run f as).failure with
      | some e => ⟨(run f as).done, some e⟩
      | none => ⟨(run f as).done ++ (run f bs).done, (run f bs).failure⟩ := by
  induction as with
  | nil => simp
  | cons a as ih =>
    cases h : f a with
    | error e => simp [run_cons_error h]
    | ok b =>
      rw [List.cons_append, run_cons_ok h, run_cons_ok h, ih]
      cases (run f as).failure <;> simp

end Progress

end RegAlloc
