import RegAlloc.Proofs.ProcedureScan

/-!
# The scan finds the regions

The scan of a program and its cut into regions and blocks come to the same: the same flow graphs,
and the same error at the same place (`FlowGraph.progress_eq`).  The scan notices what is wrong at
three different moments, the cut looks at one piece after the other.

At every instruction the scan faces an **outlook**: what it will have found in the end if the blocks
still to come are those into which the rest of the open region is cut (`Scan.outlook`).  Reading one
instruction does not change it, whatever ends before or after that instruction
(`Scan.visit_outlook`), and at the end of the program it has become true (`Scan.run_eq`).  A step
can fail in one place only, and its error is then the next thing in the outlook.
-/

namespace RegAlloc

/-! ## Runs over outcomes -/

namespace Progress

variable {α β γ ε : Type}

theorem run_map (f : α → Except ε β) (m : γ → α) (cs : List γ) :
    run f (cs.map m) = run (fun c => f (m c)) cs := by
  induction cs with
  | nil => rfl
  | cons c cs ih => rw [List.map_cons, run, run, ih]

/-- Results that are there already stay in front. -/
theorem run_map_ok_append (done : List β) (rest : List (Except ε β)) :
    run id (done.map .ok ++ rest) = ⟨done ++ (run id rest).done, (run id rest).failure⟩ := by
  induction done with
  | nil => rfl
  | cons b done ih =>
      have hok : id (Except.ok b : Except ε β) = .ok b := rfl
      rw [List.map_cons, List.cons_append, run_cons_ok hok, ih]
      rfl

end Progress

/-! ## Steps of the scan -/

namespace Scan

variable {s t : Scan} {p q : OpenProcedure} {index : Nat} {x : Instr} {is : List Instr}

/-! ### What ends -/

theorem endBlock_of_current (hp : s.current = some p) :
    s.endBlock = (p.addBlocks s.block.toList).map fun q =>
      ⟨s.done, some q, s.block.cleared⟩ := by
  obtain ⟨done, current, block⟩ := s
  cases hp
  by_cases hnil : block.instrs = []
  · rw [endBlock, if_pos (Block.isEmpty_iff.mpr hnil), Block.toList_of_nil hnil,
      Block.cleared_of_nil hnil]
    rfl
  · rw [endBlock, if_neg fun hempty => hnil (Block.isEmpty_iff.mp hempty),
      Block.toList_of_ne_nil hnil, OpenProcedure.addBlocks_singleton]

theorem endProcedure_of_current (hp : s.current = some p)
    (hholds : p.blocks ++ s.block.toList ≠ []) :
    s.endProcedure = (p.close s.block.toList).map fun g =>
      ⟨s.done ++ [g], none, s.block.cleared⟩ := by
  rw [endProcedure, endBlock_of_current hp, OpenProcedure.close]
  cases hq : p.addBlocks s.block.toList with
  | error e => rfl
  | ok q =>
      have hne : ¬ q.blocks.isEmpty = true := by
        rw [List.isEmpty_iff, OpenProcedure.blocks_of_addBlocks hq]
        exact hholds
      dsimp only [Except.map, bind, Except.bind]
      rw [if_neg hne]
      cases q.finish <;> rfl

theorem exists_of_endBlock (hp : s.current = some p) (h : s.endBlock = .ok t) :
    ∃ q, t = ⟨s.done, some q, s.block.cleared⟩ := by
  rw [endBlock_of_current hp, map_eq_ok] at h
  obtain ⟨q, -, ht⟩ := h
  exact ⟨q, ht.symm⟩

theorem endProcedure_of_none (hnone : s.current = none) (hnil : s.block.instrs = []) :
    s.endProcedure = .ok s := by
  obtain ⟨done, current, block⟩ := s
  cases hnone
  rw [endProcedure, endBlock, if_pos (Block.isEmpty_iff.mpr hnil)]
  rfl

theorem endBlock_endBlock (h : s.endBlock = .ok t) : t.endBlock = .ok t := by
  by_cases hempty : s.block.isEmpty = true
  · rw [endBlock, if_pos hempty] at h
    cases h
    rw [endBlock, if_pos hempty]
  · cases hcurrent : s.current with
    | none =>
        rw [endBlock, if_neg hempty, hcurrent] at h
        cases h
    | some p =>
        obtain ⟨q, rfl⟩ := exists_of_endBlock hcurrent h
        rfl

/-- The last block of a procedure may end before it. -/
theorem endBlock_bind_endProcedure (s : Scan) : s.endBlock >>= endProcedure = s.endProcedure := by
  cases ht : s.endBlock with
  | error e =>
      rw [endProcedure, ht]
      rfl
  | ok t =>
      show t.endProcedure = _
      rw [endProcedure, endProcedure, ht, endBlock_endBlock ht]

/-! ### One instruction -/

theorem visit_entry (s : Scan) (index : Nat) (name : Label) (entry : ProcedureEntry) :
    s.visit index (.label name (some entry)) = s.endProcedure >>= fun t =>
      .ok ⟨t.done, some (.opened name entry),
        t.block.extend index (.label name (some entry))⟩ := by
  rw [← endBlock_bind_endProcedure, visit, endBefore]
  cases s.endBlock with
  | error e => rfl
  | ok t =>
      dsimp only [bind, Except.bind]
      cases t.endProcedure <;> rfl

theorem visit_of_not_entry (hx : x.entry? = none) (hnone : s.current = none)
    (hnil : s.block.instrs = []) : s.visit index x = .error (.missingEntry index) := by
  have hbefore : s.endBefore x = .ok s := by
    cases x with
    | label name entry =>
        cases hx
        exact if_pos (Block.isEmpty_iff.mpr hnil)
    | _ => rfl
  rw [visit, hbefore]
  show s.push index x >>= _ = _
  rw [push, if_pos (by rw [hnone]; rfl)]
  rfl

theorem endAfter_of_not_transfer (hx : x.transfersControl = false) : s.endAfter x = .ok s := by
  cases x with
  | branch => exact absurd hx (by simp [Instr.transfersControl])
  | jump => exact absurd hx (by simp [Instr.transfersControl])
  | ret => exact absurd hx (by simp [Instr.transfersControl])
  | _ => rfl

theorem push_bind_endAfter (hx : x.transfersControl = false) :
    (s.push index x >>= fun t => t.endAfter x) = s.push index x := by
  cases s.push index x with
  | error e => rfl
  | ok t => exact endAfter_of_not_transfer hx

theorem visit_of_label (hx : x.isLabel = true) (hentry : x.entry? = none) :
    s.visit index x = s.endBlock >>= fun t => t.push index x := by
  cases x with
  | label name entry =>
      cases hentry
      rw [visit, endBefore]
      cases s.endBlock with
      | error e => rfl
      | ok t => exact push_bind_endAfter rfl
  | _ => exact absurd hx (by simp [Instr.isLabel])

theorem visit_of_plain (hlabel : x.isLabel = false) (htransfer : x.transfersControl = false) :
    s.visit index x = s.push index x := by
  have hbefore : s.endBefore x = .ok s := by
    cases x with
    | label => exact absurd hlabel (by simp [Instr.isLabel])
    | _ => rfl
  rw [visit, hbefore]
  exact push_bind_endAfter htransfer

theorem visit_of_transfer (hx : x.transfersControl = true) (hp : s.current = some p) :
    s.visit index x =
      if x.isReturn then endProcedure ⟨s.done, some p, s.block.extend index x⟩
      else endBlock ⟨s.done, some p, s.block.extend index x⟩ := by
  obtain ⟨done, current, block⟩ := s
  cases hp
  cases x with
  | branch c l => rfl
  | jump l => rfl
  | ret v => exact endBlock_bind_endProcedure _
  | _ => exact absurd hx (by simp [Instr.transfersControl])

/-! ## The outlook -/

/-- **What the scan will find, in order**, if the text from `index` on is `is`: the flow graphs that
are finished, then that of the open procedure, to which the rest of its region is still to be added,
then those of the pieces that follow. -/
def outlook (s : Scan) (index : Nat) (is : List Instr) : List (Except Error FlowGraph) :=
  s.done.map .ok ++ s.current.elim ((piecesFrom false index is).map FlowGraph.ofPiece) fun p =>
    p.close (s.block.ahead index (regionBody is))
      :: (piecesFrom true index is).map FlowGraph.ofPiece

/-- **A scan between two instructions.** -/
structure Ready (s : Scan) (index : Nat) : Prop where
  /-- The block that is being read ends here. -/
  reads : s.block.ReadUpTo index
  /-- No block is being read outside a procedure. -/
  outside : s.current = none → s.block.instrs = []
  /-- A procedure that is being read is not empty. -/
  holds : ∀ p, s.current = some p → p.blocks ++ s.block.toList ≠ []

/-- What a step that is taken between two instructions may come to, where `found` is what will be
found and `done` what is finished: it fails, and its error is what comes next, or the scan goes on
with the same outlook. -/
inductive Foreseen (done : List FlowGraph) (found : List (Except Error FlowGraph)) (index : Nat)
    (is : List Instr) : Except Error Scan → Prop
  | fails {e : Error} (rest : List (Except Error FlowGraph))
      (h : found = done.map .ok ++ .error e :: rest) : Foreseen done found index is (.error e)
  | goesOn {t : Scan} (ready : t.Ready index) (h : found = t.outlook index is) :
      Foreseen done found index is (.ok t)

/-- A step that fails does so as the run over what will be found. -/
theorem Foreseen.of_error {done : List FlowGraph} {found : List (Except Error FlowGraph)}
    {e : Error} (h : Foreseen done found index is (.error e)) :
    Progress.run id found = ⟨done, some e⟩ := by
  cases h with
  | fails rest h =>
      rw [h, Progress.run_map_ok_append]
      exact congrArg (Progress.mk · (some e)) (List.append_nil done)

theorem Foreseen.of_ok {done : List FlowGraph} {found : List (Except Error FlowGraph)}
    (h : Foreseen done found index is (.ok t)) : t.Ready index ∧ found = t.outlook index is := by
  cases h with
  | goesOn ready h => exact ⟨ready, h⟩

/-- A step after a step. -/
theorem Foreseen.bind {done : List FlowGraph} {found : List (Except Error FlowGraph)}
    {index' : Nat} {is' : List Instr} {r : Except Error Scan} {f : Scan → Except Error Scan}
    (h : Foreseen done found index is r)
    (hf : ∀ t, r = .ok t → t.Ready index → found = t.outlook index is →
      Foreseen done found index' is' (f t)) :
    Foreseen done found index' is' (r >>= f) := by
  cases h with
  | fails rest h => exact .fails rest h
  | goesOn ready h => exact hf _ rfl ready h

theorem outlook_of_none (hnone : s.current = none) (index : Nat) (is : List Instr) :
    s.outlook index is =
      s.done.map .ok ++ (piecesFrom false index is).map FlowGraph.ofPiece := by
  rw [outlook, hnone, Option.elim_none]

theorem outlook_of_current (hp : s.current = some p) (index : Nat) (is : List Instr) :
    s.outlook index is =
      s.done.map .ok ++ p.close (s.block.ahead index (regionBody is))
        :: (piecesFrom true index is).map FlowGraph.ofPiece := by
  rw [outlook, hp, Option.elim_some]

/-- Outside a procedure nothing is being read. -/
theorem ready_outside (done : List FlowGraph) (b : Block) (index : Nat) :
    Ready ⟨done, none, b.cleared⟩ index where
  reads := b.readUpTo_cleared index
  outside _ := rfl
  holds _ h := nomatch h

theorem ready_start : start.Ready 0 := ready_outside [] ⟨0, []⟩ 0

/-- After a block its procedure holds it. -/
theorem ready_addBlocks (hholds : p.blocks ++ s.block.toList ≠ [])
    (hq : p.addBlocks s.block.toList = .ok q) (index : Nat) :
    Ready ⟨s.done, some q, s.block.cleared⟩ index where
  reads := s.block.readUpTo_cleared index
  outside h := nomatch h
  holds := by
    rintro _ ⟨⟩
    rw [Block.toList_cleared, List.append_nil, OpenProcedure.blocks_of_addBlocks hq]
    exact hholds

theorem append_toList_extend_ne_nil (bs : List Block) (b : Block) (index : Nat) (x : Instr) :
    bs ++ (b.extend index x).toList ≠ [] := by
  rw [Block.toList_of_ne_nil (Block.extend_ne_nil b index x)]
  exact List.append_ne_nil_of_right_ne_nil bs (List.cons_ne_nil _ _)

/-- With an instruction that does not end it, the block goes on. -/
theorem Ready.extend (h : s.Ready index) (hlabel : s.block.instrs ≠ [] → x.isLabel = false)
    (hx : x.transfersControl = false) (p : OpenProcedure) :
    Ready ⟨s.done, some p, s.block.extend index x⟩ (index + 1) where
  reads := h.reads.extend hlabel hx
  outside h := nomatch h
  holds p _ := append_toList_extend_ne_nil p.blocks s.block index x

/-- Where a region stops, the open procedure ends. -/
theorem foreseen_endProcedure (hp : s.current = some p)
    (hholds : p.blocks ++ s.block.toList ≠ []) (index : Nat) (is : List Instr) :
    Foreseen s.done
      (s.done.map .ok ++ p.close s.block.toList
        :: (piecesFrom false index is).map FlowGraph.ofPiece)
      index is s.endProcedure := by
  rw [endProcedure_of_current hp hholds]
  cases p.close s.block.toList with
  | error e => exact .fails _ rfl
  | ok g =>
      refine .goesOn (ready_outside _ _ _) ?_
      rw [outlook_of_none rfl, List.map_append, List.append_assoc]
      rfl

/-- Where a block ends, the open procedure goes on with the next one. -/
theorem foreseen_endBlock (hp : s.current = some p)
    (hholds : p.blocks ++ s.block.toList ≠ []) (index : Nat) (is : List Instr) :
    Foreseen s.done
      (s.done.map .ok ++ p.close (s.block.toList ++ Block.split index (regionBody is))
        :: (piecesFrom true index is).map FlowGraph.ofPiece)
      index is s.endBlock := by
  rw [endBlock_of_current hp, OpenProcedure.close_append]
  cases hq : p.addBlocks s.block.toList with
  | error e => exact .fails _ rfl
  | ok q => exact .goesOn (ready_addBlocks hholds hq index) rfl

theorem foreseen_push (h : s.Ready index) (hp : s.current = some p) (hentry : x.entry? = none)
    (hlabel : s.block.instrs ≠ [] → x.isLabel = false) (htransfer : x.transfersControl = false)
    (is : List Instr) (done : List FlowGraph) :
    Foreseen done (s.outlook index (x :: is)) (index + 1) is (s.push index x) := by
  have hpush : s.push index x = .ok ⟨s.done, some p, s.block.extend index x⟩ := by
    rw [push, if_neg (by simp [hp]), ← hp]
  have hreturn : x.isReturn = false := Instr.isReturn_of_not_transfersControl htransfer
  rw [hpush]
  refine .goesOn (h.extend hlabel htransfer p) ?_
  rw [outlook_of_current hp, outlook_of_current rfl, Block.ahead_extend, regionBody_cons hentry,
    piecesFrom_cons hentry, hreturn]
  rfl

/-- A label that carries an entry opens a region. -/
theorem foreseen_opened (h : s.Ready index) (hnone : s.current = none) (name : Label)
    (entry : ProcedureEntry) (is : List Instr) (done : List FlowGraph) :
    Foreseen done (s.outlook index (.label name (some entry) :: is)) (index + 1) is
      (.ok ⟨s.done, some (.opened name entry),
        s.block.extend index (.label name (some entry))⟩) := by
  have hnil := h.outside hnone
  refine .goesOn (h.extend (absurd hnil) rfl _) ?_
  rw [outlook_of_none hnone, outlook_of_current rfl, Block.ahead_extend, Block.ahead_of_nil hnil,
    piecesFrom_entry, List.map_cons, ← OpenProcedure.close_split]

/-- There need not be an open procedure. -/
theorem foreseen_end (h : s.Ready index) (hbody : regionBody is = [])
    (hpieces : piecesFrom true index is = piecesFrom false index is) :
    Foreseen s.done (s.outlook index is) index is s.endProcedure := by
  cases hcurrent : s.current with
  | none =>
      rw [endProcedure_of_none hcurrent (h.outside hcurrent)]
      exact .goesOn h rfl
  | some p =>
      have hahead : s.block.ahead index [] = s.block.toList :=
        (h.reads.ahead_of_cut (by simp)).trans (List.append_nil _)
      rw [outlook_of_current hcurrent, hbody, hpieces, hahead]
      exact foreseen_endProcedure hcurrent (h.holds p hcurrent) index is

theorem Ready.current_of_endProcedure (h : s.Ready index) (ht : s.endProcedure = .ok t) :
    t.current = none := by
  cases hcurrent : s.current with
  | none =>
      rw [endProcedure_of_none hcurrent (h.outside hcurrent)] at ht
      cases ht
      exact hcurrent
  | some p =>
      rw [endProcedure_of_current hcurrent (h.holds p hcurrent), map_eq_ok] at ht
      obtain ⟨g, -, rfl⟩ := ht
      rfl

/-- It does so whatever is being read before it. -/
theorem foreseen_entry (h : s.Ready index) (name : Label) (entry : ProcedureEntry)
    (is : List Instr) :
    Foreseen s.done (s.outlook index (.label name (some entry) :: is)) (index + 1) is
      (s.visit index (.label name (some entry))) := by
  rw [visit_entry]
  refine Foreseen.bind (foreseen_end h rfl rfl) fun t ht ready hfound => ?_
  rw [hfound]
  exact foreseen_opened ready (h.current_of_endProcedure ht) name entry is s.done

/-- Any other label ends the block before it and opens the next one. -/
theorem foreseen_label (h : s.Ready index) (hp : s.current = some p) (hentry : x.entry? = none)
    (hlabel : x.isLabel = true) (htransfer : x.transfersControl = false) (is : List Instr) :
    Foreseen s.done (s.outlook index (x :: is)) (index + 1) is (s.visit index x) := by
  have hcut : s.block.ahead index (regionBody (x :: is)) =
      s.block.toList ++ Block.split index (regionBody (x :: is)) := by
    rw [regionBody_cons hentry]
    exact h.reads.ahead_of_cut fun y hy => Option.some.inj hy ▸ hlabel
  have hend := foreseen_endBlock hp (h.holds p hp) index (x :: is)
  rw [← hcut, ← outlook_of_current hp] at hend
  rw [visit_of_label hlabel hentry]
  refine hend.bind fun t ht ready hfound => ?_
  obtain ⟨q, rfl⟩ := exists_of_endBlock hp ht
  rw [hfound]
  exact foreseen_push ready rfl hentry (absurd rfl) htransfer is s.done

/-- A transfer of control ends its block, and if it is a return also the procedure. -/
theorem foreseen_transfer (h : s.Ready index) (hp : s.current = some p) (hentry : x.entry? = none)
    (hx : x.transfersControl = true) (is : List Instr) :
    Foreseen s.done (s.outlook index (x :: is)) (index + 1) is (s.visit index x) := by
  have hlabel : x.isLabel = false := Instr.isLabel_of_transfersControl hx
  have hread : (⟨s.done, some p, s.block.extend index x⟩ : Scan).current = some p := rfl
  have hholds := append_toList_extend_ne_nil p.blocks s.block index x
  rw [visit_of_transfer hx hp, outlook_of_current hp, regionBody_cons hentry,
    h.reads.ahead_of_transfer (fun _ => hlabel) hx, piecesFrom_cons hentry]
  cases x.isReturn with
  | true =>
      simp only [↓reduceIte, Bool.not_true, Block.split_nil, List.append_nil]
      exact foreseen_endProcedure hread hholds (index + 1) is
  | false => exact foreseen_endBlock hread hholds (index + 1) is

/-- **One instruction does not change the outlook.** -/
theorem visit_outlook (h : s.Ready index) (x : Instr) (is : List Instr) :
    Foreseen s.done (s.outlook index (x :: is)) (index + 1) is (s.visit index x) := by
  cases hentry : x.entry? with
  | some entry =>
      obtain ⟨name, rfl⟩ := Instr.entry?_eq_some.mp hentry
      exact foreseen_entry h name entry is
  | none =>
      cases hcurrent : s.current with
      | none =>
          -- nothing is open, so the instruction is stray
          rw [visit_of_not_entry hentry hcurrent (h.outside hcurrent), outlook_of_none hcurrent,
            piecesFrom_cons hentry]
          exact .fails _ rfl
      | some p =>
          cases htransfer : x.transfersControl with
          | true => exact foreseen_transfer h hcurrent hentry htransfer is
          | false =>
              cases hlabel : x.isLabel with
              | true => exact foreseen_label h hcurrent hentry hlabel htransfer is
              | false =>
                  rw [visit_of_plain hlabel htransfer]
                  exact foreseen_push h hcurrent hentry (fun _ => hlabel) htransfer is s.done

/-- **The whole scan** finds what it has in prospect. -/
theorem run_eq (h : s.Ready index) (is : List Instr) :
    s.run index is = Progress.run id (s.outlook index is) := by
  induction is generalizing s index with
  | nil =>
      have hend : Foreseen s.done (s.outlook index []) index [] s.endProcedure :=
        foreseen_end h rfl rfl
      rw [run]
      cases ht : s.endProcedure with
      | error e =>
          rw [ht] at hend
          rw [hend.of_error]
      | ok t =>
          rw [ht] at hend
          rw [hend.of_ok.2, outlook_of_none (h.current_of_endProcedure ht),
            Progress.run_map_ok_append]
          exact congrArg (Progress.mk · none) (List.append_nil _).symm
  | cons x is ih =>
      have hstep := visit_outlook h x is
      rw [run]
      cases ht : s.visit index x with
      | error e =>
          rw [ht] at hstep
          rw [hstep.of_error]
      | ok t =>
          rw [ht] at hstep
          rw [hstep.of_ok.2, ← ih hstep.of_ok.1]

end Scan

/-- **The scan finds the regions:** the flow graphs of a program, and the first thing that is wrong
with it, are those of its pieces. -/
theorem FlowGraph.progress_eq (is : List Instr) :
    progress is = Progress.run ofPiece (pieces is) := by
  rw [progress, Scan.run_eq Scan.ready_start, Scan.outlook_of_none rfl]
  exact Progress.run_map id ofPiece (pieces is)

theorem FlowGraph.ofInstrs_eq (is : List Instr) :
    ofInstrs is = (Progress.run ofPiece (pieces is)).toExcept := by
  rw [ofInstrs, progress_eq]

end RegAlloc
