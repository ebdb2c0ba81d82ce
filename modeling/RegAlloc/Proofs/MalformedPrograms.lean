import RegAlloc.Proofs.ProgramCuts

/-!
# Which programs are malformed, and why

A program has flow graphs unless an instruction stands outside every procedure, a procedure has two
labels of one name, or a jump goes to a label that its procedure does not have.  Several of these
can be wrong at once.  This file says what is reported: **the first offence in program order**,
where a procedure counts from its entry, and where repeated labels of a procedure come before its
jumps.

The account is given on the text alone.  `Region.LiesIn` says where the regions of a program are,
`SoundUpTo` that nothing is wrong up to an index, and `FirstOffence` which error is due; none of
them mentions how the program is read.  The scan notices what is wrong at three different moments,
but what it finds is what the cut into pieces shows (`FlowGraph.ofInstrs_eq`), and three facts tie
the account to the cut.

* `mem_pieces_region`, `mem_pieces_stray`: the pieces are the regions and the instructions outside
  them, all of them and nothing else.
* `forall_ofPiece_ok`: **the pieces before an index are in order exactly if the program is sound up
  to that index.**  Pieces lie end to end, so to be listed before is to stand before.
* `Region.fault?_eq_some`: what is wrong with one region.
-/

namespace RegAlloc

variable {is : List Instr} {x : Instr}

/-! ## Regions of a text -/

/-- The instructions `body` belong to an open procedure, and `after` does not: `body` runs through
the first return, or up to the first label that opens a procedure or the end, whichever is first. -/
structure RunsOn (body after : List Instr) : Prop where
  /-- No instruction opens another procedure, -/
  entries : ∀ x ∈ body, x.entry? = none
  /-- only the last one may return, -/
  returns : ∀ x ∈ body.dropLast, x.isReturn = false
  /-- and there is a reason to stop. -/
  stops : (∃ x ∈ body.getLast?, x.isReturn = true) ∨
    (∃ y ∈ after.head?, y.entry?.isSome = true) ∨ after = []

/-- **Where a region lies in a program:** it opens with its entry label and runs on from there. -/
def Region.LiesIn (r : Region) (is : List Instr) : Prop :=
  ∃ before body after, is = before ++ r.instrs ++ after ∧ before.length = r.start ∧
    r.instrs = .label r.name (some r.entry) :: body ∧ RunsOn body after

/-- The region holds the instruction with program index `i`. -/
def Region.Covers (r : Region) (i : Nat) : Prop := r.start ≤ i ∧ i < r.start + r.instrs.length

/-- A region opens inside the program. -/
theorem Region.LiesIn.start_lt {r : Region} (h : r.LiesIn is) : r.start < is.length := by
  obtain ⟨before, body, after, rfl, hstart, hinstrs, -⟩ := h
  simp only [List.length_append, hinstrs, List.length_cons]
  omega

theorem RunsOn.cons {body after : List Instr} (h : RunsOn body after) (hentry : x.entry? = none)
    (hreturn : x.isReturn = false) : RunsOn (x :: body) after where
  entries := List.forall_mem_cons.mpr ⟨hentry, h.entries⟩
  returns := by
    cases body with
    | nil => exact fun _ hy => absurd hy List.not_mem_nil
    | cons z body => exact List.forall_mem_cons.mpr ⟨hreturn, h.returns⟩
  stops := by
    refine h.stops.imp_left ?_
    rintro ⟨y, hy, hret⟩
    cases body with
    | nil => exact absurd hy (by simp)
    | cons z body => exact ⟨y, by rwa [List.getLast?_cons_cons], hret⟩

/-- Without its first instruction, a text that does not end there runs on as before. -/
theorem RunsOn.tail {body after : List Instr} (h : RunsOn (x :: body) after)
    (hreturn : x.isReturn = false) : RunsOn body after where
  entries := (List.forall_mem_cons.mp h.entries).2
  returns := by
    cases body with
    | nil => exact fun _ hy => absurd hy List.not_mem_nil
    | cons z body => exact (List.forall_mem_cons.mp h.returns).2
  stops := by
    refine h.stops.imp_left ?_
    rintro ⟨y, hy, hret⟩
    cases body with
    | nil =>
        cases hy
        exact absurd (hreturn.symm.trans hret) (by simp)
    | cons z body => exact ⟨y, by rwa [List.getLast?_cons_cons] at hy, hret⟩

/-- What continues an open region runs on. -/
theorem runsOn_regionBody (is : List Instr) :
    ∃ after, is = regionBody is ++ after ∧ RunsOn (regionBody is) after := by
  induction is with
  | nil => exact ⟨[], rfl, by simp [regionBody], by simp [regionBody], Or.inr (Or.inr rfl)⟩
  | cons x is ih =>
      rw [regionBody]
      split
      · rename_i hentry
        exact ⟨x :: is, rfl, by simp, by simp, Or.inr (Or.inl ⟨x, rfl, hentry⟩)⟩
      · rename_i hentry
        have hnone : x.entry? = none := by simpa using hentry
        split
        · rename_i hreturn
          exact ⟨is, rfl, by simpa using hnone, by simp, Or.inl ⟨x, rfl, hreturn⟩⟩
        · rename_i hreturn
          obtain ⟨after, his, hruns⟩ := ih
          exact ⟨after, congrArg _ his, hruns.cons hnone (by simpa using hreturn)⟩

/-- **Only one part of a text runs on from its head.** -/
theorem RunsOn.regionBody_append {body after : List Instr} (h : RunsOn body after) :
    regionBody (body ++ after) = body := by
  induction body with
  | nil =>
      rcases h.stops with ⟨x, hx, -⟩ | ⟨y, hy, hentry⟩ | rfl
      · exact absurd hx (by simp)
      · obtain ⟨after, rfl⟩ := List.head?_eq_some_iff.mp hy
        rw [List.nil_append, regionBody, if_pos hentry]
      · rfl
  | cons x body ih =>
      have hentry := h.entries x List.mem_cons_self
      rw [List.cons_append, regionBody, if_neg (by simp [hentry])]
      cases hreturn : x.isReturn with
      | false => rw [if_neg (by simp), ih (h.tail hreturn)]
      | true =>
          -- a return is the last instruction
          have hlast : body = [] := by
            by_contra hne
            have hmem : x ∈ (x :: body).dropLast := by
              rw [List.dropLast_cons_of_ne_nil hne]
              exact List.mem_cons_self
            exact absurd ((h.returns x hmem).symm.trans hreturn) (by simp)
          rw [if_pos rfl, hlast]

/-! ## What the pieces are -/

section Pieces

variable {r : Region} {i : Nat}

/-- **The regions that are listed are the regions of the text.** -/
theorem mem_pieces_region : Piece.region r ∈ pieces is ↔ r.LiesIn is := by
  rw [pieces, Region.mem_piecesFrom]
  constructor
  · rintro ⟨before, name, entry, rest, rfl, rfl⟩
    obtain ⟨after, hrest, hruns⟩ := runsOn_regionBody rest
    refine ⟨before, regionBody rest, after, ?_, (Nat.zero_add _).symm, rfl, hruns⟩
    conv_lhs => rw [hrest]
    simp
  · rintro ⟨before, body, after, rfl, hstart, hinstrs, hruns⟩
    refine ⟨before, r.name, r.entry, body ++ after, by simp [hinstrs], ?_⟩
    rw [hruns.regionBody_append, ← hinstrs, Nat.zero_add, hstart]

/-- An index in the span of a piece: the piece is a region that covers it, or it is stray there. -/
theorem Piece.instrAt_span {p : Piece} (h : InstrAt (p.span is).1 (p.span is).2 i x) :
    (∃ r, p = .region r ∧ r.Covers i) ∨ p = .stray i := by
  cases p with
  | region r => exact Or.inl ⟨r, rfl, h.1, h.lt⟩
  | stray j =>
      right
      have hle : j ≤ i := h.1
      have hlt : i < j + is[j]?.toList.length := h.lt
      have hone : is[j]?.toList.length ≤ 1 := by cases is[j]? <;> simp
      rw [show j = i by omega]

/-- **The stray instructions that are listed are those outside every region.** -/
theorem mem_pieces_stray :
    Piece.stray i ∈ pieces is ↔ i < is.length ∧ ∀ r : Region, r.LiesIn is → ¬ r.Covers i := by
  obtain ⟨hwhole, hlaid, hne⟩ := Piece.laidOut_pieces is
  constructor
  · intro hi
    have hlt : i < is.length := by
      by_contra hbeyond
      exact hne _ hi (by simp [Piece.span, List.getElem?_eq_none (Nat.not_lt.mp hbeyond)])
    have hspan : (Piece.stray i).span is = (i, [is[i]]) := by
      rw [Piece.span, List.getElem?_eq_getElem hlt, Option.toList_some]
    refine ⟨hlt, fun r hr hcovers => ?_⟩
    -- a region that covers the index would overlap with the stray piece
    rcases hlaid.apart hi (mem_pieces_region.mpr hr) with he | h | h
    · exact absurd he (by simp)
    · rw [hspan] at h
      exact absurd hcovers.1 (Nat.not_le.mpr h)
    · rw [hspan] at h
      exact absurd hcovers.2 (Nat.not_lt.mpr h)
  · rintro ⟨hlt, houtside⟩
    obtain ⟨x, hx⟩ := exists_instrAt (Nat.zero_le i) (hlt.trans_eq (Nat.zero_add _).symm)
    have hpiece := hlaid.instrAt_flatMap (i := i) (x := x)
    rw [← hwhole] at hpiece
    obtain ⟨p, hp, hspan⟩ := hpiece.mp hx
    rcases Piece.instrAt_span hspan with ⟨r, rfl, hcovers⟩ | rfl
    · exact absurd hcovers (houtside r (mem_pieces_region.mp hp))
    · exact hp

end Pieces

/-! ## Soundness up to an index -/

/-- **Nothing is wrong with a region:** no two of its labels have one name, and every jump finds its
label. -/
structure Region.Sound (r : Region) : Prop where
  labels : r.labels.Nodup
  targets : ∀ t ∈ r.targets, t ∈ r.labels

/-- **Nothing is wrong before index `n`:** every instruction is in a region, and the regions that
open there are sound. -/
structure SoundUpTo (is : List Instr) (n : Nat) : Prop where
  covered : ∀ i < n, ∃ r : Region, r.LiesIn is ∧ r.Covers i
  sound : ∀ r : Region, r.LiesIn is → r.start < n → r.Sound

namespace FlowGraph

variable {r : Region} {p : Piece} {before after : List Piece}

theorem exists_ofPiece_eq_ok : (∃ g, ofPiece p = .ok g) ↔ ∃ r, p = .region r ∧ r.Sound := by
  cases p with
  | stray i => simp [ofPiece]
  | region r =>
      have hsound : r.fault? = none ↔ r.Sound :=
        Region.fault?_eq_none.trans ⟨fun h => ⟨h.1, h.2⟩, fun h => ⟨h.labels, h.targets⟩⟩
      simp only [Piece.region.injEq, exists_eq_left', ← hsound]
      cases hr : r.fault? with
      | some e => simp [ofPiece, hr]
      | none => simp [ofPiece, hr]

/-- **The pieces before an index are in order exactly if the program is sound up to it.** -/
theorem forall_ofPiece_ok (hcut : pieces is = before ++ after) :
    (∀ p ∈ before, ∃ g, ofPiece p = .ok g) ↔
      SoundUpTo is (before.flatMap fun p => (p.span is).2).length := by
  obtain ⟨-, hlaid, hne⟩ := Piece.laidOut_pieces is
  rw [hcut] at hlaid hne
  have hbefore : ∀ p, p ∈ before ↔ p ∈ pieces is ∧
      (p.span is).1 < (before.flatMap fun p => (p.span is).2).length := by
    intro p
    rw [hcut, hlaid.mem_left_iff fun p hp => hne p (List.mem_append_left after hp), Nat.zero_add]
  constructor
  · intro hok
    have hregion : ∀ p ∈ before, ∃ r, p = .region r ∧ r.Sound :=
      fun p hp => exists_ofPiece_eq_ok.mp (hok p hp)
    refine ⟨fun i hi => ?_, fun r hr hlt => ?_⟩
    · obtain ⟨x, hx⟩ := exists_instrAt (Nat.zero_le i) (hi.trans_eq (Nat.zero_add _).symm)
      obtain ⟨p, hp, hspan⟩ := (laidOut_append.mp hlaid).1.instrAt_flatMap.mp hx
      obtain ⟨r, rfl, -⟩ := hregion p hp
      exact ⟨r, mem_pieces_region.mp ((hbefore _).mp hp).1, hspan.1, hspan.lt⟩
    · obtain ⟨s, hs, hsound⟩ := hregion _ ((hbefore _).mpr ⟨mem_pieces_region.mpr hr, hlt⟩)
      cases hs
      exact hsound
  · intro hsound p hp
    obtain ⟨hmem, hlt⟩ := (hbefore p).mp hp
    refine exists_ofPiece_eq_ok.mpr ?_
    cases p with
    | region r => exact ⟨r, rfl, hsound.sound r (mem_pieces_region.mp hmem) hlt⟩
    | stray i =>
        obtain ⟨r, hr, hcovers⟩ := hsound.covered i hlt
        exact absurd hcovers ((mem_pieces_stray.mp hmem).2 r hr)

end FlowGraph

/-! ## What is wrong with a region -/

/-- Label `l` is the first of the list that repeats an earlier one. -/
def FirstRepeat (ls : List Label) (l : Label) : Prop :=
  ∃ before after, ls = before ++ l :: after ∧ before.Nodup ∧ l ∈ before

/-- Target `t` is the first that is not among the labels. -/
def FirstMissing (labels targets : List Label) (t : Label) : Prop :=
  ∃ before after, targets = before ++ t :: after ∧ (∀ u ∈ before, u ∈ labels) ∧ t ∉ labels

theorem firstRepeated?_eq_some {seen ls : List Label} {l : Label} :
    firstRepeated? seen ls = some l ↔
      ∃ before after, ls = before ++ l :: after ∧ before.Nodup ∧ (∀ m ∈ before, m ∉ seen) ∧
        (l ∈ before ∨ l ∈ seen) := by
  induction ls generalizing seen with
  | nil => simp [firstRepeated?]
  | cons m ls ih =>
      rw [firstRepeated?]
      split
      · rename_i hm
        rw [Option.some.injEq]
        constructor
        · rintro rfl
          exact ⟨[], ls, rfl, List.nodup_nil, fun _ h => absurd h List.not_mem_nil, Or.inr hm⟩
        · rintro ⟨before, after, hls, -, hnew, -⟩
          cases before with
          | nil => exact (List.cons.inj hls).1
          | cons n before =>
              cases hls
              exact absurd hm (hnew m List.mem_cons_self)
      · rename_i hm
        rw [ih]
        constructor
        · rintro ⟨before, after, rfl, hnodup, hnew, hl⟩
          refine ⟨m :: before, after, rfl, List.nodup_cons.mpr ⟨fun h => ?_, hnodup⟩, ?_, ?_⟩
          · exact hnew m h List.mem_cons_self
          · refine List.forall_mem_cons.mpr ⟨hm, fun n hn hseen => ?_⟩
            exact hnew n hn (List.mem_cons_of_mem m hseen)
          · rcases hl with hl | hl
            · exact Or.inl (List.mem_cons_of_mem m hl)
            · exact (List.mem_cons.mp hl).imp (fun he => List.mem_cons.mpr (Or.inl he)) id
        · rintro ⟨before, after, hls, hnodup, hnew, hl⟩
          cases before with
          | nil =>
              cases hls
              exact absurd (hl.resolve_left List.not_mem_nil) hm
          | cons n before =>
              cases hls
              obtain ⟨hfresh, hnodup⟩ := List.nodup_cons.mp hnodup
              refine ⟨before, after, rfl, hnodup, fun n hn hseen => ?_, ?_⟩
              · rcases List.mem_cons.mp hseen with rfl | hseen
                · exact hfresh hn
                · exact hnew n (List.mem_cons_of_mem m hn) hseen
              · rcases hl with hl | hl
                · rcases List.mem_cons.mp hl with rfl | hl
                  · exact Or.inr List.mem_cons_self
                  · exact Or.inl hl
                · exact Or.inr (List.mem_cons_of_mem m hl)

theorem firstRepeated?_nil_eq_some {ls : List Label} {l : Label} :
    firstRepeated? [] ls = some l ↔ FirstRepeat ls l := by
  rw [firstRepeated?_eq_some]
  simp [FirstRepeat]

theorem find?_notMem_eq_some {labels targets : List Label} {t : Label} :
    (targets.find? fun t => decide (t ∉ labels)) = some t ↔ FirstMissing labels targets t := by
  rw [List.find?_eq_some_iff_append]
  simp only [FirstMissing, decide_eq_true_eq, decide_not, Bool.not_not]
  constructor
  · rintro ⟨ht, before, after, htargets, hbefore⟩
    exact ⟨before, after, htargets, hbefore, by simpa using ht⟩
  · rintro ⟨before, after, htargets, hbefore, ht⟩
    exact ⟨by simpa using ht, before, after, htargets, hbefore⟩

/-- **What is wrong with a region:** a label that repeats an earlier one, or else a jump to a label
that is not there; of several, the first. -/
theorem Region.fault?_eq_some {r : Region} {e : Error} :
    r.fault? = some e ↔
      (∃ l, FirstRepeat r.labels l ∧ .duplicateLabel l r.name = e) ∨
        (r.labels.Nodup ∧ ∃ t, FirstMissing r.labels r.targets t ∧ .unresolvedLabel t r.name = e) := by
  -- each condition is the outcome of one of the two searches
  simp only [← firstRepeated?_nil_eq_some, ← firstRepeated?_nil_eq_none, ← find?_notMem_eq_some]
  rw [Region.fault?]
  cases firstRepeated? [] r.labels with
  | some l => simp
  | none =>
      cases r.targets.find? fun t => decide (t ∉ r.labels) with
      | some t => simp
      | none => simp

/-! ## The first offence -/

/-- **The first thing wrong with a program,** as the error it gives. -/
inductive FirstOffence (is : List Instr) : Error → Prop where
  /-- An instruction outside every region, with nothing wrong before it. -/
  | stray {i : Nat} : i < is.length → (∀ r : Region, r.LiesIn is → ¬ r.Covers i) →
      SoundUpTo is i → FirstOffence is (.missingEntry i)
  /-- A region that repeats a label, with nothing wrong before it. -/
  | repeated {r : Region} {l : Label} : r.LiesIn is → SoundUpTo is r.start →
      FirstRepeat r.labels l → FirstOffence is (.duplicateLabel l r.name)
  /-- A region that repeats no label but has a jump to one that is not there, with nothing wrong
  before it. -/
  | unresolved {r : Region} {t : Label} : r.LiesIn is → SoundUpTo is r.start → r.labels.Nodup →
      FirstMissing r.labels r.targets t → FirstOffence is (.unresolvedLabel t r.name)

namespace FlowGraph

/-- A piece that is in error, with nothing wrong before it, is the first offence. -/
theorem firstOffence_iff {e : Error} :
    FirstOffence is e ↔
      ∃ p ∈ pieces is, SoundUpTo is (p.span is).1 ∧ ofPiece p = .error e := by
  have hregion : ∀ r : Region, ofPiece (.region r) = .error e ↔ r.fault? = some e := by
    intro r
    cases hr : r.fault? <;> simp [ofPiece, hr]
  constructor
  · rintro (⟨hlt, houtside, hsound⟩ | @⟨r, l, hr, hsound, hl⟩ | @⟨r, t, hr, hsound, hnodup, ht⟩)
    · exact ⟨_, mem_pieces_stray.mpr ⟨hlt, houtside⟩, hsound, rfl⟩
    · refine ⟨_, mem_pieces_region.mpr hr, hsound, (hregion r).mpr ?_⟩
      exact Region.fault?_eq_some.mpr (Or.inl ⟨l, hl, rfl⟩)
    · refine ⟨_, mem_pieces_region.mpr hr, hsound, (hregion r).mpr ?_⟩
      exact Region.fault?_eq_some.mpr (Or.inr ⟨hnodup, t, ht, rfl⟩)
  · rintro ⟨p, hp, hsound, he⟩
    cases p with
    | stray i =>
        obtain ⟨hlt, houtside⟩ := mem_pieces_stray.mp hp
        cases he
        exact .stray hlt houtside hsound
    | region r =>
        have hr := mem_pieces_region.mp hp
        rcases Region.fault?_eq_some.mp ((hregion r).mp he) with ⟨l, hl, rfl⟩ | ⟨hnodup, t, ht, rfl⟩
        · exact .repeated hr hsound hl
        · exact .unresolved hr hsound hnodup ht

/-- **When a program has flow graphs, and which error it gives if it has none.**  It has flow graphs
exactly if every instruction lies in a region, no region has two labels of one name, and every jump
goes to a label of its region.  Otherwise it gives the error of its first offence, and no other. -/
theorem ofInstrs_outcome (is : List Instr) :
    ((∃ gs, ofInstrs is = .ok gs) ↔
      (∀ i < is.length, ∃ r : Region, r.LiesIn is ∧ r.Covers i) ∧
        ∀ r : Region, r.LiesIn is → r.labels.Nodup ∧ ∀ t ∈ r.targets, t ∈ r.labels) ∧
    ∀ e, ofInstrs is = .error e ↔ FirstOffence is e := by
  obtain ⟨hwhole, hlaid, -⟩ := Piece.laidOut_pieces is
  constructor
  · have hsound := forall_ofPiece_ok (List.append_nil (pieces is)).symm
    rw [← hwhole] at hsound
    rw [ofInstrs_eq, Progress.exists_toExcept_run_eq_ok, hsound]
    constructor
    · intro h
      refine ⟨h.covered, fun r hr => ?_⟩
      have hr := h.sound r hr hr.start_lt
      exact ⟨hr.labels, hr.targets⟩
    · rintro ⟨hcovered, hregions⟩
      exact ⟨hcovered, fun r hr _ => ⟨(hregions r hr).1, (hregions r hr).2⟩⟩
  · intro e
    rw [ofInstrs_eq, Progress.toExcept_run_eq_error, firstOffence_iff]
    have hplace : ∀ {before after p}, pieces is = before ++ p :: after →
        ((∀ q ∈ before, ∃ g, ofPiece q = .ok g) ↔ SoundUpTo is (p.span is).1) := by
      intro before after p hcut
      rw [forall_ofPiece_ok hcut]
      rw [hcut] at hlaid
      rw [hlaid.start_eq, Nat.zero_add]
    constructor
    · rintro ⟨before, p, after, hcut, hbefore, he⟩
      refine ⟨p, ?_, (hplace hcut).mp hbefore, he⟩
      rw [hcut]
      exact List.mem_append_right before List.mem_cons_self
    · rintro ⟨p, hp, hsound, he⟩
      obtain ⟨before, after, hcut⟩ := List.append_of_mem hp
      exact ⟨before, p, after, hcut, (hplace hcut).mpr hsound, he⟩

/-- A jump that finds no label is not reported if a label of the procedure is repeated later. -/
example :
    ofInstrs [.label "m" (some ⟨0, [], none⟩), .jump "gone", .label "m" none, .ret none] =
      .error (.duplicateLabel "m" "m") := rfl

end FlowGraph

end RegAlloc
