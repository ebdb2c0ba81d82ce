import Mathlib.Data.List.Infix
import Mathlib.Data.List.Pairwise
import RegAlloc.Proofs.FlowGraphLaws

/-!
# How a program is cut

A program is cut twice: into pieces, which are the regions of its procedures and the instructions
outside them, and each region into blocks.  Both cuts lay parts **end to end** (`LaidOut`): every
part knows the index of its first instruction, and the next part begins where it ends.  Most of what
later proofs use of this is two facts, for regions and blocks alike.  An index of the whole is an
index of one of the parts (`LaidOut.instrAt_flatMap`), and different parts do not overlap
(`LaidOut.apart`).

Indices are program indices throughout; `InstrAt start is i x` says that `x` has index `i` in a text
whose first index is `start`.
-/

namespace RegAlloc

/-! ## Parts laid end to end -/

/-- In a text whose first index is `start`, instruction `x` has index `i`. -/
def InstrAt (start : Nat) (is : List Instr) (i : Nat) (x : Instr) : Prop :=
  start ≤ i ∧ is[i - start]? = some x

variable {start i j : Nat} {is js : List Instr} {x y : Instr}

@[simp] theorem instrAt_zero : InstrAt 0 is i x ↔ is[i]? = some x := by
  simp [InstrAt]

@[simp] theorem not_instrAt_nil : ¬ InstrAt start [] i x := by
  simp [InstrAt]

theorem InstrAt.lt (h : InstrAt start is i x) : i < start + is.length := by
  obtain ⟨hle, hx⟩ := h
  have hlt := (List.getElem?_eq_some_iff.mp hx).1
  omega

theorem InstrAt.mem (h : InstrAt start is i x) : x ∈ is := List.mem_of_getElem? h.2

theorem exists_instrAt (hle : start ≤ i) (hlt : i < start + is.length) :
    ∃ x, InstrAt start is i x := by
  have hbound : i - start < is.length := by omega
  exact ⟨is[i - start], hle, List.getElem?_eq_getElem hbound⟩

theorem instrAt_append :
    InstrAt start (is ++ js) i x ↔
      InstrAt start is i x ∨ InstrAt (start + is.length) js i x := by
  simp only [InstrAt, List.getElem?_append]
  split
  · rename_i hlt
    constructor
    · exact Or.inl
    · rintro (h | ⟨hle, -⟩)
      · exact h
      · omega
  · rename_i hge
    have hnone : is[i - start]? = none := List.getElem?_eq_none (Nat.not_lt.mp hge)
    rw [Nat.sub_sub]
    constructor
    · rintro ⟨hle, hx⟩
      exact Or.inr ⟨by omega, hx⟩
    · rintro (⟨-, hx⟩ | ⟨hle, hx⟩)
      · exact absurd (hnone.symm.trans hx) (by simp)
      · exact ⟨by omega, hx⟩

/-- Parts, each with its first index and its instructions, that follow one another from `start`
on. -/
def LaidOut {α : Type} (span : α → Nat × List Instr) : Nat → List α → Prop
  | _, [] => True
  | start, a :: as => (span a).1 = start ∧ LaidOut span (start + (span a).2.length) as

section Parts

variable {α : Type} {span : α → Nat × List Instr} {as bs : List α} {a b : α} {m n : Nat}

theorem laidOut_append :
    LaidOut span start (as ++ bs) ↔
      LaidOut span start as ∧
        LaidOut span (start + (as.flatMap fun a => (span a).2).length) bs := by
  induction as generalizing start with
  | nil => simp [LaidOut]
  | cons a as ih =>
      rw [List.cons_append, LaidOut, LaidOut, ih, List.flatMap_cons, List.length_append,
        Nat.add_assoc, and_assoc]

theorem laidOut_map {β : Type} {f : β → α} {cs : List β} :
    LaidOut span start (cs.map f) ↔ LaidOut (fun c => span (f c)) start cs := by
  induction cs generalizing start with
  | nil => exact Iff.rfl
  | cons c cs ih => rw [List.map_cons, LaidOut, LaidOut, ih]

/-- A part begins after everything that is laid before it. -/
theorem LaidOut.start_eq (h : LaidOut span start (as ++ a :: bs)) :
    (span a).1 = start + (as.flatMap fun a => (span a).2).length :=
  (laidOut_append.mp h).2.1

/-- **An index of the whole is an index of one of the parts.** -/
theorem LaidOut.instrAt_flatMap (h : LaidOut span start as) :
    InstrAt start (as.flatMap fun a => (span a).2) i x ↔
      ∃ a ∈ as, InstrAt (span a).1 (span a).2 i x := by
  induction as generalizing start with
  | nil => simp
  | cons a as ih =>
      obtain ⟨rfl, has⟩ := h
      rw [List.flatMap_cons, instrAt_append, ih has]
      simp

theorem LaidOut.le_start (h : LaidOut span start as) (ha : a ∈ as) : start ≤ (span a).1 := by
  induction as generalizing start with
  | nil => exact absurd ha List.not_mem_nil
  | cons b as ih =>
      obtain ⟨rfl, has⟩ := h
      rcases List.mem_cons.mp ha with rfl | ha
      · exact Nat.le_refl _
      · have := ih has ha
        omega

theorem LaidOut.end_le (h : LaidOut span start as) (ha : a ∈ as) :
    (span a).1 + (span a).2.length ≤ start + (as.flatMap fun a => (span a).2).length := by
  obtain ⟨before, after, rfl⟩ := List.append_of_mem ha
  rw [h.start_eq, List.flatMap_append, List.flatMap_cons, List.length_append, List.length_append]
  omega

/-- Of parts that are not empty, those before a place are those that begin before it. -/
theorem LaidOut.mem_left_iff (h : LaidOut span start (as ++ bs)) (hne : ∀ a ∈ as, (span a).2 ≠ []) :
    a ∈ as ↔ a ∈ as ++ bs ∧ (span a).1 < start + (as.flatMap fun a => (span a).2).length := by
  obtain ⟨hleft, hright⟩ := laidOut_append.mp h
  constructor
  · intro ha
    have hend := hleft.end_le ha
    have hpos := List.length_pos_iff.mpr (hne a ha)
    exact ⟨List.mem_append_left bs ha, by omega⟩
  · rintro ⟨ha, hlt⟩
    rcases List.mem_append.mp ha with ha | ha
    · exact ha
    · exact absurd (hright.le_start ha) (Nat.not_le.mpr hlt)

/-- A part ends before every later part begins. -/
theorem LaidOut.pairwise (h : LaidOut span start as) :
    as.Pairwise fun a b => (span a).1 + (span a).2.length ≤ (span b).1 := by
  induction as generalizing start with
  | nil => exact List.Pairwise.nil
  | cons a as ih =>
      obtain ⟨rfl, has⟩ := h
      exact List.pairwise_cons.mpr ⟨fun b hb => has.le_start hb, ih has⟩

/-- **Different parts do not overlap.** -/
theorem LaidOut.apart (h : LaidOut span start as) (ha : a ∈ as) (hb : b ∈ as) :
    a = b ∨ (span a).1 + (span a).2.length ≤ (span b).1 ∨
      (span b).1 + (span b).2.length ≤ (span a).1 := by
  induction as generalizing start with
  | nil => exact absurd ha List.not_mem_nil
  | cons c as ih =>
      obtain ⟨rfl, has⟩ := h
      rcases List.mem_cons.mp ha with rfl | hlater
      · rcases List.mem_cons.mp hb with rfl | hb
        · exact Or.inl rfl
        · exact Or.inr (Or.inl (has.le_start hb))
      · rcases List.mem_cons.mp hb with rfl | hb
        · exact Or.inr (Or.inr (has.le_start hlater))
        · exact ih has hlater hb

/-- The next part begins where a part ends. -/
theorem LaidOut.next (h : LaidOut span start as) (ha : as[n]? = some a)
    (hb : as[n + 1]? = some b) : (span b).1 = (span a).1 + (span a).2.length := by
  induction as generalizing start n with
  | nil => exact absurd ha (by simp)
  | cons c as ih =>
      obtain ⟨rfl, has⟩ := h
      rw [List.getElem?_cons_succ] at hb
      cases n with
      | zero =>
          cases as with
          | nil => exact absurd hb (by simp)
          | cons d as =>
              cases ha
              cases hb
              exact has.1
      | succ n => exact ih has (by simpa using ha) hb

/-- Parts that are not empty stand at one place only. -/
theorem LaidOut.position_unique (h : LaidOut span start as) (ha : as[m]? = some a)
    (hb : as[n]? = some b) (hx : InstrAt (span a).1 (span a).2 i x)
    (hy : InstrAt (span b).1 (span b).2 i y) : m = n := by
  have horder := List.pairwise_iff_getElem.mp h.pairwise
  obtain ⟨hm, rfl⟩ := List.getElem?_eq_some_iff.mp ha
  obtain ⟨hn, rfl⟩ := List.getElem?_eq_some_iff.mp hb
  have hxlt := hx.lt
  have hylt := hy.lt
  have hxle := hx.1
  have hyle := hy.1
  rcases Nat.lt_trichotomy m n with hlt | heq | hgt
  · have := horder m n hm hn hlt
    omega
  · exact heq
  · have := horder n m hn hm hgt
    omega

/-- Of parts that are not empty, the one that begins where a part ends is the next one. -/
theorem LaidOut.eq_succ (h : LaidOut span start as) (hne : ∀ a ∈ as, (span a).2 ≠ [])
    (ha : as[m]? = some a) (hb : as[n]? = some b)
    (htouch : (span b).1 = (span a).1 + (span a).2.length) : n = m + 1 := by
  have horder := List.pairwise_iff_getElem.mp h.pairwise
  have hpos : ∀ (l : Nat) (hl : l < as.length), 0 < (span as[l]).2.length := fun l hl =>
    List.length_pos_iff.mpr (hne _ (List.getElem_mem hl))
  obtain ⟨hm, rfl⟩ := List.getElem?_eq_some_iff.mp ha
  obtain ⟨hn, rfl⟩ := List.getElem?_eq_some_iff.mp hb
  have hmpos := hpos m hm
  have hnpos := hpos n hn
  rcases Nat.lt_trichotomy m n with hlt | rfl | hgt
  · by_contra hskip
    -- a part in between would take up room
    have hbetween : m + 1 < as.length := by omega
    have hbefore := horder m (m + 1) hm hbetween (by omega)
    have hafter := horder (m + 1) n hbetween hn (by omega)
    have hroom := hpos (m + 1) hbetween
    omega
  · omega
  · have := horder n m hn hm hgt
    omega

end Parts

/-! ## Blocks -/

namespace Block

variable {b : Block}

/-- Where a block stands and what it holds. -/
def span (b : Block) : Nat × List Instr := (b.start, b.instrs)

theorem laidOut_prepend {bs : List Block} (h : LaidOut span (start + 1) bs) :
    LaidOut span start (prepend start x bs) := by
  cases bs with
  | nil => exact ⟨rfl, trivial⟩
  | cons b bs =>
      obtain ⟨hb, hbs⟩ := h
      rw [prepend_cons]
      split
      · exact ⟨rfl, hb, hbs⟩
      · refine ⟨rfl, ?_⟩
        have hlen : start + (x :: b.instrs).length = start + 1 + b.instrs.length := by
          rw [List.length_cons]
          omega
        show LaidOut span (start + (x :: b.instrs).length) bs
        rw [hlen]
        exact hbs

/-- **The blocks of a text lie end to end.** -/
theorem laidOut_split (start : Nat) (is : List Instr) : LaidOut span start (split start is) := by
  induction is generalizing start with
  | nil => trivial
  | cons x is ih => exact laidOut_prepend (ih (start + 1))

/-- An instruction of a text is an instruction of one of its blocks. -/
theorem instrAt_split :
    InstrAt start is i x ↔ ∃ b ∈ split start is, InstrAt b.start b.instrs i x := by
  have hparts := (laidOut_split start is).instrAt_flatMap (i := i) (x := x)
  have hwhole : ((split start is).flatMap fun b => (span b).2) = is := flatMap_instrs_split start is
  rwa [hwhole] at hparts

/-- The program indices of a block follow one another from its start. -/
theorem indices_eq (b : Block) : b.indices = List.range' b.start b.size := by
  rw [indices, statements, List.map_map, size, ← List.zipIdx_map_snd]
  rfl

theorem getLast?_indices : b.indices.getLast? = some i ↔ i + 1 = b.start + b.size ∧ b.start ≤ i := by
  rw [indices_eq, List.getLast?_range']
  split
  · simp
    omega
  · rw [Option.some.injEq]
    omega

theorem head?_indices : b.indices.head? = some i ↔ i = b.start ∧ b.instrs ≠ [] := by
  rw [indices_eq, List.head?_range', size]
  split
  · rename_i hnil
    simp [List.length_eq_zero_iff.mp hnil]
  · rename_i hne
    rw [Option.some.injEq, eq_comm, and_iff_left]
    exact fun hnil => hne (List.length_eq_zero_iff.mpr hnil)

/-- Two indices follow one another in a block if they are its indices and differ by one. -/
theorem pair_infix_indices :
    [i, j] <:+: b.indices ↔ b.start ≤ i ∧ j = i + 1 ∧ j < b.start + b.size := by
  rw [indices_eq]
  constructor
  · rintro ⟨before, after, h⟩
    have hlen := congrArg List.length h
    rw [List.length_range'] at hlen
    simp only [List.length_append, List.length_cons, List.length_nil] at hlen
    have hi : (List.range' b.start b.size)[before.length]? = some i := by
      rw [← h]
      simp
    have hj : (List.range' b.start b.size)[before.length + 1]? = some j := by
      rw [← h]
      simp
    rw [List.getElem?_range' (by omega), Option.some.injEq] at hi hj
    omega
  · rintro ⟨hle, rfl, hlt⟩
    refine ⟨List.range' b.start (i - b.start), List.range' (i + 2) (b.start + b.size - (i + 2)), ?_⟩
    have hpair : [i, i + 1] = List.range' i 2 := rfl
    have hsize : b.size = i - b.start + 2 + (b.start + b.size - (i + 2)) := by omega
    have hfirst : b.start + (i - b.start) = i := by omega
    have hsecond : b.start + (i - b.start + 2) = i + 2 := by omega
    conv_rhs => rw [hsize]
    rw [hpair, ← List.range'_append_1, ← List.range'_append_1, hfirst, hsecond]

/-- The terminator of a block is the instruction at its last index. -/
theorem terminator?_eq_some (hi : b.indices.getLast? = some i) :
    b.terminator? = some x ↔ InstrAt b.start b.instrs i x := by
  obtain ⟨hend, hle⟩ := getLast?_indices.mp hi
  have hoffset : i - b.start = b.instrs.length - 1 := by
    rw [size] at hend
    omega
  rw [terminator?, InstrAt, and_iff_right hle, List.getLast?_eq_getElem?, hoffset]

/-- The first instruction of a block is the one at its start. -/
theorem head?_eq_some : b.instrs.head? = some x ↔ InstrAt b.start b.instrs b.start x := by
  rw [InstrAt, and_iff_right (Nat.le_refl _), Nat.sub_self, List.head?_eq_getElem?]

end Block

/-! ## Regions -/

theorem entry?_of_mem_regionBody (hx : x ∈ regionBody is) : x.entry? = none := by
  induction is with
  | nil => exact absurd hx List.not_mem_nil
  | cons y is ih =>
      rw [regionBody] at hx
      split at hx
      · exact absurd hx List.not_mem_nil
      · rename_i hentry
        have hy : y.entry? = none := by simpa using hentry
        split at hx
        · rwa [List.mem_singleton.mp hx]
        · rcases List.mem_cons.mp hx with rfl | hx
          · exact hy
          · exact ih hx

namespace Region

variable {r : Region} {rs : List Region}

/-- Where a region stands and what it holds. -/
def span (r : Region) : Nat × List Instr := (r.start, r.instrs)

/-- A region opens with its entry label, and no other instruction of it opens a procedure. -/
def Opens (r : Region) : Prop :=
  ∃ body, r.instrs = .label r.name (some r.entry) :: body ∧ ∀ x ∈ body, x.entry? = none

/-- What belongs to the region that is open at the head of a text. -/
def rest (inside : Bool) (is : List Instr) : List Instr := if inside then regionBody is else []

theorem rest_entry (inside : Bool) (name : Label) (entry : ProcedureEntry) (is : List Instr) :
    rest inside (.label name (some entry) :: is) = [] := by
  cases inside <;> rfl

theorem rest_cons (hx : x.entry? = none) (is : List Instr) :
    rest true (x :: is) = x :: rest (!x.isReturn) is := by
  simp only [rest, if_true, regionBody, hx]
  cases x.isReturn <;> rfl

/-- The first instruction lists a region of its own if it opens a procedure. -/
private theorem mem_piecesFrom_cons (inside : Bool) (start : Nat) (x : Instr) (is : List Instr) :
    ∃ inside', ∀ r, Piece.region r ∈ piecesFrom inside start (x :: is) ↔
      (∃ name entry, x = .label name (some entry) ∧
        r = ⟨start, name, entry, .label name (some entry) :: regionBody is⟩) ∨
        Piece.region r ∈ piecesFrom inside' (start + 1) is := by
  cases hx : x.entry? with
  | some entry =>
      obtain ⟨name, rfl⟩ := Instr.entry?_eq_some.mp hx
      refine ⟨true, fun r => ?_⟩
      rw [piecesFrom_entry, List.mem_cons, Piece.region.injEq]
      refine or_congr_left ⟨fun hr => ⟨name, entry, rfl, hr⟩, ?_⟩
      rintro ⟨name', entry', he, hr⟩
      cases he
      exact hr
  | none =>
      have hnot : ∀ name entry, x ≠ .label name (some entry) := by
        rintro name entry rfl
        exact absurd hx (by simp [Instr.entry?])
      rw [piecesFrom_cons hx]
      cases inside with
      | false => exact ⟨false, fun r => by simp [hnot]⟩
      | true => exact ⟨!x.isReturn, fun r => by simp [hnot]⟩

/-- **Which regions are listed:** one for each label that opens a procedure. -/
theorem mem_piecesFrom {inside : Bool} :
    Piece.region r ∈ piecesFrom inside start is ↔
      ∃ before name entry after, is = before ++ .label name (some entry) :: after ∧
        r = ⟨start + before.length, name, entry, .label name (some entry) :: regionBody after⟩ := by
  induction is generalizing inside start with
  | nil => simp [piecesFrom]
  | cons x is ih =>
      obtain ⟨inside', hfirst⟩ := mem_piecesFrom_cons inside start x is
      rw [hfirst, ih]
      constructor
      · rintro (⟨name, entry, rfl, hr⟩ | ⟨before, name, entry, after, rfl, hr⟩)
        · exact ⟨[], name, entry, is, rfl, hr⟩
        · refine ⟨x :: before, name, entry, after, rfl, ?_⟩
          rwa [List.length_cons, Nat.add_comm _ 1, ← Nat.add_assoc]
      · rintro ⟨before, name, entry, after, his, hr⟩
        cases before with
        | nil =>
            cases his
            exact Or.inl ⟨name, entry, rfl, hr⟩
        | cons y before =>
            cases his
            refine Or.inr ⟨before, name, entry, after, rfl, ?_⟩
            rwa [List.length_cons, Nat.add_comm _ 1, ← Nat.add_assoc] at hr

/-- Every region that is listed opens with its entry. -/
theorem opens_of_mem_pieces (hr : Piece.region r ∈ pieces is) : r.Opens := by
  obtain ⟨before, name, entry, after, -, rfl⟩ := mem_piecesFrom.mp hr
  exact ⟨regionBody after, rfl, fun x hx => entry?_of_mem_regionBody hx⟩

end Region

/-- Where a piece of the program `is` stands and what it holds. -/
def Piece.span (is : List Instr) : Piece → Nat × List Instr
  | .stray index => (index, is[index]?.toList)
  | .region r => r.span

/-- **The pieces of a program lie end to end:** from any index on, a text is what belongs to the
region that is open there, and then its pieces, none of which is empty. -/
theorem Piece.laidOut_piecesFrom {whole : List Instr} (inside : Bool) (h : whole.drop start = is) :
    is = Region.rest inside is ++
        ((piecesFrom inside start is).flatMap fun p => (p.span whole).2) ∧
      LaidOut (Piece.span whole) (start + (Region.rest inside is).length)
        (piecesFrom inside start is) ∧
      ∀ p ∈ piecesFrom inside start is, (p.span whole).2 ≠ [] := by
  induction is generalizing inside start with
  | nil => cases inside <;> simp [Region.rest, regionBody, piecesFrom, LaidOut]
  | cons x is ih =>
      have hnext : whole.drop (start + 1) = is := by
        rw [← List.tail_drop, h, List.tail_cons]
      cases hx : x.entry? with
      | some entry =>
          obtain ⟨name, rfl⟩ := Instr.entry?_eq_some.mp hx
          obtain ⟨his, hlaid, hne⟩ := ih true hnext
          rw [Region.rest_entry, piecesFrom_entry]
          refine ⟨?_, ⟨rfl, ?_⟩, List.forall_mem_cons.mpr ⟨List.cons_ne_nil _ _, hne⟩⟩
          · rw [List.nil_append, List.flatMap_cons]
            exact congrArg _ his
          · have hlen : start + (Region.rest true is).length + 1 =
                start + 1 + (Region.rest true is).length := by omega
            exact hlen ▸ hlaid
      | none =>
          rw [piecesFrom_cons hx]
          cases inside with
          | false =>
              obtain ⟨his, hlaid, hne⟩ := ih false hnext
              have hspan : (Piece.stray start).span whole = (start, [x]) := by
                have hhead : whole[start]? = some x := by
                  rw [← Nat.add_zero start, ← List.getElem?_drop, h, List.getElem?_cons_zero]
                rw [Piece.span, hhead, Option.toList_some]
              refine ⟨?_, ?_, ?_⟩
              · rw [if_neg (by simp), List.flatMap_cons, hspan]
                exact congrArg _ his
              · rw [if_neg (by simp), LaidOut, hspan]
                exact ⟨rfl, hlaid⟩
              · rw [if_neg (by simp), List.forall_mem_cons, hspan]
                exact ⟨List.cons_ne_nil _ _, hne⟩
          | true =>
              obtain ⟨his, hlaid, hne⟩ := ih (!x.isReturn) hnext
              rw [Region.rest_cons hx, if_pos rfl]
              refine ⟨congrArg _ his, ?_, hne⟩
              rw [List.length_cons, Nat.add_comm _ 1, ← Nat.add_assoc]
              exact hlaid

/-- **A program is its pieces, end to end,** and no piece is empty. -/
theorem Piece.laidOut_pieces (is : List Instr) :
    is = ((pieces is).flatMap fun p => (p.span is).2) ∧ LaidOut (Piece.span is) 0 (pieces is) ∧
      ∀ p ∈ pieces is, (p.span is).2 ≠ [] :=
  laidOut_piecesFrom false List.drop_zero

namespace Region

variable {r : Region} {rs : List Region}

/-- **The regions of a program without stray instructions are the program, end to end.** -/
theorem laidOut_pieces (h : pieces is = rs.map Piece.region) :
    is = rs.flatMap Region.instrs ∧ LaidOut span 0 rs ∧ ∀ r ∈ rs, r.Opens := by
  obtain ⟨his, hlaid, -⟩ := Piece.laidOut_pieces is
  rw [h] at his hlaid
  rw [List.flatMap_map] at his
  rw [laidOut_map] at hlaid
  refine ⟨his, hlaid, fun r hr => ?_⟩
  have hmem : Piece.region r ∈ pieces is := by
    rw [h]
    exact List.mem_map_of_mem hr
  exact opens_of_mem_pieces hmem

/-- Two labels of one name stand at one place if no label repeats. -/
theorem label_unique (hr : r.labels.Nodup) {l : Label} (hx : InstrAt r.start r.instrs i x)
    (hxl : x.labelName? = some l) (hy : InstrAt r.start r.instrs j y)
    (hyl : y.labelName? = some l) : i = j := by
  have hpair := List.pairwise_iff_getElem.mp (List.pairwise_filterMap.mp hr)
  obtain ⟨hile, hi⟩ := hx
  obtain ⟨hjle, hj⟩ := hy
  obtain ⟨hilt, rfl⟩ := List.getElem?_eq_some_iff.mp hi
  obtain ⟨hjlt, rfl⟩ := List.getElem?_eq_some_iff.mp hj
  rcases Nat.lt_trichotomy (i - r.start) (j - r.start) with hlt | heq | hgt
  · exact absurd rfl (hpair _ _ hilt hjlt hlt l hxl l hyl)
  · omega
  · exact absurd rfl (hpair _ _ hjlt hilt hgt l hyl l hxl)

end Region

theorem firstRepeated?_eq_none {seen ls : List Label} :
    firstRepeated? seen ls = none ↔ ls.Nodup ∧ ∀ l ∈ ls, l ∉ seen := by
  induction ls generalizing seen with
  | nil => simp [firstRepeated?]
  | cons l ls ih =>
      rw [firstRepeated?]
      split
      · rename_i hl
        refine iff_of_false (by simp) fun h => ?_
        exact h.2 l List.mem_cons_self hl
      · rename_i hl
        rw [ih, List.nodup_cons, List.forall_mem_cons]
        constructor
        · rintro ⟨hnodup, hnew⟩
          refine ⟨⟨fun hmem => hnew l hmem List.mem_cons_self, hnodup⟩, hl, fun m hm hseen => ?_⟩
          exact hnew m hm (List.mem_cons_of_mem l hseen)
        · rintro ⟨⟨hfresh, hnodup⟩, -, hnew⟩
          refine ⟨hnodup, fun m hm hseen => ?_⟩
          rcases List.mem_cons.mp hseen with rfl | hseen
          · exact hfresh hm
          · exact hnew m hm hseen

theorem firstRepeated?_nil_eq_none {ls : List Label} : firstRepeated? [] ls = none ↔ ls.Nodup := by
  rw [firstRepeated?_eq_none]
  exact and_iff_left fun _ _ => List.not_mem_nil

/-- **When nothing is wrong with a region:** no label repeats, and every target is a label. -/
theorem Region.fault?_eq_none {r : Region} :
    r.fault? = none ↔ r.labels.Nodup ∧ ∀ t ∈ r.targets, t ∈ r.labels := by
  have htarget : (r.targets.find? fun t => decide (t ∉ r.labels)) = none ↔
      ∀ t ∈ r.targets, t ∈ r.labels := by
    simp [List.find?_eq_none]
  rw [← firstRepeated?_nil_eq_none, ← htarget, Region.fault?]
  cases firstRepeated? [] r.labels with
  | some l => simp
  | none =>
      cases r.targets.find? fun t => decide (t ∉ r.labels) with
      | some t => simp
      | none => simp

namespace FlowGraph

/-- **Which programs have flow graphs, and which those are:** nothing is stray, nothing is wrong with
any region, and there is one flow graph per region. -/
theorem ofInstrs_eq_ok {gs : List FlowGraph} :
    ofInstrs is = .ok gs ↔
      ∃ rs : List Region, pieces is = rs.map Piece.region ∧ (∀ r ∈ rs, r.fault? = none) ∧
        gs = rs.map ofRegion := by
  have hpiece : ∀ p g, ofPiece p = .ok g ↔
      ∃ r, p = .region r ∧ r.fault? = none ∧ g = ofRegion r := by
    intro p g
    cases p with
    | stray index => simp [ofPiece]
    | region r =>
        cases hr : r.fault? with
        | some e => simp [ofPiece, hr]
        | none => simp [ofPiece, hr, eq_comm]
  rw [ofInstrs_eq, Progress.toExcept_run_eq_ok]
  generalize pieces is = ps
  constructor
  · intro h
    induction h with
    | nil => exact ⟨[], rfl, fun _ hr => absurd hr List.not_mem_nil, rfl⟩
    | cons hp _ ih =>
        obtain ⟨r, rfl, hr, rfl⟩ := (hpiece _ _).mp hp
        obtain ⟨rs, rfl, hrs, rfl⟩ := ih
        exact ⟨r :: rs, rfl, List.forall_mem_cons.mpr ⟨hr, hrs⟩, rfl⟩
  · rintro ⟨rs, rfl, hrs, rfl⟩
    rw [List.forall₂_map_left_iff, List.forall₂_map_right_iff, List.forall₂_same]
    exact fun r hr => (hpiece _ _).mpr ⟨r, rfl, hrs r hr, rfl⟩

/-- Every flow graph has an entry block. -/
theorem size_pos_of_mem {gs : List FlowGraph} {g : FlowGraph} (hgs : ofInstrs is = .ok gs)
    (hg : g ∈ gs) : 0 < g.size := by
  obtain ⟨rs, hpieces, -, rfl⟩ := ofInstrs_eq_ok.mp hgs
  obtain ⟨r, hr, rfl⟩ := List.mem_map.mp hg
  obtain ⟨body, hopens, -⟩ := (Region.laidOut_pieces hpieces).2.2 r hr
  refine List.length_pos_iff.mpr fun hnone => ?_
  -- without blocks there would be no instructions
  have hinstrs := Block.flatMap_instrs_split r.start r.instrs
  rw [show Block.split r.start r.instrs = [] from hnone, hopens] at hinstrs
  exact absurd hinstrs (by simp)

end FlowGraph

end RegAlloc
