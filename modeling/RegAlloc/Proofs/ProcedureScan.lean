import Mathlib.Data.List.Basic
import Mathlib.Data.List.Induction
import RegAlloc.Proofs.RegionCut

/-!
# Reading a procedure block by block

The scan comes to know a procedure bit by bit: an instruction joins the block that is being read, a
block that ends is added to the procedure, and the jumps are resolved when the procedure ends.  The
cut looks at a whole region at once.  This file shows that for one procedure both come to the same.

* **Blocks.**  The block that is being read is straight and ends where the scan stands
  (`Block.ReadUpTo`).  Where something ends it, it is the first block into which it and the rest of
  the text are cut (`Block.ReadUpTo.ahead_of_cut`, `Block.ReadUpTo.ahead_of_transfer`).
* **Labels.**  What is known about a procedure after some blocks is a function of these blocks
  (`OpenProcedure.noted`).  So a label is found to repeat exactly if it repeats an earlier one, and
  all of these come to light before the first jump is resolved (`OpenProcedure.addBlocks_opened`,
  `OpenProcedure.finish_noted`).

Together they say that a procedure that is read block by block gives what its region gives, be it a
flow graph or an error (`OpenProcedure.close_split`).
-/

namespace RegAlloc

/-! ## Straight runs of instructions -/

namespace Block

variable {b : Block} {start index : Nat} {is rest : List Instr} {x : Instr}

/-- The first block begins with the first instruction. -/
theorem exists_split_cons (start : Nat) (x : Instr) (is : List Instr) :
    ∃ body bs, split start (x :: is) = ⟨start, x :: body⟩ :: bs := by
  rw [split_cons]
  cases split (start + 1) is with
  | nil => exact ⟨[], [], rfl⟩
  | cons b bs =>
      rw [prepend_cons]
      split
      · exact ⟨[], b :: bs, rfl⟩
      · exact ⟨b.instrs, bs, rfl⟩

theorem Straight.tail {first : Nat} (h : Straight ⟨first, x :: is⟩) : Straight ⟨start, is⟩ where
  transfer {o y} hy hx := by
    have hlast : o + 1 + 1 = is.length + 1 := h.transfer (o := o + 1) hy hx
    exact Nat.succ.inj hlast
  label {o y} hy hx := absurd (h.label (o := o + 1) hy hx) (Nat.succ_ne_zero o)

/-- **A straight run of instructions is one block** if it ends in a transfer of control, before a
label, or with the text. -/
theorem split_append (hne : is ≠ []) (h : Straight ⟨start, is⟩)
    (hcut : (∃ x ∈ is.getLast?, x.transfersControl = true) ∨ ∀ x ∈ rest.head?, x.isLabel = true) :
    split start (is ++ rest) = ⟨start, is⟩ :: split (start + is.length) rest := by
  induction is generalizing start with
  | nil => exact absurd rfl hne
  | cons x is ih =>
      cases is with
      | nil =>
          rw [List.singleton_append, split_cons, List.length_singleton]
          cases rest with
          | nil => rfl
          | cons y rest =>
              obtain ⟨body, bs, hsplit⟩ := exists_split_cons (start + 1) y rest
              rw [hsplit, prepend_cons, if_pos]
              rw [Bool.or_eq_true]
              refine hcut.imp ?_ fun hlabel => hlabel y rfl
              rintro ⟨z, hz, htransfer⟩
              cases hz
              exact htransfer
      | cons y is =>
          have hlength : start + (x :: y :: is).length = start + 1 + (y :: is).length := by
            rw [List.length_cons]
            omega
          have hplain : x.transfersControl = false := by
            rw [← Bool.not_eq_true]
            intro htransfer
            have hlast : 0 + 1 = is.length + 1 + 1 := h.transfer (o := 0) rfl htransfer
            omega
          have hbody : y.isLabel = false := by
            rw [← Bool.not_eq_true]
            intro hlabel
            exact absurd (h.label (o := 1) rfl hlabel) Nat.one_ne_zero
          rw [List.cons_append, split_cons, ih (List.cons_ne_nil _ _) h.tail hcut, prepend_cons,
            if_neg (by simp [hplain, opensWithLabel, hbody]), hlength]

/-! ## The block that is being read -/

/-- The block, if it holds anything. -/
def toList (b : Block) : List Block := if b.isEmpty then [] else [b]

/-- The blocks that are still to come at index `index`, before the text that follows: the one that
is being read is the first of them or part of it. -/
def ahead (b : Block) (index : Nat) (rest : List Instr) : List Block :=
  split (index - b.size) (b.instrs ++ rest)

/-- **The block that is being read at an index** ends right before it, and nothing has ended it: no
instruction of it transfers control, and only the first one may be a label. -/
structure ReadUpTo (b : Block) (index : Nat) : Prop where
  ends : b.instrs ≠ [] → b.start + b.size = index
  straight : b.Straight
  plain : ∀ x ∈ b.instrs, x.transfersControl = false

theorem isEmpty_iff : b.isEmpty = true ↔ b.instrs = [] := List.isEmpty_iff

theorem toList_of_nil (h : b.instrs = []) : b.toList = [] := if_pos (isEmpty_iff.mpr h)

theorem toList_of_ne_nil (h : b.instrs ≠ []) : b.toList = [b] :=
  if_neg fun hempty => h (isEmpty_iff.mp hempty)

theorem cleared_of_nil (h : b.instrs = []) : b.cleared = b := by
  cases b
  cases h
  rfl

theorem toList_cleared (b : Block) : b.cleared.toList = [] := rfl

theorem extend_ne_nil (b : Block) (index : Nat) (x : Instr) :
    (b.extend index x).instrs ≠ [] :=
  List.append_ne_nil_of_right_ne_nil _ (List.cons_ne_nil x [])

theorem ahead_cleared (b : Block) (index : Nat) (rest : List Instr) :
    b.cleared.ahead index rest = split index rest := rfl

theorem ahead_of_nil (h : b.instrs = []) (index : Nat) (rest : List Instr) :
    b.ahead index rest = split index rest := by
  rw [← cleared_of_nil h, ahead_cleared]

/-- To read an instruction moves it from the text into the block. -/
theorem ahead_extend (b : Block) (index : Nat) (x : Instr) (rest : List Instr) :
    (b.extend index x).ahead (index + 1) rest = b.ahead index (x :: rest) := by
  have hsize : (b.extend index x).size = b.size + 1 := List.length_append
  have hinstrs : (b.extend index x).instrs = b.instrs ++ [x] := rfl
  rw [ahead, hsize, hinstrs, Nat.add_sub_add_right, List.append_assoc, List.singleton_append]
  rfl

theorem readUpTo_cleared (b : Block) (index : Nat) : b.cleared.ReadUpTo index where
  ends h := absurd rfl h
  straight := ⟨fun h => absurd h (by simp [cleared]), fun h => absurd h (by simp [cleared])⟩
  plain _ h := absurd h List.not_mem_nil

namespace ReadUpTo

/-- Where a label follows or nothing does, the block that is being read is the first of those to
come. -/
theorem ahead_of_cut (h : b.ReadUpTo index) (hcut : ∀ x ∈ rest.head?, x.isLabel = true) :
    b.ahead index rest = b.toList ++ split index rest := by
  by_cases hne : b.instrs = []
  · rw [toList_of_nil hne, ← cleared_of_nil hne]
    rfl
  · have hends := h.ends hne
    have hstart : index - b.size = b.start := by omega
    rw [toList_of_ne_nil hne, ahead, hstart, split_append hne h.straight (Or.inr hcut)]
    show b :: split (b.start + b.size) rest = _
    rw [hends, List.singleton_append]

/-- The block with one more instruction begins where it did and ends one index later. -/
theorem ends_extend (h : b.ReadUpTo index) (x : Instr) :
    (b.extend index x).start + (b.extend index x).size = index + 1 := by
  have hsize : (b.extend index x).size = b.size + 1 := List.length_append
  by_cases hne : b.instrs = []
  · have hstart : (b.extend index x).start = index := if_pos (isEmpty_iff.mpr hne)
    have hnone : b.size = 0 := by rw [size, hne, List.length_nil]
    omega
  · have hstart : (b.extend index x).start = b.start :=
      if_neg fun hempty => hne (isEmpty_iff.mp hempty)
    have hends := h.ends hne
    omega

/-- It is straight unless the instruction is a label in the middle. -/
theorem straight_extend (h : b.ReadUpTo index) (hx : b.instrs ≠ [] → x.isLabel = false) :
    (b.extend index x).Straight := by
  have hsize : (b.extend index x).size = b.size + 1 := List.length_append
  -- an instruction of the longer block is one of the old ones, or the new one at the end
  have hcases : ∀ {o y}, (b.extend index x).instrs[o]? = some y →
      b.instrs[o]? = some y ∨ (o = b.size ∧ y = x) := by
    intro o y hy
    rw [extend, List.getElem?_append] at hy
    split at hy
    · exact Or.inl hy
    · rename_i hge
      rw [List.getElem?_singleton] at hy
      obtain ⟨hlast, hy⟩ := Option.ite_none_right_eq_some.mp hy
      refine Or.inr ⟨?_, (Option.some.inj hy).symm⟩
      rw [size]
      omega
  constructor
  · intro o y hy htransfer
    rcases hcases hy with hy | ⟨rfl, rfl⟩
    · exact absurd ((h.plain y (List.mem_of_getElem? hy)).symm.trans htransfer) (by simp)
    · exact hsize.symm
  · intro o y hy hlabel
    rcases hcases hy with hy | ⟨rfl, rfl⟩
    · exact h.straight.label hy hlabel
    · by_contra hpos
      have hne : b.instrs ≠ [] := fun hnil => hpos (by rw [size, hnil, List.length_nil])
      exact absurd ((hx hne).symm.trans hlabel) (by simp)

theorem extend (h : b.ReadUpTo index) (hlabel : b.instrs ≠ [] → x.isLabel = false)
    (hplain : x.transfersControl = false) : (b.extend index x).ReadUpTo (index + 1) where
  ends _ := h.ends_extend x
  straight := h.straight_extend hlabel
  plain := List.forall_mem_append.mpr ⟨h.plain, List.forall_mem_singleton.mpr hplain⟩

/-- A transfer of control completes the block that is being read. -/
theorem ahead_of_transfer (h : b.ReadUpTo index) (hlabel : b.instrs ≠ [] → x.isLabel = false)
    (hx : x.transfersControl = true) :
    b.ahead index (x :: rest) = (b.extend index x).toList ++ split (index + 1) rest := by
  have hends := h.ends_extend x
  have hstart : index + 1 - (b.extend index x).size = (b.extend index x).start := by omega
  have hlast : (b.extend index x).instrs.getLast? = some x := List.getLast?_concat
  have hsplit : split (b.extend index x).start ((b.extend index x).instrs ++ rest) =
      b.extend index x :: split ((b.extend index x).start + (b.extend index x).size) rest :=
    split_append (extend_ne_nil b index x) (h.straight_extend hlabel) (Or.inl ⟨x, hlast, hx⟩)
  rw [← ahead_extend, ahead, hstart, hsplit, hends, toList_of_ne_nil (extend_ne_nil b index x)]
  rfl

end ReadUpTo

end Block

/-! ## Labels and targets, block by block -/

theorem filterMap_cons_toList {α β : Type} (f : α → Option β) (a : α) (as : List α) :
    (a :: as).filterMap f = (f a).toList ++ as.filterMap f := by
  cases h : f a <;> simp [h]

namespace Block

variable {b : Block}

theorem label?_of_not_opensWithLabel (h : b.opensWithLabel = false) : b.label? = none := by
  rw [opensWithLabel] at h
  rw [label?]
  cases hhead : b.instrs.head? with
  | none => rfl
  | some x =>
      rw [hhead] at h
      cases x with
      | label name entry => exact absurd h (by simp [Instr.isLabel])
      | _ => rfl

/-- **What is read off the blocks of a text can be read off its instructions**, if a block that
takes in one more instruction in front shows what the two show. -/
theorem filterMap_split {α : Type} {f : Block → Option α} {k : Instr → Option α}
    (hone : ∀ start x, f ⟨start, [x]⟩ = k x)
    (hjoin : ∀ start x (b : Block), b.instrs ≠ [] → x.transfersControl = false →
      b.opensWithLabel = false →
      (f ⟨start, x :: b.instrs⟩).toList = (k x).toList ++ (f b).toList)
    (start : Nat) (is : List Instr) : (split start is).filterMap f = is.filterMap k := by
  induction is generalizing start with
  | nil => rfl
  | cons x is ih =>
      rw [split_cons, filterMap_cons_toList k, ← ih (start + 1), ← hone start]
      cases hs : split (start + 1) is with
      | nil => exact filterMap_cons_toList ..
      | cons b bs =>
          rw [prepend_cons]
          split
          · exact filterMap_cons_toList ..
          · rename_i hnot
            rw [Bool.not_eq_true, Bool.or_eq_false_iff] at hnot
            have hb : b.instrs ≠ [] := instrs_ne_nil_of_mem_split (hs ▸ List.mem_cons_self)
            rw [filterMap_cons_toList, hjoin start x b hb hnot.1 hnot.2, filterMap_cons_toList f b,
              hone, List.append_assoc]

/-- The labels of a text are those that open its blocks. -/
theorem filterMap_label?_split (start : Nat) (is : List Instr) :
    (split start is).filterMap label? = is.filterMap Instr.labelName? := by
  refine filterMap_split (fun _ _ => rfl) (fun start x b _ _ hlabel => ?_) start is
  rw [label?_of_not_opensWithLabel hlabel, Option.toList_none, List.append_nil]
  rfl

/-- The targets of a text are those of the transfers that end its blocks. -/
theorem filterMap_target?_split (start : Nat) (is : List Instr) :
    (split start is).filterMap target? = is.filterMap Instr.target? := by
  refine filterMap_split (fun _ _ => rfl) (fun start x b hb htransfer _ => ?_) start is
  have hx : x.target? = none := by
    cases x with
    | branch => exact absurd htransfer (by simp [Instr.transfersControl])
    | jump => exact absurd htransfer (by simp [Instr.transfersControl])
    | _ => rfl
  have hlast : target? ⟨start, x :: b.instrs⟩ = b.target? := by
    obtain ⟨y, ys, hinstrs⟩ := List.exists_cons_of_ne_nil hb
    unfold target? terminator?
    rw [hinstrs, List.getLast?_cons_cons]
  rw [hlast, hx]
  rfl

end Block

/-! ## One procedure -/

section Except

variable {α β ε : Type} {x : Except ε α} {b : β}

theorem bind_eq_ok {f : α → Except ε β} : (x >>= f) = .ok b ↔ ∃ a, x = .ok a ∧ f a = .ok b := by
  cases x <;> simp [bind, Except.bind]

theorem map_eq_ok {f : α → β} : x.map f = .ok b ↔ ∃ a, x = .ok a ∧ f a = b := by
  cases x <;> simp [Except.map]

end Except

/-- In a list that goes on, the first repetition is in the first part or repeats something of it. -/
theorem firstRepeated?_append (seen ls ms : List Label) :
    firstRepeated? seen (ls ++ ms) =
      (firstRepeated? seen ls).or (firstRepeated? (ls.reverse ++ seen) ms) := by
  induction ls generalizing seen with
  | nil => rfl
  | cons l ls ih =>
      rw [List.cons_append, firstRepeated?, firstRepeated?, ih, List.reverse_cons,
        List.append_assoc, List.singleton_append]
      split <;> rfl

theorem addEdges_cons (edges new : List (BlockId × BlockId)) (e : BlockId × BlockId) :
    addEdges edges (e :: new) = addEdges (if e ∈ edges then edges else edges ++ [e]) new := by
  simp only [addEdges, List.foldl_cons, List.contains_iff_mem]

/-- Edges that are not repeated are added as far as they are not listed. -/
theorem addEdges_of_nodup {edges new : List (BlockId × BlockId)} (hnew : new.Nodup) :
    addEdges edges new = edges ++ new.filter fun e => decide (e ∉ edges) := by
  induction new generalizing edges with
  | nil => exact (List.append_nil edges).symm
  | cons e new ih =>
      obtain ⟨he, hnew⟩ := List.nodup_cons.mp hnew
      rw [addEdges_cons]
      by_cases hmem : e ∈ edges
      · rw [if_pos hmem, ih hnew, List.filter_cons_of_neg (by simpa using hmem)]
      · rw [if_neg hmem, ih hnew, List.filter_cons_of_pos (by simpa using hmem), List.append_assoc]
        refine congrArg (edges ++ e :: ·) (List.filter_congr fun d hd => ?_)
        have hde : d ≠ e := fun heq => he (heq ▸ hd)
        simp [hde]

namespace OpenProcedure

variable {p q : OpenProcedure} {bs : List Block} {b : Block} {name l : Label}
  {entry : ProcedureEntry}

/-- Add several blocks. -/
def addBlocks (p : OpenProcedure) (bs : List Block) : Except Error OpenProcedure :=
  bs.foldlM addBlock p

/-- The flow graph of a procedure that ends with some more blocks. -/
def close (p : OpenProcedure) (bs : List Block) : Except Error FlowGraph :=
  p.addBlocks bs >>= finish

theorem addBlocks_append (p : OpenProcedure) (bs cs : List Block) :
    p.addBlocks (bs ++ cs) = p.addBlocks bs >>= fun q => q.addBlocks cs := List.foldlM_append

theorem addBlocks_singleton (p : OpenProcedure) (b : Block) : p.addBlocks [b] = p.addBlock b := by
  rw [addBlocks, List.foldlM_cons]
  cases p.addBlock b <;> rfl

theorem close_append (p : OpenProcedure) (bs cs : List Block) :
    p.close (bs ++ cs) = p.addBlocks bs >>= fun q => q.close cs := by
  rw [close, addBlocks_append]
  cases p.addBlocks bs <;> rfl

theorem blocks_of_addBlock (h : p.addBlock b = .ok q) : q.blocks = p.blocks ++ [b] := by
  obtain ⟨labels, -, hq⟩ := bind_eq_ok.mp h
  exact congrArg OpenProcedure.blocks (Except.ok.inj hq).symm

theorem blocks_of_addBlocks (h : p.addBlocks bs = .ok q) : q.blocks = p.blocks ++ bs := by
  induction bs generalizing p with
  | nil =>
      cases h
      exact (List.append_nil _).symm
  | cons b bs ih =>
      rw [addBlocks, List.foldlM_cons] at h
      obtain ⟨p', hadded, hrest⟩ := bind_eq_ok.mp h
      rw [ih hrest, blocks_of_addBlock hadded, List.append_assoc, List.singleton_append]

/-- The labels of some blocks, each with the number of its block. -/
def labelsOf (bs : List Block) : List (Label × BlockId) :=
  bs.zipIdx.filterMap fun e => e.1.label?.map fun l => (l, e.2)

/-- The last block, if control falls through at its end. -/
def pendingOf (bs : List Block) : Option BlockId :=
  if bs.getLast?.any Block.fallsThrough then some (bs.length - 1) else none

/-- **What is known about a procedure after some blocks.** -/
def noted (name : Label) (entry : ProcedureEntry) (bs : List Block) : OpenProcedure where
  name := name
  entry := entry
  blocks := bs
  edges := fallEdges bs
  labels := (labelsOf bs).reverse
  pending := pendingOf bs

@[simp] theorem blocks_noted : (noted name entry bs).blocks = bs := rfl

theorem labelsOf_concat (bs : List Block) (b : Block) :
    labelsOf (bs ++ [b]) = labelsOf bs ++ b.label?.toList.map fun l => (l, bs.length) := by
  rw [labelsOf, List.zipIdx_append, List.filterMap_append]
  refine congrArg (labelsOf bs ++ ·) ?_
  cases h : b.label? <;> simp [h]

/-- Behind the last block nothing has come yet; behind every other one the next block has. -/
theorem fallEdges_concat (bs : List Block) (b : Block) :
    fallEdges (bs ++ [b]) =
      bs.zipIdx.filterMap fun e => if e.1.fallsThrough then some (e.2, e.2 + 1) else none := by
  rw [fallEdges, List.zipIdx_append, List.filterMap_append]
  have hlast : List.filterMap (fun e : Block × Nat =>
      if (e.1.fallsThrough && decide (e.2 + 1 < (bs ++ [b]).length)) = true
      then some (e.2, e.2 + 1) else none) ([b].zipIdx (0 + bs.length)) = [] := by
    simp
  rw [hlast, List.append_nil]
  refine List.filterMap_congr fun e he => ?_
  have hlt : e.2 < bs.length := List.snd_lt_of_mem_zipIdx he
  simp [hlt]

/-- A new block is where the pending edge leads. -/
theorem fallEdges_concat_eq (bs : List Block) (b : Block) :
    fallEdges (bs ++ [b]) =
      fallEdges bs ++ (pendingOf bs).toList.map fun previous => (previous, bs.length) := by
  induction bs using List.reverseRecOn with
  | nil => exact fallEdges_concat [] b
  | append_singleton bs c _ =>
      rw [fallEdges_concat, fallEdges_concat, List.zipIdx_append, List.filterMap_append]
      refine congrArg (_ ++ ·) ?_
      cases h : c.fallsThrough <;> simp [pendingOf, h]

theorem pendingOf_concat (bs : List Block) (b : Block) :
    pendingOf (bs ++ [b]) = if b.fallsThrough then some bs.length else none := by
  simp [pendingOf]

theorem map_fst_labelsOf (bs : List Block) :
    (labelsOf bs).map Prod.fst = bs.filterMap Block.label? := by
  induction bs using List.reverseRecOn with
  | nil => rfl
  | append_singleton bs b ih =>
      rw [labelsOf_concat, List.map_append, ih, List.filterMap_append, List.map_map]
      refine congrArg (_ ++ ·) ?_
      cases h : b.label? <;> simp [h]

/-- A label is found exactly if it opens one of the blocks. -/
theorem isSome_lookup_noted :
    ((noted name entry bs).labels.lookup l).isSome = true ↔ l ∈ bs.filterMap Block.label? := by
  rw [List.lookup_isSome_iff, ← map_fst_labelsOf, List.mem_map]
  simp only [noted, List.mem_reverse, beq_iff_eq, @eq_comm _ l]

/-- The pending edge is new, since nothing has led to the new block before. -/
theorem addEdges_pendingOf (bs : List Block) (b : Block) :
    addEdges (fallEdges bs) ((pendingOf bs).toList.map fun previous => (previous, bs.length)) =
      fallEdges (bs ++ [b]) := by
  rw [fallEdges_concat_eq]
  cases pendingOf bs with
  | none => exact (List.append_nil _).symm
  | some previous =>
      have hnew : (previous, bs.length) ∉ fallEdges bs := fun hmem =>
        Nat.lt_irrefl _ (lt_length_of_mem_fallEdges hmem).2
      exact (addEdges_cons _ _ _).trans (if_neg hnew ▸ rfl)

/-- **One more block:** its label is new, or it repeats one that is noted. -/
theorem addBlock_noted (bs : List Block) (b : Block) :
    (noted name entry bs).addBlock b =
      (firstRepeated? (bs.filterMap Block.label?).reverse b.label?.toList).elim
        (.ok (noted name entry (bs ++ [b]))) fun l => .error (.duplicateLabel l name) := by
  -- but for the labels, the record is brought up to date in the same way
  have hadded : ∀ labels, labels = (labelsOf (bs ++ [b])).reverse →
      { noted name entry bs with
        blocks := bs ++ [b]
        edges := addEdges (fallEdges bs)
          ((pendingOf bs).toList.map fun previous => (previous, bs.length))
        labels
        pending := if b.fallsThrough then some bs.length else none } =
      noted name entry (bs ++ [b]) := by
    rintro labels rfl
    rw [addEdges_pendingOf bs b, ← pendingOf_concat]
    rfl
  have hlabels := labelsOf_concat bs b
  cases hlabel : b.label? with
  | none =>
      rw [hlabel, Option.toList_none, List.map_nil, List.append_nil] at hlabels
      rw [addBlock, hlabel]
      exact congrArg Except.ok (hadded _ (congrArg List.reverse hlabels.symm))
  | some l =>
      rw [hlabel, Option.toList_some, List.map_singleton] at hlabels
      rw [addBlock, hlabel, withLabel, Option.toList_some, firstRepeated?, firstRepeated?]
      simp only [isSome_lookup_noted, List.mem_reverse]
      split
      · rfl
      · refine congrArg Except.ok (hadded _ ?_)
        rw [hlabels, List.reverse_concat]
        rfl

/-- **All blocks:** a label that repeats an earlier one is noticed, and nothing else is. -/
theorem addBlocks_opened (bs : List Block) :
    (opened name entry).addBlocks bs =
      (firstRepeated? [] (bs.filterMap Block.label?)).elim (.ok (noted name entry bs))
        fun l => .error (.duplicateLabel l name) := by
  induction bs using List.reverseRecOn with
  | nil => rfl
  | append_singleton bs b ih =>
      have hlabels : (bs ++ [b]).filterMap Block.label? =
          bs.filterMap Block.label? ++ b.label?.toList := by
        rw [List.filterMap_append, filterMap_cons_toList, List.filterMap_nil, List.append_nil]
      rw [addBlocks_append, ih, hlabels, firstRepeated?_append, List.append_nil]
      cases firstRepeated? [] (bs.filterMap Block.label?) with
      | some l => rfl
      | none =>
          show (noted name entry bs).addBlocks [b] = _
          rw [addBlocks_singleton, addBlock_noted, Option.none_or]

theorem blockOfLabel?_concat (bs : List Block) (b : Block) (l : Label) :
    blockOfLabel? (bs ++ [b]) l =
      (blockOfLabel? bs l).or (if b.label? = some l then some bs.length else none) := by
  rw [blockOfLabel?, List.findIdx?_append, List.findIdx?_singleton]
  by_cases hl : b.label? = some l <;> simp [hl, blockOfLabel?]

/-- Later labels are looked at first. -/
theorem lookup_noted_concat (bs : List Block) (b : Block) (l : Label) :
    (noted name entry (bs ++ [b])).labels.lookup l =
      (if b.label? = some l then some bs.length else none).or
        ((noted name entry bs).labels.lookup l) := by
  rw [noted, labelsOf_concat, List.reverse_append, List.lookup_append]
  refine congrArg (Option.or · _) ?_
  cases hlabel : b.label? with
  | none => rfl
  | some m =>
      by_cases hm : m = l
      · simp [hm]
      · have hbeq : (l == m) = false := beq_false_of_ne (Ne.symm hm)
        simp [hm, hbeq, List.lookup_cons]

/-- If no label repeats an earlier one, it does not matter which is looked at first. -/
theorem lookup_noted (hfresh : firstRepeated? [] (bs.filterMap Block.label?) = none) (l : Label) :
    (noted name entry bs).labels.lookup l = blockOfLabel? bs l := by
  induction bs using List.reverseRecOn with
  | nil => rfl
  | append_singleton bs b ih =>
      rw [List.filterMap_append, firstRepeated?_append, Option.or_eq_none_iff] at hfresh
      have hbs := ih hfresh.1
      rw [lookup_noted_concat, hbs, blockOfLabel?_concat]
      by_cases hl : b.label? = some l
      · -- the label of the last block opens no other one
        have hnew : l ∉ bs.filterMap Block.label? := by
          have hrest := hfresh.2
          rw [filterMap_cons_toList, hl, List.append_nil] at hrest
          intro hmem
          exact absurd hrest (by simp [firstRepeated?, hmem])
        have hnone : blockOfLabel? bs l = none := by
          rw [← Option.not_isSome_iff_eq_none, ← hbs, isSome_lookup_noted]
          exact hnew
        rw [hnone, Option.or_none, Option.none_or]
      · rw [if_neg hl, Option.none_or, Option.or_none]

/-- The jumps are resolved in block order, up to the first whose target is not found. -/
theorem jumps_eq (p : OpenProcedure) (es : List (Block × BlockId)) :
    p.jumps es =
      ((es.filterMap fun e => e.1.target?).find? fun l => !(p.labels.lookup l).isSome).elim
        (.ok (es.filterMap fun e =>
          (e.1.target?.bind fun l => p.labels.lookup l).map fun c => (e.2, c)))
        fun l => .error (.unresolvedLabel l p.name) := by
  induction es with
  | nil => rfl
  | cons e es ih =>
      obtain ⟨b, number⟩ := e
      cases htarget : b.target? with
      | none => simp [jumps, htarget, ih]
      | some l =>
          cases hlookup : p.labels.lookup l with
          | none => simp [jumps, htarget, hlookup]
          | some target =>
              simp only [jumps, htarget, hlookup, ih, List.filterMap_cons, List.find?_cons,
                Option.isSome_some, Bool.not_true, Option.bind_some, Option.map_some]
              cases List.find? (fun l => !(p.labels.lookup l).isSome)
                (es.filterMap fun e => e.1.target?) <;> rfl

/-- **The end of a procedure:** its jumps are resolved, up to the first target that is no label. -/
theorem finish_noted (hfresh : firstRepeated? [] (bs.filterMap Block.label?) = none) :
    (noted name entry bs).finish =
      ((bs.filterMap Block.target?).find? fun t => decide (t ∉ bs.filterMap Block.label?)).elim
        (.ok ⟨name, entry, bs, blockEdges bs⟩) fun t => .error (.unresolvedLabel t name) := by
  have htargets : (bs.zipIdx.filterMap fun e => e.1.target?) = bs.filterMap Block.target? := by
    show bs.zipIdx.filterMap (Block.target? ∘ Prod.fst) = _
    rw [← List.filterMap_map, List.zipIdx_map_fst]
  have hfound : (fun l => !((noted name entry bs).labels.lookup l).isSome) =
      fun t => decide (t ∉ bs.filterMap Block.label?) := by
    funext t
    rw [Bool.eq_iff_iff, decide_eq_true_iff, ← isSome_lookup_noted, Bool.not_eq_true']
    exact Bool.not_eq_true _ |>.symm.to_iff
  have hjumps : (bs.zipIdx.filterMap fun e =>
      (e.1.target?.bind fun l => (noted name entry bs).labels.lookup l).map fun c => (e.2, c)) =
      jumpEdges bs := by
    simp only [lookup_noted hfresh]
    rfl
  rw [finish, jumps_eq, blocks_noted, htargets, hfound, hjumps]
  cases (bs.filterMap Block.target?).find? fun t => decide (t ∉ bs.filterMap Block.label?) with
  | some t => rfl
  | none =>
      have hedges : addEdges (fallEdges bs) (jumpEdges bs) = blockEdges bs :=
        addEdges_of_nodup (nodup_jumpEdges bs)
      rw [Option.elim_none, Option.elim_none, ← hedges]
      rfl

/-- **A procedure that is read block by block** gives what its region gives. -/
theorem close_split (r : Region) :
    (opened r.name r.entry).close (Block.split r.start r.instrs) =
      FlowGraph.ofPiece (.region r) := by
  have hlabels : (Block.split r.start r.instrs).filterMap Block.label? = r.labels :=
    Block.filterMap_label?_split r.start r.instrs
  have htargets : (Block.split r.start r.instrs).filterMap Block.target? = r.targets :=
    Block.filterMap_target?_split r.start r.instrs
  rw [close, addBlocks_opened, FlowGraph.ofPiece, Region.fault?, hlabels]
  cases hfresh : firstRepeated? [] r.labels with
  | some l => rfl
  | none =>
      show finish _ = _
      rw [finish_noted (hlabels ▸ hfresh), hlabels, htargets]
      cases r.targets.find? fun t => decide (t ∉ r.labels) <;> rfl

end OpenProcedure

end RegAlloc
