import RegAlloc.Interference.Build
import RegAlloc.Proofs.GraphEdits

/-!
# What the interference graph of a procedure says

The graph of a procedure is built by adding nodes and edges in the order in which symbols come up.
The order decides the numbers of the nodes and nothing else, so this file looks at a graph through
its symbols: which of them it holds (`Holds`), which pairs contend for a register (`Contend`) and
which pairs a copy joins (`Copied`).

`Grows A R M g h` says that `h` came out of `g` by adding the symbols in `A`, contention for the
pairs in `R` and moves for the pairs in `M`, and that it is still a fresh graph.  Growths compose,
along a list too, and so the growth of the whole graph is put together from those of its parts
(`holds_build`, `contend_build`, `copied_build`).
-/

namespace RegAlloc

namespace InterferenceGraph

variable {g h k : InterferenceGraph} {s t : SymbolId} {n m : NodeId}
variable {A B : SymbolId → Prop} {R S M N : SymbolId → SymbolId → Prop}

/-- Some node of the graph stands for `s`. -/
def Holds (g : InterferenceGraph) (s : SymbolId) : Prop := ∃ n, g.symbol? n = some s

/-- The nodes of `s` and `t` interfere. -/
def Contend (g : InterferenceGraph) (s t : SymbolId) : Prop :=
  ∃ u v, g.symbol? u = some s ∧ g.symbol? v = some t ∧ g.interferes u v = true

/-- The nodes of `s` and `t` are joined by a move. -/
def Copied (g : InterferenceGraph) (s t : SymbolId) : Prop :=
  ∃ u v, g.symbol? u = some s ∧ g.symbol? v = some t ∧ g.hasMove u v = true

/-- **One stage of building:** `h` has the nodes and edges of `g`, the symbols in `A`, contention
between the pairs in `R`, and moves between the pairs in `M`. -/
structure Grows (A : SymbolId → Prop) (R M : SymbolId → SymbolId → Prop)
    (g h : InterferenceGraph) : Prop where
  fresh : h.Fresh
  symbol? : ∀ {n s}, g.symbol? n = some s → h.symbol? n = some s
  holds : ∀ s, h.Holds s ↔ g.Holds s ∨ A s
  contend : ∀ s t, h.Contend s t ↔ g.Contend s t ∨ R s t
  copied : ∀ s t, h.Copied s t ↔ g.Copied s t ∨ M s t

namespace Grows

theorem refl (hg : g.Fresh) :
    Grows (fun _ => False) (fun _ _ => False) (fun _ _ => False) g g where
  fresh := hg
  symbol? := id
  holds _ := (or_iff_left not_false).symm
  contend _ _ := (or_iff_left not_false).symm
  copied _ _ := (or_iff_left not_false).symm

theorem trans (hgh : Grows A R M g h) (hhk : Grows B S N h k) :
    Grows (fun s => A s ∨ B s) (fun s t => R s t ∨ S s t) (fun s t => M s t ∨ N s t) g k where
  fresh := hhk.fresh
  symbol? hs := hhk.symbol? (hgh.symbol? hs)
  holds s := by rw [hhk.holds, hgh.holds, or_assoc]
  contend s t := by rw [hhk.contend, hgh.contend, or_assoc]
  copied s t := by rw [hhk.copied, hgh.copied, or_assoc]

theorem congr (hgh : Grows A R M g h) (hAB : ∀ s, A s ↔ B s) (hRS : ∀ s t, R s t ↔ S s t)
    (hMN : ∀ s t, M s t ↔ N s t) : Grows B S N g h where
  fresh := hgh.fresh
  symbol? := hgh.symbol?
  holds s := by rw [hgh.holds, hAB]
  contend s t := by rw [hgh.contend, hRS]
  copied s t := by rw [hgh.copied, hMN]

/-- **Growing along a list.**  The step may rely on what has grown out of the start. -/
theorem foldl {α : Type} {f : InterferenceGraph → α → InterferenceGraph} {as : List α}
    {A : α → SymbolId → Prop} {R M : α → SymbolId → SymbolId → Prop} (hg : g.Fresh)
    (hstep : ∀ h, h.Fresh → (∀ {n s}, g.symbol? n = some s → h.symbol? n = some s) →
      ∀ a ∈ as, Grows (A a) (R a) (M a) h (f h a)) :
    Grows (fun s => ∃ a ∈ as, A a s) (fun s t => ∃ a ∈ as, R a s t)
      (fun s t => ∃ a ∈ as, M a s t) g (as.foldl f g) := by
  induction as generalizing g with
  | nil => exact (refl hg).congr (by simp) (by simp) (by simp)
  | cons a as ih =>
      have hfirst : Grows (A a) (R a) (M a) g (f g a) := hstep g hg id a List.mem_cons_self
      have hrest := ih hfirst.fresh fun h hh hkeep b hb =>
        hstep h hh (fun hs => hkeep (hfirst.symbol? hs)) b (List.mem_cons_of_mem a hb)
      refine (hfirst.trans hrest).congr ?_ ?_ ?_
      · intro s
        rw [List.exists_mem_cons_iff]
      · intro s t
        rw [List.exists_mem_cons_iff]
      · intro s t
        rw [List.exists_mem_cons_iff]

end Grows

/-! ## Edges seen through symbols -/

/-- The nodes of `s` and `t` are joined by one of the edges.  With the conflicts of the graph this
is contention, and with its moves a copy. -/
def Joined (g : InterferenceGraph) (edges : Adjacency) (s t : SymbolId) : Prop :=
  ∃ u v, g.symbol? u = some s ∧ g.symbol? v = some t ∧ edges.linked u v = true

/-- `s` and `t` are the two different symbols `a` and `b`, in one order or the other. -/
def OnePair (a b s t : SymbolId) : Prop := a ≠ b ∧ (s = a ∧ t = b ∨ s = b ∧ t = a)

/-- One more edge joins one more pair: there is one node per symbol, so different nodes are
different symbols. -/
theorem joined_link {edges : Adjacency} {a b : SymbolId} (hg : g.WellFormed)
    (hsize : edges.size = g.size) (hn : g.symbol? n = some a) (hm : g.symbol? m = some b) :
    g.Joined (edges.link n m) s t ↔ g.Joined edges s t ∨ OnePair a b s t := by
  have hlink : ∀ u v, (edges.link n m).linked u v = true ↔
      edges.linked u v = true ∨ n ≠ m ∧ (u = n ∧ v = m ∨ u = m ∧ v = n) := by
    intro u v
    unfold Adjacency.linked
    rw [decide_eq_true_iff, decide_eq_true_iff]
    exact Adjacency.mem_neighbors_link (hsize ▸ lt_size_of_symbol? hn)
      (hsize ▸ lt_size_of_symbol? hm)
  have hne : n ≠ m ↔ a ≠ b := by
    refine not_congr ⟨?_, ?_⟩
    · rintro rfl
      exact Option.some.inj (hn.symm.trans hm)
    · rintro rfl
      exact hg.symbols hn hm
  constructor
  · rintro ⟨u, v, hu, hv, huv⟩
    rcases (hlink u v).mp huv with huv | ⟨hnm, ⟨rfl, rfl⟩ | ⟨rfl, rfl⟩⟩
    · exact Or.inl ⟨u, v, hu, hv, huv⟩
    · exact Or.inr ⟨hne.mp hnm, Or.inl
        ⟨Option.some.inj (hu.symm.trans hn), Option.some.inj (hv.symm.trans hm)⟩⟩
    · exact Or.inr ⟨hne.mp hnm, Or.inr
        ⟨Option.some.inj (hu.symm.trans hm), Option.some.inj (hv.symm.trans hn)⟩⟩
  · rintro (⟨u, v, hu, hv, huv⟩ | ⟨hab, ⟨rfl, rfl⟩ | ⟨rfl, rfl⟩⟩)
    · exact ⟨u, v, hu, hv, (hlink u v).mpr (Or.inl huv)⟩
    · exact ⟨n, m, hn, hm, (hlink n m).mpr (Or.inr ⟨hne.mpr hab, Or.inl ⟨rfl, rfl⟩⟩)⟩
    · exact ⟨m, n, hm, hn, (hlink m n).mpr (Or.inr ⟨hne.mpr hab, Or.inr ⟨rfl, rfl⟩⟩)⟩

/-! ## Single edits -/

theorem holds_addNode (g : InterferenceGraph) (s t : SymbolId) :
    (g.addNode s).1.Holds t ↔ g.Holds t ∨ t = s := by
  cases hs : g.nodeOf? s with
  | some n =>
      rw [addNode_of_some hs]
      refine (or_iff_left_of_imp ?_).symm
      rintro rfl
      exact ⟨n, symbol?_of_nodeOf? hs⟩
  | none =>
      have hlast : g.symbol? g.size = none := by
        rw [symbol?, node?_of_size_le (Nat.le_refl _), Option.map_none]
      simp only [Holds, symbol?_addNode_of_none hs]
      constructor
      · rintro ⟨n, hn⟩
        split at hn
        · exact Or.inr (Option.some.inj hn).symm
        · exact Or.inl ⟨n, hn⟩
      · rintro (⟨n, hn⟩ | rfl)
        · refine ⟨n, ?_⟩
          rw [if_neg, hn]
          rintro rfl
          exact absurd (hlast.symm.trans hn) (by simp)
        · exact ⟨g.size, if_pos rfl⟩

theorem symbol?_addNode_self (g : InterferenceGraph) (s : SymbolId) :
    (g.addNode s).1.symbol? (g.addNode s).2 = some s := by
  cases hs : g.nodeOf? s with
  | some n =>
      rw [addNode_of_some hs]
      exact symbol?_of_nodeOf? hs
  | none =>
      rw [symbol?_addNode_of_none hs, addNode_of_none hs, if_pos rfl]

theorem symbol?_addNode_of_lt (hn : n < g.size) (s : SymbolId) :
    (g.addNode s).1.symbol? n = g.symbol? n := by
  cases hs : g.nodeOf? s with
  | some m => rw [addNode_of_some hs]
  | none => rw [symbol?_addNode_of_none hs, if_neg (Nat.ne_of_lt hn)]

/-- A new node changes no edge. -/
theorem linked_addNode (g : InterferenceGraph) (s : SymbolId) :
    (g.addNode s).1.conflicts.linked = g.conflicts.linked ∧
      (g.addNode s).1.moves.linked = g.moves.linked := by
  cases hs : g.nodeOf? s with
  | some m =>
      rw [addNode_of_some hs]
      exact ⟨rfl, rfl⟩
  | none =>
      rw [addNode_of_none hs]
      constructor
      · funext u v
        simp only [Adjacency.linked, Adjacency.neighbors_addNode]
      · funext u v
        simp only [Adjacency.linked, Adjacency.neighbors_addNode]

/-- A new node is joined to nothing. -/
theorem joined_addNode {edges edges' : Adjacency} (hedges : edges.Lawful)
    (hsize : edges.size = g.size) (hsame : edges'.linked = edges.linked) (s : SymbolId)
    {a b : SymbolId} : (g.addNode s).1.Joined edges' a b ↔ g.Joined edges a b := by
  unfold Joined
  rw [hsame]
  constructor
  · rintro ⟨u, v, hu, hv, huv⟩
    have hmem : v ∈ edges.neighbors u := of_decide_eq_true huv
    have hvlt : v < g.size := hsize ▸ hedges.lt_size hmem
    have hult : u < g.size := hsize ▸ Adjacency.lt_size_of_mem_neighbors hmem
    rw [symbol?_addNode_of_lt hult] at hu
    rw [symbol?_addNode_of_lt hvlt] at hv
    exact ⟨u, v, hu, hv, huv⟩
  · rintro ⟨u, v, hu, hv, huv⟩
    refine ⟨u, v, ?_, ?_, huv⟩
    · exact (symbol?_addNode_of_lt (lt_size_of_symbol? hu) s).trans hu
    · exact (symbol?_addNode_of_lt (lt_size_of_symbol? hv) s).trans hv

theorem Fresh.grows_addNode (hg : g.Fresh) (s : SymbolId) :
    Grows (· = s) (fun _ _ => False) (fun _ _ => False) g (g.addNode s).1 where
  fresh := hg.addNode s
  symbol? hn := (symbol?_addNode_of_lt (lt_size_of_symbol? hn) s).trans hn
  holds := holds_addNode g s
  contend a b := by
    rw [or_false]
    exact joined_addNode hg.wellFormed.conflicts hg.wellFormed.conflicts_size
      (linked_addNode g s).1 s
  copied a b := by
    rw [or_false]
    exact joined_addNode hg.wellFormed.moves hg.wellFormed.moves_size (linked_addNode g s).2 s

theorem Fresh.grows_addConflict {a b : SymbolId} (hg : g.Fresh) (hn : g.symbol? n = some a)
    (hm : g.symbol? m = some b) :
    Grows (fun _ => False) (OnePair a b) (fun _ _ => False) g (g.addConflict n m) where
  fresh := hg.addConflict (lt_size_of_symbol? hn) (lt_size_of_symbol? hm)
  symbol? := id
  holds _ := (or_iff_left not_false).symm
  contend s t := by
    show g.Joined (g.conflicts.link n m) s t ↔ g.Joined g.conflicts s t ∨ OnePair a b s t
    exact joined_link hg.wellFormed hg.wellFormed.conflicts_size hn hm
  copied _ _ := (or_iff_left not_false).symm

theorem Fresh.grows_addMove {a b : SymbolId} (hg : g.Fresh) (hn : g.symbol? n = some a)
    (hm : g.symbol? m = some b) :
    Grows (fun _ => False) (fun _ _ => False) (OnePair a b) g (g.addMove n m) := by
  have hsame : SameNodes (g.addMove n m) g := sameNodes_setEdges g g.conflicts _ _
  constructor
  case fresh => exact hg.addMove (lt_size_of_symbol? hn) (lt_size_of_symbol? hm)
  case symbol? => exact fun {k s} hk => (hsame.symbol? k).trans hk
  case holds =>
    intro s
    simp only [or_false, Holds, hsame.symbol?]
  case contend =>
    intro s t
    simp only [or_false, Contend, hsame.symbol?]
    rfl
  case copied =>
    intro s t
    simp only [Copied, hsame.symbol?]
    show g.Joined (g.addMove n m).moves s t ↔ g.Joined g.moves s t ∨ OnePair a b s t
    rw [InterferenceGraph.addMove, moves_renewMarks]
    exact joined_link hg.wellFormed hg.wellFormed.moves_size hn hm

/-! ## Lists of symbols -/

/-- The nodes of a list of symbols, one by one. -/
def NodesOf (g : InterferenceGraph) (ss : List SymbolId) (ns : List NodeId) : Prop :=
  List.Forall₂ (fun s n => g.symbol? n = some s) ss ns

theorem NodesOf.grows {ss : List SymbolId} {ns : List NodeId} (hns : g.NodesOf ss ns)
    (hgh : Grows A R M g h) : h.NodesOf ss ns :=
  List.Forall₂.imp (fun _ _ => hgh.symbol?) hns

theorem Fresh.grows_addNodes (hg : g.Fresh) (ss : List SymbolId) :
    Grows (· ∈ ss) (fun _ _ => False) (fun _ _ => False) g (g.addNodes ss).1 ∧
      (g.addNodes ss).1.NodesOf ss (g.addNodes ss).2 := by
  induction ss generalizing g with
  | nil => exact ⟨(Grows.refl hg).congr (by simp) (by simp) (by simp), List.Forall₂.nil⟩
  | cons s ss ih =>
      have hfirst := hg.grows_addNode s
      obtain ⟨hrest, hns⟩ := ih hfirst.fresh
      constructor
      · refine (hfirst.trans hrest).congr ?_ (by simp) (by simp)
        intro t
        rw [List.mem_cons]
      · exact List.Forall₂.cons (hrest.symbol? (symbol?_addNode_self g s)) hns

/-- Joining one node with each of a list. -/
theorem Fresh.grows_foldl_addConflict {a : SymbolId} {ss : List SymbolId} {ns : List NodeId}
    (hg : g.Fresh) (hn : g.symbol? n = some a) (hns : g.NodesOf ss ns) :
    Grows (fun _ => False) (fun s t => ∃ b ∈ ss, OnePair a b s t) (fun _ _ => False) g
      (ns.foldl (fun g m => g.addConflict n m) g) := by
  induction ns generalizing g ss with
  | nil =>
      rw [List.forall₂_nil_right_iff.mp hns]
      exact (Grows.refl hg).congr (by simp) (by simp) (by simp)
  | cons m ns ih =>
      obtain ⟨b, ss, hm, hrest, rfl⟩ := List.forall₂_cons_right_iff.mp hns
      have hfirst := hg.grows_addConflict hn hm
      have hlater := ih hfirst.fresh (hfirst.symbol? hn) (NodesOf.grows hrest hfirst)
      refine (hfirst.trans hlater).congr (by simp) ?_ (by simp)
      intro s t
      rw [List.exists_mem_cons_iff]

/-- Two different members of one collection. -/
def Together (p : SymbolId → Prop) (s t : SymbolId) : Prop := s ≠ t ∧ p s ∧ p t

/-- Adding one member: it contends with the others, and they contend as before. -/
theorem together_cons {a : SymbolId} {ss : List SymbolId} :
    Together (· ∈ a :: ss) s t ↔ (∃ b ∈ ss, OnePair a b s t) ∨ Together (· ∈ ss) s t := by
  constructor
  · rintro ⟨hst, hs, ht⟩
    rcases List.mem_cons.mp hs with rfl | hs'
    · have ht' := (List.mem_cons.mp ht).resolve_left hst.symm
      exact Or.inl ⟨t, ht', hst, Or.inl ⟨rfl, rfl⟩⟩
    · rcases List.mem_cons.mp ht with rfl | ht'
      · exact Or.inl ⟨s, hs', hst.symm, Or.inr ⟨rfl, rfl⟩⟩
      · exact Or.inr ⟨hst, hs', ht'⟩
  · rintro (⟨b, hb, hab, ⟨rfl, rfl⟩ | ⟨rfl, rfl⟩⟩ | ⟨hst, hs, ht⟩)
    · exact ⟨hab, List.mem_cons_self, List.mem_cons_of_mem _ hb⟩
    · exact ⟨hab.symm, List.mem_cons_of_mem _ hb, List.mem_cons_self⟩
    · exact ⟨hst, List.mem_cons_of_mem a hs, List.mem_cons_of_mem a ht⟩

theorem Fresh.grows_linkAll {ss : List SymbolId} {ns : List NodeId} (hg : g.Fresh)
    (hns : g.NodesOf ss ns) :
    Grows (fun _ => False) (Together (· ∈ ss)) (fun _ _ => False) g (g.linkAll ns) := by
  induction ns generalizing g ss with
  | nil =>
      rw [List.forall₂_nil_right_iff.mp hns]
      exact (Grows.refl hg).congr (by simp) (by simp [Together]) (by simp)
  | cons n ns ih =>
      obtain ⟨a, ss, hn, hrest, rfl⟩ := List.forall₂_cons_right_iff.mp hns
      have hfirst := hg.grows_foldl_addConflict hn hrest
      have hlater := ih hfirst.fresh (NodesOf.grows hrest hfirst)
      refine (hfirst.trans hlater).congr (by simp) ?_ (by simp)
      intro s t
      rw [together_cons]

/-- **A live set becomes a clique.** -/
theorem Fresh.grows_addClique (hg : g.Fresh) (live : IdSet) :
    Grows (· ∈ live) (Together (· ∈ live)) (fun _ _ => False) g (g.addClique live) := by
  obtain ⟨hnodes, hns⟩ := hg.grows_addNodes live.toList
  exact (hnodes.trans (hnodes.fresh.grows_linkAll hns)).congr (by simp) (by simp) (by simp)

/-! ## The parts of a procedure -/

/-- The symbols that an instruction brings up: those it writes, and the source of a copy. -/
def BringsUp (i : Instr) (s : SymbolId) : Prop := s ∈ i.defs ∨ ∃ d, i.copyPair? = some (d, s)

theorem copyPair?_eq_some {i : Instr} {d : SymbolId} :
    i.copyPair? = some (d, s) ↔ i = .copy d (.symbol s) ∧ d ≠ s := by
  cases i with
  | copy dst src =>
      cases src with
      | const c => simp [Instr.copyPair?]
      | symbol src =>
          simp only [Instr.copyPair?, Option.ite_none_left_eq_some, Option.some.injEq,
            Prod.mk.injEq, Instr.copy.injEq, Operand.symbol.injEq]
          constructor
          · rintro ⟨hne, rfl, rfl⟩
            exact ⟨⟨rfl, rfl⟩, hne⟩
          · rintro ⟨⟨rfl, rfl⟩, hne⟩
            exact ⟨hne, rfl, rfl⟩
  | _ => simp [Instr.copyPair?]

theorem mem_defs_of_copyPair? {i : Instr} {d : SymbolId} (h : i.copyPair? = some (d, s)) :
    d ∈ i.defs := by
  rw [(copyPair?_eq_some.mp h).1]
  exact List.mem_singleton_self d

theorem mem_uses_of_copyPair? {i : Instr} {d : SymbolId} (h : i.copyPair? = some (d, s)) :
    s ∈ i.uses := by
  rw [(copyPair?_eq_some.mp h).1]
  exact List.mem_singleton_self s

/-- The instruction copies one of the two symbols to the other. -/
def CopiesBetween (i : Instr) (s t : SymbolId) : Prop :=
  i.copyPair? = some (s, t) ∨ i.copyPair? = some (t, s)

theorem copiesBetween_iff {i : Instr} {d x : SymbolId} (h : i.copyPair? = some (d, x)) :
    CopiesBetween i s t ↔ OnePair d x s t := by
  have hne : d ≠ x := (copyPair?_eq_some.mp h).2
  simp only [CopiesBetween, OnePair, h, Option.some.injEq, Prod.mk.injEq, ne_eq, hne,
    not_false_eq_true, true_and]
  tauto

theorem BringsUp.mentioned {i : Instr} (h : BringsUp i s) : s ∈ i.defs ∨ s ∈ i.uses := by
  rcases h with hs | ⟨d, hd⟩
  · exact Or.inl hs
  · exact Or.inr (mem_uses_of_copyPair? hd)

theorem Fresh.grows_addInstr (hg : g.Fresh) (i : Instr) :
    Grows (BringsUp i) (fun _ _ => False) (CopiesBetween i) g (g.addInstr i) := by
  obtain ⟨hdefs, -⟩ := hg.grows_addNodes i.defs
  rw [addInstr]
  cases hc : i.copyPair? with
  | none =>
      refine hdefs.congr ?_ (by simp) ?_
      · simp [BringsUp, hc]
      · simp [CopiesBetween, hc]
  | some pair =>
      obtain ⟨dst, src⟩ := pair
      have hu := hdefs.fresh.grows_addNode dst
      have hv := hu.fresh.grows_addNode src
      have hmove := hv.fresh.grows_addMove
        (hv.symbol? (symbol?_addNode_self (g.addNodes i.defs).1 dst))
        (symbol?_addNode_self ((g.addNodes i.defs).1.addNode dst).1 src)
      refine (((hdefs.trans hu).trans hv).trans hmove).congr ?_ (by simp) ?_
      · intro s
        have hdst : dst ∈ i.defs := mem_defs_of_copyPair? hc
        simp only [BringsUp, hc, Option.some.injEq, Prod.mk.injEq, exists_eq_left', or_false]
        constructor
        · rintro ((hs | rfl) | rfl)
          · exact Or.inl hs
          · exact Or.inl hdst
          · exact Or.inr rfl
        · rintro (hs | rfl)
          · exact Or.inl (Or.inl hs)
          · exact Or.inr rfl
      · intro s t
        rw [copiesBetween_iff hc, false_or, false_or, false_or]

/-- The symbols that a block brings up, given what is live at its ends. -/
def BlockBringsUp (l : Liveness) (b : BlockId) (block : Block) (s : SymbolId) : Prop :=
  (∃ i ∈ block.instrs, BringsUp i s) ∨ s ∈ l.liveIn b ∨ s ∈ l.liveOut b

/-- Two different symbols are live together at one end of block `b`. -/
def TogetherAt (l : Liveness) (b : BlockId) (s t : SymbolId) : Prop :=
  Together (· ∈ l.liveIn b) s t ∨ Together (· ∈ l.liveOut b) s t

/-- Some instruction of the block copies one of the two symbols to the other. -/
def BlockCopies (block : Block) (s t : SymbolId) : Prop := ∃ i ∈ block.instrs, CopiesBetween i s t

theorem Fresh.grows_addBlock (hg : g.Fresh) (l : Liveness) (b : BlockId) (block : Block) :
    Grows (BlockBringsUp l b block) (TogetherAt l b) (BlockCopies block) g
      (addBlock l g b block) := by
  have hinstrs : Grows (fun s => ∃ i ∈ block.instrs, BringsUp i s)
      (fun _ _ => ∃ i ∈ block.instrs, False) (BlockCopies block) g
      (block.instrs.foldl addInstr g) :=
    Grows.foldl hg fun h hh _ i _ => hh.grows_addInstr i
  have htop := hinstrs.fresh.grows_addClique (l.liveIn b)
  have hbottom := htop.fresh.grows_addClique (l.liveOut b)
  refine ((hinstrs.trans htop).trans hbottom).congr ?_ ?_ (by simp)
  · intro s
    rw [BlockBringsUp, or_assoc]
  · simp [TogetherAt]

/-- What the receiver contends with: the fields among `p`, or all of `p` if it is pinned. -/
def Guarded (isField : SymbolId → Bool) (pin : Bool) (r : SymbolId) (p : SymbolId → Prop)
    (s t : SymbolId) : Prop :=
  ∃ b, p b ∧ (pin = true ∨ isField b = true) ∧ OnePair r b s t

theorem Fresh.grows_guardReceiver (hg : g.Fresh) (isField : SymbolId → Bool) (pin : Bool)
    (r : SymbolId) :
    Grows (· = r) (Guarded isField pin r g.Holds) (fun _ _ => False) g
      (g.guardReceiver isField pin r) := by
  have hnode := hg.grows_addNode r
  have hfold : Grows (fun _ => ∃ n ∈ (g.addNode r).1.nodeIds, False)
      (fun s t => ∃ n ∈ (g.addNode r).1.nodeIds,
        Guarded isField pin r (fun b => (g.addNode r).1.symbol? n = some b) s t)
      (fun _ _ => ∃ n ∈ (g.addNode r).1.nodeIds, False)
      (g.addNode r).1 (g.guardReceiver isField pin r) := by
    refine Grows.foldl hnode.fresh fun h hh hkeep n hn => ?_
    obtain ⟨b, hb⟩ := symbol?_eq_some_of_lt (List.mem_range.mp hn)
    have hb' : h.symbol? n = some b := hkeep hb
    have hthis : h.symbol? (g.addNode r).2 = some r := hkeep (symbol?_addNode_self g r)
    rw [hb', Option.any_some]
    split
    next hguard =>
      refine (hh.grows_addConflict hthis hb').congr (fun _ => Iff.rfl) (fun s t => ?_)
        fun _ _ => Iff.rfl
      simp only [Guarded, hb, Option.some.injEq, exists_eq_left']
      exact (and_iff_right (Bool.or_eq_true_iff.mp hguard)).symm
    next hguard =>
      refine (Grows.refl hh).congr (fun _ => Iff.rfl) (fun s t => ?_) fun _ _ => Iff.rfl
      simp only [Guarded, hb, Option.some.injEq, exists_eq_left', false_iff, not_and]
      intro hpin
      exact absurd (Bool.or_eq_true_iff.mpr hpin) hguard
  refine (hnode.trans hfold).congr (by simp) (fun s t => ?_) (by simp)
  rw [false_or]
  constructor
  · rintro ⟨n, -, b, hb, hguard, hpair⟩
    refine ⟨b, ?_, hguard, hpair⟩
    exact ((hnode.holds b).mp ⟨n, hb⟩).resolve_right hpair.1.symm
  · rintro ⟨b, hb, hguard, hpair⟩
    obtain ⟨n, hn⟩ := (hnode.holds b).mpr (Or.inl hb)
    exact ⟨n, List.mem_range.mpr (lt_size_of_symbol? hn), b, hn, hguard, hpair⟩

/-! ## The whole graph -/

section Build

variable (flow : FlowGraph) (l : Liveness) (isField : SymbolId → Bool) (pin : Bool)

/-- The symbols of a procedure: its receiver, and what its blocks bring up. -/
def ProcedureBringsUp (s : SymbolId) : Prop :=
  flow.receiver? = some s ∨ ∃ e ∈ flow.blocks.zipIdx, BlockBringsUp l e.2 e.1 s

/-- Going through blocks with their numbers is going through numbers below the size. -/
theorem exists_zipIdx_iff {P : BlockId → Prop} :
    (∃ e ∈ flow.blocks.zipIdx, P e.2) ↔ ∃ b < flow.size, P b := by
  constructor
  · intro h
    obtain ⟨⟨block, b⟩, he, hb⟩ := h
    exact ⟨b, List.snd_lt_of_mem_zipIdx he, hb⟩
  · intro h
    obtain ⟨b, hlt, hb⟩ := h
    have hblock : flow.blocks[b]? = some _ := List.getElem?_eq_getElem hlt
    exact ⟨(_, b), List.mem_zipIdx_iff_getElem?.mpr hblock, hb⟩

theorem exists_zipIdx_fst_iff {P : Block → Prop} :
    (∃ e ∈ flow.blocks.zipIdx, P e.1) ↔ ∃ block ∈ flow.blocks, P block := by
  constructor
  · intro h
    obtain ⟨⟨block, b⟩, he, hblock⟩ := h
    exact ⟨block, List.mem_of_getElem? (List.mem_zipIdx_iff_getElem?.mp he), hblock⟩
  · intro h
    obtain ⟨block, hmem, hblock⟩ := h
    obtain ⟨b, hb⟩ := List.getElem?_of_mem hmem
    exact ⟨(block, b), List.mem_zipIdx_iff_getElem?.mpr hb, hblock⟩

/-- The blocks, after a start that holds the receiver if there is one. -/
theorem grows_foldl_addBlock (hg : g.Fresh) :
    Grows (fun s => ∃ e ∈ flow.blocks.zipIdx, BlockBringsUp l e.2 e.1 s)
      (fun s t => ∃ e ∈ flow.blocks.zipIdx, TogetherAt l e.2 s t)
      (fun s t => ∃ e ∈ flow.blocks.zipIdx, BlockCopies e.1 s t) g
      (flow.blocks.zipIdx.foldl (fun h e => h.addBlock l e.2 e.1) g) :=
  Grows.foldl hg fun _ hh _ e _ => hh.grows_addBlock l e.2 e.1

theorem not_holds_empty (s : SymbolId) : ¬ (∅ : InterferenceGraph).Holds s := by
  rintro ⟨n, hn⟩
  exact absurd (lt_size_of_symbol? hn) (Nat.not_lt_zero n)

theorem not_contend_empty (s t : SymbolId) : ¬ (∅ : InterferenceGraph).Contend s t := by
  rintro ⟨u, v, hu, -, -⟩
  exact not_holds_empty s ⟨u, hu⟩

theorem not_copied_empty (s t : SymbolId) : ¬ (∅ : InterferenceGraph).Copied s t := by
  rintro ⟨u, v, hu, -, -⟩
  exact not_holds_empty s ⟨u, hu⟩

theorem grows_build :
    Grows (ProcedureBringsUp flow l)
      (fun s t => (∃ e ∈ flow.blocks.zipIdx, TogetherAt l e.2 s t) ∨
        ∃ r, flow.receiver? = some r ∧ Guarded isField pin r (ProcedureBringsUp flow l) s t)
      (fun s t => ∃ e ∈ flow.blocks.zipIdx, BlockCopies e.1 s t)
      ∅ (build flow l isField pin) := by
  rw [build]
  cases hr : flow.receiver? with
  | none =>
      refine (grows_foldl_addBlock flow l Fresh.empty).congr ?_ (by simp) fun _ _ => Iff.rfl
      simp [ProcedureBringsUp, hr]
  | some r =>
      have hstart := Fresh.empty.grows_addNode r
      have hblocks := hstart.trans (grows_foldl_addBlock flow l hstart.fresh)
      have hholds : ∀ b, (flow.blocks.zipIdx.foldl (fun h e => h.addBlock l e.2 e.1)
          ((∅ : InterferenceGraph).addNode r).1).Holds b ↔ ProcedureBringsUp flow l b := by
        intro b
        rw [hblocks.holds, or_iff_right (not_holds_empty b), ProcedureBringsUp, hr,
          Option.some.injEq, eq_comm]
      refine (hblocks.trans (hblocks.fresh.grows_guardReceiver isField pin r)).congr ?_ ?_
        (by simp)
      · intro s
        rw [ProcedureBringsUp, hr, Option.some.injEq]
        constructor
        · rintro ((rfl | hs) | rfl)
          · exact Or.inl rfl
          · exact Or.inr hs
          · exact Or.inl rfl
        · rintro (rfl | hs)
          · exact Or.inr rfl
          · exact Or.inl (Or.inr hs)
      · intro s t
        simp only [Guarded, hholds, false_or, Option.some.injEq, exists_eq_left']

theorem fresh_build : (build flow l isField pin).Fresh := (grows_build flow l isField pin).fresh

/-- **Which symbols the graph holds.** -/
theorem holds_build :
    (build flow l isField pin).Holds s ↔ ProcedureBringsUp flow l s := by
  rw [(grows_build flow l isField pin).holds, or_iff_right (not_holds_empty s)]

/-- **Which symbols contend:** those that are live together at one end of a block, and the receiver
with what it is guarded from. -/
theorem contend_build :
    (build flow l isField pin).Contend s t ↔
      (∃ e ∈ flow.blocks.zipIdx, TogetherAt l e.2 s t) ∨
        ∃ r, flow.receiver? = some r ∧ Guarded isField pin r (ProcedureBringsUp flow l) s t := by
  rw [(grows_build flow l isField pin).contend, or_iff_right (not_contend_empty s t)]

/-- Both symbols are live at the top of one block, or both at the bottom of one block. -/
def LiveAtOneEnd (flow : FlowGraph) (l : Liveness) (s t : SymbolId) : Prop :=
  ∃ b < flow.size, s ∈ l.liveIn b ∧ t ∈ l.liveIn b ∨ s ∈ l.liveOut b ∧ t ∈ l.liveOut b

/-- `r` is the receiver, and `s` is a field or the receiver is pinned. -/
def KeepsOff (flow : FlowGraph) (isField : SymbolId → Bool) (pin : Bool) (r s : SymbolId) : Prop :=
  flow.receiver? = some r ∧ (isField s = true ∨ pin = true)

theorem togetherAt_iff_liveAtOneEnd (hst : s ≠ t) :
    (∃ e ∈ flow.blocks.zipIdx, TogetherAt l e.2 s t) ↔ LiveAtOneEnd flow l s t := by
  unfold LiveAtOneEnd
  rw [← exists_zipIdx_iff]
  simp only [TogetherAt, Together, hst, ne_eq, not_false_eq_true, true_and]

/-- The receiver is guarded from the symbols that must keep off it. -/
theorem guarded_iff_keepsOff (hst : s ≠ t) (hs : ProcedureBringsUp flow l s)
    (ht : ProcedureBringsUp flow l t) :
    (∃ r, flow.receiver? = some r ∧ Guarded isField pin r (ProcedureBringsUp flow l) s t) ↔
      KeepsOff flow isField pin s t ∨ KeepsOff flow isField pin t s := by
  constructor
  · intro h
    obtain ⟨r, hr, b, -, hguard, -, hpair⟩ := h
    rcases hpair with ⟨rfl, rfl⟩ | ⟨rfl, rfl⟩
    · exact Or.inl ⟨hr, hguard.symm⟩
    · exact Or.inr ⟨hr, hguard.symm⟩
  · intro h
    rcases h with ⟨hr, hguard⟩ | ⟨hr, hguard⟩
    · exact ⟨s, hr, t, ht, hguard.symm, hst, Or.inl ⟨rfl, rfl⟩⟩
    · exact ⟨t, hr, s, hs, hguard.symm, hst.symm, Or.inr ⟨rfl, rfl⟩⟩

/-- **Which two symbols of a procedure contend**, from the live sets and the receiver alone. -/
theorem contend_build_iff (hst : s ≠ t) (hs : ProcedureBringsUp flow l s)
    (ht : ProcedureBringsUp flow l t) :
    (build flow l isField pin).Contend s t ↔
      LiveAtOneEnd flow l s t ∨ KeepsOff flow isField pin s t ∨ KeepsOff flow isField pin t s := by
  rw [contend_build, togetherAt_iff_liveAtOneEnd flow l hst,
    guarded_iff_keepsOff flow l isField pin hst hs ht]

/-- **Which symbols are joined by a move:** those that an instruction copies one to the other. -/
theorem copied_build :
    (build flow l isField pin).Copied s t ↔ ∃ block ∈ flow.blocks, BlockCopies block s t := by
  rw [(grows_build flow l isField pin).copied, or_iff_right (not_copied_empty s t)]
  exact exists_zipIdx_fst_iff flow (P := fun block => BlockCopies block s t)

end Build

end InterferenceGraph

end RegAlloc
