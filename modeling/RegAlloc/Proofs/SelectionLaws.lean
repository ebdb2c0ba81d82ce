import RegAlloc.Proofs.ReductionInvariant

/-!
# What handing out registers achieves

The nodes of the stack are served one after the other, and each gets the lowest register that no
neighbour holds.  `Selection.Serves k g served s` says what is true after the nodes `served` have
had their turn: a node holds the register of its representative, only nodes whose representative
was served hold one, registers are below `k`, nodes that interfere hold different ones, and a served
node is listed as spilled exactly if it holds none.

`Serves.serve` is the one step, and it uses two facts about the graph that the reduction left
behind: neighbours are never merged nodes, so the registers of neighbours are those of their
classes; and the member list of a node is its class, so one `give` serves a class.

`Serves.free?` is the other half: **a node with fewer than `k` contenders finds a register.**
-/

namespace RegAlloc

namespace Selection

open InterferenceGraph Reduction

variable {origin g : InterferenceGraph} {k c : Nat} {s : Selection} {n m : NodeId}
variable {served : List NodeId}

/-! ## Giving a register -/

@[simp] theorem color?_start (size : Nat) (n : NodeId) : (start size).color? n = none := by
  rw [color?, start, Array.getElem?_replicate]
  split <;> rfl

private theorem getElem?_foldl_set (colors : Array (Option Nat)) (c : Nat) (ns : List NodeId)
    (m : NodeId) :
    (ns.foldl (fun colors n => colors.setIfInBounds n (some c)) colors)[m]? =
      if m ∈ ns ∧ m < colors.size then some (some c) else colors[m]? := by
  induction ns generalizing colors with
  | nil => simp
  | cons n ns ih =>
      rw [List.foldl_cons, ih, Array.size_setIfInBounds, Array.getElem?_setIfInBounds]
      by_cases hlt : m < colors.size
      · by_cases hns : m ∈ ns
        · simp [hns, hlt]
        · by_cases hnm : n = m
          · simp [hns, hnm, hlt]
          · have hmn : ¬m = n := fun e => hnm e.symm
            simp [hns, hnm, hmn]
      · by_cases hnm : n = m
        · subst hnm
          simp [hlt]
        · simp [hlt, hnm]

private theorem size_foldl_set (colors : Array (Option Nat)) (c : Nat) (ns : List NodeId) :
    (ns.foldl (fun colors n => colors.setIfInBounds n (some c)) colors).size = colors.size := by
  induction ns generalizing colors with
  | nil => rfl
  | cons n ns ih => rw [List.foldl_cons, ih, Array.size_setIfInBounds]

@[simp] theorem size_give (s : Selection) (c : Nat) (ns : List NodeId) :
    (s.give c ns).colors.size = s.colors.size := size_foldl_set _ _ _

/-- After giving a register to some nodes, these hold it and the others hold what they held. -/
theorem color?_give (s : Selection) (c : Nat) (ns : List NodeId) (m : NodeId) :
    (s.give c ns).color? m =
      if m ∈ ns ∧ m < s.colors.size then some c else s.color? m := by
  rw [color?, give, getElem?_foldl_set]
  split <;> rfl

/-- A node and its members are its class. -/
theorem mem_class_iff (hf : g.MergeForest) (hn : g.isMerged n = false) :
    m ∈ n :: g.members n ↔ g.representative m = n := by
  rw [List.mem_cons, hf.mem_members hn]
  by_cases hmn : m = n
  · subst hmn
    simp [hf.representative_of_not_merged hn]
  · simp [hmn]

/-! ## The invariant -/

/-- **What holds after the nodes `served` have had their turn.** -/
structure Serves (k : Nat) (g : InterferenceGraph) (served : List NodeId) (s : Selection) :
    Prop where
  /-- There is a place for the register of every node. -/
  size : s.colors.size = g.size
  /-- Nodes that stand for others are served, not the others. -/
  representative_of_served : ∀ {n}, n ∈ served → g.representative n = n
  /-- A node holds what its representative holds. -/
  color?_representative : ∀ n, s.color? (g.representative n) = s.color? n
  /-- Only served classes hold registers, -/
  served_of_color? : ∀ {n c}, s.color? n = some c → g.representative n ∈ served
  /-- only existing registers are handed out, -/
  lt : ∀ {n c}, s.color? n = some c → c < k
  /-- and nodes that interfere hold different ones. -/
  apart : ∀ {u v c d}, v ∈ g.neighbors u → s.color? u = some c → s.color? v = some d → c ≠ d
  /-- The nodes that found no register are the served nodes without one. -/
  mem_spilled : ∀ n, n ∈ s.spilled ↔ n ∈ served ∧ s.color? n = none

theorem Serves.start (k : Nat) (g : InterferenceGraph) : Serves k g [] (start g.size) where
  size := by rw [Selection.start, Array.size_replicate]
  representative_of_served h := absurd h List.not_mem_nil
  color?_representative n := by rw [color?_start, color?_start]
  served_of_color? h := absurd h (by simp)
  lt h := absurd h (by simp)
  apart _ h := absurd h (by simp)
  mem_spilled n := by simp [Selection.start]

/-- The registers that are taken are those that neighbours hold. -/
theorem mem_taken : c ∈ s.taken g n ↔ ∃ m ∈ g.neighbors n, s.color? m = some c := by
  rw [taken, IdSet.mem_ofList, List.mem_filterMap]
  rfl

/-- The register that is found exists and is not taken, and all below it are. -/
theorem free?_eq_some (h : s.free? k g n = some c) :
    c < k ∧ c ∉ s.taken g n ∧ ∀ d < c, d ∈ s.taken g n := by
  rw [free?] at h
  split at h
  · rename_i hlt
    cases h
    exact ⟨hlt, IdSet.leastMissing_not_mem _, fun d hd => IdSet.mem_of_lt_leastMissing hd⟩
  · exact absurd h (by simp)

section Serve

variable (hs : Serves k g served s) (hg : g.WellFormed) (hf : g.MergeForest)
variable (hq : IsQuotient origin g) (hn : n < g.size) (hu : g.isMerged n = false)

include hs hf hu hn in
theorem Serves.color?_give_class (m : NodeId) :
    (s.give c (n :: g.members n)).color? m =
      if g.representative m = n then some c else s.color? m := by
  rw [color?_give]
  by_cases hm : g.representative m = n
  · have hlt : m < s.colors.size := by
      rw [hs.size]
      -- beyond the graph every node stands for itself
      by_contra hle
      have hnone : g.mergedInto? m = none := by
        rw [mergedInto?, node?_of_size_le (Nat.not_lt.mp hle), Option.bind_none]
      have hself : g.representative m = m := followMerges_of_none hnone _
      exact hle (hself ▸ hm ▸ hn)
    rw [if_pos ⟨(mem_class_iff hf hu).mpr hm, hlt⟩, if_pos hm]
  · rw [if_neg fun e => hm ((mem_class_iff hf hu).mp e.1), if_neg hm]

include hs hg hf hq hn hu in
/-- Giving out a free register keeps neighbours apart. -/
private theorem Serves.apart_give (hfree : c ∉ s.taken g n) {u v : NodeId} {d e : Nat}
    (hv : v ∈ g.neighbors u) (hd : (s.give c (n :: g.members n)).color? u = some d)
    (he : (s.give c (n :: g.members n)).color? v = some e) : d ≠ e := by
  have hroot : ∀ {u v}, v ∈ g.neighbors u → g.representative v = v := fun hv =>
    hf.representative_of_not_merged (hq.isMerged_of_neighbor hf hv)
  rw [hs.color?_give_class hf hn hu, hroot (hg.conflicts.symm hv)] at hd
  rw [hs.color?_give_class hf hn hu, hroot hv] at he
  -- at most one of the two is the node that was just served
  split at hd <;> split at he
  · rename_i hun hvn
    exact absurd (hun.trans hvn.symm) (hg.conflicts.ne hv).symm
  · rename_i hun _
    cases hd
    rintro rfl
    exact hfree (mem_taken.mpr ⟨v, hun ▸ hv, he⟩)
  · rename_i _ hvn
    cases he
    rintro rfl
    exact hfree (mem_taken.mpr ⟨u, hvn ▸ hg.conflicts.symm hv, hd⟩)
  · exact hs.apart hv hd he

include hs hf hn hu in
/-- Giving out a register leaves the list of spilled nodes as it should be. -/
private theorem Serves.mem_spilled_give (hnew : n ∉ served) (m : NodeId) :
    m ∈ s.spilled ↔
      m ∈ served ++ [n] ∧ (s.give c (n :: g.members n)).color? m = none := by
  rw [hs.mem_spilled, hs.color?_give_class hf hn hu, List.mem_append, List.mem_singleton]
  by_cases hm : g.representative m = n
  · -- neither the node nor the rest of its class was served before
    have hnot : m ∉ served := by
      intro hmem
      exact hnew (((hs.representative_of_served hmem).symm.trans hm) ▸ hmem)
    rw [if_pos hm]
    exact iff_of_false (fun e => hnot e.1) fun e => absurd e.2 (by simp)
  · have hmn : m ≠ n := by
      rintro rfl
      exact hm (hf.representative_of_not_merged hu)
    rw [if_neg hm, or_iff_left hmn]

include hs hg hf hq hn hu in
/-- A node that finds a register gets its whole class one. -/
private theorem Serves.serve_some (hnew : n ∉ served) (hc : s.free? k g n = some c) :
    Serves k g (served ++ [n]) (s.give c (n :: g.members n)) := by
  obtain ⟨hlt, hfree, -⟩ := free?_eq_some hc
  have hcolor := hs.color?_give_class (c := c) hf hn hu
  refine
    { size := (size_give s c _).trans hs.size
      representative_of_served := ?_
      color?_representative := ?_
      served_of_color? := ?_
      lt := ?_
      apart := hs.apart_give hg hf hq hn hu hfree
      mem_spilled := hs.mem_spilled_give hf hn hu hnew }
  · intro m hm
    rcases List.mem_append.mp hm with hm | hm
    · exact hs.representative_of_served hm
    · rw [List.mem_singleton.mp hm]
      exact hf.representative_of_not_merged hu
  · intro m
    rw [hcolor, hcolor, hf.representative_of_not_merged (hf.isMerged_representative m),
      hs.color?_representative]
  · intro m d hd
    rw [hcolor] at hd
    split at hd
    · rename_i hm
      rw [hm]
      exact List.mem_append_right served (List.mem_singleton_self n)
    · exact List.mem_append_left [n] (hs.served_of_color? hd)
  · intro m d hd
    rw [hcolor] at hd
    split at hd
    · cases hd
      exact hlt
    · exact hs.lt hd

include hs hf hu in
/-- A node that finds no register is listed as spilled. -/
private theorem Serves.serve_none (hnew : n ∉ served) :
    Serves k g (served ++ [n]) { s with spilled := s.spilled ++ [n] } where
  size := hs.size
  representative_of_served := by
    intro m hm
    rcases List.mem_append.mp hm with hm | hm
    · exact hs.representative_of_served hm
    · rw [List.mem_singleton.mp hm]
      exact hf.representative_of_not_merged hu
  color?_representative := hs.color?_representative
  served_of_color? h := List.mem_append_left [n] (hs.served_of_color? h)
  lt := hs.lt
  apart := hs.apart
  mem_spilled m := by
    have hnone : s.color? n = none := by
      cases hd : s.color? n with
      | none => rfl
      | some d =>
          have hserved := hs.served_of_color? hd
          rw [hf.representative_of_not_merged hu] at hserved
          exact absurd hserved hnew
    show m ∈ s.spilled ++ [n] ↔ m ∈ served ++ [n] ∧ s.color? m = none
    rw [List.mem_append, List.mem_append, hs.mem_spilled, List.mem_singleton]
    constructor
    · rintro (⟨hm, hc⟩ | rfl)
      · exact ⟨Or.inl hm, hc⟩
      · exact ⟨Or.inr rfl, hnone⟩
    · rintro ⟨hm | hm, hc⟩
      · exact Or.inl ⟨hm, hc⟩
      · exact Or.inr hm

include hs hg hf hq hn hu in
/-- **Serving one more node** keeps the invariant, whether it finds a register or not. -/
theorem Serves.serve (hnew : n ∉ served) :
    Serves k g (served ++ [n]) (Selection.serve k g s n) := by
  rw [Selection.serve]
  cases hc : s.free? k g n with
  | some c => exact hs.serve_some hg hf hq hn hu hnew hc
  | none => exact hs.serve_none hf hu hnew

include hs hf hq in
/-- **A node with fewer than `k` contenders finds a register.**  The registers taken are held by
neighbours that were served already, and these are contenders. -/
theorem Serves.free? {below : List NodeId} (hbelow : ∀ m ∈ served, m ∉ below)
    (hroom : (contenders g n below).size < k) : ∃ c, s.free? k g n = some c := by
  have htaken : (s.taken g n).size ≤ (contenders g n below).size := by
    refine IdSet.size_le_of_image (fun m => (s.color? m).getD 0) fun c hc => ?_
    obtain ⟨m, hm, hc⟩ := mem_taken.mp hc
    have hserved := hs.served_of_color? hc
    rw [hf.representative_of_not_merged (hq.isMerged_of_neighbor hf hm)] at hserved
    exact ⟨m, mem_contenders.mpr ⟨hm, hbelow m hserved⟩, by simp [hc]⟩
  have hlt : (s.taken g n).leastMissing < k :=
    ((IdSet.leastMissing_le_size _).trans htaken).trans_lt hroom
  exact ⟨_, if_pos hlt⟩

end Serve

/-! ## Serving the whole stack -/

theorem ofStack_concat (k : Nat) (g : InterferenceGraph) (served : List NodeId) (n : NodeId) :
    ofStack k g (served ++ [n]) = serve k g (ofStack k g served) n := by
  rw [ofStack, List.foldl_append]
  rfl

/-- **What each turn of the service preserves holds at every moment of it.** -/
theorem ofStack_induction {stack : List NodeId} {P : List NodeId → Selection → Prop}
    (hstart : P [] (start g.size))
    (hserve : ∀ served n below, stack = served ++ n :: below → P served (ofStack k g served) →
      P (served ++ [n]) (serve k g (ofStack k g served) n))
    {served below : List NodeId} (hstack : stack = served ++ below) :
    P served (ofStack k g served) := by
  -- by the last node served, so that the nodes still to come grow as the induction goes back
  induction served using List.reverseRecOn generalizing below with
  | nil => exact hstart
  | append_singleton served n ih =>
      rw [List.append_assoc, List.singleton_append] at hstack
      rw [ofStack_concat]
      exact hserve served n below hstack (ih hstack)

variable {r : Reduction} {below : List NodeId}

/-- At its turn a node of the stack exists, is not merged, and was not served before. -/
theorem turn_of_stacked (hr : r.Stacked) (hstack : r.stack = served ++ n :: below) :
    n < r.graph.size ∧ r.graph.isMerged n = false ∧ n ∉ served ∧ ∀ m ∈ served, m ∉ below := by
  have hmem : n ∈ r.stack := by
    rw [hstack]
    exact List.mem_append_right served List.mem_cons_self
  have hremoved := (hr.mem_iff n).mp hmem
  have hnodup := hr.nodup
  rw [hstack] at hnodup
  have hdisjoint := (List.nodup_append.mp hnodup).2.2
  refine ⟨lt_size_of_hasStatus hremoved, ?_, fun h => ?_, fun m hm hb => ?_⟩
  · rw [Bool.eq_false_iff]
    exact fun hm => absurd (hasStatus_unique hremoved hm) (by simp)
  · exact hdisjoint n h n List.mem_cons_self rfl
  · exact hdisjoint m hm m (List.mem_cons_of_mem n hb) rfl

/-- **Every moment of the service:** the invariant holds after each part of the stack. -/
theorem serves_of_append (hr : r.Tracks origin k) (hstack : r.stack = served ++ below) :
    Serves k r.graph served (ofStack k r.graph served) := by
  refine ofStack_induction (P := Serves k r.graph) (Serves.start k r.graph) ?_ hstack
  intro served n below hstack hs
  obtain ⟨hn, hu, hnew, -⟩ := turn_of_stacked hr.stacked hstack
  exact hs.serve hr.wellFormed hr.forest hr.quotient hn hu hnew

/-- **The service of a whole stack.** -/
theorem serves_ofStack (hr : r.Tracks origin k) :
    Serves k r.graph r.stack (ofStack k r.graph r.stack) :=
  serves_of_append hr (List.append_nil r.stack).symm

/-- **A node that is no spill candidate finds a register at its turn.** -/
theorem exists_free_of_notMem_potential (hr : r.Tracks origin k)
    (hstack : r.stack = served ++ n :: below) (hpot : n ∉ r.potential) :
    ∃ c, (ofStack k r.graph served).free? k r.graph n = some c := by
  obtain ⟨-, -, -, hbelow⟩ := turn_of_stacked hr.stacked hstack
  have hroom := hr.admits n below ⟨served, hstack.symm⟩ hpot
  exact (serves_of_append hr hstack).free? hr.forest hr.quotient hbelow hroom

/-- **Only spill candidates are left without a register.** -/
theorem mem_potential_of_mem_spilled (hr : r.Tracks origin k)
    (h : n ∈ (ofStack k r.graph r.stack).spilled) : n ∈ r.potential := by
  refine ofStack_induction (P := fun _ s => ∀ n ∈ s.spilled, n ∈ r.potential)
    (fun n hn => absurd hn List.not_mem_nil) ?_ (List.append_nil r.stack).symm n h
  intro served m below hstack ih n hn
  rw [serve] at hn
  split at hn
  · exact ih n hn
  · rename_i hnone
    rcases List.mem_append.mp hn with hn | hn
    · exact ih n hn
    · rw [List.mem_singleton.mp hn]
      by_contra hpot
      obtain ⟨c, hc⟩ := exists_free_of_notMem_potential hr hstack hpot
      exact absurd (hnone.symm.trans hc) (by simp)

end Selection

end RegAlloc
