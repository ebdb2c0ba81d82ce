import RegAlloc.Proofs.GraphEdits

/-!
# Merges form a forest

When `b` is merged into `a`, the node `b` keeps a link to `a`, and `a` may later be merged into
another node in its turn.  `representative` follows these links with a budget, and the budget is
only enough because a link always leads to a node that was merged later or not at all.

`InterferenceGraph.MergeForest` is the invariant that says so without mentioning time: following the
links from any node, **as many steps as there are merged nodes**, ends at a node without a link.
One merge adds one merged node and lengthens every chain by at most one, which is the whole
induction.  The same structure says that the member list of an unmerged node holds exactly the
other nodes that it represents.

What a merge does to representatives is then the equation `representative_merge`: everything that
`b` stood for is now stood for by `a`.
-/

namespace RegAlloc

namespace InterferenceGraph

variable {g h : InterferenceGraph} {a b n : NodeId}

/-! ## Following links -/

theorem followMerges_succ (g : InterferenceGraph) (budget : Nat) (n : NodeId) :
    g.followMerges (budget + 1) n =
      match g.mergedInto? n with
      | some m => g.followMerges budget m
      | none => n := rfl

theorem followMerges_of_none (hn : g.mergedInto? n = none) (budget : Nat) :
    g.followMerges budget n = n := by
  cases budget with
  | zero => rfl
  | succ budget => rw [followMerges_succ, hn]

/-- Once a chain has ended, a larger budget changes nothing. -/
theorem followMerges_of_le {budget more : Nat} (hle : budget ≤ more)
    (hend : g.mergedInto? (g.followMerges budget n) = none) :
    g.followMerges more n = g.followMerges budget n := by
  induction budget generalizing more n with
  | zero => exact followMerges_of_none hend more
  | succ budget ih =>
      obtain ⟨k, rfl⟩ : ∃ k, more = k + 1 := ⟨more - 1, by omega⟩
      rw [followMerges_succ] at hend ⊢
      rw [followMerges_succ]
      cases hn : g.mergedInto? n with
      | none => rfl
      | some m =>
          simp only [hn] at hend ⊢
          exact ih (by omega) hend

theorem followMerges_congr (hinto : ∀ n, g.mergedInto? n = h.mergedInto? n) (budget : Nat)
    (n : NodeId) : g.followMerges budget n = h.followMerges budget n := by
  induction budget generalizing n with
  | zero => rfl
  | succ budget ih =>
      rw [followMerges_succ, followMerges_succ, hinto]
      cases h.mergedInto? n with
      | none => rfl
      | some m => exact ih m

theorem representative_congr (hsize : g.size = h.size)
    (hinto : ∀ n, g.mergedInto? n = h.mergedInto? n) (n : NodeId) :
    g.representative n = h.representative n := by
  rw [representative, representative, hsize, followMerges_congr hinto]

theorem SameNodes.representative (hgh : SameNodes g h) (n : NodeId) :
    g.representative n = h.representative n :=
  representative_congr hgh.size hgh.mergedInto? n

@[simp] theorem representative_takeOut (g : InterferenceGraph) (n m : NodeId) :
    (g.takeOut n).representative m = g.representative m :=
  representative_congr (size_takeOut g n) (mergedInto?_takeOut g n) m

/-- In an untouched graph every node stands for itself. -/
theorem Untouched.representative (hg : g.Untouched) (n : NodeId) : g.representative n = n :=
  followMerges_of_none (hg.mergedInto? n) _

/-! ## The invariant -/

/-- The merged nodes. -/
def mergedNodes (g : InterferenceGraph) : Finset NodeId :=
  (Finset.range g.size).filter fun n => g.isMerged n = true

theorem mem_mergedNodes : n ∈ g.mergedNodes ↔ g.isMerged n = true := by
  rw [mergedNodes, Finset.mem_filter, Finset.mem_range]
  exact and_iff_right_of_imp lt_size_of_hasStatus

theorem mergedNodes_congr (hmerged : ∀ n, h.isMerged n = g.isMerged n) :
    h.mergedNodes = g.mergedNodes := by
  ext n
  rw [mem_mergedNodes, mem_mergedNodes, hmerged]

theorem isMerged_takeOut (hn : n < g.size) (hm : g.isMerged n = false) (m : NodeId) :
    (g.takeOut n).isMerged m = g.isMerged m := by
  rw [isMerged, hasStatus_takeOut hn]
  split
  · rename_i hmn
    rw [hmn, hm]
    rfl
  · rfl

theorem card_mergedNodes_le (g : InterferenceGraph) : g.mergedNodes.card ≤ g.size := by
  rw [← Finset.card_range g.size]
  exact Finset.card_filter_le _ _

/-- **Merges form a forest**, and the member lists describe it. -/
structure MergeForest (g : InterferenceGraph) : Prop where
  /-- A node has a link if and only if it was merged. -/
  merged_iff : ∀ n, g.isMerged n = true ↔ ∃ m, g.mergedInto? n = some m
  /-- Links lead to nodes. -/
  target_lt : ∀ {n m : NodeId}, g.mergedInto? n = some m → m < g.size
  /-- No chain of links is longer than the number of merged nodes. -/
  settles : ∀ n, g.mergedInto? (g.followMerges g.mergedNodes.card n) = none
  /-- An unmerged node lists the other nodes that it represents, -/
  mem_members : ∀ {r : NodeId}, g.isMerged r = false →
    ∀ n, n ∈ g.members r ↔ n ≠ r ∧ g.representative n = r
  /-- each once. -/
  nodup_members : ∀ r, (g.members r).Nodup

namespace MergeForest

theorem mergedInto?_eq_none (hg : g.MergeForest) (hn : g.isMerged n = false) :
    g.mergedInto? n = none := by
  cases hm : g.mergedInto? n with
  | none => rfl
  | some m => exact absurd ((hg.merged_iff n).mpr ⟨m, hm⟩) (by simp [hn])

theorem representative_eq (hg : g.MergeForest) (n : NodeId) :
    g.representative n = g.followMerges g.mergedNodes.card n :=
  followMerges_of_le g.card_mergedNodes_le (hg.settles n)

/-- **A representative is not merged.** -/
theorem isMerged_representative (hg : g.MergeForest) (n : NodeId) :
    g.isMerged (g.representative n) = false := by
  have hnone := hg.settles n
  rw [← hg.representative_eq] at hnone
  rw [Bool.eq_false_iff]
  intro hm
  obtain ⟨m, hm⟩ := (hg.merged_iff _).mp hm
  exact absurd (hnone.symm.trans hm) (by simp)

theorem representative_of_not_merged (hg : g.MergeForest) (hn : g.isMerged n = false) :
    g.representative n = n :=
  followMerges_of_none (hg.mergedInto?_eq_none hn) _

theorem representative_lt (hg : g.MergeForest) (hn : n < g.size) : g.representative n < g.size := by
  have hfollow : ∀ budget : Nat, ∀ n : NodeId, n < g.size → g.followMerges budget n < g.size := by
    intro budget
    induction budget with
    | zero => exact fun n hn => hn
    | succ budget ih =>
        intro n hn
        rw [followMerges_succ]
        cases hm : g.mergedInto? n with
        | none => exact hn
        | some m => exact ih m (hg.target_lt hm)
  exact hfollow g.size n hn

/-- The invariant speaks of merges only, so more nodes do no harm. -/
theorem congr (hg : g.MergeForest) (hsize : g.size ≤ h.size)
    (hmerged : ∀ n, h.isMerged n = g.isMerged n)
    (hinto : ∀ n, h.mergedInto? n = g.mergedInto? n) (hmem : ∀ n, h.members n = g.members n) :
    h.MergeForest where
  merged_iff n := by rw [hmerged, hinto]; exact hg.merged_iff n
  target_lt hm := by rw [hinto] at hm; exact (hg.target_lt hm).trans_le hsize
  settles n := by
    rw [mergedNodes_congr hmerged, followMerges_congr hinto, hinto]
    exact hg.settles n
  mem_members hr n := by
    have hrep : h.representative n = g.representative n := by
      rw [hg.representative_eq, representative, followMerges_congr hinto]
      exact followMerges_of_le (g.card_mergedNodes_le.trans hsize) (hg.settles n)
    rw [hmem, hrep]
    exact hg.mem_members (hmerged _ ▸ hr) n
  nodup_members r := by rw [hmem]; exact hg.nodup_members r

theorem of_sameNodes (hg : g.MergeForest) (hgh : SameNodes h g) : h.MergeForest :=
  hg.congr hgh.size.ge hgh.isMerged hgh.mergedInto? hgh.members

theorem addNode (hg : g.MergeForest) (s : SymbolId) : (g.addNode s).1.MergeForest :=
  hg.congr (size_le_addNode g s) (isMerged_addNode g s) (mergedInto?_addNode g s)
    (members_addNode g s)

theorem takeOut (hg : g.MergeForest) (hn : n < g.size) (hm : g.isMerged n = false) :
    (g.takeOut n).MergeForest :=
  hg.congr (size_takeOut g n).ge (isMerged_takeOut hn hm) (mergedInto?_takeOut g n)
    (members_takeOut g n)

theorem of_untouched (hg : g.Untouched) : g.MergeForest where
  merged_iff n := by
    refine iff_of_false (fun hm => ?_) (by simp [hg.mergedInto?])
    have hactive := hg.isActive n (lt_size_of_hasStatus hm)
    exact absurd (hasStatus_unique hm hactive) (by simp)
  target_lt hm := absurd hm (by simp [hg.mergedInto?])
  settles n := hg.mergedInto? _
  mem_members := by
    intro r hr n
    rw [hg.members]
    refine iff_of_false List.not_mem_nil fun hn => hn.1 ?_
    rw [← hn.2, hg.representative]
  nodup_members r := by rw [hg.members]; exact List.nodup_nil

/-! ## One more merge -/

section Merge

variable (hg : g.MergeForest) (hab : a ≠ b) (ha : a < g.size) (hb : b < g.size)
variable (hua : g.isMerged a = false) (hub : g.isMerged b = false)

include hg hab hb hua hub

/-- A chain that ended at `b` goes on to `a`, and every other chain ends where it did. -/
theorem followMerges_merge {budget : Nat}
    (hend : g.mergedInto? (g.followMerges budget n) = none) :
    (g.merge a b).followMerges (budget + 1) n =
      Adjacency.rename a b (g.followMerges budget n) := by
  have hna := hg.mergedInto?_eq_none hua
  have hnb := hg.mergedInto?_eq_none hub
  -- the step from a node without a link, which is where a chain may have ended
  have hlast : ∀ (k : Nat) {m : NodeId}, g.mergedInto? m = none →
      (g.merge a b).followMerges (k + 1) m = Adjacency.rename a b m := by
    intro k m hm
    rw [followMerges_succ, mergedInto?_merge hab hb]
    by_cases hmb : m = b
    · subst hmb
      rw [if_pos rfl, Adjacency.rename_self]
      exact followMerges_of_none (by rw [mergedInto?_merge hab hb, if_neg hab, hna]) k
    · rw [if_neg hmb, hm, Adjacency.rename_of_ne hmb]
  induction budget generalizing n with
  | zero => exact hlast 0 hend
  | succ budget ih =>
      cases hm : g.mergedInto? n with
      | none =>
          rw [followMerges_of_none hm]
          exact hlast _ hm
      | some m =>
          have hn : n ≠ b := by
            rintro rfl
            exact absurd (hnb.symm.trans hm) (by simp)
          rw [followMerges_succ, mergedInto?_merge hab hb, if_neg hn, hm]
          rw [followMerges_succ, hm] at hend ⊢
          exact ih hend

omit hg hua hub in
theorem mergedNodes_merge : (g.merge a b).mergedNodes = insert b g.mergedNodes := by
  ext n
  rw [mem_mergedNodes, Finset.mem_insert, mem_mergedNodes, isMerged, hasStatus_merge hab hb]
  by_cases hnb : n = b
  · simp [hnb]
  · simp [hnb, isMerged]

omit hg hua in
theorem card_mergedNodes_merge : (g.merge a b).mergedNodes.card = g.mergedNodes.card + 1 := by
  rw [mergedNodes_merge hab hb, Finset.card_insert_of_notMem]
  rw [mem_mergedNodes, hub]
  simp

private theorem followMerges_card_merge (n : NodeId) :
    (g.merge a b).followMerges (g.merge a b).mergedNodes.card n =
      Adjacency.rename a b (g.representative n) := by
  rw [card_mergedNodes_merge hab hb hub, hg.representative_eq]
  exact hg.followMerges_merge hab hb hua hub (hg.settles n)

omit hub in
private theorem mergedInto?_rename (n : NodeId) :
    (g.merge a b).mergedInto? (Adjacency.rename a b (g.representative n)) = none := by
  rw [mergedInto?_merge hab hb, if_neg (Adjacency.rename_ne hab _)]
  rcases eq_or_ne (g.representative n) b with hr | hr
  · rw [hr, Adjacency.rename_self]
    exact hg.mergedInto?_eq_none hua
  · rw [Adjacency.rename_of_ne hr]
    exact hg.mergedInto?_eq_none (hg.isMerged_representative n)

/-- **After a merge, `a` stands for everything that `b` stood for.** -/
theorem representative_merge (n : NodeId) :
    (g.merge a b).representative n = Adjacency.rename a b (g.representative n) := by
  have hend := hg.mergedInto?_rename hab hb hua n
  rw [← hg.followMerges_card_merge hab hb hua hub n] at hend ⊢
  exact followMerges_of_le (card_mergedNodes_le _) hend

omit hb in
/-- A node is a member of `a` after the merge if it was one of `a` or of `b`, or is `b`. -/
private theorem mem_members_merge_keep (n : NodeId) :
    n ∈ g.members a ++ b :: g.members b ↔
      n ≠ a ∧ Adjacency.rename a b (g.representative n) = a := by
  have hra := hg.representative_of_not_merged hua
  have hrb := hg.representative_of_not_merged hub
  rw [List.mem_append, List.mem_cons, hg.mem_members hua, hg.mem_members hub]
  constructor
  · rintro (⟨hne, hr⟩ | rfl | ⟨hne, hr⟩)
    · exact ⟨hne, by rw [hr, Adjacency.rename_of_ne hab]⟩
    · exact ⟨hab.symm, by rw [hrb, Adjacency.rename_self]⟩
    · refine ⟨?_, by rw [hr, Adjacency.rename_self]⟩
      rintro rfl
      exact hab (hra.symm.trans hr)
  · rintro ⟨hne, hr⟩
    rcases eq_or_ne (g.representative n) b with hrn | hrn
    · by_cases hnb : n = b
      · exact Or.inr (Or.inl hnb)
      · exact Or.inr (Or.inr ⟨hnb, hrn⟩)
    · rw [Adjacency.rename_of_ne hrn] at hr
      exact Or.inl ⟨hne, hr⟩

omit hb in
private theorem nodup_members_merge_keep : (g.members a ++ b :: g.members b).Nodup := by
  have hrb := hg.representative_of_not_merged hub
  refine List.nodup_append.mpr ⟨hg.nodup_members a,
    List.nodup_cons.mpr ⟨fun hmem => ((hg.mem_members hub b).mp hmem).1 rfl, hg.nodup_members b⟩,
    fun x hx y hy hxy => ?_⟩
  subst hxy
  have hxa := ((hg.mem_members hua x).mp hx).2
  rcases List.mem_cons.mp hy with rfl | hy
  · exact hab (hxa.symm.trans hrb)
  · exact hab (hxa.symm.trans ((hg.mem_members hub x).mp hy).2)

include ha in
/-- **The forest survives a merge** of two different unmerged nodes. -/
theorem merge : (g.merge a b).MergeForest where
  merged_iff n := by
    rw [isMerged, hasStatus_merge hab hb, mergedInto?_merge hab hb]
    by_cases hnb : n = b
    · simp [hnb]
    · simpa [hnb, isMerged] using hg.merged_iff n
  target_lt := by
    intro n m hm
    rw [mergedInto?_merge hab hb] at hm
    rw [size_merge hab]
    split at hm
    · cases hm
      exact ha
    · exact hg.target_lt hm
  settles n := by
    rw [hg.followMerges_card_merge hab hb hua hub]
    exact hg.mergedInto?_rename hab hb hua n
  mem_members := by
    intro r hr n
    rw [isMerged, hasStatus_merge hab hb] at hr
    have hrb : r ≠ b := by
      rintro rfl
      simp at hr
    rw [if_neg hrb] at hr
    rw [members_merge hab ha, if_neg hrb, hg.representative_merge hab hb hua hub]
    split
    · rename_i hra
      subst hra
      exact hg.mem_members_merge_keep hab hua hub n
    · rename_i hra
      rw [hg.mem_members hr]
      -- a class other than those of `a` and `b` is the same before and after
      have hrename : Adjacency.rename a b (g.representative n) = r ↔ g.representative n = r := by
        rcases eq_or_ne (g.representative n) b with hrn | hrn
        · rw [hrn, Adjacency.rename_self]
          exact iff_of_false (fun e => hra e.symm) fun e => hrb e.symm
        · rw [Adjacency.rename_of_ne hrn]
      rw [hrename]
  nodup_members r := by
    rw [members_merge hab ha]
    split
    · exact List.nodup_nil
    · split
      · exact hg.nodup_members_merge_keep hab hua hub
      · exact hg.nodup_members r

end Merge

end MergeForest

end InterferenceGraph

end RegAlloc
