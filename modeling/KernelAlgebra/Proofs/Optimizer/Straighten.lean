import KernelAlgebra.Optimizer.Straighten
import KernelAlgebra.Proofs.Graph.Reachability
import KernelAlgebra.Proofs.Machine.Simulation

/-!
# Merging nodes keeps every run

When the only edge into a node comes from a node without branches, the two can be run as one.
The counts of incoming edges are taken when a pass starts.  A merge moves edges from one source
to another and never adds one, so a node that had a single source still has one.
-/

namespace KernelAlgebra.Straighten

open KernelAlgebra.Graph Machine

variable {g : Graph} {u : Overrides}

/-- An unconditional edge into a node that cannot be entered in any other way. -/
structure Link (g : Graph) (id next : Nat) (a b : Node) : Prop where
  source : g.node? id = some a
  branches : a.branches = []
  follower : a.follower = some next
  target : g.node? next = some b
  distinct : next ≠ id
  not_entry : next ≠ g.entry
  reaches : g.Reaches id
  sole : ∀ x, g.Reaches x → next ∈ g.targets x → x = id

variable {id next : Nat} {a b : Node}

theorem node?_merge (h : Link g id next a b) (x : Nat) :
    (merge g id next b).node? x =
      if x = next then some Node.empty
      else if x = id then some ⟨a.block ++ b.block, b.branches, b.follower⟩
      else g.node? x := by
  have hid : g.nodes[id]? = some a := h.source
  have hnext : g.nodes[next]? = some b := h.target
  simp only [merge, Graph.modify, Graph.node?, List.getElem?_modify]
  by_cases hx : x = next
  · subst hx
    simp [h.distinct.symm, hnext]
  · by_cases hx' : x = id
    · subst hx'
      simp [h.distinct, hid, hx]
    · simp [hx, Ne.symm hx, hx', Ne.symm hx']

@[simp] theorem size_merge : (merge g id next b).size = g.size := by
  simp [merge, Graph.modify, Graph.size]

@[simp] theorem entry_merge : (merge g id next b).entry = g.entry := rfl

theorem exit_merge : (merge g id next b).exit = if next = g.exit then id else g.exit := rfl

theorem Link.exit_ne (h : Link g id next a b) (hsound : g.Sound) : id ≠ g.exit := by
  intro hexit
  have := hsound.exit_final a (hexit ▸ h.source)
  simp [Node.successors, h.branches, h.follower] at this

theorem Link.mem_targets (h : Link g id next a b) : next ∈ g.targets id :=
  Graph.mem_targets.mpr
    ⟨a, h.source, by simp [Node.successors, h.follower], lt_of_node? h.target⟩

theorem Link.reaches_next (h : Link g id next a b) : g.Reaches next :=
  h.reaches.step h.mem_targets

/-! ## Edges and reachable nodes of the merged graph -/

def origin (id next x : Nat) : Nat := if x = id then next else x

theorem targets_merge (h : Link g id next a b) {x : Nat} (hx : x ≠ next) :
    (merge g id next b).targets x = g.targets (origin id next x) := by
  unfold targets origin
  rw [node?_merge h, if_neg hx, size_merge]
  by_cases hid : x = id
  · simp [hid, h.target, Node.successors]
  · simp [hid]

theorem origin_ne (h : Link g id next a b) (x : Nat) : origin id next x ≠ id := by
  unfold origin
  split
  · exact h.distinct
  · assumption

theorem origin_injective {x y : Nat} (hx : x ≠ next) (hy : y ≠ next)
    (h : origin id next x = origin id next y) : x = y := by
  unfold origin at h
  split at h <;> split at h <;> simp_all

theorem reaches_origin (h : Link g id next a b) {x : Nat} (hx : g.Reaches x) :
    g.Reaches (origin id next x) := by
  unfold origin
  split
  · exact h.reaches_next
  · exact hx

theorem reaches_of_merge (h : Link g id next a b) {x : Nat}
    (hx : (merge g id next b).Reaches x) : g.Reaches x ∧ x ≠ next := by
  induction hx with
  | entry hlt =>
      exact ⟨.entry (by simpa using hlt), fun heq => h.not_entry heq.symm⟩
  | @step y x _ hedge ih =>
      rw [targets_merge h ih.2] at hedge
      have horigin := reaches_origin h ih.1
      refine ⟨horigin.step hedge, ?_⟩
      rintro rfl
      exact origin_ne h y (h.sole _ horigin hedge)

theorem reaches_merge (h : Link g id next a b) {x : Nat} (hx : g.Reaches x) :
    (merge g id next b).Reaches (if x = next then id else x) := by
  induction hx with
  | entry hlt =>
      rw [if_neg (fun heq => h.not_entry heq.symm)]
      exact .entry (by simpa using hlt)
  | @step y x hy hedge ih =>
      by_cases hx : x = next
      · -- the edge that disappears
        subst hx
        obtain rfl := h.sole y hy hedge
        simpa [h.distinct.symm] using ih
      · rw [if_neg hx]
        have hmoved : ∀ z, z ≠ next → origin id next z = y → (merge g id next b).Reaches z →
            (merge g id next b).Reaches x := by
          intro z hz horigin hreach
          refine hreach.step ?_
          rw [targets_merge h hz, horigin]
          exact hedge
        by_cases hy' : y = next
        · exact hmoved id h.distinct.symm (by simp [origin, hy']) (by simpa [hy'] using ih)
        · refine hmoved y hy' ?_ (by simpa [hy'] using ih)
          have : y ≠ id := by
            rintro rfl
            obtain ⟨n, hn, hs, _⟩ := Graph.mem_targets.mp hedge
            cases hn.symm.trans h.source
            simp only [Node.successors, h.branches, h.follower, List.map_nil, List.nil_append,
              Option.toList_some, List.mem_singleton] at hs
            exact hx hs
          simp [origin, this]

theorem sound_merge (h : Link g id next a b) (hsound : g.Sound) :
    (merge g id next b).Sound where
  entry_lt := by simpa using hsound.entry_lt
  exit_lt := by
    rw [exit_merge, size_merge]
    split
    · exact lt_of_node? h.source
    · exact hsound.exit_lt
  closed := by
    intro x n hn s hs
    rw [size_merge]
    rw [node?_merge h] at hn
    split at hn
    · cases hn
      simp [Node.successors, Node.empty] at hs
    · split at hn
      · cases hn
        exact hsound.closed next b h.target s hs
      · exact hsound.closed x n hn s hs
  exit_final := by
    intro n hn
    rw [exit_merge] at hn
    split at hn
    · rename_i hexit
      rw [node?_merge h, if_neg h.distinct.symm, if_pos rfl] at hn
      cases hn
      exact hsound.exit_final b (hexit ▸ h.target)
    · rename_i hexit
      rw [node?_merge h, if_neg (Ne.symm hexit), if_neg (h.exit_ne hsound).symm] at hn
      exact hsound.exit_final n hn
  follower := by
    intro x n hreach hn hexit
    obtain ⟨hreach, hx⟩ := reaches_of_merge h hreach
    rw [exit_merge] at hexit
    rw [node?_merge h, if_neg hx] at hn
    split at hn
    · rename_i hid
      cases hn
      refine hsound.follower next b h.reaches_next h.target ?_
      intro heq
      simp [heq, hid] at hexit
    · rename_i hid
      refine hsound.follower x n hreach hn ?_
      intro heq
      by_cases hnext : next = g.exit
      · exact hx (heq.trans hnext.symm)
      · simp [hnext, heq] at hexit
  exit_reached := by
    have := reaches_merge h hsound.exit_reached
    rw [exit_merge]
    split
    · rename_i hexit
      simpa [hexit] using this
    · rename_i hexit
      simpa [Ne.symm hexit] using this

theorem fits_merge (h : Link g id next a b) {declared : List Symbol} (hfits : g.Fits declared) :
    (merge g id next b).Fits declared := by
  intro x n hreach hn
  obtain ⟨hreach, hx⟩ := reaches_of_merge h hreach
  rw [node?_merge h, if_neg hx] at hn
  split at hn
  · cases hn
    have hfa := hfits id a h.reaches h.source
    have hfb := hfits next b h.reaches_next h.target
    refine ⟨?_, hfb.branches⟩
    intro i hi
    rcases List.mem_append.mp hi with hi | hi
    · exact hfa.block i hi
    · exact hfb.block i hi
  · exact hfits x n hreach hn

/-! ## Runs -/

/-- A point of a run and where the run of the merged graph is by then. -/
inductive Merged (g : Graph) (id next : Nat) (b : Node) : Point → Point → Prop
  | front (rest : Block) (st : Store) :
      Merged g id next b ⟨id, rest, st⟩ ⟨id, rest ++ b.block, st⟩
  | back (rest : Block) (st : Store) : Merged g id next b ⟨next, rest, st⟩ ⟨id, rest, st⟩
  | elsewhere {x : Nat} (rest : Block) (st : Store) :
      g.Reaches x → x ≠ id → x ≠ next → Merged g id next b ⟨x, rest, st⟩ ⟨x, rest, st⟩

theorem merged_at_node (h : Link g id next a b) {x : Nat} {n : Node} (hreach : g.Reaches x)
    (hn : g.node? x = some n) (hx : x ≠ next) (st : Store) :
    ∃ n', (merge g id next b).node? x = some n' ∧
      Merged g id next b ⟨x, n.block, st⟩ ⟨x, n'.block, st⟩ := by
  rw [node?_merge h, if_neg hx]
  by_cases hid : x = id
  · subst hid
    cases hn.symm.trans h.source
    exact ⟨_, if_pos rfl, .front _ _⟩
  · exact ⟨n, by rw [if_neg hid, hn], .elsewhere _ _ hreach hid hx⟩

theorem merged_edge (h : Link g id next a b) (hsound : g.Sound) {x y target : Nat}
    {n n' m : Node} {st : Store} (hreach : g.Reaches x) (hn : g.node? x = some n) (hx : x ≠ id)
    (hn' : (merge g id next b).node? y = some n') (hy : y ≠ (merge g id next b).exit)
    (hbranches : n'.branches = n.branches) (hfollower : n'.follower = n.follower)
    (hnext : Machine.next u st g.size x n.follower n.branches = .ok target)
    (hm : g.node? target = some m) :
    ∃ d, Path (merge g id next b) u 1 ⟨y, [], st⟩ d ∧
      Merged g id next b ⟨target, m.block, st⟩ d := by
  have hsuccessor := mem_successors_of_next hnext
  have hlt := lt_of_node? hm
  have htarget : target ≠ next := by
    rintro rfl
    exact hx (h.sole x hreach (Graph.mem_targets.mpr ⟨n, hn, hsuccessor, hlt⟩))
  obtain ⟨m', hm', hmerged⟩ :=
    merged_at_node h (hreach.successor hn hsuccessor hlt) hm htarget st
  have hnext' : Machine.next u st (merge g id next b).size y n'.follower n'.branches =
      .ok target := by
    rw [hbranches, hfollower]
    refine next_congr (fun _ _ => rfl) ?_ hnext
    intro c hc
    rw [size_merge]
    exact hsound.closed x n hn c.target (target_mem_successors hc)
  exact ⟨_, .edge hn' hy hnext' hm' (.done _), hmerged⟩

theorem follows_merge (h : Link g id next a b) (hsound : g.Sound) :
    Follows g (merge g id next b) u (Merged g id next b) where
  instruction := by
    intro x i rest st st' d hd hexec
    cases hd with
    | front => exact ⟨_, .instruction hexec (.done _), .front rest st'⟩
    | back => exact ⟨_, .instruction hexec (.done _), .back rest st'⟩
    | elsewhere _ _ hreach hid hx =>
        exact ⟨_, .instruction hexec (.done _), .elsewhere rest st' hreach hid hx⟩
  edge := by
    intro x target n m st d hd hn hexit hnext hm
    cases hd with
    | front =>
        cases hn.symm.trans h.source
        simp only [h.branches, h.follower, Machine.next, Except.ok.injEq] at hnext
        subst hnext
        cases hm.symm.trans h.target
        exact ⟨0, by omega, _, .done _, .back _ _⟩
    | back =>
        cases hn.symm.trans h.target
        have hnode : (merge g id next b).node? id =
            some ⟨a.block ++ b.block, b.branches, b.follower⟩ := by
          rw [node?_merge h, if_neg h.distinct.symm, if_pos rfl]
        have hid : id ≠ (merge g id next b).exit := by
          rw [exit_merge, if_neg hexit]
          exact h.exit_ne hsound
        obtain ⟨d, hpath, hmerged⟩ :=
          merged_edge h hsound h.reaches_next hn h.distinct hnode hid rfl rfl hnext hm
        exact ⟨1, Nat.le_refl 1, d, hpath, hmerged⟩
    | elsewhere _ _ hreach hid hx =>
        have hnode : (merge g id next b).node? x = some n := by
          rw [node?_merge h, if_neg hx, if_neg hid, hn]
        have hexit' : x ≠ (merge g id next b).exit := by
          rw [exit_merge]
          split
          · exact hid
          · exact hexit
        obtain ⟨d, hpath, hmerged⟩ :=
          merged_edge h hsound hreach hn hid hnode hexit' rfl rfl hnext hm
        exact ⟨1, Nat.le_refl 1, d, hpath, hmerged⟩

theorem merged_stops (h : Link g id next a b) (hsound : g.Sound) {c d : Point} {fin : Store}
    {killed : Bool} (hd : Merged g id next b c d) (hstop : Stops g u c fin killed) :
    Stops (merge g id next b) u d fin killed := by
  cases hstop with
  | exit =>
      cases hd with
      | front => exact absurd rfl (h.exit_ne hsound)
      | back =>
          have hexit : (merge g id g.exit b).exit = id := if_pos rfl
          exact .at_exit hexit.symm _
      | elsewhere _ _ hreach hid hx =>
          have hexit : (merge g id next b).exit = g.exit := if_neg hx.symm
          exact .at_exit hexit.symm _
  | discard hexec =>
      cases hd with
      | front => exact .discard hexec
      | back => exact .discard hexec
      | elsewhere => exact .discard hexec

theorem improves_merge (h : Link g id next a b) (hsound : g.Sound) (i : Interface) :
    Improves (i.withGraph g) (i.withGraph (merge g id next b)) := by
  refine ⟨rfl, rfl, ?_⟩
  rintro inputs u k fin killed ⟨st, n, hstart, hn, c, hpath, hstop⟩
  have hreach : g.Reaches g.entry := .entry hsound.entry_lt
  obtain ⟨n', hn', hmerged⟩ := merged_at_node h hreach hn h.not_entry.symm st
  obtain ⟨j, hj, d, hpath', hmerged'⟩ := (follows_merge h hsound).path hpath hmerged
  exact ⟨j, hj, fin, ⟨st, n', hstart, hn', d, hpath', merged_stops h hsound hmerged' hstop⟩,
    fun _ _ _ => rfl⟩

theorem replaces_merge (h : Link g id next a b) (hsound : g.Sound) :
    Replaces g (merge g id next b) :=
  ⟨improves_merge h hsound, sound_merge h hsound, fun _ => fits_merge h⟩

/-! ## Merges, one after the other -/

/-- A number of merges along links leads from one graph to another. -/
inductive Merges : Nat → Graph → Graph → Prop
  | done (g : Graph) : Merges 0 g g
  | merge {count id next : Nat} {g g' : Graph} {a b : Node} :
      Link g id next a b → Merges count (Straighten.merge g id next b) g' → Merges (count + 1) g g'

theorem Merges.trans {j k : Nat} {g g' g'' : Graph} (h : Merges j g g') (h' : Merges k g' g'') :
    Merges (j + k) g g'' := by
  induction h with
  | done => simpa using h'
  | merge hlink _ ih =>
      rw [Nat.add_right_comm]
      exact .merge hlink (ih h')

/-- What every merge along a link preserves is preserved from the first graph to the last. -/
theorem Merges.preserves {count : Nat} {g g' : Graph} (h : Merges count g g')
    {P : Graph → Prop}
    (hmerge : ∀ {g : Graph} {id next : Nat} {a b : Node}, Link g id next a b → P g →
      P (Straighten.merge g id next b)) (hP : P g) : P g' := by
  induction h with
  | done => exact hP
  | merge hlink _ ih => exact ih (hmerge hlink hP)

theorem Merges.replaces {count : Nat} {g g' : Graph} (h : Merges count g g')
    (hsound : g.Sound) : Replaces g g' := by
  induction h with
  | done => exact .refl hsound
  | merge hlink _ ih =>
      exact (replaces_merge hlink hsound).trans (ih (sound_merge hlink hsound))

def MergedFrom (s s' : Progress) : Prop :=
  ∃ count, Merges count s.graph s'.graph ∧ s'.merged = s.merged + count

theorem MergedFrom.refl (s : Progress) : MergedFrom s s := ⟨0, .done _, rfl⟩

theorem MergedFrom.one {merged : Nat} (h : Link g id next a b) :
    MergedFrom ⟨g, merged⟩ ⟨merge g id next b, merged + 1⟩ :=
  ⟨1, .merge h (.done _), rfl⟩

theorem MergedFrom.trans {s s' s'' : Progress} (h : MergedFrom s s') (h' : MergedFrom s' s'') :
    MergedFrom s s'' := by
  obtain ⟨j, hj, hmerged⟩ := h
  obtain ⟨k, hk, hmerged'⟩ := h'
  exact ⟨j + k, hj.trans hk, by omega⟩

theorem MergedFrom.replaces {s s' : Progress} (h : MergedFrom s s') (hsound : s.graph.Sound) :
    Replaces s.graph s'.graph := by
  obtain ⟨_, hmerges, _⟩ := h
  exact hmerges.replaces hsound

/-! ## A pass -/

/-- What holds of the graph during a pass over the nodes `order`: a node that had one source
at the start has no second one now, and a node that leads on is still reachable. -/
structure Tidy (single : Nat → Bool) (order : List Nat) (g : Graph) : Prop where
  sound : g.Sound
  sole : ∀ x, single x = true → ∀ y z, g.Reaches y → g.Reaches z →
    x ∈ g.targets y → x ∈ g.targets z → y = z
  alive : ∀ x ∈ order, ∀ n, g.node? x = some n → n.follower.isSome → g.Reaches x

variable {single : Nat → Bool} {order : List Nat}

theorem link_of_mergeable? (htidy : Tidy single order g) (hid : id ∈ order)
    (h : mergeable? single g id = some (next, b)) : ∃ a, Link g id next a b := by
  unfold mergeable? at h
  split at h
  · rename_i block next' hn
    split at h
    · cases h
    · rename_i hcond
      simp only [Bool.or_eq_true, decide_eq_true_eq, not_or, Bool.not_eq_true',
        Bool.not_eq_false] at hcond
      obtain ⟨⟨hdistinct, hentry⟩, hsingle⟩ := hcond
      obtain ⟨b', hb, hpair⟩ := Option.map_eq_some_iff.mp h
      cases hpair
      have hreach := htidy.alive id hid _ hn rfl
      have hedge : next ∈ g.targets id :=
        Graph.mem_targets.mpr ⟨_, hn, by simp [Node.successors], lt_of_node? hb⟩
      refine ⟨_, hn, rfl, rfl, hb, hdistinct, hentry, hreach, ?_⟩
      intro x hx hxedge
      exact htidy.sole next hsingle x id hx hreach hxedge hedge
  · cases h

theorem tidy_merge (h : Link g id next a b) (htidy : Tidy single order g) :
    Tidy single order (merge g id next b) where
  sound := sound_merge h htidy.sound
  sole := by
    intro x hsingle y z hy hz hyx hzx
    obtain ⟨hy, hynext⟩ := reaches_of_merge h hy
    obtain ⟨hz, hznext⟩ := reaches_of_merge h hz
    rw [targets_merge h hynext] at hyx
    rw [targets_merge h hznext] at hzx
    exact origin_injective hynext hznext
      (htidy.sole x hsingle _ _ (reaches_origin h hy) (reaches_origin h hz) hyx hzx)
  alive := by
    intro x hx n hn hfollower
    rw [node?_merge h] at hn
    split at hn
    · cases hn
      simp [Node.empty] at hfollower
    · rename_i hnext
      have hreach : g.Reaches x := by
        split at hn
        · rename_i hid
          exact hid ▸ h.reaches
        · exact htidy.alive x hx n hn hfollower
      have := reaches_merge h hreach
      rwa [if_neg hnext] at this

theorem mergeChain_spec (hid : id ∈ order) (fuel : Nat) {s : Progress}
    (htidy : Tidy single order s.graph) :
    Tidy single order (mergeChain single id fuel s).graph ∧
      MergedFrom s (mergeChain single id fuel s) := by
  induction fuel generalizing s with
  | zero => exact ⟨htidy, .refl s⟩
  | succ fuel ih =>
      simp only [mergeChain]
      split
      · rename_i next b hmerge
        obtain ⟨a, hlink⟩ := link_of_mergeable? htidy hid hmerge
        obtain ⟨htidy', hmerged⟩ :=
          ih (s := ⟨merge s.graph id next b, s.merged + 1⟩) (tidy_merge hlink htidy)
        exact ⟨htidy', (MergedFrom.one hlink).trans hmerged⟩
      · exact ⟨htidy, .refl s⟩

theorem foldl_mergeChain_spec {ids : List Nat} (hids : ∀ x ∈ ids, x ∈ order) (fuel : Nat)
    {s : Progress} (htidy : Tidy single order s.graph) :
    MergedFrom s (ids.foldl (fun s id => mergeChain single id fuel s) s) := by
  induction ids generalizing s with
  | nil => exact .refl s
  | cons x rest ih =>
      obtain ⟨htidy', hmerged⟩ := mergeChain_spec (hids x (by simp)) fuel htidy
      exact hmerged.trans (ih (fun y hy => hids y (by simp [hy])) htidy')

theorem tidy_start (hsound : g.Sound) :
    Tidy (fun x => (g.predecessors x).length == 1) g.reachable g where
  sound := hsound
  sole := by
    intro x hsingle y z hy hz hyx hzx
    obtain ⟨w, hw⟩ := List.length_eq_one_iff.mp (beq_iff_eq.mp hsingle)
    have hmem : ∀ v, g.Reaches v → x ∈ g.targets v → v = w := by
      intro v hv hvx
      have : v ∈ g.predecessors x := by
        rw [Graph.predecessors_eq_filter]
        exact List.mem_filter.mpr ⟨Graph.mem_reachable.mpr hv, by simpa using hvx⟩
      simpa [hw] using this
    rw [hmem y hy hyx, hmem z hz hzx]
  alive := fun x hx _ _ _ => Graph.mem_reachable.mp hx

theorem mergedFrom_pass (hsound : g.Sound) : MergedFrom ⟨g, 0⟩ (pass g) :=
  foldl_mergeChain_spec (fun _ h => h) g.size (s := ⟨g, 0⟩) (tidy_start hsound)

theorem mergedFrom_passes (fuel : Nat) {s : Progress} (hsound : s.graph.Sound) :
    MergedFrom s (passes fuel s) := by
  induction fuel generalizing s with
  | zero => exact .refl s
  | succ fuel ih =>
      simp only [passes]
      split
      · exact .refl s
      · have hpass := mergedFrom_pass hsound
        have hcounted : MergedFrom s ⟨(pass s.graph).graph, s.merged + (pass s.graph).merged⟩ := by
          obtain ⟨count, hmerges, hcount⟩ := hpass
          exact ⟨count, hmerges, by simp [hcount]⟩
        exact hcounted.trans (ih (hcounted.replaces hsound).sound)

theorem mergedFrom_run (hsound : g.Sound) : MergedFrom ⟨g, 0⟩ (run g) :=
  mergedFrom_passes (g.size + 1) (s := ⟨g, 0⟩) hsound

theorem replaces_run (hsound : g.Sound) : Replaces g (run g).graph :=
  (mergedFrom_run hsound).replaces hsound

end KernelAlgebra.Straighten
