import KernelAlgebra.Proofs.Machine.Embedding
import KernelAlgebra.Proofs.Machine.Simulation

/-!
# Renumbering keeps every run

The nodes of a sound graph that survive compaction are the reachable ones.  Each has exactly one
new number, and its edges lead to the new numbers of their targets.
-/

namespace KernelAlgebra.Graph

open Machine

variable {g : Graph} {id : Nat} {n : Node}

theorem kept_eq_reachable (hsound : g.Sound) : g.kept = g.reachable := by
  simp [kept, mem_reachable.mpr hsound.exit_reached]

theorem mem_kept (hsound : g.Sound) : id ∈ g.kept ↔ g.Reaches id := by
  rw [kept_eq_reachable hsound, mem_reachable]

/-! ## New numbers -/

theorem idxOf?_of_mem {order : List Nat} (h : id ∈ order) :
    order.idxOf? id = some (newId order id) ∧ order[newId order id]? = some id := by
  have hsome : (order.idxOf? id).isSome := List.isSome_idxOf?.mpr h
  obtain ⟨j, hj⟩ := Option.isSome_iff_exists.mp hsome
  have hnew : newId order id = j := by simp [newId, hj]
  obtain ⟨hlt, heq, _⟩ := List.idxOf?_eq_some_iff.mp hj
  rw [hnew]
  exact ⟨hj, List.getElem?_eq_some_iff.mpr ⟨hlt, heq⟩⟩

theorem newId_injective {order : List Nat} {x y : Nat} (hx : x ∈ order) (hy : y ∈ order)
    (h : newId order x = newId order y) : x = y := by
  have hx := (idxOf?_of_mem hx).2
  rw [h, (idxOf?_of_mem hy).2] at hx
  exact (Option.some.inj hx).symm

theorem getElem?_filterMap_of_isSome {α β : Type} {list : List α} {f : α → Option β}
    (h : ∀ x ∈ list, (f x).isSome) (j : Nat) : (list.filterMap f)[j]? = list[j]?.bind f := by
  induction list generalizing j with
  | nil => simp
  | cons x rest ih =>
      obtain ⟨y, hy⟩ := Option.isSome_iff_exists.mp (h x (by simp))
      rw [List.filterMap_cons_some hy]
      cases j with
      | zero => simp [hy]
      | succ j => simpa using ih (fun z hz => h z (by simp [hz])) j

theorem node?_compact (hsound : g.Sound) (j : Nat) :
    g.compact.node? j = (g.kept[j]?).bind fun id => (g.node? id).map (renumber g.kept) := by
  refine getElem?_filterMap_of_isSome ?_ j
  intro x hx
  obtain ⟨m, hm⟩ := ((mem_kept hsound).mp hx).node
  simp [hm]

theorem node?_compact_newId (hsound : g.Sound) (hreach : g.Reaches id)
    (hn : g.node? id = some n) : g.compact.node? (newId g.kept id) = some (renumber g.kept n) := by
  rw [node?_compact hsound, (idxOf?_of_mem ((mem_kept hsound).mpr hreach)).2]
  simp [hn]

theorem exists_of_node?_compact (hsound : g.Sound) {j : Nat} {n' : Node}
    (h : g.compact.node? j = some n') :
    ∃ id n, g.Reaches id ∧ g.node? id = some n ∧ n' = renumber g.kept n ∧
      g.kept[j]? = some id := by
  rw [node?_compact hsound] at h
  obtain ⟨id, hid, h⟩ := Option.bind_eq_some_iff.mp h
  obtain ⟨n, hn, hn'⟩ := Option.map_eq_some_iff.mp h
  exact ⟨id, n, (mem_kept hsound).mp (List.mem_of_getElem? hid), hn, hn'.symm, hid⟩

theorem newId_lt_size_compact (hsound : g.Sound) (hreach : g.Reaches id) :
    newId g.kept id < g.compact.size := by
  obtain ⟨n, hn⟩ := hreach.node
  exact lt_of_node? (node?_compact_newId hsound hreach hn)

theorem follower_renumber (hsound : g.Sound) (hreach : g.Reaches id)
    (hn : g.node? id = some n) :
    (renumber g.kept n).follower = n.follower.map (newId g.kept) := by
  cases hfollower : n.follower with
  | none => simp [renumber, hfollower]
  | some x =>
      have hx : g.Reaches x :=
        hreach.of_mem_successors hsound hn (by simp [Node.successors, hfollower])
      simp [renumber, hfollower, (idxOf?_of_mem ((mem_kept hsound).mpr hx)).1]

theorem successors_renumber (hsound : g.Sound) (hreach : g.Reaches id)
    (hn : g.node? id = some n) :
    (renumber g.kept n).successors = n.successors.map (newId g.kept) := by
  have hbranches : (renumber g.kept n).branches.map Branch.target =
      (n.branches.map Branch.target).map (newId g.kept) := by
    simp [renumber]
  unfold Node.successors
  rw [follower_renumber hsound hreach hn, hbranches, List.map_append]
  cases n.follower <;> simp

/-! ## Reachable nodes -/

theorem reaches_compact (hsound : g.Sound) (hreach : g.Reaches id) :
    g.compact.Reaches (newId g.kept id) := by
  induction hreach with
  | entry hlt => exact .entry (newId_lt_size_compact hsound (.entry hlt))
  | @step x y hx hedge ih =>
      obtain ⟨n, hn, hy, _⟩ := mem_targets.mp hedge
      refine ih.successor (node?_compact_newId hsound hx hn) ?_
        (newId_lt_size_compact hsound (hx.step hedge))
      rw [successors_renumber hsound hx hn]
      exact List.mem_map.mpr ⟨y, hy, rfl⟩

theorem newId_of_getElem? (hsound : g.Sound) {j : Nat} (h : g.kept[j]? = some id) :
    newId g.kept id = j := by
  have hmem := List.mem_of_getElem? h
  have hnodup : g.kept.Nodup := kept_eq_reachable hsound ▸ g.nodup_reachable
  obtain ⟨hlt, heq⟩ := List.getElem?_eq_some_iff.mp h
  obtain ⟨hlt', heq'⟩ := List.getElem?_eq_some_iff.mp (idxOf?_of_mem hmem).2
  exact (List.getElem_inj hnodup).mp (heq'.trans heq.symm)

theorem sound_compact (hsound : g.Sound) : g.compact.Sound where
  entry_lt := newId_lt_size_compact hsound (.entry hsound.entry_lt)
  exit_lt := newId_lt_size_compact hsound hsound.exit_reached
  closed := by
    intro j n' hn' x hx
    obtain ⟨id, n, hreach, hn, rfl, _⟩ := exists_of_node?_compact hsound hn'
    rw [successors_renumber hsound hreach hn] at hx
    obtain ⟨y, hy, rfl⟩ := List.mem_map.mp hx
    exact newId_lt_size_compact hsound (hreach.of_mem_successors hsound hn hy)
  exit_final := by
    intro n' hn'
    obtain ⟨m, hm⟩ := hsound.exit_reached.node
    rw [show g.compact.exit = newId g.kept g.exit from rfl,
      node?_compact_newId hsound hsound.exit_reached hm] at hn'
    cases hn'
    rw [successors_renumber hsound hsound.exit_reached hm, hsound.exit_final m hm]
    rfl
  follower := by
    intro j n' _ hn' hexit
    obtain ⟨id, n, hreach, hn, rfl, hj⟩ := exists_of_node?_compact hsound hn'
    rw [follower_renumber hsound hreach hn, Option.isSome_map]
    refine hsound.follower id n hreach hn ?_
    rintro rfl
    exact hexit (newId_of_getElem? hsound hj).symm
  exit_reached := reaches_compact hsound hsound.exit_reached

theorem fits_compact (hsound : g.Sound) {declared : List Symbol} (hfits : g.Fits declared) :
    g.compact.Fits declared := by
  intro j n' _ hn'
  obtain ⟨id, n, hreach, hn, rfl, _⟩ := exists_of_node?_compact hsound hn'
  have hnode := hfits id n hreach hn
  refine ⟨hnode.block, ?_⟩
  intro b' hb'
  obtain ⟨b, hb, rfl⟩ := List.mem_map.mp hb'
  obtain ⟨hpresent, hchecked, hdeclared⟩ := hnode.branches b hb
  exact ⟨hpresent, hchecked, hdeclared⟩

/-! ## Runs -/

theorem embeds_compact (hsound : g.Sound) :
    Embeds (fun _ => True) (fun _ => True) (fun s => s) (newId g.kept) g g.compact where
  node := by
    intro id n hreach hn
    refine ⟨_, node?_compact_newId hsound hreach hn,
      ⟨fun i => i, by simp [renumber], fun i _ => .self i⟩, ?_⟩
    intro hexit
    refine ⟨?_, follower_renumber hsound hreach hn, _, rfl, ?_⟩
    · intro heq
      exact hexit (newId_injective ((mem_kept hsound).mpr hreach)
        ((mem_kept hsound).mpr hsound.exit_reached) heq)
    · intro b hb
      refine ⟨.id _, trivial, rfl, newId_lt_size_compact hsound ?_⟩
      exact hreach.of_mem_successors hsound hn (target_mem_successors hb)

theorem improves_compact (hsound : g.Sound) (i : Interface) :
    Improves (i.withGraph g) (i.withGraph g.compact) := by
  refine ⟨rfl, rfl, ?_⟩
  rintro inputs u k fin killed ⟨st, n, hstart, hn, hends⟩
  have hagree : Agree u (fun _ => True) (fun s => s) st st := fun _ _ => rfl
  obtain ⟨j, hj, n', fin', hn', hends', hsame, _⟩ :=
    (embeds_compact hsound).ends (.id _) hsound rfl hn hagree hends
  exact ⟨j, hj, fin', ⟨st, n', hstart, hn', hends'⟩, fun _ s _ => hsame s trivial⟩

theorem replaces_compact (hsound : g.Sound) : Replaces g g.compact :=
  ⟨improves_compact hsound, sound_compact hsound, fun _ => fits_compact hsound⟩

end KernelAlgebra.Graph

namespace KernelAlgebra.Graph

/-!
## The walk under a renumbering

A walk only looks at the targets of nodes, so it carries over to any graph whose nodes have the
targets of their counterparts.  Compaction numbers the nodes in walk order, and the walk of its
result finds them in the order of their numbers: nothing is left to drop or to move.
-/

variable {g g' : Graph}

/-! ## Counterparts -/

/-- Reachable nodes have counterparts, whose targets are the counterparts of their targets. -/
structure Walks (g g' : Graph) (f : Nat → Nat) : Prop where
  entry_lt : g.entry < g.size
  entry_lt' : g'.entry < g'.size
  entry : g'.entry = f g.entry
  injective : ∀ x y, g.Reaches x → g.Reaches y → f x = f y → x = y
  targets : ∀ x, g.Reaches x → g'.targets (f x) = (g.targets x).map f

theorem Walks.walkFrom {f : Nat → Nat} (h : Walks g g' f) {fuel : Nat} (stack seen : List Nat)
    (hstack : ∀ x ∈ stack, g.Reaches x) (hseen : ∀ x ∈ seen, g.Reaches x) :
    g'.walkFrom fuel (stack.map f) (seen.map f) = (g.walkFrom fuel stack seen).map f := by
  fun_induction Graph.walkFrom g fuel stack seen with
  | case1 => rfl
  | case2 => rfl
  | case3 fuel x stack seen hx ih =>
      rw [List.map_cons, Graph.walkFrom, if_pos (List.mem_map_of_mem hx)]
      exact ih (fun y hy => hstack y (by simp [hy])) hseen
  | case4 fuel x stack seen hx ih =>
      have hreach := hstack x (by simp)
      have hx' : f x ∉ seen.map f := by
        intro hmem
        obtain ⟨y, hy, heq⟩ := List.mem_map.mp hmem
        exact hx (h.injective y x (hseen y hy) hreach heq ▸ hy)
      rw [List.map_cons, Graph.walkFrom, if_neg hx', h.targets x hreach, ← List.map_append,
        ← List.map_singleton, ← List.map_append]
      refine ih ?_ ?_
      · intro y hy
        rcases List.mem_append.mp hy with hy | hy
        · exact hreach.step hy
        · exact hstack y (by simp [hy])
      · intro y hy
        rcases List.mem_append.mp hy with hy | hy
        · exact hseen y hy
        · exact List.mem_singleton.mp hy ▸ hreach

theorem Walks.reachable {f : Nat → Nat} (h : Walks g g' f) :
    g'.reachable = g.reachable.map f := by
  have hfuel := Nat.le_max_left g.walkBound g'.walkBound
  have hfuel' := Nat.le_max_right g.walkBound g'.walkBound
  rw [reachable_eq_walkFrom h.entry_lt hfuel, reachable_eq_walkFrom h.entry_lt' hfuel', h.entry]
  exact h.walkFrom [g.entry] [] (by simpa using .entry h.entry_lt) (by simp)

theorem SameShape.targets_eq (h : SameShape g g') (id : Nat) : g'.targets id = g.targets id := by
  unfold targets
  cases hn : g.node? id with
  | none =>
      cases hn' : g'.node? id with
      | none => rfl
      | some n' =>
          obtain ⟨n, hn'', _⟩ := h.node_back hn'
          cases hn.symm.trans hn''
  | some n =>
      obtain ⟨n', hn', hsuccessors, _⟩ := h.node id n hn
      simp [hn', hsuccessors, h.size]

theorem SameShape.reachable_eq (h : SameShape g g') : g'.reachable = g.reachable := by
  by_cases hentry : g.entry < g.size
  · have hwalks : Walks g g' id :=
      ⟨hentry, by rw [h.entry, h.size]; exact hentry, h.entry, fun _ _ _ _ heq => heq,
        fun x _ => by simpa using h.targets_eq x⟩
    simpa using hwalks.reachable
  · simp [reachable, h.entry, h.size, hentry]

/-! ## Compaction -/

theorem targets_eq_successors (hsound : g.Sound) {id : Nat} {n : Node}
    (hn : g.node? id = some n) : g.targets id = n.successors := by
  simp only [targets, hn]
  exact List.filter_eq_self.mpr fun x hx => by simpa using hsound.closed id n hn x hx

theorem walks_compact (hsound : g.Sound) : Walks g g.compact (newId g.kept) where
  entry_lt := hsound.entry_lt
  entry_lt' := (sound_compact hsound).entry_lt
  entry := rfl
  injective := fun _ _ hx hy =>
    newId_injective ((mem_kept hsound).mpr hx) ((mem_kept hsound).mpr hy)
  targets := by
    intro x hx
    obtain ⟨n, hn⟩ := hx.node
    rw [targets_eq_successors hsound hn, targets_eq_successors (sound_compact hsound)
      (node?_compact_newId hsound hx hn), successors_renumber hsound hx hn]

theorem size_compact (hsound : g.Sound) : g.compact.size = g.kept.length := by
  have hsome : ∀ id ∈ g.kept, ((g.node? id).map (renumber g.kept)).isSome := by
    intro id hid
    obtain ⟨n, hn⟩ := ((mem_kept hsound).mp hid).node
    simp [hn]
  simp only [compact, size]
  rw [List.length_filterMap_eq_countP]
  exact List.countP_eq_length.mpr hsome

/-- The numbers of the nodes are their places in the walk. -/
def InWalkOrder (g : Graph) : Prop := g.kept = List.range g.size

theorem inWalkOrder_compact (hsound : g.Sound) : g.compact.InWalkOrder := by
  unfold InWalkOrder
  rw [kept_eq_reachable (sound_compact hsound), (walks_compact hsound).reachable,
    size_compact hsound, kept_eq_reachable hsound]
  apply List.ext_getElem (by simp)
  intro j hj hj'
  have hlt : j < g.reachable.length := by simpa using hj
  have hget : g.kept[j]? = some g.reachable[j] := by
    rw [kept_eq_reachable hsound, List.getElem?_eq_getElem]
  have hnew := newId_of_getElem? hsound hget
  rw [kept_eq_reachable hsound] at hnew
  simpa using hnew

theorem newId_range {count id : Nat} (h : id < count) : newId (List.range count) id = id := by
  have hget := (idxOf?_of_mem (List.mem_range.mpr h)).2
  simpa using (List.getElem?_eq_some_iff.mp hget).2

theorem renumber_range {count : Nat} {n : Node} (h : ∀ x ∈ n.successors, x < count) :
    renumber (List.range count) n = n := by
  obtain ⟨block, branches, follower⟩ := n
  have hbranches : branches.map
      (fun b => { b with target := newId (List.range count) b.target }) = branches := by
    refine (List.map_congr_left fun b hb => ?_).trans (List.map_id branches)
    simp [newId_range (h b.target (target_mem_successors hb))]
  have hfollower : (follower.bind fun x => (List.range count).idxOf? x) = follower := by
    cases follower with
    | none => rfl
    | some x =>
        have hx : x < count := h x (by simp [Node.successors])
        simp [(idxOf?_of_mem (List.mem_range.mpr hx)).1, newId_range hx]
  simp only [renumber, hbranches, hfollower]

theorem InWalkOrder.compact_eq (h : g.InWalkOrder) (hsound : g.Sound) : g.compact = g := by
  have hnodes : g.compact.nodes = g.nodes := by
    apply List.ext_getElem?
    intro j
    change g.compact.node? j = g.node? j
    rw [node?_compact hsound, h]
    by_cases hj : j < g.size
    · obtain ⟨n, hn⟩ := node?_eq_some_of_lt hj
      simp [hj, hn, renumber_range (hsound.closed j n hn)]
    · have hnone : g.node? j = none := List.getElem?_eq_none (by simpa [size] using hj)
      simp [hj, hnone]
  have hentry : g.compact.entry = g.entry := by
    rw [show g.compact.entry = newId g.kept g.entry from rfl, h, newId_range hsound.entry_lt]
  have hexit : g.compact.exit = g.exit := by
    rw [show g.compact.exit = newId g.kept g.exit from rfl, h, newId_range hsound.exit_lt]
  rw [show g.compact = ⟨g.compact.nodes, g.compact.entry, g.compact.exit⟩ from rfl, hnodes,
    hentry, hexit]

theorem compact_compact (hsound : g.Sound) : g.compact.compact = g.compact :=
  (inWalkOrder_compact hsound).compact_eq (sound_compact hsound)

end KernelAlgebra.Graph
