import KernelAlgebra.Graph.Walk
import Mathlib.Data.List.Induction

/-!
# Reachable nodes

The walk of a graph visits exactly the nodes to which a path of edges leads from the entry, and
it visits each of them once.
-/

namespace KernelAlgebra.Graph

/-- A path of edges inside the arena leads from the entry to the node. -/
inductive Reaches (g : Graph) : Nat → Prop
  | entry : g.entry < g.size → Reaches g g.entry
  | step {id next : Nat} : Reaches g id → next ∈ g.targets id → Reaches g next

theorem target_mem_successors {n : Node} {b : Branch} (hb : b ∈ n.branches) :
    b.target ∈ n.successors :=
  List.mem_append.mpr (.inl (List.mem_map.mpr ⟨b, hb, rfl⟩))

theorem node?_eq_some_of_lt {g : Graph} {id : Nat} (h : id < g.size) :
    ∃ n, g.node? id = some n :=
  ⟨g.nodes[id], List.getElem?_eq_getElem h⟩

theorem lt_of_node? {g : Graph} {id : Nat} {n : Node} (h : g.node? id = some n) : id < g.size :=
  (List.getElem?_eq_some_iff.mp h).1

theorem mem_targets {g : Graph} {id next : Nat} :
    next ∈ g.targets id ↔ ∃ n, g.node? id = some n ∧ next ∈ n.successors ∧ next < g.size := by
  unfold targets
  cases g.node? id with
  | none => simp
  | some n => simp

theorem Reaches.lt {g : Graph} {id : Nat} (h : g.Reaches id) : id < g.size := by
  cases h with
  | entry h => exact h
  | step _ h =>
      obtain ⟨_, _, _, hlt⟩ := mem_targets.mp h
      exact hlt

theorem Reaches.node {g : Graph} {id : Nat} (h : g.Reaches id) : ∃ n, g.node? id = some n :=
  node?_eq_some_of_lt h.lt

theorem Reaches.successor {g : Graph} {id next : Nat} {n : Node} (h : g.Reaches id)
    (hn : g.node? id = some n) (hs : next ∈ n.successors) (hlt : next < g.size) :
    g.Reaches next :=
  h.step (mem_targets.mpr ⟨n, hn, hs, hlt⟩)

/-! ## The budget of the walk -/

def pending (g : Graph) (seen : List Nat) : Nat :=
  total ((List.range g.size).map fun id => if id ∈ seen then 0 else (g.targets id).length)

private theorem total_map_update (f f' : Nat → Nat) {list : List Nat} {id : Nat}
    (hnodup : list.Nodup) (hid : id ∈ list) (hzero : f' id = 0)
    (hrest : ∀ x ∈ list, x ≠ id → f' x = f x) :
    total (list.map f') + f id = total (list.map f) := by
  induction list with
  | nil => simp at hid
  | cons x xs ih =>
      obtain ⟨hx, hxs⟩ := List.nodup_cons.mp hnodup
      by_cases h : x = id
      · subst h
        have htail : xs.map f' = xs.map f := by
          apply List.map_congr_left
          intro y hy
          exact hrest y (by simp [hy]) (fun hyx => hx (hyx ▸ hy))
        simp [htail, hzero]
        omega
      · have hmem : id ∈ xs := by
          rcases List.mem_cons.mp hid with hid | hid
          · exact absurd hid.symm h
          · exact hid
        have htail := ih hxs hmem fun y hy => hrest y (by simp [hy])
        have hhead := hrest x (by simp) h
        simp only [List.map_cons, total_cons]
        omega

theorem pending_visit {g : Graph} {seen : List Nat} {id : Nat} (hlt : id < g.size)
    (hid : id ∉ seen) :
    g.pending (seen ++ [id]) + (g.targets id).length = g.pending seen := by
  have h := total_map_update (fun x => if x ∈ seen then 0 else (g.targets x).length)
    (fun x => if x ∈ seen ++ [id] then 0 else (g.targets x).length)
    List.nodup_range (List.mem_range.mpr hlt) (by simp) (by intro x _ hx; simp [hx])
  simpa [pending, hid] using h

theorem total_map_le {α : Type} {f f' : α → Nat} {list : List α}
    (h : ∀ x ∈ list, f x ≤ f' x) : total (list.map f) ≤ total (list.map f') := by
  induction list with
  | nil => simp
  | cons x xs ih =>
      have hhead := h x (by simp)
      have htail := ih fun y hy => h y (by simp [hy])
      simp only [List.map_cons, total_cons]
      omega

theorem pending_nil_lt_walkBound (g : Graph) : g.pending [] < g.walkBound := by
  have hedges : g.nodes.map (fun n => n.successors.length) =
      (List.range g.size).map fun id =>
        ((g.node? id).map fun n => n.successors.length).getD 0 := by
    apply List.ext_getElem?
    intro i
    by_cases h : i < g.nodes.length
    · simp [size, node?, h]
    · simp [size, h]
  unfold pending walkBound
  rw [hedges]
  apply Nat.lt_succ_of_le
  apply total_map_le
  intro id _
  unfold targets
  cases g.node? id with
  | none => simp
  | some n =>
      simp only [List.not_mem_nil, if_false, Option.map_some, Option.getD_some]
      exact List.length_filter_le _ _

/-! ## What the walk visits -/

theorem reaches_of_mem_walkFrom {g : Graph} {fuel : Nat} {stack seen : List Nat} {id : Nat}
    (hstack : ∀ x ∈ stack, g.Reaches x) (hseen : ∀ x ∈ seen, g.Reaches x)
    (h : id ∈ g.walkFrom fuel stack seen) : g.Reaches id := by
  fun_induction walkFrom g fuel stack seen with
  | case1 => exact hseen id h
  | case2 => exact hseen id h
  | case3 fuel x stack seen hx ih =>
      exact ih (fun y hy => hstack y (by simp [hy])) hseen h
  | case4 fuel x stack seen hx ih =>
      have hreach := hstack x (by simp)
      refine ih ?_ ?_ h
      · intro y hy
        rcases List.mem_append.mp hy with hy | hy
        · exact hreach.step hy
        · exact hstack y (by simp [hy])
      · intro y hy
        rcases List.mem_append.mp hy with hy | hy
        · exact hseen y hy
        · exact List.mem_singleton.mp hy ▸ hreach

theorem nodup_walkFrom {g : Graph} {fuel : Nat} {stack seen : List Nat} (h : seen.Nodup) :
    (g.walkFrom fuel stack seen).Nodup := by
  fun_induction walkFrom g fuel stack seen with
  | case1 => exact h
  | case2 => exact h
  | case3 fuel x stack seen hx ih => exact ih h
  | case4 fuel x stack seen hx ih =>
      refine ih (List.nodup_append.mpr ⟨h, by simp, ?_⟩)
      intro y hy z hz hyz
      exact hx (List.mem_singleton.mp hz ▸ hyz ▸ hy)

/--
With enough fuel the walk empties its stack: it keeps what it has seen, visits what is on the
stack, and with a node also its targets.
-/
theorem walkFrom_complete {g : Graph} {fuel : Nat} {stack seen : List Nat}
    (hbudget : stack.length + g.pending seen ≤ fuel) (hstack : ∀ x ∈ stack, x < g.size)
    (hclosed : ∀ x ∈ seen, ∀ y ∈ g.targets x, y ∈ seen ∨ y ∈ stack) :
    (∀ x, x ∈ seen ∨ x ∈ stack → x ∈ g.walkFrom fuel stack seen) ∧
      ∀ x ∈ g.walkFrom fuel stack seen, ∀ y ∈ g.targets x, y ∈ g.walkFrom fuel stack seen := by
  fun_induction walkFrom g fuel stack seen with
  | case1 stack seen =>
      have hempty : stack = [] := List.eq_nil_of_length_eq_zero (by omega)
      subst hempty
      exact ⟨by simp, by simpa using hclosed⟩
  | case2 => exact ⟨by simp, by simpa using hclosed⟩
  | case3 fuel x stack seen hx ih =>
      obtain ⟨hkeep, htargets⟩ := ih (by simp at hbudget; omega)
        (fun y hy => hstack y (by simp [hy]))
        (fun y hy z hz => by
          rcases hclosed y hy z hz with h | h
          · exact .inl h
          · rcases List.mem_cons.mp h with rfl | h
            · exact .inl hx
            · exact .inr h)
      refine ⟨?_, htargets⟩
      intro y hy
      rcases hy with hy | hy
      · exact hkeep y (.inl hy)
      · rcases List.mem_cons.mp hy with rfl | hy
        · exact hkeep y (.inl hx)
        · exact hkeep y (.inr hy)
  | case4 fuel x stack seen hx ih =>
      have hvisit := pending_visit (hstack x (by simp)) hx
      obtain ⟨hkeep, htargets⟩ := ih
        (by simp only [List.length_append, List.length_cons] at hbudget ⊢; omega)
        (fun y hy => by
          rcases List.mem_append.mp hy with hy | hy
          · obtain ⟨_, _, _, hlt⟩ := mem_targets.mp hy
            exact hlt
          · exact hstack y (by simp [hy]))
        (fun y hy z hz => by
          rcases List.mem_append.mp hy with hy | hy
          · rcases hclosed y hy z hz with h | h
            · exact .inl (by simp [h])
            · rcases List.mem_cons.mp h with rfl | h
              · exact .inl (by simp)
              · exact .inr (by simp [h])
          · rw [List.mem_singleton.mp hy] at hz
            exact .inr (by simp [hz]))
      refine ⟨?_, htargets⟩
      intro y hy
      rcases hy with hy | hy
      · exact hkeep y (.inl (by simp [hy]))
      · rcases List.mem_cons.mp hy with rfl | hy
        · exact hkeep y (.inl (by simp))
        · exact hkeep y (.inr (by simp [hy]))

theorem walkFrom_add {g : Graph} {fuel : Nat} {stack seen : List Nat}
    (hbudget : stack.length + g.pending seen ≤ fuel) (hstack : ∀ x ∈ stack, x < g.size)
    (extra : Nat) : g.walkFrom (fuel + extra) stack seen = g.walkFrom fuel stack seen := by
  fun_induction walkFrom g fuel stack seen with
  | case1 stack seen =>
      obtain rfl : stack = [] := List.eq_nil_of_length_eq_zero (by omega)
      cases extra <;> simp [walkFrom]
  | case2 fuel seen => simp [Nat.succ_add, walkFrom]
  | case3 fuel x stack seen hx ih =>
      simp only [List.length_cons] at hbudget
      rw [Nat.succ_add, walkFrom, if_pos hx]
      exact ih (by omega) fun y hy => hstack y (by simp [hy])
  | case4 fuel x stack seen hx ih =>
      have hvisit := pending_visit (hstack x (by simp)) hx
      simp only [List.length_cons] at hbudget
      rw [Nat.succ_add, walkFrom, if_neg hx]
      refine ih (by simp only [List.length_append]; omega) ?_
      intro y hy
      rcases List.mem_append.mp hy with hy | hy
      · obtain ⟨_, _, _, hlt⟩ := mem_targets.mp hy
        exact hlt
      · exact hstack y (by simp [hy])

theorem reachable_eq_walkFrom {g : Graph} (hentry : g.entry < g.size) {fuel : Nat}
    (hfuel : g.walkBound ≤ fuel) : g.reachable = g.walkFrom fuel [g.entry] [] := by
  have hbudget : [g.entry].length + g.pending [] ≤ g.walkBound := by
    have := g.pending_nil_lt_walkBound
    simp only [List.length_singleton]
    omega
  obtain ⟨extra, rfl⟩ := Nat.exists_eq_add_of_le hfuel
  rw [walkFrom_add hbudget (by simpa using hentry), reachable, if_pos hentry]

theorem mem_reachable {g : Graph} {id : Nat} : id ∈ g.reachable ↔ g.Reaches id := by
  unfold reachable
  by_cases hentry : g.entry < g.size
  · rw [if_pos hentry]
    constructor
    · intro h
      refine reaches_of_mem_walkFrom ?_ (by simp) h
      intro x hx
      exact List.mem_singleton.mp hx ▸ .entry hentry
    · have hbudget : [g.entry].length + g.pending [] ≤ g.walkBound := by
        have := g.pending_nil_lt_walkBound
        simp only [List.length_singleton]
        omega
      obtain ⟨hkeep, htargets⟩ := walkFrom_complete hbudget (by simpa using hentry) (by simp)
      intro h
      induction h with
      | entry => exact hkeep _ (by simp)
      | step _ hnext ih => exact htargets _ ih _ hnext
  · rw [if_neg hentry]
    constructor
    · simp
    · intro h
      induction h with
      | entry h => exact absurd h hentry
      | step _ _ ih => simp at ih

theorem nodup_reachable (g : Graph) : g.reachable.Nodup := by
  unfold reachable
  split
  · exact nodup_walkFrom (by simp)
  · simp

theorem walkFrom_eq_append (g : Graph) (fuel : Nat) (stack seen : List Nat) :
    ∃ rest, g.walkFrom fuel stack seen = seen ++ rest := by
  fun_induction walkFrom g fuel stack seen with
  | case1 stack seen => exact ⟨[], by simp⟩
  | case2 fuel seen => exact ⟨[], by simp⟩
  | case3 fuel id stack seen hmem ih => exact ih
  | case4 fuel id stack seen hmem ih =>
      obtain ⟨rest, hrest⟩ := ih
      exact ⟨id :: rest, by simp [hrest]⟩

theorem reachable_eq_cons {g : Graph} (h : g.entry < g.size) :
    ∃ rest, g.reachable = g.entry :: rest := by
  unfold reachable walkBound
  rw [if_pos h]
  exact g.walkFrom_eq_append _ _ [g.entry]

theorem mem_reachableNodes {g : Graph} {id : Nat} {n : Node} :
    (id, n) ∈ g.reachableNodes ↔ g.Reaches id ∧ g.node? id = some n := by
  unfold reachableNodes
  simp only [List.mem_filterMap, Option.map_eq_some_iff, Prod.mk.injEq]
  constructor
  · rintro ⟨x, hx, m, hm, rfl, rfl⟩
    exact ⟨mem_reachable.mp hx, hm⟩
  · rintro ⟨hreach, hn⟩
    exact ⟨id, mem_reachable.mpr hreach, n, hn, rfl, rfl⟩

/-!
## Predecessors

The edges of one node are noted together, so a list in which the node stands already ends with it.
Hence every list holds the reachable nodes with an edge to its node, and each of them once.
-/

section Predecessors

variable {g : Graph}

theorem length_noteEdges (id : Nat) (edges : List Nat) (lists : List (List Nat)) :
    (edges.foldl (noteEdge id) lists).length = lists.length := by
  induction edges generalizing lists with
  | nil => rfl
  | cons target rest ih => rw [List.foldl_cons, ih, noteEdge, List.length_modify]

theorem getElem?_noteEdges {id x : Nat} {list : List Nat} {lists : List (List Nat)}
    (hnew : id ∉ list) (hlist : lists[x]? = some list) (edges : List Nat) :
    (edges.foldl (noteEdge id) lists)[x]? = some (if x ∈ edges then list ++ [id] else list) := by
  induction edges using List.reverseRecOn with
  | nil => simpa using hlist
  | append_singleton rest target ih =>
      rw [List.foldl_append, List.foldl_cons, List.foldl_nil, noteEdge, List.getElem?_modify, ih]
      have hlast : list.getLast? ≠ some id := fun h => hnew (List.mem_of_getLast? h)
      by_cases htarget : target = x
      · subst htarget
        by_cases hmem : target ∈ rest <;> simp [hmem, hlast]
      · simp [htarget, Ne.symm htarget]

theorem getElem?_noteNodes {order : List Nat} (horder : order.Nodup) {x : Nat} (hx : x < g.size) :
    ((order.filterMap fun id => (g.node? id).map fun n => (id, n)).foldl
        (fun lists p => p.2.successors.foldl (noteEdge p.1) lists)
        (List.replicate g.size []))[x]? =
      some (order.filter fun id => (g.targets id).contains x) := by
  induction order using List.reverseRecOn with
  | nil => simp [hx]
  | append_singleton rest id ih =>
      obtain ⟨hrest, _, hapart⟩ := List.nodup_append.mp horder
      rw [List.filterMap_append, List.foldl_append, List.filter_append]
      cases hnode : g.node? id with
      | none =>
          have htargets : g.targets id = [] := by simp [targets, hnode]
          simpa [hnode, htargets] using ih hrest
      | some n =>
          have hnew : id ∉ rest.filter fun id => (g.targets id).contains x :=
            fun hmem => hapart id (List.mem_filter.mp hmem).1 id (by simp) rfl
          have hedge : x ∈ g.targets id ↔ x ∈ n.successors := by simp [mem_targets, hnode, hx]
          have hadded := getElem?_noteEdges hnew (ih hrest) n.successors
          by_cases hmem : x ∈ n.successors <;> simpa [hnode, hedge, hmem] using hadded

theorem length_predecessorLists (g : Graph) : g.predecessorLists.length = g.size := by
  unfold predecessorLists
  induction g.reachableNodes using List.reverseRecOn with
  | nil => simp
  | append_singleton rest p ih =>
      rw [List.foldl_append, List.foldl_cons, List.foldl_nil, length_noteEdges, ih]

theorem getElem?_predecessorLists {x : Nat} (hx : x < g.size) :
    g.predecessorLists[x]? = some (g.reachable.filter fun id => (g.targets id).contains x) :=
  getElem?_noteNodes g.nodup_reachable hx

theorem predecessors_eq_filter (g : Graph) (x : Nat) :
    g.predecessors x = g.reachable.filter fun id => (g.targets id).contains x := by
  rw [predecessors, List.getD_eq_getElem?_getD]
  by_cases hx : x < g.size
  · rw [getElem?_predecessorLists hx, Option.getD_some]
  · have hnone : g.predecessorLists[x]? = none :=
      List.getElem?_eq_none_iff.mpr (by rw [length_predecessorLists]; omega)
    have hempty : ∀ id, x ∉ g.targets id := by
      intro id hmem
      obtain ⟨_, _, _, hlt⟩ := mem_targets.mp hmem
      exact hx hlt
    simp [hnone, hempty]

end Predecessors

/-! ## Graphs with the same edges -/

/-- Two graphs that differ in nothing but what their nodes do. -/
structure SameShape (g g' : Graph) : Prop where
  size : g'.size = g.size
  entry : g'.entry = g.entry
  exit : g'.exit = g.exit
  node : ∀ id n, g.node? id = some n →
    ∃ n', g'.node? id = some n' ∧ n'.successors = n.successors ∧ n'.follower = n.follower

theorem SameShape.trans {g g' g'' : Graph} (h : SameShape g g') (h' : SameShape g' g'') :
    SameShape g g'' where
  size := h'.size.trans h.size
  entry := h'.entry.trans h.entry
  exit := h'.exit.trans h.exit
  node := by
    intro id n hn
    obtain ⟨n', hn', hsuccessors, hfollower⟩ := h.node id n hn
    obtain ⟨n'', hn'', hsuccessors', hfollower'⟩ := h'.node id n' hn'
    exact ⟨n'', hn'', hsuccessors'.trans hsuccessors, hfollower'.trans hfollower⟩

theorem SameShape.node_back {g g' : Graph} (h : SameShape g g') {id : Nat} {n' : Node}
    (hn' : g'.node? id = some n') :
    ∃ n, g.node? id = some n ∧ n'.successors = n.successors ∧ n'.follower = n.follower := by
  obtain ⟨n, hn⟩ := node?_eq_some_of_lt (h.size ▸ lt_of_node? hn')
  obtain ⟨m, hm, hsuccessors, hfollower⟩ := h.node id n hn
  cases hn'.symm.trans hm
  exact ⟨n, hn, hsuccessors, hfollower⟩

theorem SameShape.reaches_iff {g g' : Graph} (h : SameShape g g') {id : Nat} :
    g'.Reaches id ↔ g.Reaches id := by
  constructor
  · intro hreach
    induction hreach with
    | entry hlt => exact h.entry ▸ .entry (by rw [← h.entry, ← h.size]; exact hlt)
    | step _ hnext ih =>
        obtain ⟨n', hn', hs, hlt⟩ := mem_targets.mp hnext
        obtain ⟨n, hn, hsuccessors, _⟩ := h.node_back hn'
        exact ih.successor hn (hsuccessors ▸ hs) (h.size ▸ hlt)
  · intro hreach
    induction hreach with
    | entry hlt => exact h.entry ▸ .entry (by rw [h.entry, h.size]; exact hlt)
    | step _ hnext ih =>
        obtain ⟨n, hn, hs, hlt⟩ := mem_targets.mp hnext
        obtain ⟨n', hn', hsuccessors, _⟩ := h.node _ n hn
        exact ih.successor hn' (hsuccessors ▸ hs) (h.size ▸ hlt)

end KernelAlgebra.Graph
