import KernelAlgebra.Proofs.Graph.Reachability
import Mathlib.Data.Finset.Card

/-!
# The order of the walk

Depth-first visits are a recursion: a node, then everything below it, then what is left.  The walk
has a stack instead, which may hold a node several times, and marks a node when it comes off the
stack.  It ends all the same, and it visits the nodes in the order of the recursion.
-/

namespace KernelAlgebra.Graph

variable {g : Graph} {roots seen new : List Nat}

/-! ## Depth-first visits -/

/--
Depth-first visits from some roots, one after the other, after others have been seen: what they
add, in order.  Behind a node come the visits from its branch targets and then from its follower.
-/
inductive Visits (g : Graph) : List Nat → List Nat → List Nat → Prop
  | done {seen : List Nat} : Visits g [] seen []
  | outside {id : Nat} {roots seen new : List Nat} :
      g.size ≤ id → Visits g roots seen new → Visits g (id :: roots) seen new
  | again {id : Nat} {roots seen new : List Nat} :
      id ∈ seen → Visits g roots seen new → Visits g (id :: roots) seen new
  | visit {id : Nat} {n : Node} {roots seen below later : List Nat} :
      id ∉ seen → g.node? id = some n →
      Visits g (n.branches.map Branch.target ++ n.follower.toList) (seen ++ [id]) below →
      Visits g roots (seen ++ id :: below) later →
      Visits g (id :: roots) seen (id :: below ++ later)

theorem Visits.unique {new' : List Nat} (h : g.Visits roots seen new)
    (h' : g.Visits roots seen new') : new = new' := by
  induction h generalizing new' with
  | done =>
      cases h'
      rfl
  | outside hlarge _ ih =>
      cases h' with
      | outside _ hrest => exact ih hrest
      | again _ hrest => exact ih hrest
      | visit _ hnode => exact absurd (lt_of_node? hnode) (Nat.not_lt.mpr hlarge)
  | again hseen _ ih =>
      cases h' with
      | outside _ hrest => exact ih hrest
      | again _ hrest => exact ih hrest
      | visit hunseen => exact absurd hseen hunseen
  | visit hunseen hnode _ _ ihbelow ihlater =>
      cases h' with
      | outside hlarge => exact absurd (lt_of_node? hnode) (Nat.not_lt.mpr hlarge)
      | again hseen => exact absurd hseen hunseen
      | visit _ hnode' hbelow hlater =>
          cases hnode.symm.trans hnode'
          obtain rfl := ihbelow hbelow
          rw [ihlater hlater]

def unseen (g : Graph) (seen : List Nat) : Finset Nat :=
  (Finset.range g.size).filter (· ∉ seen)

theorem unseen_ssubset {seen' : List Nat} {id : Nat} (hlt : id < g.size) (hid : id ∉ seen)
    (hsub : seen ⊆ seen') (hid' : id ∈ seen') : g.unseen seen' ⊂ g.unseen seen := by
  have hsubset : g.unseen seen' ⊆ g.unseen seen :=
    Finset.monotone_filter_right _ fun x _ hx hmem => hx (hsub hmem)
  refine (Finset.ssubset_iff_of_subset hsubset).mpr ⟨id, ?_, ?_⟩
  · simp [unseen, hlt, hid]
  · simp [unseen, hid']

theorem exists_visits (g : Graph) (roots seen : List Nat) : ∃ new, g.Visits roots seen new := by
  induction hrest : g.unseen seen using Finset.strongInduction generalizing roots seen with
  | _ rest ih =>
      subst hrest
      induction roots with
      | nil => exact ⟨[], .done⟩
      | cons id roots ihroots =>
          obtain ⟨new, hnew⟩ := ihroots
          by_cases hseen : id ∈ seen
          · exact ⟨new, .again hseen hnew⟩
          cases hnode : g.node? id with
          | none => exact ⟨new, .outside (List.getElem?_eq_none_iff.mp hnode) hnew⟩
          | some n =>
              have hlt := lt_of_node? hnode
              obtain ⟨below, hbelow⟩ := ih _ (unseen_ssubset hlt hseen (by simp) (by simp))
                (n.branches.map Branch.target ++ n.follower.toList) (seen ++ [id]) rfl
              obtain ⟨later, hlater⟩ := ih _ (unseen_ssubset hlt hseen (by simp) (by simp))
                roots (seen ++ id :: below) rfl
              exact ⟨_, .visit hseen hnode hbelow hlater⟩

/-! ## The walk with fuel -/

theorem targets_of_node? {id : Nat} {n : Node} (h : g.node? id = some n) :
    g.targets id = (n.branches.map Branch.target ++ n.follower.toList).filter (· < g.size) := by
  simp only [targets, h, Node.successors]

theorem Visits.walkFrom (h : g.Visits roots seen new) :
    ∃ steps, ∀ fuel stack, g.walkFrom (fuel + steps) (roots.filter (· < g.size) ++ stack) seen =
      g.walkFrom fuel stack (seen ++ new) := by
  induction h with
  | done => exact ⟨0, by simp⟩
  | outside hlarge _ ih =>
      obtain ⟨steps, hsteps⟩ := ih
      exact ⟨steps, by simpa [Nat.not_lt.mpr hlarge] using hsteps⟩
  | @again id roots seen new hseen _ ih =>
      obtain ⟨steps, hsteps⟩ := ih
      by_cases hlt : id < g.size
      · refine ⟨steps + 1, fun fuel stack => ?_⟩
        rw [List.filter_cons_of_pos (by simpa using hlt), List.cons_append, ← Nat.add_assoc,
          Graph.walkFrom, if_pos hseen, hsteps]
      · exact ⟨steps, by simpa [hlt] using hsteps⟩
  | @visit id n roots seen below later hunseen hnode _ _ ihbelow ihlater =>
      obtain ⟨stepsBelow, hbelow⟩ := ihbelow
      obtain ⟨stepsLater, hlater⟩ := ihlater
      refine ⟨stepsLater + stepsBelow + 1, fun fuel stack => ?_⟩
      rw [List.filter_cons_of_pos (by simpa using lt_of_node? hnode), List.cons_append,
        ← Nat.add_assoc, Graph.walkFrom, if_neg hunseen, targets_of_node? hnode, ← Nat.add_assoc,
        hbelow, List.append_assoc, List.singleton_append, hlater, List.append_assoc]

theorem visits_reachable (hentry : g.entry < g.size) : g.Visits [g.entry] [] g.reachable := by
  obtain ⟨new, hnew⟩ := g.exists_visits [g.entry] []
  obtain ⟨steps, hsteps⟩ := hnew.walkFrom
  have hall : g.reachable = new := by
    have hrun := hsteps g.walkBound []
    rw [List.filter_cons_of_pos (by simpa using hentry)] at hrun
    rw [reachable_eq_walkFrom hentry (Nat.le_add_right _ steps)]
    simpa [walkBound, Graph.walkFrom] using hrun
  exact hall ▸ hnew

/-! ## The walk without fuel -/

/--
The walk goes on until its stack is empty, and has then seen the last list, in order.  It takes
the top of the stack off and pushes its targets, but not those that have been seen already.
-/
inductive WalkEnds (g : Graph) : List Nat → List Nat → List Nat → Prop
  | done {seen : List Nat} : WalkEnds g [] seen seen
  | again {id : Nat} {stack seen visited : List Nat} :
      id ∈ seen → WalkEnds g stack seen visited → WalkEnds g (id :: stack) seen visited
  | visit {id : Nat} {stack seen visited : List Nat} :
      id ∉ seen →
      WalkEnds g ((g.targets id).filter (· ∉ seen ++ [id]) ++ stack) (seen ++ [id]) visited →
      WalkEnds g (id :: stack) seen visited

namespace WalkEnds

variable {stack pushed visited visited' : List Nat}

theorem unique (h : g.WalkEnds stack seen visited) (h' : g.WalkEnds stack seen visited') :
    visited = visited' := by
  induction h with
  | done =>
      cases h'
      rfl
  | again hseen _ ih =>
      cases h' with
      | again _ hrest => exact ih hrest
      | visit hunseen => exact absurd hseen hunseen
  | visit hunseen _ ih =>
      cases h' with
      | again hseen => exact absurd hseen hunseen
      | visit _ hrest => exact ih hrest

theorem skip (hseen : ∀ x ∈ pushed, x ∈ seen) (h : g.WalkEnds stack seen visited) :
    g.WalkEnds (pushed ++ stack) seen visited := by
  induction pushed with
  | nil => exact h
  | cons x rest ih => exact .again (hseen x (by simp)) (ih fun y hy => hseen y (by simp [hy]))

/--
The nodes that were pushed for the roots are the roots but for nodes that have been seen by now.
More and more of them have been, since the nodes above them on the stack come first.
-/
theorem of_visits (h : g.Visits roots seen new)
    (hpushed : pushed.filter (· ∉ seen) = (roots.filter (· < g.size)).filter (· ∉ seen))
    (hends : g.WalkEnds stack (seen ++ new) visited) :
    g.WalkEnds (pushed ++ stack) seen visited := by
  induction h generalizing pushed stack with
  | done =>
      rw [List.append_nil] at hends
      exact hends.skip (by simpa using hpushed)
  | outside hlarge _ ih => exact ih (by simpa [Nat.not_lt.mpr hlarge] using hpushed) hends
  | again hseen _ ih =>
      refine ih (hpushed.trans ?_) hends
      rw [List.filter_cons]
      split <;> simp [hseen]
  | @visit id n roots seen below later hunseen hnode _ _ ihbelow ihlater =>
      rw [List.filter_cons_of_pos (by simpa using lt_of_node? hnode),
        List.filter_cons_of_pos (by simpa using hunseen)] at hpushed
      obtain ⟨before, behind, rfl, hbefore, _, hbehind⟩ := List.filter_eq_cons_iff.mp hpushed
      rw [List.append_assoc, List.cons_append]
      refine skip (by simpa using hbefore) (.visit hunseen (ihbelow ?_ ?_))
      · rw [targets_of_node? hnode, List.filter_filter]
        simp
      · rw [List.append_assoc, List.singleton_append]
        refine ihlater ?_ (by simpa using hends)
        have hlater := congrArg (List.filter (· ∉ id :: below)) hbehind
        simpa only [List.filter_filter, List.mem_append, not_or, Bool.decide_and,
          Bool.and_comm, Bool.and_assoc, Bool.and_left_comm] using hlater

end WalkEnds

theorem walkEnds_reachable (hentry : g.entry < g.size) :
    g.WalkEnds [g.entry] [] g.reachable := by
  have hpushed : [g.entry].filter (· ∉ ([] : List Nat)) =
      ([g.entry].filter (· < g.size)).filter (· ∉ []) := by simp [hentry]
  exact .of_visits (visits_reachable hentry) hpushed .done

/-! ## The nodes that are visited -/

theorem mem_predecessorLists {id : Nat} {list : List Nat}
    (hlist : g.predecessorLists[id]? = some list) :
    list.Nodup ∧ ∀ x, x ∈ list ↔ g.Reaches x ∧ ∃ n, g.node? x = some n ∧ id ∈ n.successors := by
  have hlt : id < g.size := g.length_predecessorLists ▸ (List.getElem?_eq_some_iff.mp hlist).1
  obtain rfl := Option.some.inj (hlist.symm.trans (getElem?_predecessorLists hlt))
  refine ⟨g.nodup_reachable.filter _, fun x => ?_⟩
  simp [mem_reachable, mem_targets, hlt]

/--
From an entry in the arena the walk ends, wherever other edges lead.  It visits the reachable nodes,
each of them once, depth first and the branches of a node before its follower.  The list of a node
holds the reachable nodes with an edge to it, each of them once.
-/
theorem walk_is_depth_first (hentry : g.entry < g.size) :
    (∀ visited, g.WalkEnds [g.entry] [] visited ↔ visited = g.reachable) ∧
      (∀ visited, g.Visits [g.entry] [] visited ↔ visited = g.reachable) ∧
      g.reachable.Nodup ∧ (∀ id, id ∈ g.reachable ↔ g.Reaches id) ∧
      g.predecessorLists.length = g.size ∧
      ∀ id list, g.predecessorLists[id]? = some list → list.Nodup ∧
        ∀ x, x ∈ list ↔ g.Reaches x ∧ ∃ n, g.node? x = some n ∧ id ∈ n.successors := by
  have hwalk := walkEnds_reachable hentry
  have hvisits := visits_reachable hentry
  refine ⟨fun _ => ⟨fun h => h.unique hwalk, ?_⟩, fun _ => ⟨fun h => h.unique hvisits, ?_⟩,
    g.nodup_reachable, fun _ => mem_reachable, g.length_predecessorLists,
    fun _ _ => mem_predecessorLists⟩
  · rintro rfl
    exact hwalk
  · rintro rfl
    exact hvisits

/--
Two branches of the entry lead to one node, a third one leads outside, and the node between entry
and exit is pushed twice.  Nothing reaches the last node.
-/
def tangled : Graph :=
  let cond := View.full ⟨1, .input, 1, .float32, .attrib, "x", []⟩
  ⟨[⟨[], [⟨cond, 2⟩, ⟨cond, 9⟩, ⟨cond, 2⟩], some 1⟩, .straight [] 3, ⟨[], [⟨cond, 0⟩], some 1⟩,
    .empty, .straight [] 3], 0, 3⟩

theorem walk_is_depth_first_tangled : tangled.entry < tangled.size ∧
    tangled.WalkEnds [0] [] [0, 2, 1, 3] ∧ tangled.Visits [0] [] [0, 2, 1, 3] ∧
      ¬ tangled.Reaches 4 ∧ tangled.predecessorLists = [[2], [0, 2], [0], [1], []] := by
  have hentry : tangled.entry < tangled.size := by decide
  have hreachable : tangled.reachable = [0, 2, 1, 3] := rfl
  obtain ⟨hwalk, hvisits, _, hmem, _⟩ := walk_is_depth_first hentry
  refine ⟨hentry, (hwalk _).mpr rfl, (hvisits _).mpr rfl, fun hreach => ?_, rfl⟩
  have hnot := (hmem 4).mpr hreach
  rw [hreachable] at hnot
  exact absurd hnot (by decide)

end KernelAlgebra.Graph
