import KernelAlgebra.Proofs.Graph.Sequence
import KernelAlgebra.Proofs.Optimizer.Basic

/-!
# Compaction only renumbers

Compaction puts the node that the walk visits as the `j`-th one at place `j` and points every edge
to the place of its old target.  A run then visits the same nodes under their new numbers, so it
gives the same result, or fails for the same reason at the new number of the node.
-/

namespace KernelAlgebra

namespace Graph

/-- The node with every edge pointing to the place of its old target. -/
structure Relinked (order : List Nat) (n n' : Node) : Prop where
  block : n'.block = n.block
  branches : List.Forall₂
    (fun b' b => b'.cond = b.cond ∧ order[b'.target]? = some b.target) n'.branches n.branches
  follower : Option.Rel (fun x' x => order[x']? = some x) n'.follower n.follower

/-- The second graph holds the listed nodes of the first one, in this order, and no others. -/
structure Arranged (order : List Nat) (g g' : Graph) : Prop where
  size : g'.size = order.length
  entry : order[g'.entry]? = some g.entry
  exit : order[g'.exit]? = some g.exit
  node : ∀ j id, order[j]? = some id →
    ∃ n n', g.node? id = some n ∧ g'.node? j = some n' ∧ Relinked order n n'

variable {g : Graph} {id : Nat} {n : Node}

/-! ## Places in the walk -/

def walkIndex (g : Graph) (id : Nat) : Nat := g.reachable.idxOf id

theorem getElem?_walkIndex (hreach : g.Reaches id) : g.reachable[g.walkIndex id]? = some id :=
  List.getElem?_idxOf (mem_reachable.mpr hreach)

theorem walkIndex_injective {x y : Nat} (hx : g.Reaches x) (hy : g.Reaches y)
    (h : g.walkIndex x = g.walkIndex y) : x = y := by
  have hget := getElem?_walkIndex hx
  rw [h, getElem?_walkIndex hy] at hget
  exact (Option.some.inj hget).symm

theorem walkIndex_of_getElem? {j : Nat} (h : g.reachable[j]? = some id) : g.walkIndex id = j := by
  obtain ⟨hlt, rfl⟩ := List.getElem?_eq_some_iff.mp h
  exact g.nodup_reachable.idxOf_getElem j hlt

theorem newId_eq_walkIndex (hsound : g.Sound) (hreach : g.Reaches id) :
    newId g.kept id = g.walkIndex id := by
  have hmem := mem_reachable.mpr hreach
  rw [kept_eq_reachable hsound]
  exact (walkIndex_of_getElem? (idxOf?_of_mem hmem).2).symm

theorem renumber_eq_relocated (hsound : g.Sound) (hreach : g.Reaches id)
    (hn : g.node? id = some n) : renumber g.kept n = relocated g.walkIndex n := by
  have hindex : ∀ x ∈ n.successors, newId g.kept x = g.walkIndex x := fun x hx =>
    newId_eq_walkIndex hsound (hreach.of_mem_successors hsound hn hx)
  have hbranches : n.branches.map (fun b => { b with target := newId g.kept b.target }) =
      n.branches.map fun b => { b with target := g.walkIndex b.target } :=
    List.map_congr_left fun b hb => by rw [hindex b.target (target_mem_successors hb)]
  have hfollower : n.follower.map (newId g.kept) = n.follower.map g.walkIndex :=
    Option.map_congr fun x hx => hindex x (by simp [Node.successors, hx])
  have hnode : renumber g.kept n =
      { n with branches := (renumber g.kept n).branches,
               follower := (renumber g.kept n).follower } := rfl
  rw [hnode, follower_renumber hsound hreach hn, hfollower]
  exact congrArg (fun bs => Node.mk n.block bs (n.follower.map g.walkIndex)) hbranches

theorem node?_compact_walkIndex (hsound : g.Sound) (hreach : g.Reaches id)
    (hn : g.node? id = some n) :
    g.compact.node? (g.walkIndex id) = some (relocated g.walkIndex n) := by
  rw [← newId_eq_walkIndex hsound hreach, node?_compact_newId hsound hreach hn,
    renumber_eq_relocated hsound hreach hn]

/-! ## The compacted graph -/

theorem relinked_relocated (hsound : g.Sound) (hreach : g.Reaches id)
    (hn : g.node? id = some n) : Relinked g.reachable n (relocated g.walkIndex n) where
  block := rfl
  branches := by
    simp only [relocated, List.forall₂_map_left_iff]
    refine List.forall₂_same.mpr fun b hb => ⟨rfl, getElem?_walkIndex ?_⟩
    exact hreach.of_mem_successors hsound hn (target_mem_successors hb)
  follower := by
    cases hfollower : n.follower with
    | none => simp [relocated, hfollower]
    | some x =>
        have hx : x ∈ n.successors := by simp [Node.successors, hfollower]
        simpa [relocated, hfollower] using
          getElem?_walkIndex (hreach.of_mem_successors hsound hn hx)

theorem entry_compact (hsound : g.Sound) : g.compact.entry = 0 := by
  obtain ⟨rest, hrest⟩ := reachable_eq_cons hsound.entry_lt
  change newId g.kept g.entry = 0
  rw [newId_eq_walkIndex hsound (.entry hsound.entry_lt)]
  exact walkIndex_of_getElem? (by rw [hrest]; rfl)

theorem exit_compact (hsound : g.Sound) : g.compact.exit = g.walkIndex g.exit :=
  newId_eq_walkIndex hsound hsound.exit_reached

theorem arranged_compact (hsound : g.Sound) : Arranged g.reachable g g.compact where
  size := by rw [size_compact hsound, kept_eq_reachable hsound]
  entry := by
    obtain ⟨rest, hrest⟩ := reachable_eq_cons hsound.entry_lt
    rw [entry_compact hsound, hrest]
    rfl
  exit := by
    rw [exit_compact hsound]
    exact getElem?_walkIndex hsound.exit_reached
  node := by
    intro j id hid
    have hreach : g.Reaches id := mem_reachable.mp (List.mem_of_getElem? hid)
    obtain ⟨n, hn⟩ := hreach.node
    refine ⟨n, relocated g.walkIndex n, hn, ?_, relinked_relocated hsound hreach hn⟩
    rw [← walkIndex_of_getElem? hid]
    exact node?_compact_walkIndex hsound hreach hn

theorem tryCompact_of_sound (hsound : g.Sound) : g.tryCompact = .ok g.compact := by
  rw [tryCompact, if_pos (Program.isClosed_of_sound hsound)]

end Graph

/-! ## Runs -/

namespace Machine

variable {u : Overrides} {st : Store} {f : Nat → Nat}

def RunError.renumbered (f : Nat → Nat) : RunError → RunError
  | .unsupported node index i fault => .unsupported (f node) index i fault
  | .noSuccessor node => .noSuccessor (f node)
  | .noSuchNode id count => .noSuchNode (f id) count
  | e => e

theorem execBlock_renumbered (f : Nat → Nat) (id k : Nat) (block : Block) (st : Store) :
    execBlock u (f id) k block st =
      (execBlock u id k block st).mapError (RunError.renumbered f) := by
  induction block generalizing k st with
  | nil => rfl
  | cons i rest ih =>
      simp only [execBlock]
      cases exec u st i with
      | error fault => cases fault <;> rfl
      | ok o =>
          obtain ⟨st', killed⟩ := o
          cases killed with
          | true => rfl
          | false => exact ih (k + 1) st'

theorem next_renumbered {count count' id : Nat} {follower : Option Nat} {branches : List Branch}
    (htarget : ∀ b ∈ branches, b.target < count ∧ f b.target < count') :
    next u st count' (f id) (follower.map f)
        (branches.map fun b => { b with target := f b.target }) =
      ((next u st count id follower branches).map f).mapError (RunError.renumbered f) := by
  induction branches with
  | nil => cases follower <;> rfl
  | cons b rest ih =>
      obtain ⟨hlt, hlt'⟩ := htarget b (by simp)
      have hrest := ih fun c hc => htarget c (by simp [hc])
      have hholds : holds u st { b with target := f b.target } = holds u st b := rfl
      simp only [List.map_cons, next, Graph.follower?_of_lt hlt, Graph.follower?_of_lt hlt',
        hholds]
      cases holds u st b with
      | none => rfl
      | some way =>
          cases way with
          | true => rfl
          | false => exact hrest

variable {g : Graph}

theorem visit_compact (hsound : g.Sound) {limit fuel steps id : Nat} (hreach : g.Reaches id) :
    visit g.compact u limit fuel steps (g.walkIndex id) st =
      (visit g u limit fuel steps id st).mapError (RunError.renumbered g.walkIndex) := by
  induction fuel generalizing steps id st with
  | zero => rfl
  | succ fuel ih =>
      obtain ⟨n, hn⟩ := hreach.node
      have hexit : g.walkIndex id = g.compact.exit ↔ id = g.exit := by
        rw [Graph.exit_compact hsound]
        exact ⟨Graph.walkIndex_injective hreach hsound.exit_reached, fun h => h ▸ rfl⟩
      simp only [visit, hn, Graph.node?_compact_walkIndex hsound hreach hn, Graph.relocated,
        execBlock_renumbered, hexit]
      cases execBlock u id 0 n.block st with
      | error e => rfl
      | ok o =>
          obtain ⟨st', killed⟩ := o
          cases killed with
          | true => rfl
          | false =>
              by_cases hid : id = g.exit
              · simp only [Except.mapError, if_pos hid]
              · have htarget : ∀ b ∈ n.branches,
                    b.target < g.size ∧ g.walkIndex b.target < g.compact.size := by
                  intro b hb
                  have hto := hreach.of_mem_successors hsound hn (Graph.target_mem_successors hb)
                  obtain ⟨m, hm⟩ := hto.node
                  exact ⟨hto.lt, Graph.lt_of_node? (Graph.node?_compact_walkIndex hsound hto hm)⟩
                simp only [Except.mapError, if_neg hid, next_renumbered htarget]
                cases hnext : next u st' g.size id n.follower n.branches with
                | error e => rfl
                | ok target =>
                    exact ih (hreach.of_mem_successors hsound hn (mem_successors_of_next hnext))

theorem renumbered_of_load {list : List Symbol} {values : List (List Float)} {e : RunError}
    (h : load list values st = .error e) (f : Nat → Nat) : e.renumbered f = e := by
  induction list generalizing values st with
  | nil => cases h
  | cons s rest ih =>
      cases values with
      | nil => cases h
      | cons xs more =>
          simp only [load] at h
          split at h
          · cases h
            rfl
          · split at h
            · cases h
              rfl
            · exact ih h

theorem renumbered_of_start {i : Interface} {inputs : List (List Float)} {e : RunError}
    (h : start i inputs = .error e) (f : Nat → Nat) : e.renumbered f = e := by
  unfold start at h
  split at h
  · cases h
    rfl
  · exact renumbered_of_load h f

theorem runWithin_compact {p : Program} (hsound : p.graph.Sound) (inputs : List (List Float))
    (u : Overrides) (limit : Nat) :
    runWithin { p with graph := p.graph.compact } inputs u limit =
      (runWithin p inputs u limit).mapError (RunError.renumbered p.graph.walkIndex) := by
  have hentry : p.graph.compact.entry = p.graph.walkIndex p.graph.entry :=
    Graph.newId_eq_walkIndex hsound (.entry hsound.entry_lt)
  simp only [runWithin, runToEnd]
  cases hstart : start p.toInterface inputs with
  | error e => exact congrArg Except.error (renumbered_of_start hstart _).symm
  | ok st =>
      simp only [hentry, visit_compact hsound (.entry hsound.entry_lt)]
      cases visit p.graph u limit limit 0 p.graph.entry st with
      | error e => rfl
      | ok f =>
          simp only [Except.mapError, result]
          split <;> rfl

end Machine

/-! ## Valid programs -/

namespace Program

open Machine

/--
The graph of a valid program can be compacted.  What is left are the reachable nodes in walk order,
the entry in front, with their blocks, conditions and edges.  All runs give the same results, or
fail for the same reasons, and another compaction changes nothing.
-/
theorem tryCompact_renumbers {p : Program} (hvalid : p.issues = []) :
    ∃ g, p.graph.tryCompact = .ok g ∧ g.entry = 0 ∧
      (p.graph.reachable.Nodup ∧ ∀ id, id ∈ p.graph.reachable ↔ p.graph.Reaches id) ∧
      Graph.Arranged p.graph.reachable p.graph g ∧
      (∀ inputs u limit, runWithin { p with graph := g } inputs u limit =
        (runWithin p inputs u limit).mapError (RunError.renumbered p.graph.walkIndex)) ∧
      g.tryCompact = .ok g := by
  have hsound := (issues_eq_nil_iff.mp hvalid).sound
  have hcompact := Graph.sound_compact hsound
  refine ⟨p.graph.compact, Graph.tryCompact_of_sound hsound, Graph.entry_compact hsound,
    ⟨p.graph.nodup_reachable, fun _ => Graph.mem_reachable⟩, Graph.arranged_compact hsound,
    runWithin_compact hsound, ?_⟩
  rw [Graph.tryCompact_of_sound hcompact, Graph.compact_compact hsound]

/-- Adds up its input in a loop.  The entry comes last, and a dead node leads into the loop. -/
def scattered : Program :=
  let x : Symbol := ⟨1, .input, 1, .float32, .attrib, "x", []⟩
  let y : Symbol := ⟨2, .output, 1, .float32, .attrib, "y", []⟩
  { Interface.empty "" with
    inputs := [x], outputs := [y],
    graph :=
      ⟨[.empty, .straight [⟨.add, .full y, [.full y, .full x]⟩] 3, .straight [] 1,
        ⟨[], [⟨.full x, 1⟩, ⟨.full y, 0⟩], some 0⟩], 3, 0⟩ }

theorem tryCompact_renumbers_scattered : scattered.issues = [] ∧
    ∃ g, scattered.graph.tryCompact = .ok g ∧ g.entry = 0 ∧
      Graph.Arranged [3, 1, 0] scattered.graph g ∧
      (∀ inputs u limit, runWithin { scattered with graph := g } inputs u limit =
        (runWithin scattered inputs u limit).mapError
          (RunError.renumbered scattered.graph.walkIndex)) ∧
      g.tryCompact = .ok g := by
  have hvalid : scattered.issues = [] := rfl
  obtain ⟨g, hcompact, hentry, _, harranged, hruns, hagain⟩ := tryCompact_renumbers hvalid
  exact ⟨hvalid, g, hcompact, hentry, harranged, hruns, hagain⟩

end Program

end KernelAlgebra
