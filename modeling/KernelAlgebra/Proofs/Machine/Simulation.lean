import KernelAlgebra.Proofs.Graph.Reachability
import KernelAlgebra.Proofs.Machine.Paths
import KernelAlgebra.Proofs.Validity

/-!
# Following a run in another graph

If every step of a run can be followed in another graph, then so can the whole run.  The
follower may take fewer edges.  One program improves another when it follows each of its runs to
the same end, with the same outputs unless the run was discarded, and visits no more nodes.
-/

namespace KernelAlgebra.Machine

variable {g g' : Graph} {u : Overrides}

/-! ## Edges that a run takes -/

theorem follower?_eq_some {count id target : Nat} (h : Graph.follower? count id = some target) :
    target = id := by
  unfold Graph.follower? at h
  split at h
  · exact (Option.some.inj h).symm
  · split at h
    · cases h
    · exact (Option.some.inj h).symm

theorem mem_successors_of_next {st : Store} {count id target : Nat} {n : Node}
    (h : next u st count id n.follower n.branches = .ok target) : target ∈ n.successors := by
  obtain ⟨block, branches, follower⟩ := n
  simp only [Node.successors] at h ⊢
  induction branches with
  | nil =>
      simp only [next] at h
      cases follower with
      | none => cases h
      | some f =>
          cases h
          simp
  | cons b rest ih =>
      simp only [next] at h
      split at h
      · split at h
        · rename_i hfollower
          cases h
          simp [follower?_eq_some hfollower]
        · cases h
      · exact List.mem_cons_of_mem b.target (ih h)
      · cases h

theorem next_map {st st' : Store} {count count' id id' : Nat} {follower : Option Nat}
    {branches : List Branch} {target : Nat} {f : Nat → Nat} {mirror : Branch → Branch}
    (hread : ∀ b ∈ branches, read u st' (mirror b).cond = read u st b.cond)
    (htarget : ∀ b ∈ branches, (mirror b).target = f b.target ∧ (mirror b).target < count')
    (h : next u st count id follower branches = .ok target) :
    next u st' count' id' (follower.map f) (branches.map mirror) = .ok (f target) := by
  induction branches with
  | nil =>
      cases follower with
      | none => simp [next] at h
      | some x =>
          simp only [next, Except.ok.injEq] at h
          simp [next, h]
  | cons b rest ih =>
      have htail := ih (fun c hc => hread c (by simp [hc])) (fun c hc => htarget c (by simp [hc]))
      have hholds : holds u st' (mirror b) = holds u st b := by
        simp only [holds, hread b (by simp)]
      obtain ⟨hmoved, hlt⟩ := htarget b (by simp)
      simp only [List.map_cons, next, hholds] at h ⊢
      split at h
      · rw [Graph.follower?_of_lt hlt]
        split at h
        · rename_i hfollower
          cases h
          rw [follower?_eq_some hfollower, hmoved]
        · cases h
      · exact htail h
      · cases h

theorem next_congr {st st' : Store} {count count' id id' : Nat} {follower : Option Nat}
    {branches : List Branch} {target : Nat}
    (hread : ∀ b ∈ branches, read u st b.cond = read u st' b.cond)
    (hlt : ∀ b ∈ branches, b.target < count')
    (h : next u st count id follower branches = .ok target) :
    next u st' count' id' follower branches = .ok target := by
  have hmap : next u st' count' id' (follower.map fun x => x) (branches.map fun b => b) =
      .ok target :=
    next_map (fun b hb => (hread b hb).symm) (fun b hb => ⟨rfl, hlt b hb⟩) h
  simpa using hmap

/-! ## Simulation -/

/-- Every step from related points leads to related points. -/
structure Follows (g g' : Graph) (u : Overrides) (R : Point → Point → Prop) : Prop where
  instruction : ∀ {id : Nat} {i : Instruction} {rest : Block} {st st' : Store} {d : Point},
    R ⟨id, i :: rest, st⟩ d → exec u st i = .ok ⟨st', false⟩ →
      ∃ d', Path g' u 0 d d' ∧ R ⟨id, rest, st'⟩ d'
  edge : ∀ {id target : Nat} {n m : Node} {st : Store} {d : Point},
    R ⟨id, [], st⟩ d → g.node? id = some n → id ≠ g.exit →
      next u st g.size id n.follower n.branches = .ok target → g.node? target = some m →
      ∃ j ≤ 1, ∃ d', Path g' u j d d' ∧ R ⟨target, m.block, st⟩ d'

theorem Follows.path {R : Point → Point → Prop} (h : Follows g g' u R) {k : Nat}
    {c c' d : Point} (hpath : Path g u k c c') (hR : R c d) :
    ∃ j ≤ k, ∃ d', Path g' u j d d' ∧ R c' d' := by
  induction hpath generalizing d with
  | done c => exact ⟨0, Nat.le_refl 0, d, .done d, hR⟩
  | instruction hi _ ih =>
      obtain ⟨d', hstep, hR'⟩ := h.instruction hR hi
      obtain ⟨j, hj, e, hrest, hRe⟩ := ih hR'
      exact ⟨j, hj, e, by simpa using hstep.trans hrest, hRe⟩
  | edge hn hexit hnext hm _ ih =>
      obtain ⟨i, hi, d', hstep, hR'⟩ := h.edge hR hn hexit hnext hm
      obtain ⟨j, hj, e, hrest, hRe⟩ := ih hR'
      exact ⟨i + j, by omega, e, hstep.trans hrest, hRe⟩

/-! ## Improvement -/

/-- The second program follows every run of the first one. -/
structure Improves (p q : Program) : Prop where
  inputs : q.inputs = p.inputs
  outputs : q.outputs = p.outputs
  runs : ∀ {inputs : List (List Float)} {u : Overrides} {k : Nat} {fin : Store} {killed : Bool},
    Runs p inputs u k fin killed →
      ∃ j ≤ k, ∃ fin', Runs q inputs u j fin' killed ∧
        (killed = false → ∀ s ∈ p.outputs, fin'.get u s = fin.get u s)

theorem Improves.refl (p : Program) : Improves p p :=
  ⟨rfl, rfl, fun h => ⟨_, Nat.le_refl _, _, h, fun _ _ _ => rfl⟩⟩

theorem Improves.trans {p q r : Program} (h : Improves p q) (h' : Improves q r) :
    Improves p r := by
  refine ⟨h'.inputs.trans h.inputs, h'.outputs.trans h.outputs, ?_⟩
  intro inputs u k fin killed hrun
  obtain ⟨j, hj, fin', hrun', hsame⟩ := h.runs hrun
  obtain ⟨i, hi, fin'', hrun'', hsame'⟩ := h'.runs hrun'
  refine ⟨i, Nat.le_trans hi hj, fin'', hrun'', ?_⟩
  intro hkilled s hs
  rw [hsame' hkilled s (h.outputs ▸ hs), hsame hkilled s hs]

theorem start_congr {i j : Interface} (h : j.inputs = i.inputs) (inputs : List (List Float)) :
    start j inputs = start i inputs := by
  simp [start, h]

theorem Improves.of_graph_eq {p q : Program} (hinputs : q.inputs = p.inputs)
    (houtputs : q.outputs = p.outputs) (hgraph : q.graph = p.graph) : Improves p q := by
  refine ⟨hinputs, houtputs, ?_⟩
  rintro inputs u k fin killed ⟨st, n, hstart, hn, hends⟩
  refine ⟨k, Nat.le_refl k, fin, ⟨st, n, ?_, hgraph ▸ hn, hgraph ▸ hends⟩, fun _ _ _ => rfl⟩
  rw [start_congr hinputs, hstart]

theorem Improves.runWithin {p q : Program} (h : Improves p q) {inputs : List (List Float)}
    {u : Overrides} {limit : Nat} {r : Result} (hrun : runWithin p inputs u limit = .ok r) :
    ∃ r', Machine.runWithin q inputs u limit = .ok r' ∧ r'.killed = r.killed ∧
      r'.steps ≤ r.steps ∧ (r.killed = false → r'.outputs = r.outputs) := by
  obtain ⟨k, fin, hk, hruns, hsolid, houtputs, hsteps⟩ := runWithin_eq_ok_iff.mp hrun
  obtain ⟨j, hj, fin', hruns', hsame⟩ := h.runs hruns
  refine ⟨⟨q.outputs.map (fin'.get u), r.killed, j + 1⟩, ?_, rfl, ?_, ?_⟩
  · exact runWithin_eq_ok_iff.mpr
      ⟨j, fin', by omega, hruns', by rw [h.outputs]; exact hsolid, rfl, rfl⟩
  · simp only
    omega
  · intro hkilled
    rw [houtputs, h.outputs]
    exact List.map_congr_left (hsame hkilled)

theorem Improves.completes {p q : Program} (h : Improves p q) {inputs outputs : List (List Float)}
    {u : Overrides} (hrun : ∃ steps, Completes p inputs u ⟨outputs, false, steps⟩) :
    ∃ steps, Completes q inputs u ⟨outputs, false, steps⟩ := by
  obtain ⟨steps, limit, hrun⟩ := hrun
  obtain ⟨⟨outputs', killed, steps'⟩, hrun', hkilled, _, houtputs⟩ := h.runWithin hrun
  obtain rfl : killed = false := hkilled
  obtain rfl : outputs' = outputs := houtputs rfl
  exact ⟨steps', limit, hrun'⟩

/-! ## Graphs that stand for others -/

/-- A sound graph that can stand for another one in every program. -/
structure Replaces (g g' : Graph) : Prop where
  improves : ∀ i : Interface, Improves (i.withGraph g) (i.withGraph g')
  sound : g'.Sound
  fits : ∀ declared, g.Fits declared → g'.Fits declared

theorem Replaces.refl {g : Graph} (hsound : g.Sound) : Replaces g g :=
  ⟨fun _ => .refl _, hsound, fun _ h => h⟩

theorem Replaces.trans {g g' g'' : Graph} (h : Replaces g g') (h' : Replaces g' g'') :
    Replaces g g'' :=
  ⟨fun i => (h.improves i).trans (h'.improves i), h'.sound,
    fun declared hfits => h'.fits declared (h.fits declared hfits)⟩

end KernelAlgebra.Machine
