import KernelAlgebra.Proofs.Builder.Steps
import KernelAlgebra.Proofs.Machine.Sequence
import Mathlib.Logic.Relation

/-!
# Code inside a kernel under construction

The nodes of an inlined graph stand behind those of the draft.  The current node leads to its
entry, and the draft goes on at its exit.  Whatever the draft grows to, a run that comes to the
end of the node that was current runs the inlined code once, on the store as it is by then.
-/

namespace KernelAlgebra

theorem Graph.node?_absorb {g sub : Graph} (hsub : sub.Sound) {id : Nat} {n : Node}
    (hn : sub.node? id = some n) :
    (g.absorb sub).node? (id + g.size) = some (relocated (· + g.size) n) := by
  have hmoved : (g.absorb sub).node? (id + g.size) =
      (sub.node? id).map (shift sub.size g.size) := by
    unfold absorb node?
    rw [List.getElem?_append_right (Nat.le_add_left g.size id), List.getElem?_map]
    simp [size]
  rw [hmoved, hn, Option.map_some, shift_eq_relocated (hsub.closed id n hn)]

namespace Draft

variable {b : Draft} {sub g : Graph}

def inline (b : Draft) (sub : Graph) : Draft :=
  ⟨b.graph.insertAfter b.current sub, sub.exitIn b.graph, b.frames, b.ended⟩

theorem current_inline (hsub : sub.Sound) : (b.inline sub).current = sub.exit + b.graph.size :=
  Graph.moved_of_lt _ hsub.exit_lt

theorem graph_inline (h : Ready b) (hsub : sub.Sound) :
    (b.inline sub).graph =
      ((b.graph.absorb sub).modify (sub.exit + b.graph.size) fun x =>
        { x with branches := [], follower := none }).modify b.current fun m =>
          { m with branches := [], follower := some (sub.entry + b.graph.size) } := by
  have hexit : b.current ≠ b.graph.exit := (h.current_ne (by simp [waiting])).symm
  have hlt := hsub.entry_lt
  have hentry : Graph.follower? (b.graph.size + sub.size) (sub.entryIn b.graph) =
      some (sub.entry + b.graph.size) := by
    rw [Graph.entryIn, Graph.moved_of_lt _ hlt, Graph.follower?_of_lt (by omega)]
  have hmoved : sub.exitIn b.graph = sub.exit + b.graph.size := Graph.moved_of_lt _ hsub.exit_lt
  obtain ⟨block, hcurrent⟩ := h.current
  simp only [inline, Graph.insertAfter, hcurrent, hentry, hmoved, if_neg hexit]
  rfl

theorem node?_inline_current (h : Ready b) (hsub : sub.Sound) {block : Block}
    (hcurrent : b.graph.node? b.current = some ⟨block, [], none⟩) :
    (b.inline sub).graph.node? b.current =
      some ⟨block, [], some (sub.entry + b.graph.size)⟩ := by
  have hlt := h.lt_size List.mem_cons_self
  rw [graph_inline h hsub, Graph.node?_modify, if_pos rfl, Graph.node?_modify,
    if_neg (by omega), Graph.absorb, Graph.node?_of_lt_append hlt, hcurrent]
  rfl

theorem node?_inline_of_ne (h : Ready b) (hsub : sub.Sound) {id : Nat} (hid : id ≠ b.current)
    (hlt : id < b.graph.size) : (b.inline sub).graph.node? id = b.graph.node? id := by
  rw [graph_inline h hsub, Graph.node?_modify, if_neg (Ne.symm hid), Graph.node?_modify,
    if_neg (by omega), Graph.absorb, Graph.node?_of_lt_append hlt]

theorem node?_inline_inner (h : Ready b) (hsub : sub.Sound) {id : Nat} {n : Node}
    (hn : sub.node? id = some n) (hexit : id ≠ sub.exit) :
    (b.inline sub).graph.node? (id + b.graph.size) =
      some (Graph.relocated (· + b.graph.size) n) := by
  have hlt := h.lt_size List.mem_cons_self
  rw [graph_inline h hsub, Graph.node?_modify, if_neg (by omega), Graph.node?_modify,
    if_neg (by omega), Graph.node?_absorb hsub hn]

theorem node?_inline_exit (h : Ready b) (hsub : sub.Sound) {n : Node}
    (hn : sub.node? sub.exit = some n) :
    (b.inline sub).graph.node? (sub.exit + b.graph.size) = some ⟨n.block, [], none⟩ := by
  have hlt := h.lt_size List.mem_cons_self
  rw [graph_inline h hsub, Graph.node?_modify, if_neg (by omega), Graph.node?_modify, if_pos rfl,
    Graph.node?_absorb hsub hn]
  rfl

theorem exit_inline (h : Ready b) (hsub : sub.Sound) :
    (b.inline sub).graph.exit = b.graph.exit := by
  rw [graph_inline h hsub]
  rfl

theorem waiting_inline (h : Ready b) (hsub : sub.Sound) : (b.inline sub).waiting = b.waiting := by
  unfold waiting
  rw [exit_inline h hsub]
  rfl

theorem Ready.inline (h : Ready b) (hsub : sub.Sound) : Ready (b.inline sub) where
  alive := h.alive
  current := by
    obtain ⟨n, hn⟩ := hsub.exit_reached.node
    rw [current_inline hsub]
    exact ⟨n.block, node?_inline_exit h hsub hn⟩
  waiting := by
    rw [waiting_inline h hsub]
    intro id hid
    rw [node?_inline_of_ne h hsub (h.current_ne hid) (h.lt_size (List.mem_cons_of_mem _ hid))]
    exact h.waiting id hid
  apart := by
    rw [waiting_inline h hsub, current_inline hsub, List.nodup_cons]
    refine ⟨fun hmem => ?_, (List.nodup_cons.mp h.apart).2⟩
    have hlt := h.lt_size (List.mem_cons_of_mem _ hmem)
    omega
  heads := by
    intro f hf hkind
    have hne : f.head ≠ b.current := fun heq =>
      h.current_not_mem_heads (mem_heads.mpr ⟨f, hf, hkind, heq⟩)
    obtain ⟨n, hn, hfollower⟩ := h.heads f hf hkind
    rw [node?_inline_of_ne h hsub hne (Graph.lt_of_node? hn)]
    exact ⟨n, hn, hfollower⟩

theorem Grows.of_inline (h : Ready b) (hsub : sub.Sound) (hgrows : Grows (b.inline sub) g) :
    Grows b g := by
  refine hgrows.of_step h (grows_of_current h ?_ (exit_inline h hsub) ?_ ?_)
    fun id hid => .inl hid
  · rw [graph_inline h hsub]
    rfl
  · intro block hblock
    exact ⟨_, node?_inline_current h hsub hblock, List.prefix_refl _⟩
  · intro id n hid hn
    rw [node?_inline_of_ne h hsub hid (Graph.lt_of_node? hn), hn]

end Draft

/-! ## Runs through inlined code -/

namespace Machine

variable {f : Nat → Nat} {sub g : Graph} {rest : Block} {u : Overrides}

/-- A graph stands inside another one, with more code behind its exit. -/
structure Hosts (f : Nat → Nat) (sub g : Graph) (rest : Block) : Prop where
  inner : ∀ id n, sub.Reaches id → sub.node? id = some n → id ≠ sub.exit →
    g.node? (f id) = some (Graph.relocated f n) ∧ f id ≠ g.exit
  last : ∀ n, sub.node? sub.exit = some n →
    ∃ n', g.node? (f sub.exit) = some n' ∧ n'.block = n.block ++ rest

def behind (sub : Graph) (rest : Block) (id : Nat) : Block :=
  if id = sub.exit then rest else []

theorem Hosts.block (h : Hosts f sub g rest) {id : Nat} {n : Node} (hreach : sub.Reaches id)
    (hn : sub.node? id = some n) :
    ∃ n', g.node? (f id) = some n' ∧ n'.block = n.block ++ behind sub rest id := by
  by_cases hexit : id = sub.exit
  · subst hexit
    simpa [behind] using h.last n hn
  · exact ⟨_, (h.inner id n hreach hn hexit).1, by simp [behind, hexit, Graph.relocated]⟩

/-- A point of a run of the hosted graph and the one where the host is meanwhile. -/
structure Hosted (f : Nat → Nat) (sub : Graph) (rest : Block) (c d : Point) : Prop where
  reaches : sub.Reaches c.node
  point : d = ⟨f c.node, c.rest ++ behind sub rest c.node, c.store⟩

theorem Hosts.follows (h : Hosts f sub g rest) (hsound : sub.Sound) :
    Follows sub g u (Hosted f sub rest) where
  instruction := by
    rintro id i tail st st' d ⟨hreach, rfl⟩ hexec
    exact ⟨_, .instruction hexec (.done _), hreach, rfl⟩
  edge := by
    rintro id target n m st d ⟨hreach, rfl⟩ hn hexit hnext hm
    obtain ⟨hn', hexit'⟩ := h.inner id n hreach hn hexit
    have htarget := hreach.of_mem_successors hsound hn (mem_successors_of_next hnext)
    obtain ⟨m', hm', hblock⟩ := h.block htarget hm
    have hinside : ∀ b ∈ n.branches, f b.target < g.size := by
      intro b hb
      have hbranch := hreach.of_mem_successors hsound hn (Graph.target_mem_successors hb)
      obtain ⟨x, hx⟩ := hbranch.node
      obtain ⟨x', hx', _⟩ := h.block hbranch hx
      exact Graph.lt_of_node? hx'
    have hnext' := @next_map u st st sub.size g.size id (f id) n.follower n.branches target f
      (fun b => { b with target := f b.target }) (fun _ _ => rfl)
      (fun b hb => ⟨rfl, hinside b hb⟩) hnext
    have hempty : behind sub rest id = [] := if_neg hexit
    refine ⟨1, Nat.le_refl 1, _, ?_, htarget, rfl⟩
    simp only [hempty, List.append_nil, ← hblock]
    exact .edge hn' hexit' hnext' hm' (.done _)

theorem Hosts.path (h : Hosts f sub g rest) (hsound : sub.Sound) {st fin : Store} {n' : Node}
    (hentry : g.node? (f sub.entry) = some n') (hcomputes : Computes sub u st fin false) :
    ∃ k, Path g u k ⟨f sub.entry, n'.block, st⟩ ⟨f sub.exit, rest, fin⟩ := by
  obtain ⟨k, n, hn, d, hpath, hstop⟩ := hcomputes
  have hreach : sub.Reaches sub.entry := .entry hsound.entry_lt
  obtain ⟨m', hm', hblock⟩ := h.block hreach hn
  obtain rfl : m' = n' := Option.some.inj (hm'.symm.trans hentry)
  obtain ⟨j, _, _, hpath', _, rfl⟩ := (h.follows hsound).path hpath ⟨hreach, rfl⟩
  rw [hblock]
  cases hstop with
  | exit =>
      refine ⟨j, ?_⟩
      simpa [behind] using hpath'

end Machine

namespace Draft

open Machine

variable {b : Draft} {sub g : Graph} {rest : Block} {u : Overrides}

theorem hosts_inline (h : Ready b) (hsub : sub.Sound) (hgrows : Grows (b.inline sub) g)
    (hrest : Rest (b.inline sub) g rest) : Hosts (· + b.graph.size) sub g rest where
  inner := by
    intro id n hreach hn hexit
    have hlt : b.graph.exit < b.graph.size := h.lt_size (by simp [waiting])
    have hfollower := hsub.follower id n hreach hn hexit
    constructor
    · refine hgrows.node?_eq (node?_inline_inner h hsub hn hexit) ?_ ?_
      · obtain ⟨x, hx⟩ := Option.isSome_iff_exists.mp hfollower
        simp [Graph.relocated, hx]
      · intro hmem
        obtain ⟨f, hf, hkind, heq⟩ := mem_heads.mp hmem
        obtain ⟨m, hm, _⟩ := h.heads f hf hkind
        have := Graph.lt_of_node? hm
        omega
    · rw [hgrows.exit, exit_inline h hsub]
      omega
  last := by
    intro n hn
    obtain ⟨block, n', hcurrent, hn', hblock⟩ := hrest
    rw [current_inline hsub] at hcurrent hn'
    cases (node?_inline_exit h hsub hn).symm.trans hcurrent
    exact ⟨n', hn', hblock⟩

theorem path_inline (h : Ready b) (hsub : sub.Sound) (hgrows : Grows (b.inline sub) g)
    (hrest : Rest (b.inline sub) g rest) {st fin : Store}
    (hcomputes : Computes sub u st fin false) :
    ∃ k, Path g u k ⟨b.current, [], st⟩ ⟨(b.inline sub).current, rest, fin⟩ := by
  obtain ⟨block, hcurrent⟩ := h.current
  have hfinal : g.node? b.current = some ⟨block, [], some (sub.entry + b.graph.size)⟩ :=
    hgrows.node?_eq (node?_inline_current h hsub hcurrent) (by simp) h.current_not_mem_heads
  have hexit : b.current ≠ g.exit := by
    rw [hgrows.exit, exit_inline h hsub]
    exact (h.current_ne (by simp [waiting])).symm
  have hhosts := hosts_inline h hsub hgrows hrest
  have hreach : sub.Reaches sub.entry := .entry hsub.entry_lt
  obtain ⟨n, hn⟩ := hreach.node
  obtain ⟨n', hn', _⟩ := hhosts.block hreach hn
  obtain ⟨k, hpath⟩ := hhosts.path hsub hn' hcomputes
  rw [current_inline hsub]
  exact ⟨_, .edge hfinal hexit rfl hn' hpath⟩

end Draft

namespace Builder

variable {b b' : Builder}

theorem inline_cases {p : Program} (halive : b.ended = false) (h : b.inline p = .ok b') :
    p.inputs = [] ∧ p.outputs = [] ∧ b'.draft = b.draft.inline p.copied.graph := by
  unfold inline checkInline at h
  rw [halive] at h
  by_cases hopen : (!p.inputs.isEmpty || !p.outputs.isEmpty) = true
  · simp [hopen, Except.map] at h
  · simp only [hopen, Bool.false_eq_true, if_false, Except.map, Except.ok.injEq] at h
    subst h
    simp only [Bool.or_eq_true, Bool.not_eq_true', not_or, Bool.not_eq_false,
      List.isEmpty_iff] at hopen
    exact ⟨hopen.1, hopen.2, rfl⟩

/-! ## Histories -/

inductive Step : Builder → Builder → Prop
  | declare {b b' : Builder} {g g' : Supply} {d : Declaration} {s : Symbol}
      (h : b.declare g d = .ok (s, b', g')) : Step b b'
  | constant {b b' : Builder} {g g' : Supply} {values : List Float} {s : Symbol}
      (h : b.constant g values = .ok (s, b', g')) : Step b b'
  | emit {b b' : Builder} {op : Op} {dst : View} {srcs : List View}
      (h : b.emit op dst srcs = .ok b') : Step b b'
  | openIf {b b' : Builder} {cond : View} (h : b.openIf cond = .ok b') : Step b b'
  | openElse {b b' : Builder} (h : b.openElse = .ok b') : Step b b'
  | closeIf {b b' : Builder} (h : b.closeIf = .ok b') : Step b b'
  | openWhile {b b' : Builder} {cond : View} (h : b.openWhile cond = .ok b') : Step b b'
  | closeWhile {b b' : Builder} (h : b.closeWhile = .ok b') : Step b b'
  | inline {b b' : Builder} {p : Program} (hsound : p.copied.graph.Sound)
      (h : b.inline p = .ok b') : Step b b'

theorem eq_of_declare {g g' : Supply} {d : Declaration} {s : Symbol}
    (h : b.declare g d = .ok (s, b', g')) : b' = { b with program := b.program.declare s } := by
  unfold declare at h
  split at h
  · cases h
  · cases h
    rfl

theorem eq_of_constant {g g' : Supply} {values : List Float} {s : Symbol}
    (h : b.constant g values = .ok (s, b', g')) :
    ∃ pool, b' = { b with program := b.program.declare s, pool := pool } := by
  unfold constant at h
  split at h
  · cases h
  · cases h
    exact ⟨_, rfl⟩

theorem draft_declare {g g' : Supply} {d : Declaration} {s : Symbol}
    (h : b.declare g d = .ok (s, b', g')) : b'.draft = b.draft := by
  rw [eq_of_declare h]
  simp only [draft, graph, Program.graph_declare]

theorem draft_constant {g g' : Supply} {values : List Float} {s : Symbol}
    (h : b.constant g values = .ok (s, b', g')) : b'.draft = b.draft := by
  obtain ⟨pool, rfl⟩ := eq_of_constant h
  simp only [draft, graph, Program.graph_declare]

theorem Step.ready (hstep : Step b b') (h : b.draft.Ready) :
    b'.draft.Ready ∧ ∀ {g : Graph}, b'.draft.Grows g → b.draft.Grows g := by
  cases hstep with
  | declare hcall =>
      rw [draft_declare hcall]
      exact ⟨h, fun hgrows => hgrows⟩
  | constant hcall =>
      rw [draft_constant hcall]
      exact ⟨h, fun hgrows => hgrows⟩
  | emit hcall =>
      obtain ⟨i, _, hdraft, _⟩ := emit_cases h.alive hcall
      rw [hdraft]
      exact ⟨h.append i, .of_append h⟩
  | openIf hcall =>
      obtain ⟨_, hdraft, _⟩ := openIf_cases h.alive hcall
      rw [hdraft]
      exact ⟨h.openIf _, .of_openIf h⟩
  | openElse hcall =>
      obtain ⟨head, join, outer, hframes, hdraft, _⟩ := openElse_cases h.alive hcall
      rw [hdraft]
      exact ⟨.openElse hframes h, .of_openElse hframes h⟩
  | closeIf hcall =>
      obtain ⟨f, outer, hframes, _, hdraft, _⟩ := closeIf_cases h.alive hcall
      rw [hdraft]
      exact ⟨.close hframes _ h, .of_close hframes _ h⟩
  | openWhile hcall =>
      obtain ⟨_, hdraft, _⟩ := openWhile_cases h.alive hcall
      rw [hdraft]
      exact ⟨h.openWhile _, .of_openWhile h⟩
  | closeWhile hcall =>
      obtain ⟨head, join, outer, hframes, hdraft, _⟩ := closeWhile_cases h.alive hcall
      rw [hdraft]
      exact ⟨.close (f := ⟨.loop, head, join⟩) hframes _ h, .of_close hframes _ h⟩
  | inline hsound hcall =>
      obtain ⟨_, _, hdraft⟩ := inline_cases h.alive hcall
      rw [hdraft]
      exact ⟨h.inline hsound, .of_inline h hsound⟩

def Calls : Builder → Builder → Prop := Relation.ReflTransGen Step

theorem Calls.ready (hcalls : Calls b b') (h : b.draft.Ready) :
    b'.draft.Ready ∧ ∀ {g : Graph}, b'.draft.Grows g → b.draft.Grows g := by
  induction hcalls with
  | refl => exact ⟨h, fun hgrows => hgrows⟩
  | tail _ hstep ih =>
      obtain ⟨hready, hback⟩ := hstep.ready ih.1
      exact ⟨hready, fun hgrows => ih.2 (hback hgrows)⟩

theorem ready_of_calls {target : String} (hcalls : Calls (start target) b) : b.draft.Ready :=
  (hcalls.ready (ready_start target)).1

theorem Calls.grows_finish {b'' : Builder} {p : Program} (hcalls : Calls b b')
    (h : b.draft.Ready) (hfinish : b'.finish = .ok (p, b'')) : b.draft.Grows p.graph := by
  obtain ⟨hready, hback⟩ := hcalls.ready h
  obtain ⟨_, rfl⟩ := finish_cases hfinish
  exact hback (Draft.grows_finished hready)

end Builder

end KernelAlgebra
