import KernelAlgebra.Optimizer.Basic
import KernelAlgebra.Proofs.Machine.Simulation
import KernelAlgebra.Proofs.Machine.Views
import KernelAlgebra.Proofs.Optimizer.Liveness
import Mathlib.Data.List.Basic

/-!
# Dead code is never missed

A run of the swept program follows the original run node by node.  The two stores agree on the
symbols that are live, so conditions and discards come out alike, and at the exit the outputs do.
-/

namespace KernelAlgebra.DeadCode

open Liveness Machine

variable {p : Program} {u : Overrides}

/-! ## Blocks -/

theorem sublist_sweepBlock (live : LiveSet) (block : Block) :
    List.Sublist (sweepBlock live block).1 block := by
  induction block with
  | nil => exact .slnil
  | cons i rest ih =>
      simp only [sweepBlock]
      split
      · exact ih.cons i
      · exact ih.cons_cons i

theorem isDead_of_hasSideEffect {live : LiveSet} {i : Instruction}
    (h : i.op.hasSideEffect = true) : isDead live i = false := by
  have hop : i.op ≠ .nop := by
    intro hop
    simp [hop, Op.hasSideEffect] at h
  simp [isDead, hop, h]

theorem subset_transfer_of_isDead {live : LiveSet} {i : Instruction}
    (h : isDead live i = true) (hop : i.op = .nop → i.dst.isAbsent = true) :
    live ⊆ transfer i live := by
  intro s hs
  refine mem_transfer.mpr (.inl ⟨hs, ?_⟩)
  rintro ⟨hdst, _, rfl⟩
  unfold isDead at h
  split at h
  · rename_i hnop
    simp [hop hnop] at hdst
  · split at h
    · cases h
    · simp [hs] at h

theorem sweepBlock_live_subset {live : LiveSet} {block : Block}
    (hnop : ∀ i ∈ block, i.op = .nop → i.dst.isAbsent = true) :
    (sweepBlock live block).2 ⊆ throughBlock block live := by
  induction block with
  | nil => exact List.Subset.refl live
  | cons i rest ih =>
      have hrest := ih fun j hj => hnop j (by simp [hj])
      have hmono : transfer i (sweepBlock live rest).2 ⊆ throughBlock (i :: rest) live :=
        transfer_mono hrest
      simp only [sweepBlock]
      split
      · rename_i hdead
        exact List.Subset.trans (subset_transfer_of_isDead hdead (hnop i (by simp))) hmono
      · exact hmono

/-! ## Instructions -/

/-- From stores that agree on what is live before an instruction, it leads to stores that agree
on what is live after it. -/
theorem exec_agree {st st' st₁ : Store} {i : Instruction} {killed : Bool} {after : LiveSet}
    (hcheck : i.check = .ok ()) (hsized : st.Sized u) (hsized' : st'.Sized u)
    (hagree : ∀ s ∈ transfer i after, st.get u s = st'.get u s)
    (h : exec u st i = .ok ⟨st₁, killed⟩) :
    ∃ st₁', exec u st' i = .ok ⟨st₁', killed⟩ ∧
      ∀ s ∈ after, st₁.get u s = st₁'.get u s := by
  have hsources : readAll u st i.src = readAll u st' i.src :=
    readAll_src_congr fun s hs => hagree s (mem_transfer.mpr (.inr hs))
  have hkept : ∀ s ∈ after, s ≠ i.dst.sym → st.get u s = st'.get u s := fun s hs hne =>
    hagree s (mem_transfer.mpr (.inl ⟨hs, fun hkill => hne hkill.2.2⟩))
  have hnothing : i.op.hasDst = false → ∀ s ∈ after, st.get u s = st'.get u s := by
    intro hop s hs
    have hdst : i.dst.isAbsent = true := by
      simp [Instruction.isAbsent_dst_of_check hcheck, hop]
    exact hagree s (mem_transfer.mpr (.inl ⟨hs, fun hkill => by simp [hdst] at hkill⟩))
  cases exec_eq_ok_iff.mp h with
  | nothing hop =>
      exact ⟨st', exec_eq_ok_iff.mpr (.nothing hop), hnothing (by simp [hop, Op.hasDst])⟩
  | test hop hread =>
      exact ⟨st', exec_eq_ok_iff.mpr (.test hop (hsources ▸ hread)),
        hnothing (by simp [hop, Op.hasDst])⟩
  | @assignment srcs r ys hread hr hdst hplace =>
      have hlen : (st.get u i.dst.sym).length = (st'.get u i.dst.sym).length := by
        rw [hsized, hsized']
      obtain ⟨ys', hplace', hsame⟩ := place_agree hlen hplace
      refine ⟨_, exec_eq_ok_iff.mpr (.assignment (hsources ▸ hread) hr hdst hplace'), ?_⟩
      intro s hs
      rw [Store.get_set, Store.get_set]
      split
      · rename_i hsym
        subst hsym
        by_cases hcovers : i.dst.covers = true
        · have hfill := length_compute hcheck hread hr
          have hcovered :=
            place_eq_of_covers hdst hcovers hfill (hsized _) (hsized' _) hplace
          exact Option.some.inj (hcovered.symm.trans hplace')
        · -- a partial write keeps the symbol alive, so the old vectors are equal
          have hold : st.get u i.dst.sym = st'.get u i.dst.sym :=
            hagree _ (mem_transfer.mpr (.inl ⟨hs, fun hkill => hcovers hkill.2.1⟩))
          rw [hold] at hplace
          exact Option.some.inj (hplace.symm.trans hplace')
      · rename_i hne
        exact hkept s hs hne

theorem get_exec_of_isDead {st st₁ : Store} {i : Instruction} {killed : Bool}
    {after : LiveSet} (hdead : isDead after i = true) (h : exec u st i = .ok ⟨st₁, killed⟩) :
    ∀ s ∈ after, st₁.get u s = st.get u s := by
  intro s hs
  cases exec_eq_ok_iff.mp h with
  | nothing => rfl
  | test => rfl
  | assignment _ hr hdst _ =>
      have hne : s ≠ i.dst.sym := by
        rintro rfl
        unfold isDead at hdead
        split at hdead
        · rename_i hop
          simp [compute, hop, Op.rule] at hr
        · split at hdead
          · cases hdead
          · simp [hs] at hdead
      rw [Store.get_set, if_neg hne]

theorem op_of_discard {st fin : Store} {i : Instruction} (h : exec u st i = .ok ⟨fin, true⟩) :
    i.op = .kil := by
  generalize ho : (⟨fin, true⟩ : Outcome) = o at h
  cases exec_eq_ok_iff.mp h with
  | nothing => cases ho
  | test hop => exact hop
  | assignment => cases ho

/-! ## The simulation -/

theorem node?_sweep (p : Program) (id : Nat) :
    (sweep p).graph.node? id =
      (p.graph.node? id).map (sweepNode p p.graph.reachable (table p) id) := by
  simp only [sweep, Graph.node?, List.getElem?_map, List.getElem?_zipIdx]
  cases p.graph.nodes[id]? <;> simp

def sweptNode (p : Program) (id : Nat) (n : Node) : Node :=
  { n with block := (sweepBlock (liveOut p (table p) id n) n.block).1 }

theorem node?_sweep_of_reaches {id : Nat} {n : Node} (hreach : p.graph.Reaches id)
    (hn : p.graph.node? id = some n) :
    (sweep p).graph.node? id = some (sweptNode p id n) := by
  rw [node?_sweep, hn]
  simp [sweepNode, Graph.mem_reachable.mpr hreach, sweptNode]

theorem sameShape_sweep (p : Program) : Graph.SameShape p.graph (sweep p).graph where
  size := by simp [sweep, Graph.size]
  entry := rfl
  exit := rfl
  node := by
    intro id n hn
    refine ⟨_, by rw [node?_sweep, hn]; rfl, ?_, ?_⟩
    · unfold sweepNode
      split <;> rfl
    · unfold sweepNode
      split <;> rfl

/-- A point of the original run and the point that the swept run has reached by then. -/
structure Swept (p : Program) (u : Overrides) (n : Node) (c d : Point) : Prop where
  reaches : p.graph.Reaches c.node
  node : p.graph.node? c.node = some n
  suffix : c.rest <:+ n.block
  same : d.node = c.node
  rest : d.rest = (sweepBlock (liveOut p (table p) c.node n) c.rest).1
  sized : c.store.Sized u
  sized' : d.store.Sized u
  agree : ∀ s ∈ (sweepBlock (liveOut p (table p) c.node n) c.rest).2,
    c.store.get u s = d.store.get u s

theorem mem_liveIn_of_mem_sweepBlock (hvalid : p.Valid) {id : Nat} {n : Node} {s : Symbol}
    (hreach : p.graph.Reaches id) (hn : p.graph.node? id = some n)
    (hs : s ∈ (sweepBlock (liveOut p (table p) id n) n.block).2) : s ∈ liveIn (table p) id := by
  refine mem_liveIn_table hreach hn (sweepBlock_live_subset ?_ hs)
  intro i hi hop
  have hcheck := ((hvalid.fits id n hreach hn).block i hi).checked
  simp [Instruction.isAbsent_dst_of_check hcheck, hop, Op.hasDst]

theorem swept_at_node (hvalid : p.Valid) {id : Nat} {n : Node} {st st' : Store}
    (hreach : p.graph.Reaches id) (hn : p.graph.node? id = some n) (hsized : st.Sized u)
    (hsized' : st'.Sized u)
    (hagree : ∀ s ∈ liveIn (table p) id, st.get u s = st'.get u s) :
    Swept p u n ⟨id, n.block, st⟩ ⟨id, (sweptNode p id n).block, st'⟩ := by
  refine ⟨hreach, hn, List.suffix_refl _, rfl, rfl, hsized, hsized', ?_⟩
  exact fun s hs => hagree s (mem_liveIn_of_mem_sweepBlock hvalid hreach hn hs)

theorem follows_sweep (hvalid : p.Valid) :
    Follows p.graph (sweep p).graph u fun c d => ∃ n, Swept p u n c d where
  instruction := by
    rintro id i rest st st₁ ⟨did, drest, dst⟩ ⟨n, h⟩ hexec
    obtain rfl : did = id := h.same
    have hsuffix : rest <:+ n.block := (List.suffix_cons i rest).trans h.suffix
    have hcheck := ((hvalid.fits did n h.reaches h.node).block i
      (h.suffix.subset (by simp))).checked
    have hrest := h.rest
    have hagree := h.agree
    simp only [sweepBlock] at hrest hagree
    split at hrest
    · rename_i hdead
      simp only [hdead, if_true] at hagree
      subst hrest
      refine ⟨_, .done _, n, h.reaches, h.node, hsuffix, rfl, rfl, sized_exec h.sized hexec,
        h.sized', ?_⟩
      intro s hs
      rw [get_exec_of_isDead hdead hexec s hs]
      exact hagree s hs
    · rename_i halive
      simp only [halive] at hagree
      subst hrest
      obtain ⟨dst₁, hexec', hagree₁⟩ := exec_agree hcheck h.sized h.sized' hagree hexec
      exact ⟨_, .instruction hexec' (.done _), n, h.reaches, h.node, hsuffix, rfl, rfl,
        sized_exec h.sized hexec, sized_exec h.sized' hexec', hagree₁⟩
  edge := by
    rintro id target n m st ⟨did, drest, dst⟩ ⟨n', h⟩ hn hexit hnext hm
    obtain rfl : did = id := h.same
    obtain rfl : n' = n := Option.some.inj (h.node.symm.trans hn)
    obtain rfl : drest = [] := h.rest
    have hagree : ∀ s ∈ liveOut p (table p) did n', st.get u s = dst.get u s := h.agree
    have hsuccessor := mem_successors_of_next hnext
    have hlt := hvalid.sound.closed did n' hn target hsuccessor
    have hreach := h.reaches.successor hn hsuccessor hlt
    have hshape := sameShape_sweep p
    have hnext' : next u dst (sweep p).graph.size did n'.follower n'.branches = .ok target := by
      refine next_congr ?_ ?_ hnext
      · intro b hb
        refine read_congr fun hpresent => hagree _ (mem_liveOut.mpr (.inr (.inr ?_)))
        exact List.mem_filterMap.mpr ⟨b, hb, by simp [Program.conditionSymbol?, hpresent]⟩
      · intro b hb
        rw [hshape.size]
        exact hvalid.sound.closed did n' hn b.target (Graph.target_mem_successors hb)
    refine ⟨1, Nat.le_refl 1, _, .edge (node?_sweep_of_reaches h.reaches hn) hexit hnext'
      (node?_sweep_of_reaches hreach hm) (.done _), m,
      swept_at_node hvalid hreach hm h.sized h.sized' ?_⟩
    intro s hs
    exact hagree s (mem_liveOut.mpr (.inr (.inl ⟨target, hsuccessor, hs⟩)))

theorem swept_stops (hvalid : p.Valid) {n : Node} {c d : Point} {fin : Store} {killed : Bool}
    (h : Swept p u n c d) (hstop : Stops p.graph u c fin killed) :
    ∃ fin', Stops (sweep p).graph u d fin' killed ∧
      (killed = false → ∀ s ∈ p.outputs, fin'.get u s = fin.get u s) := by
  obtain ⟨did, drest, dst⟩ := d
  cases hstop with
  | @exit st =>
      obtain rfl : did = p.graph.exit := h.same
      obtain rfl : drest = [] := h.rest
      refine ⟨dst, .exit, ?_⟩
      intro _ s hs
      exact (h.agree s (mem_liveOut.mpr (.inl ⟨rfl, hs⟩))).symm
  | @discard id i rest st st₁ hexec =>
      have hcheck := ((hvalid.fits id n h.reaches h.node).block i
        (h.suffix.subset (by simp))).checked
      have hrest := h.rest
      have hagree := h.agree
      have halive : ∀ after, isDead after i = false := fun after =>
        isDead_of_hasSideEffect (by simp [op_of_discard hexec, Op.hasSideEffect])
      simp only [sweepBlock, halive, Bool.false_eq_true, if_false] at hrest hagree
      subst hrest
      obtain ⟨fin', hexec', _⟩ := exec_agree hcheck h.sized h.sized' hagree hexec
      exact ⟨fin', .discard hexec', by simp⟩

theorem improves_sweep (hvalid : p.Valid) : Improves p (sweep p) := by
  refine ⟨rfl, rfl, ?_⟩
  rintro inputs u k fin killed ⟨st, n, hstart, hn, c, hpath, hstop⟩
  have hreach : p.graph.Reaches p.graph.entry := .entry hvalid.sound.entry_lt
  have hsized : st.Sized u := sized_start hstart
  have hat := swept_at_node hvalid hreach hn hsized hsized fun _ _ => rfl
  obtain ⟨j, hj, d, hpath', m, hswept⟩ := (follows_sweep hvalid).path hpath ⟨n, hat⟩
  obtain ⟨fin', hstop', hsame⟩ := swept_stops hvalid hswept hstop
  exact ⟨j, hj, fin', ⟨st, _, hstart, node?_sweep_of_reaches hreach hn, d, hpath', hstop'⟩,
    hsame⟩

/-! ## Validity -/

theorem valid_sweep (hvalid : p.Valid) : (sweep p).Valid where
  orderly := hvalid.orderly
  sound := hvalid.sound.of_sameShape (sameShape_sweep p)
  fits := by
    intro id n' hreach hn'
    have hreach := (sameShape_sweep p).reaches_iff.mp hreach
    obtain ⟨n, hn⟩ := hreach.node
    have hfits := hvalid.fits id n hreach hn
    cases hn'.symm.trans (node?_sweep_of_reaches hreach hn)
    exact ⟨fun i hi => hfits.block i ((sublist_sweepBlock _ _).subset hi), hfits.branches⟩

theorem sweeps_spec (fuel : Nat) {p : Program} (hvalid : p.Valid) :
    Improves p (sweeps fuel p) ∧ (sweeps fuel p).Valid := by
  induction fuel generalizing p with
  | zero => exact ⟨Improves.refl p, hvalid⟩
  | succ fuel ih =>
      have hsweep := improves_sweep hvalid
      have hswept := valid_sweep hvalid
      simp only [sweeps]
      split
      · exact ⟨hsweep, hswept⟩
      · obtain ⟨himproves, hvalid'⟩ := ih hswept
        exact ⟨hsweep.trans himproves, hvalid'⟩

theorem toInterface_sweeps (fuel : Nat) (p : Program) :
    (sweeps fuel p).toInterface = p.toInterface := by
  induction fuel generalizing p with
  | zero => rfl
  | succ fuel ih =>
      simp only [sweeps]
      split
      · rfl
      · exact ih (sweep p)

theorem tryEliminate_of_edgesInside (hclosed : p.graph.EdgesInside) :
    p.tryEliminate = .ok (eliminate p) := by
  unfold Program.tryEliminate
  rw [if_pos]
  rw [List.all_eq_true]
  rintro ⟨id, n⟩ hmem
  obtain ⟨_, hn⟩ := Graph.mem_reachableNodes.mp hmem
  simp only [Graph.staysInside, List.all_eq_true, decide_eq_true_eq]
  exact hclosed id n hn

theorem improves_eliminate (hvalid : p.Valid) : Improves p (eliminate p) :=
  (sweeps_spec _ hvalid).1

theorem valid_eliminate (hvalid : p.Valid) : (eliminate p).Valid :=
  (sweeps_spec _ hvalid).2

end KernelAlgebra.DeadCode
