import KernelAlgebra.Proofs.Optimizer.Compaction
import KernelAlgebra.Proofs.Optimizer.DeadCode
import KernelAlgebra.Proofs.Optimizer.Liveness

/-!
# Elimination leaves nothing to remove

A sweep that removes nothing leaves the program as it is, and elimination sweeps until then.  So
every instruction that is left has an effect or writes a symbol that is live behind it.
-/

namespace KernelAlgebra.DeadCode

open Liveness

variable {p : Program} {outputs : List Symbol} {g : Graph}

def Settled (outputs : List Symbol) (g : Graph) : Prop :=
  ∀ id n, g.Reaches id → g.node? id = some n → ∀ i rest, i :: rest <:+ n.block →
    i.op ≠ .nop ∧
      (i.op.hasSideEffect = true ∨ i.dst.isAbsent = true ∨ Live outputs g i.dst.sym id rest)

theorem isDead_eq_false_iff {live : LiveSet} {i : Instruction} :
    isDead live i = false ↔
      i.op ≠ .nop ∧ (i.op.hasSideEffect = true ∨ i.dst.isAbsent = true ∨ i.dst.sym ∈ live) := by
  unfold isDead
  cases i.op.hasSideEffect <;> cases i.dst.isAbsent <;> simp

/-! ## Blocks -/

theorem sweepBlock_of_alive {live : LiveSet} {block : Block}
    (h : ∀ i rest, i :: rest <:+ block → isDead (throughBlock rest live) i = false) :
    sweepBlock live block = (block, throughBlock block live) := by
  induction block with
  | nil => rfl
  | cons i rest ih =>
      have hrest := ih fun j more hj => h j more (hj.trans (List.suffix_cons i rest))
      have halive := h i rest (List.suffix_refl _)
      simp only [sweepBlock, hrest, halive, Bool.false_eq_true, if_false]
      rfl

theorem alive_of_sweepBlock {live : LiveSet} {block : Block}
    (h : (sweepBlock live block).1 = block) :
    ∀ i rest, i :: rest <:+ block → isDead (throughBlock rest live) i = false := by
  induction block with
  | nil => simp
  | cons j more ih =>
      simp only [sweepBlock] at h
      split at h
      · -- a dead instruction would make the block shorter
        have hlength := (sublist_sweepBlock live more).length_le
        rw [h, List.length_cons] at hlength
        omega
      · rename_i halive
        have hmore := ih (by simpa using h)
        rw [sweepBlock_of_alive hmore] at halive
        intro i rest hsuffix
        rcases List.suffix_cons_iff.mp hsuffix with heq | hsuffix
        · cases heq
          simpa using halive
        · exact hmore i rest hsuffix

/-! ## Sweeps -/

theorem sweptNode_eq_self_iff {id : Nat} {n : Node} :
    sweptNode p id n = n ↔ (sweepBlock (liveOut p (table p) id n) n.block).1 = n.block := by
  obtain ⟨block, branches, follower⟩ := n
  simp [sweptNode]

theorem sweep_eq_self_iff :
    sweep p = p ↔ ∀ id n, p.graph.Reaches id → p.graph.node? id = some n →
      sweptNode p id n = n := by
  constructor
  · intro h id n hreach hn
    have hswept := node?_sweep_of_reaches hreach hn
    rw [h, hn] at hswept
    exact (Option.some.inj hswept).symm
  · intro h
    have hnodes : (sweep p).graph.nodes = p.graph.nodes := by
      apply List.ext_getElem?
      intro id
      change (sweep p).graph.node? id = p.graph.node? id
      rw [node?_sweep]
      cases hn : p.graph.node? id with
      | none => rfl
      | some n =>
          simp only [Option.map_some, sweepNode, Option.some.injEq]
          split
          · rename_i hmem
            exact h id n (Graph.mem_reachable.mp hmem) hn
          · rfl
    change { p with graph := { p.graph with nodes := (sweep p).graph.nodes } } = p
    rw [hnodes]

theorem sweep_eq_self_iff_settled (hclosed : p.graph.EdgesInside) :
    sweep p = p ↔ Settled p.outputs p.graph := by
  have halive : ∀ {id n}, p.graph.Reaches id → p.graph.node? id = some n → ∀ {i rest},
      isDead (throughBlock rest (liveOut p (table p) id n)) i = false ↔ i.op ≠ .nop ∧
        (i.op.hasSideEffect = true ∨ i.dst.isAbsent = true ∨
          Live p.outputs p.graph i.dst.sym id rest) := by
    intro id n hreach hn i rest
    rw [isDead_eq_false_iff, mem_throughBlock_iff_live hclosed hreach hn]
  rw [sweep_eq_self_iff]
  constructor
  · intro h id n hreach hn i rest hsuffix
    have hblock := sweptNode_eq_self_iff.mp (h id n hreach hn)
    exact (halive hreach hn).mp (alive_of_sweepBlock hblock i rest hsuffix)
  · intro h id n hreach hn
    rw [sweptNode_eq_self_iff, sweepBlock_of_alive]
    exact fun i rest hsuffix => (halive hreach hn).mpr (h id n hreach hn i rest hsuffix)

/-! ## Counting instructions -/

theorem eq_of_total_map_le {α : Type} {f f' : α → Nat} {list : List α}
    (h : ∀ x ∈ list, f x ≤ f' x) (htotal : total (list.map f') ≤ total (list.map f)) :
    ∀ x ∈ list, f x = f' x := by
  induction list with
  | nil => simp
  | cons x rest ih =>
      have hhead := h x (by simp)
      have htail : total (rest.map f) ≤ total (rest.map f') :=
        Graph.total_map_le fun y hy => h y (by simp [hy])
      simp only [List.map_cons, total_cons] at htotal
      intro y hy
      rcases List.mem_cons.mp hy with rfl | hy
      · omega
      · exact ih (fun z hz => h z (by simp [hz])) (by omega) y hy

theorem reachableNodes_sweep (p : Program) :
    (sweep p).graph.reachableNodes =
      p.graph.reachableNodes.map fun q => (q.1, sweptNode p q.1 q.2) := by
  unfold Graph.reachableNodes
  rw [(sameShape_sweep p).reachable_eq, List.map_filterMap]
  refine List.filterMap_congr fun id hid => ?_
  have hreach := Graph.mem_reachable.mp hid
  obtain ⟨n, hn⟩ := hreach.node
  simp [node?_sweep_of_reaches hreach hn, hn]

theorem instructionCount_sweep (p : Program) :
    (sweep p).graph.instructionCount =
      total (p.graph.reachableNodes.map fun q => (sweptNode p q.1 q.2).block.length) := by
  simp [Graph.instructionCount, reachableNodes_sweep, Function.comp_def]

theorem length_sweptNode_le (p : Program) (q : Nat × Node) :
    (sweptNode p q.1 q.2).block.length ≤ q.2.block.length :=
  (sublist_sweepBlock _ _).length_le

theorem instructionCount_sweep_le (p : Program) :
    (sweep p).graph.instructionCount ≤ p.graph.instructionCount := by
  rw [instructionCount_sweep]
  exact Graph.total_map_le fun q _ => length_sweptNode_le p q

theorem sweep_eq_self_of_instructionCount
    (h : (sweep p).graph.instructionCount = p.graph.instructionCount) : sweep p = p := by
  rw [instructionCount_sweep] at h
  have hlength := eq_of_total_map_le (fun q _ => length_sweptNode_le p q) (Nat.le_of_eq h.symm)
  refine sweep_eq_self_iff.mpr fun id n hreach hn => sweptNode_eq_self_iff.mpr ?_
  exact (sublist_sweepBlock _ _).eq_of_length
    (hlength (id, n) (Graph.mem_reachableNodes.mpr ⟨hreach, hn⟩))

theorem sweep_sweeps (fuel : Nat) {p : Program} (hfuel : p.graph.instructionCount < fuel) :
    sweep (sweeps fuel p) = sweeps fuel p := by
  induction fuel generalizing p with
  | zero => omega
  | succ fuel ih =>
      simp only [sweeps]
      split
      · rename_i hcount
        rw [sweep_eq_self_of_instructionCount hcount]
        exact sweep_eq_self_of_instructionCount hcount
      · rename_i hcount
        have hle := instructionCount_sweep_le p
        exact ih (by omega)

theorem edgesInside_sweeps (fuel : Nat) {p : Program} (hclosed : p.graph.EdgesInside) :
    (sweeps fuel p).graph.EdgesInside := by
  induction fuel generalizing p with
  | zero => exact hclosed
  | succ fuel ih =>
      have hsweep : (sweep p).graph.EdgesInside := by
        intro id n' hn' x hx
        obtain ⟨n, hn, hsuccessors, _⟩ := (sameShape_sweep p).node_back hn'
        rw [(sameShape_sweep p).size]
        exact hclosed id n hn x (hsuccessors ▸ hx)
      simp only [sweeps]
      split
      · exact hsweep
      · exact ih hsweep

theorem settled_eliminate (hclosed : p.graph.EdgesInside) :
    Settled (eliminate p).outputs (eliminate p).graph :=
  (sweep_eq_self_iff_settled (edgesInside_sweeps _ hclosed)).mp (sweep_sweeps _ (by omega))

theorem eliminate_of_settled (hclosed : p.graph.EdgesInside)
    (h : Settled p.outputs p.graph) : eliminate p = p := by
  have hsweep := (sweep_eq_self_iff_settled hclosed).mpr h
  simp [eliminate, sweeps, hsweep]

end KernelAlgebra.DeadCode
