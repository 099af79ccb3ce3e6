import KernelAlgebra.Proofs.Optimizer.Basic
import KernelAlgebra.Proofs.Optimizer.Links
import KernelAlgebra.Proofs.Optimizer.Settled

/-!
# One round of the optimizer is enough

A merge moves no instruction away from the readers of its result, and neither does a renumbering,
so nothing that elimination has left becomes dead later.  Together with a graph without links, in
walk order, this makes the result of the optimizer a fixed point.
-/

namespace KernelAlgebra

open KernelAlgebra.Graph Liveness DeadCode Straighten Machine

variable {g : Graph} {outputs : List Symbol} {s : Symbol}

/-! ## Merging -/

theorem exists_merged_target {id next : Nat} {a b : Node} (hlink : Link g id next a b)
    {x y : Nat} {n m : Node} (hreach : g.Reaches x) (hn : g.node? x = some n) (hx : x ≠ id)
    (hy : y ∈ n.successors) (hm : g.node? y = some m) (st : Store) :
    ∃ m', (merge g id next b).node? y = some m' ∧
      Merged g id next b ⟨y, m.block, st⟩ ⟨y, m'.block, st⟩ := by
  have hlt := lt_of_node? hm
  refine merged_at_node hlink (hreach.successor hn hy hlt) hm ?_ st
  rintro rfl
  exact hx (hlink.sole x hreach (mem_targets.mpr ⟨n, hn, hy, hlt⟩))

theorem live_merge {id next : Nat} {a b : Node} (hlink : Link g id next a b) (hsound : g.Sound)
    {x : Nat} {rest : Block} (h : Live outputs g s x rest) {st : Store} {d : Point}
    (hd : Merged g id next b ⟨x, rest, st⟩ d) :
    Live outputs (merge g id next b) s d.node d.rest := by
  have hid : (merge g id next b).node? id = some ⟨a.block ++ b.block, b.branches, b.follower⟩ := by
    rw [node?_merge hlink, if_neg hlink.distinct.symm, if_pos rfl]
  have helse : ∀ {y}, y ≠ id → y ≠ next → (merge g id next b).node? y = g.node? y := by
    intro y hy hy'
    rw [node?_merge hlink, if_neg hy', if_neg hy]
  induction h generalizing d with
  | output hs =>
      cases hd with
      | front => exact absurd rfl (hlink.exit_ne hsound)
      | back =>
          have hexit : (merge g id g.exit b).exit = id := if_pos rfl
          have hlive := Live.output (g := merge g id g.exit b) hs
          rwa [hexit] at hlive
      | elsewhere _ _ _ _ hx =>
          have hexit : (merge g id next b).exit = g.exit := if_neg hx.symm
          exact hexit ▸ .output hs
  | condition hn hs =>
      cases hd with
      | front =>
          cases hn.symm.trans hlink.source
          simp [conditionSymbols, hlink.branches] at hs
      | back =>
          cases hn.symm.trans hlink.target
          exact .condition hid hs
      | elsewhere _ _ _ hx hx' => exact .condition ((helse hx hx').trans hn) hs
  | edge hn hnext hm _ ih =>
      cases hd with
      | front =>
          cases hn.symm.trans hlink.source
          obtain rfl : _ = next := by
            simpa [Node.successors, hlink.branches, hlink.follower] using hnext
          cases hm.symm.trans hlink.target
          exact ih (.back _ st)
      | back =>
          cases hn.symm.trans hlink.target
          obtain ⟨m', hm', hmerged⟩ :=
            exists_merged_target hlink hlink.reaches_next hn hlink.distinct hnext hm st
          exact .edge hid hnext hm' (ih hmerged)
      | elsewhere _ _ hreach hx hx' =>
          obtain ⟨m', hm', hmerged⟩ := exists_merged_target hlink hreach hn hx hnext hm st
          exact .edge ((helse hx hx').trans hn) hnext hm' (ih hmerged)
  | use huse => cases hd <;> exact .use huse
  | past hkept _ ih =>
      cases hd with
      | front => exact .past hkept (ih (.front _ st))
      | back => exact .past hkept (ih (.back _ st))
      | elsewhere _ _ hreach hx hx' => exact .past hkept (ih (.elsewhere _ st hreach hx hx'))

theorem settled_merge {id next : Nat} {a b : Node} (hlink : Link g id next a b)
    (hsound : g.Sound) (h : Settled outputs g) : Settled outputs (merge g id next b) := by
  intro x n hreach hn i rest hsuffix
  obtain ⟨hreach, hx⟩ := reaches_of_merge hlink hreach
  have hcarry : ∀ {y m rest'}, g.Reaches y → g.node? y = some m → i :: rest' <:+ m.block →
      Merged g id next b ⟨y, rest', []⟩ ⟨x, rest, []⟩ → i.op ≠ .nop ∧
        (i.op.hasSideEffect = true ∨ i.dst.isAbsent = true ∨
          Live outputs (merge g id next b) i.dst.sym x rest) := by
    intro y m rest' hy hm hsuffix hmerged
    obtain ⟨hop, hkept⟩ := h y m hy hm i rest' hsuffix
    exact ⟨hop, hkept.imp_right (·.imp_right fun hlive => live_merge hlink hsound hlive hmerged)⟩
  rw [node?_merge hlink, if_neg hx] at hn
  split at hn
  · rename_i hid
    cases hn
    subst hid
    obtain ⟨before, happend⟩ := hsuffix
    -- the instruction stems from the first block, or from the second one
    rcases List.append_eq_append_iff.mp happend with ⟨front, ha, hfront⟩ | ⟨more, _, hb⟩
    · cases front with
      | nil => exact hcarry hlink.reaches_next hlink.target ⟨[], hfront⟩ (.back rest [])
      | cons j front =>
          obtain ⟨rfl, rfl⟩ := List.cons.inj hfront
          exact hcarry hlink.reaches hlink.source ⟨before, ha.symm⟩ (.front front [])
    · exact hcarry hlink.reaches_next hlink.target ⟨more, hb.symm⟩ (.back rest [])
  · rename_i hid
    exact hcarry hreach hn hsuffix (.elsewhere rest [] hreach hid hx)

/-! ## Renumbering -/

theorem live_compact (hsound : g.Sound) {id : Nat} {rest : Block}
    (h : Live outputs g s id rest) (hreach : g.Reaches id) :
    Live outputs g.compact s (newId g.kept id) rest := by
  induction h with
  | output hs => exact .output hs
  | condition hn hs =>
      refine .condition (node?_compact_newId hsound hreach hn) ?_
      simpa [conditionSymbols, renumber, List.filterMap_map, Function.comp_def,
        Program.conditionSymbol?] using hs
  | @edge id next n m hn hnext hm _ ih =>
      have hreach' := hreach.of_mem_successors hsound hn hnext
      refine .edge (node?_compact_newId hsound hreach hn) ?_
        (node?_compact_newId hsound hreach' hm) (ih hreach')
      rw [successors_renumber hsound hreach hn]
      exact List.mem_map_of_mem hnext
  | use huse => exact .use huse
  | past hkept _ ih => exact .past hkept (ih hreach)

theorem settled_compact (hsound : g.Sound) (h : Settled outputs g) :
    Settled outputs g.compact := by
  intro j n' _ hn' i rest hsuffix
  obtain ⟨id, n, hreach, hn, rfl, hj⟩ := exists_of_node?_compact hsound hn'
  obtain rfl := newId_of_getElem? hsound hj
  obtain ⟨hop, hkept⟩ := h id n hreach hn i rest hsuffix
  exact ⟨hop, hkept.imp_right (·.imp_right fun hlive => live_compact hsound hlive hreach)⟩

/-! ## Fixed points -/

namespace Program

variable {p : Program}

/-- A valid program that no step of the optimizer can change. -/
structure Optimized (p : Program) (o : OptimizeOptions) : Prop where
  valid : p.Valid
  settled : o.deadCode = true → Settled p.outputs p.graph
  straight : o.straighten = true → NoLinks p.graph
  ordered : p.graph.InWalkOrder
  collected : p.collect = p

theorem Optimized.optimize_eq {o : OptimizeOptions} (h : p.Optimized o) :
    p.optimize o = (p, ⟨0, 0, 0⟩) := by
  have hdead : p.withoutDeadCode o = p := by
    unfold withoutDeadCode
    split
    · exact eliminate_of_settled h.valid.sound.closed (h.settled ‹_›)
    · rfl
  have hstraight : straightened p.graph o = ⟨p.graph, 0⟩ := by
    unfold straightened
    split
    · exact run_of_noLinks h.valid.sound (h.straight ‹_›)
    · rfl
  have hcompact : p.graph.compact = p.graph := h.ordered.compact_eq h.valid.sound
  have hcollect : ({ p with graph := p.graph } : Program).collect = p := h.collected
  simp [optimize, hdead, hstraight, hcompact, hcollect]

theorem settled_withoutDeadCode (hvalid : p.Valid) {o : OptimizeOptions}
    (ho : o.deadCode = true) :
    Settled (p.withoutDeadCode o).outputs (p.withoutDeadCode o).graph := by
  unfold withoutDeadCode
  rw [if_pos ho]
  exact settled_eliminate hvalid.sound.closed

theorem settled_straightened (hsound : g.Sound) (h : Settled outputs g) (o : OptimizeOptions) :
    Settled outputs (straightened g o).graph := by
  unfold straightened
  split
  · obtain ⟨_, hmerges, _⟩ := mergedFrom_run hsound
    exact (hmerges.preserves (P := fun g => g.Sound ∧ Settled outputs g)
      (fun hlink hg => ⟨sound_merge hlink hg.1, settled_merge hlink hg.1 hg.2⟩) ⟨hsound, h⟩).2
  · exact h

theorem noLinks_straightened (hsound : g.Sound) {o : OptimizeOptions} (ho : o.straighten = true) :
    NoLinks (straightened g o).graph := by
  unfold straightened
  rw [if_pos ho]
  exact noLinks_run hsound

def uncollected (p : Program) (o : OptimizeOptions) : Program :=
  { p.withoutDeadCode o with
    graph := (straightened (p.withoutDeadCode o).graph o).graph.compact }

theorem optimize_fst (p : Program) (o : OptimizeOptions) :
    (p.optimize o).1 = (p.uncollected o).collect := rfl

theorem valid_uncollected (hvalid : p.Valid) (o : OptimizeOptions) :
    (p.uncollected o).Valid := by
  have hswept := valid_withoutDeadCode hvalid o
  have hreplaces := replaces_optimized hvalid o
  exact ⟨hswept.orderly, hreplaces.sound, hreplaces.fits _ hswept.fits⟩

theorem optimized_optimize (hvalid : p.Valid) (o : OptimizeOptions) :
    (p.optimize o).1.Optimized o where
  valid := valid_optimize hvalid o
  settled := by
    intro ho
    have hsound := (valid_withoutDeadCode hvalid o).sound
    rw [optimize_fst, outputs_collect, graph_collect]
    exact settled_compact (replaces_straightened hsound o).sound
      (settled_straightened hsound (settled_withoutDeadCode hvalid ho) o)
  straight := by
    intro ho
    have hsound := (valid_withoutDeadCode hvalid o).sound
    exact noLinks_compact (replaces_straightened hsound o).sound (noLinks_straightened hsound ho)
  ordered :=
    inWalkOrder_compact (replaces_straightened (valid_withoutDeadCode hvalid o).sound o).sound
  collected := by
    rw [optimize_fst]
    exact collect_collect (valid_uncollected hvalid o)

theorem lists_optimize (hvalid : p.Valid) (o : OptimizeOptions) :
    (p.optimize o).1.inputs = p.inputs ∧ (p.optimize o).1.outputs = p.outputs ∧
      (p.optimize o).1.constants = p.constants ∧ (p.optimize o).1.uniforms = p.uniforms ∧
      (p.optimize o).1.textures = p.textures := by
  obtain ⟨hconstants, huniforms, htextures⟩ := lists_collect (valid_uncollected hvalid o)
  rw [optimize_fst, inputs_collect, outputs_collect, hconstants, huniforms, htextures]
  simp [uncollected, toInterface_withoutDeadCode]

/--
Optimizing a valid program gives a valid program with the same inputs, outputs, constants, uniforms
and textures, and optimizing that one with the same options changes nothing.
-/
theorem tryOptimize_idempotent (hvalid : p.issues = []) (o : OptimizeOptions) :
    ∃ q stats, p.tryOptimize o = .ok (q, stats) ∧ q.issues = [] ∧
      (q.inputs = p.inputs ∧ q.outputs = p.outputs ∧ q.constants = p.constants ∧
        q.uniforms = p.uniforms ∧ q.textures = p.textures) ∧
      q.tryOptimize o = .ok (q, ⟨0, 0, 0⟩) := by
  have hvalid := issues_eq_nil_iff.mp hvalid
  have hoptimized := optimized_optimize hvalid o
  refine ⟨(p.optimize o).1, (p.optimize o).2, tryOptimize_of_valid hvalid o,
    issues_eq_nil_iff.mpr hoptimized.valid, lists_optimize hvalid o, ?_⟩
  rw [tryOptimize_of_valid hoptimized.valid, hoptimized.optimize_eq]

theorem tryOptimize_idempotent_copying : ∃ q stats, copying.tryOptimize {} = .ok (q, stats) ∧
    q.temps = [] ∧ q.tryOptimize {} = .ok (q, ⟨0, 0, 0⟩) := by
  obtain ⟨q, stats, hq, _, _, hagain⟩ := tryOptimize_idempotent (p := copying) rfl {}
  have htemps : (copying.optimize {}).1.temps = [] := rfl
  have hfirst := tryOptimize_of_valid (p := copying) (issues_eq_nil_iff.mp rfl) {}
  obtain ⟨rfl, rfl⟩ := Prod.mk.inj (Except.ok.inj (hfirst.symm.trans hq))
  exact ⟨_, _, hfirst, htemps, hagain⟩

end Program

end KernelAlgebra
