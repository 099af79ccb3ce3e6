import KernelAlgebra.Proofs.Machine.Retracing
import KernelAlgebra.Proofs.Optimizer.DeadCode

/-!
# What elimination leaves of a discarded run

The analysis reads outputs at the exit only, but a discarded run reports them where it stops.  An
output that the rest of the code may still carry to an observer is alive there, so its value comes
out the same.  One that all ways on overwrite is dead, and its value may be lost.
-/

namespace KernelAlgebra.DeadCode

open Liveness Machine

variable {p : Program} {u : Overrides} {inputs : List (List Float)} {s : Symbol}

/--
Some way on from a point inside a node brings the value of a symbol to an observer: to the exit, if
it is an output, to a branch condition or to an instruction that may discard the run.
-/
inductive Observed (p : Program) (s : Symbol) : Nat → Block → Prop
  | output : s ∈ p.outputs → Observed p s p.graph.exit []
  | condition {id : Nat} {n : Node} :
      p.graph.node? id = some n → s ∈ conditionSymbols n → Observed p s id []
  | edge {id next : Nat} {n m : Node} :
      p.graph.node? id = some n → next ∈ n.successors → p.graph.node? next = some m →
      Observed p s next m.block → Observed p s id []
  | discard {id : Nat} {i : Instruction} {rest : Block} :
      i.op.hasSideEffect = true → s ∈ i.uses → Observed p s id (i :: rest)
  | past {id : Nat} {i : Instruction} {rest : Block} :
      ¬ (i.dst.isAbsent = false ∧ i.dst.covers = true ∧ s = i.dst.sym) →
      Observed p s id rest → Observed p s id (i :: rest)

/-- After `k` edges the run is discarded in a node, with the rest of its block still ahead. -/
def Discards (p : Program) (inputs : List (List Float)) (u : Overrides) (k id : Nat)
    (rest : Block) (fin : Store) : Prop :=
  ∃ st n i st', start p.toInterface inputs = .ok st ∧ p.graph.node? p.graph.entry = some n ∧
    Path p.graph u k ⟨p.graph.entry, n.block, st⟩ ⟨id, i :: rest, st'⟩ ∧
    exec u st' i = .ok ⟨fin, true⟩

/-! ## Discarded runs -/

theorem Discards.runs {k id : Nat} {rest : Block} {fin : Store}
    (h : Discards p inputs u k id rest fin) : Runs p inputs u k fin true := by
  obtain ⟨st, n, i, st', hstart, hn, hpath, hexec⟩ := h
  exact ⟨st, n, hstart, hn, _, hpath, .discard hexec⟩

theorem exists_discards {k : Nat} {fin : Store} (h : Runs p inputs u k fin true) :
    ∃ id rest, Discards p inputs u k id rest fin := by
  obtain ⟨st, n, hstart, hn, d, hpath, hstop⟩ := h
  cases hstop with
  | discard hexec => exact ⟨_, _, st, n, _, _, hstart, hn, hpath, hexec⟩

theorem Discards.store_unique {j k id : Nat} {rest : Block} {fin fin' : Store} {killed : Bool}
    (h : Discards p inputs u j id rest fin) (h' : Runs p inputs u k fin' killed) :
    fin' = fin := by
  obtain ⟨st, n, hstart, hn, hends⟩ := h.runs
  obtain ⟨st', n', hstart', hn', hends'⟩ := h'
  cases hstart.symm.trans hstart'
  exact (Computes.unique ⟨j, n, hn, hends⟩ ⟨k, n', hn', hends'⟩).1

/-! ## One sweep -/

theorem Observed.mem_live (hvalid : p.Valid) {id : Nat} {rest : Block}
    (h : Observed p s id rest) {n : Node} (hreach : p.graph.Reaches id)
    (hn : p.graph.node? id = some n) :
    s ∈ (sweepBlock (liveOut p (table p) id n) rest).2 := by
  induction h generalizing n with
  | output hs => exact mem_liveOut.mpr (.inl ⟨rfl, hs⟩)
  | condition hn' hs =>
      cases hn.symm.trans hn'
      exact mem_liveOut.mpr (.inr (.inr hs))
  | @edge id next n' m hn' hnext hm _ ih =>
      cases hn.symm.trans hn'
      have hreach' := hreach.successor hn hnext (Graph.lt_of_node? hm)
      exact mem_liveOut.mpr (.inr (.inl
        ⟨next, hnext, mem_liveIn_of_mem_sweepBlock hvalid hreach' hm (ih hreach' hm)⟩))
  | discard heffect huse =>
      simp only [sweepBlock, isDead_of_hasSideEffect heffect]
      exact mem_transfer.mpr (.inr huse)
  | past hkept _ ih =>
      simp only [sweepBlock]
      split
      · exact ih hreach hn
      · exact mem_transfer.mpr (.inl ⟨ih hreach hn, hkept⟩)

theorem Observed.sweep {id : Nat} {rest : Block} (h : Observed p s id rest) {n : Node}
    (hreach : p.graph.Reaches id)
    (hn : p.graph.node? id = some n) :
    Observed (DeadCode.sweep p) s id (sweepBlock (liveOut p (table p) id n) rest).1 := by
  induction h generalizing n with
  | output hs => exact .output hs
  | condition hn' hs =>
      cases hn.symm.trans hn'
      exact .condition (node?_sweep_of_reaches hreach hn) hs
  | @edge id next n' m hn' hnext hm _ ih =>
      cases hn.symm.trans hn'
      have hreach' := hreach.successor hn hnext (Graph.lt_of_node? hm)
      exact .edge (node?_sweep_of_reaches hreach hn) hnext (node?_sweep_of_reaches hreach' hm)
        (ih hreach' hm)
  | discard heffect huse =>
      simp only [sweepBlock, isDead_of_hasSideEffect heffect]
      exact .discard heffect huse
  | past hkept _ ih =>
      simp only [sweepBlock]
      split
      · exact ih hreach hn
      · exact .past hkept (ih hreach hn)

/-- The program is discarded again, where the original was, with the observed symbols unchanged. -/
def DiscardsAlike (p q : Program) (inputs : List (List Float)) (u : Overrides) (k id : Nat)
    (rest : Block) (fin : Store) : Prop :=
  ∃ j ≤ k, ∃ rest' fin', Discards q inputs u j id rest' fin' ∧
    ∀ s, Observed p s id rest → Observed q s id rest' ∧ fin'.get u s = fin.get u s

theorem discardsAlike_sweep (hvalid : p.Valid) {k id : Nat} {rest : Block} {fin : Store}
    (h : Discards p inputs u k id rest fin) :
    DiscardsAlike p (sweep p) inputs u k id rest fin := by
  obtain ⟨st, n, i, st', hstart, hn, hpath, hexec⟩ := h
  have hentry : p.graph.Reaches p.graph.entry := .entry hvalid.sound.entry_lt
  have hsized : st.Sized u := sized_start hstart
  have hat := swept_at_node hvalid hentry hn hsized hsized fun _ _ => rfl
  obtain ⟨j, hj, ⟨did, drest, dst⟩, hpath', m, hswept⟩ :=
    (follows_sweep hvalid).path hpath ⟨n, hat⟩
  obtain rfl : did = id := hswept.same
  have hcheck := ((hvalid.fits did m hswept.reaches hswept.node).block i
    (hswept.suffix.subset (by simp))).checked
  have halive : isDead (sweepBlock (liveOut p (table p) did m) rest).2 i = false :=
    isDead_of_hasSideEffect (by simp [op_of_discard hexec, Op.hasSideEffect])
  have hrest := hswept.rest
  have hagree := hswept.agree
  simp only [sweepBlock, halive, Bool.false_eq_true, if_false] at hrest hagree
  subst hrest
  obtain ⟨fin', hexec', hagree'⟩ :=
    exec_agree hcheck hswept.sized hswept.sized' hagree hexec
  refine ⟨j, hj, _, fin', ⟨st, _, i, dst, hstart, node?_sweep_of_reaches hentry hn, hpath',
    hexec'⟩, ?_⟩
  intro s hs
  exact ⟨hs.sweep hswept.reaches hswept.node,
    (hagree' s (hs.mem_live hvalid hswept.reaches hswept.node)).symm⟩

/-! ## Elimination -/

theorem discardsAlike_sweeps (fuel : Nat) {p : Program} (hvalid : p.Valid) {k id : Nat}
    {rest : Block} {fin : Store} (h : Discards p inputs u k id rest fin) :
    DiscardsAlike p (sweeps fuel p) inputs u k id rest fin := by
  induction fuel generalizing p k rest fin with
  | zero => exact ⟨k, Nat.le_refl k, rest, fin, h, fun s hs => ⟨hs, rfl⟩⟩
  | succ fuel ih =>
      have hsweep := discardsAlike_sweep hvalid h
      simp only [sweeps]
      split
      · exact hsweep
      · obtain ⟨j, hj, rest', fin', hdiscards, hobserved⟩ := hsweep
        obtain ⟨j', hj', rest'', fin'', hdiscards', hobserved'⟩ :=
          ih (valid_sweep hvalid) hdiscards
        refine ⟨j', Nat.le_trans hj' hj, rest'', fin'', hdiscards', ?_⟩
        intro s hs
        obtain ⟨hs', hsame⟩ := hobserved s hs
        obtain ⟨hs'', hsame'⟩ := hobserved' s hs'
        exact ⟨hs'', hsame'.trans hsame⟩

/--
Elimination keeps a discarded run discarded, and it keeps every output that the code behind the
discard may still bring to an observer.  The run stops at one point, so these outputs are settled.
-/
theorem eliminate_keeps_observed_outputs {limit : Nat} {r : Result} (hvalid : p.issues = [])
    (hrun : runWithin p inputs u limit = .ok r) (hkilled : r.killed = true) :
    ∃ q r', p.tryEliminate = .ok q ∧ runWithin q inputs u limit = .ok r' ∧ r'.killed = true ∧
      (∃ k id rest fin, Discards p inputs u k id rest fin) ∧
      ∀ k id rest fin, Discards p inputs u k id rest fin → ∀ (j : Nat) (s : Symbol),
        p.outputs[j]? = some s → Observed p s id rest → r'.outputs[j]? = r.outputs[j]? := by
  have hvalid := Program.issues_eq_nil_iff.mp hvalid
  have himproves := improves_eliminate hvalid
  obtain ⟨r', hrun', hkilled', _, _⟩ := himproves.runWithin hrun
  obtain ⟨k, fin, _, hruns, _, houtputs, _⟩ := runWithin_eq_ok_iff.mp hrun
  obtain ⟨k', fin', _, hruns', _, houtputs', _⟩ := runWithin_eq_ok_iff.mp hrun'
  rw [hkilled] at hruns
  obtain ⟨id, rest, hdiscards⟩ := exists_discards hruns
  refine ⟨_, r', tryEliminate_of_edgesInside hvalid.sound.closed, hrun', hkilled'.trans hkilled,
    ⟨k, id, rest, fin, hdiscards⟩, ?_⟩
  rintro k₁ id₁ rest₁ fin₁ hdiscards₁ j s hj hobserved
  obtain rfl : fin = fin₁ := hdiscards₁.store_unique hruns
  obtain ⟨_, _, rest₂, fin₂, hdiscards₂, halike⟩ := discardsAlike_sweeps _ hvalid hdiscards₁
  obtain rfl : fin' = fin₂ := hdiscards₂.store_unique hruns'
  have hsame : fin'.get u s = fin.get u s := (halike s hobserved).2
  rw [houtputs, houtputs', himproves.outputs, List.getElem?_map, List.getElem?_map, hj]
  simp [hsame]

/-- Discards the run on a negative input; its second output is only copied once more after that. -/
def discarding : Program :=
  let x : Symbol := ⟨1, .input, 1, .float32, .attrib, "x", []⟩
  let y : Symbol := ⟨2, .output, 1, .float32, .attrib, "y", []⟩
  let z : Symbol := ⟨3, .output, 1, .float32, .attrib, "z", []⟩
  { Interface.empty "" with
    inputs := [x], outputs := [y, z],
    graph := ⟨[⟨[.copy y x, .copy z x, ⟨.kil, .absent, [.full x]⟩, .copy z y], [], none⟩], 0, 0⟩ }

theorem eliminate_keeps_observed_outputs_discarding :
    ∃ q r, discarding.tryEliminate = .ok q ∧ runWithin q [[-1]] [] 1 = .ok r ∧ r.killed = true ∧
      r.outputs[0]? = some [(-1 : Float)] := by
  have hrun : runWithin discarding [[-1]] [] 1 = .ok ⟨[[-1], [-1]], true, 1⟩ := rfl
  obtain ⟨q, r, hq, hr, hkilled, _, hkept⟩ :=
    eliminate_keeps_observed_outputs (p := discarding) rfl hrun rfl
  have hdiscards : ∃ fin, Discards discarding [[-1]] [] 0 0 _ fin :=
    ⟨_, _, _, _, _, rfl, rfl, .instruction rfl (.instruction rfl (.done _)), rfl⟩
  obtain ⟨fin, hdiscards⟩ := hdiscards
  refine ⟨q, r, hq, hr, hkilled, hkept _ _ _ _ hdiscards 0 _ rfl ?_⟩
  exact .past (by decide) (.output (by decide))

end KernelAlgebra.DeadCode
