import KernelAlgebra.Proofs.Optimizer.Settled
import Mathlib.Order.Bounds.Basic

/-!
# Liveness as a system of equations

The symbols that are live behind the blocks of the reachable nodes solve a system of equations
over sets, and no solution has less.  A table that is still growing stays below every solution,
no matter which of its sets the current round has reached.
-/

namespace KernelAlgebra.Liveness

variable {p : Program} {out : Nat → Set Symbol} {s : Symbol}

/-! ## The equations -/

/-- What is live before an instruction if these symbols are live behind it. -/
def beforeInstruction (i : Instruction) (live : Set Symbol) : Set Symbol :=
  {s | (s ∈ live ∧ ¬ (i.dst.isAbsent = false ∧ i.dst.covers = true ∧ s = i.dst.sym)) ∨ s ∈ i.uses}

def beforeBlock (block : Block) (live : Set Symbol) : Set Symbol :=
  block.foldr beforeInstruction live

/-- The sets behind the blocks of the reachable nodes fulfil the equations of liveness. -/
def Solves (p : Program) (out : Nat → Set Symbol) : Prop :=
  ∀ id n, p.graph.Reaches id → p.graph.node? id = some n → ∀ s, s ∈ out id ↔
    (id = p.graph.exit ∧ s ∈ p.outputs) ∨
      (∃ next ∈ n.successors, ∃ m, p.graph.node? next = some m ∧
        s ∈ beforeBlock m.block (out next)) ∨
      s ∈ conditionSymbols n

/--
The sets that the analysis finds behind the blocks of the reachable nodes.  Its last round leaves
the table as it is, so that every node has its set from the final table.
-/
def found (p : Program) (id : Nat) : Set Symbol :=
  {s | p.graph.Reaches id ∧ ∃ n, p.graph.node? id = some n ∧ s ∈ liveOut p (table p) id n}

theorem mem_beforeBlock {block : Block} {live : LiveSet} {after : Set Symbol}
    (h : ∀ s, s ∈ after ↔ s ∈ live) (s : Symbol) :
    s ∈ beforeBlock block after ↔ s ∈ throughBlock block live := by
  induction block generalizing s with
  | nil => exact h s
  | cons i rest ih => exact (or_congr_left (and_congr_left fun _ => ih s)).trans mem_transfer.symm

theorem beforeBlock_of_subset {block : Block} {live : LiveSet} {after : Set Symbol}
    (h : ∀ s ∈ live, s ∈ after) (hs : s ∈ throughBlock block live) :
    s ∈ beforeBlock block after := by
  induction block generalizing s with
  | nil => exact h s hs
  | cons i rest ih =>
      rcases mem_transfer.mp hs with ⟨hrest, hkept⟩ | huse
      · exact .inl ⟨ih hrest, hkept⟩
      · exact .inr huse

theorem mem_found {id : Nat} {n : Node} (hreach : p.graph.Reaches id)
    (hn : p.graph.node? id = some n) (s : Symbol) :
    s ∈ found p id ↔ s ∈ liveOut p (table p) id n := by
  constructor
  · rintro ⟨_, n', hn', hs⟩
    cases hn.symm.trans hn'
    exact hs
  · exact fun hs => ⟨hreach, n, hn, hs⟩

theorem mem_beforeBlock_found {id : Nat} {n : Node} (hreach : p.graph.Reaches id)
    (hn : p.graph.node? id = some n) (rest : Block) (s : Symbol) :
    s ∈ beforeBlock rest (found p id) ↔ s ∈ throughBlock rest (liveOut p (table p) id n) :=
  mem_beforeBlock (mem_found hreach hn) s

/-! ## The result is a solution -/

theorem mem_liveIn_table_iff {id : Nat} {n : Node} (hreach : p.graph.Reaches id)
    (hn : p.graph.node? id = some n) :
    s ∈ liveIn (table p) id ↔ s ∈ beforeBlock n.block (found p id) := by
  rw [mem_beforeBlock_found hreach hn]
  exact ⟨fun hs => (growing_table p).grounded id n hn hs, mem_liveIn_table hreach hn⟩

theorem solves_found (hclosed : p.graph.EdgesInside) : Solves p (found p) := by
  intro id n hreach hn s
  rw [mem_found hreach hn, mem_liveOut]
  refine or_congr_right (or_congr_left (exists_congr fun next => and_congr_right fun hnext => ?_))
  have hlt := hclosed id n hn next hnext
  obtain ⟨m, hm⟩ := Graph.node?_eq_some_of_lt hlt
  rw [mem_liveIn_table_iff (hreach.successor hn hnext hlt) hm]
  simp [hm]

/-! ## No solution has less -/

/-- No set of the table holds anything that the solution lacks. -/
def Under (p : Program) (out : Nat → Set Symbol) (t : Table) : Prop :=
  ∀ id n, p.graph.Reaches id → p.graph.node? id = some n → ∀ s ∈ liveIn t id,
    s ∈ beforeBlock n.block (out id)

theorem Under.liveOut {t : Table} {id : Nat} {n : Node} (h : Under p out t)
    (hclosed : p.graph.EdgesInside) (hout : Solves p out) (hreach : p.graph.Reaches id)
    (hn : p.graph.node? id = some n) : ∀ s ∈ Liveness.liveOut p t id n, s ∈ out id := by
  intro s hs
  refine (hout id n hreach hn s).mpr ?_
  rcases mem_liveOut.mp hs with hexit | ⟨next, hnext, hs⟩ | hcondition
  · exact .inl hexit
  · have hlt := hclosed id n hn next hnext
    obtain ⟨m, hm⟩ := Graph.node?_eq_some_of_lt hlt
    exact .inr (.inl ⟨next, hnext, m, hm, h next m (hreach.successor hn hnext hlt) hm s hs⟩)
  · exact .inr (.inr hcondition)

theorem Under.update {t : Table} {id : Nat} (h : Under p out t) (hclosed : p.graph.EdgesInside)
    (hout : Solves p out) (hlen : t.length = p.graph.size) :
    Under p out (Liveness.update p id t) := by
  intro id' n hreach hn s hs
  by_cases hid : id' = id
  · subst hid
    exact beforeBlock_of_subset (h.liveOut hclosed hout hreach hn)
      ((mem_liveIn_update hlen hn).mp hs)
  · exact h id' n hreach hn s (liveIn_update_of_ne hid ▸ hs)

theorem under_table (hclosed : p.graph.EdgesInside) (hout : Solves p out) :
    Under p out (table p) := by
  have hstart : Under p out (start p) := by
    intro id n _ _ s hs
    rw [liveIn_start] at hs
    cases hs
  exact ((roundsEnd_table p).preserves (P := fun t => Growing p t ∧ Under p out t)
    (fun id _ _ h => ⟨h.1.update id, h.2.update hclosed hout h.1.length⟩)
    ⟨growing_start p, hstart⟩).2

theorem isLeast_found (hclosed : p.graph.EdgesInside) :
    IsLeast {out | Solves p out} (found p) := by
  refine ⟨solves_found hclosed, fun out hout id s => ?_⟩
  rintro ⟨hreach, n, hn, hs⟩
  exact (under_table hclosed hout).liveOut hclosed hout hreach hn s hs

end KernelAlgebra.Liveness

namespace KernelAlgebra.DeadCode

open Liveness

variable {p : Program}

/-! ## Elimination -/

/-- Sweeps go on from one program until one removes nothing, and leave the other. -/
inductive SweepsEnd : Program → Program → Prop
  | last {p : Program} : (sweep p).graph.instructionCount = p.graph.instructionCount →
      SweepsEnd p (sweep p)
  | next {p q : Program} : (sweep p).graph.instructionCount < p.graph.instructionCount →
      SweepsEnd (sweep p) q → SweepsEnd p q

theorem sweepsEnd_sweeps (fuel : Nat) {p : Program} (hfuel : p.graph.instructionCount < fuel) :
    SweepsEnd p (sweeps fuel p) := by
  induction fuel generalizing p with
  | zero => omega
  | succ fuel ih =>
      simp only [sweeps]
      split
      · rename_i hcount
        exact .last hcount
      · rename_i hcount
        have hless := Nat.lt_of_le_of_ne (instructionCount_sweep_le p) hcount
        exact .next hless (ih (by omega))

def NothingDead (p : Program) (out : Nat → Set Symbol) : Prop :=
  ∀ id n, p.graph.Reaches id → p.graph.node? id = some n → ∀ i rest, i :: rest <:+ n.block →
    i.op ≠ .nop ∧ (i.op.hasSideEffect = true ∨ i.dst.isAbsent = true ∨
      i.dst.sym ∈ beforeBlock rest (out id))

theorem nothingDead_eliminate (hclosed : p.graph.EdgesInside) :
    NothingDead (eliminate p) (found (eliminate p)) := by
  intro id n hreach hn i rest hsuffix
  obtain ⟨hop, hkept⟩ := settled_eliminate hclosed id n hreach hn i rest hsuffix
  refine ⟨hop, hkept.imp_right (Or.imp_right fun hlive => ?_)⟩
  rw [mem_beforeBlock_found hreach hn]
  exact hlive.mem_throughBlock hreach hn

/--
The rounds of the analysis come to an end whatever way the edges lead, and what they find is the
least solution of the equations.  So the sweeps of elimination end as well, in a program without
dead instructions.
-/
theorem eliminate_by_least_solution (hclosed : p.graph.EdgesInside) :
    RoundsEnd p p.graph.reachable (start p) (table p) ∧
      IsLeast {out | Solves p out} (found p) ∧
      p.tryEliminate = .ok (eliminate p) ∧ SweepsEnd p (eliminate p) ∧
      ∃ out, IsLeast {out | Solves (eliminate p) out} out ∧ NothingDead (eliminate p) out :=
  ⟨roundsEnd_table p, isLeast_found hclosed, tryEliminate_of_edgesInside hclosed,
    sweepsEnd_sweeps _ (Nat.lt_succ_self _), found (eliminate p),
    isLeast_found (edgesInside_sweeps _ hclosed), nothingDead_eliminate hclosed⟩

/-- Carries a value around a loop; nobody reads the symbol that it copies to on the side. -/
def carrying : Program :=
  let x : Symbol := ⟨1, .input, 1, .float32, .attrib, "x", []⟩
  let y : Symbol := ⟨2, .output, 1, .float32, .attrib, "y", []⟩
  let carried : Symbol := ⟨3, .temp, 1, .float32, .attrib, "carried", []⟩
  let idle : Symbol := ⟨4, .temp, 1, .float32, .attrib, "idle", []⟩
  { Interface.empty "" with
    inputs := [x], outputs := [y],
    graph :=
      ⟨[.straight [.copy carried x] 1,
        ⟨[.copy y carried, .copy idle x, .copy carried y], [⟨.full carried, 1⟩], some 2⟩,
        .straight [.copy idle y] 3, .empty], 0, 3⟩ }

theorem edgesInside_carrying : carrying.graph.EdgesInside := by
  have hinside : ∀ n ∈ carrying.graph.nodes, ∀ x ∈ n.successors, x < carrying.graph.size := by
    decide
  exact fun id n hn => hinside n (List.mem_of_getElem? hn)

theorem eliminate_by_least_solution_carrying :
    carrying.graph.EdgesInside ∧ SweepsEnd carrying (eliminate carrying) ∧
      (eliminate carrying).graph.instructionCount = 3 ∧
      ∃ out, IsLeast {out | Solves (eliminate carrying) out} out ∧
        NothingDead (eliminate carrying) out :=
  have ⟨_, _, _, hsweeps, hdone⟩ := eliminate_by_least_solution edgesInside_carrying
  ⟨edgesInside_carrying, hsweeps, rfl, hdone⟩

end KernelAlgebra.DeadCode
