import KernelAlgebra.Optimizer.Basic
import KernelAlgebra.Proofs.Optimizer.Compaction
import KernelAlgebra.Proofs.Optimizer.DeadCode
import KernelAlgebra.Proofs.Optimizer.Straighten

/-!
# The optimizer keeps every run

An optimized program follows each run of the original one: it ends when the original ends, is
discarded when the original is, gives the same outputs and visits no more nodes.
-/

namespace KernelAlgebra.Program

open Machine

variable {p : Program}

theorem improves_withoutDeadCode (hvalid : p.Valid) (o : OptimizeOptions) :
    Improves p (p.withoutDeadCode o) := by
  unfold withoutDeadCode
  split
  · exact DeadCode.improves_eliminate hvalid
  · exact .refl p

theorem valid_withoutDeadCode (hvalid : p.Valid) (o : OptimizeOptions) :
    (p.withoutDeadCode o).Valid := by
  unfold withoutDeadCode
  split
  · exact DeadCode.valid_eliminate hvalid
  · exact hvalid

theorem replaces_straightened {g : Graph} (hsound : g.Sound) (o : OptimizeOptions) :
    Replaces g (straightened g o).graph := by
  unfold straightened
  split
  · exact Straighten.replaces_run hsound
  · exact .refl hsound

theorem improves_collect (p : Program) : Improves p p.collect :=
  .of_graph_eq rfl rfl rfl

/-- The code that is left before symbols are collected anew. -/
theorem replaces_optimized (hvalid : p.Valid) (o : OptimizeOptions) :
    Replaces (p.withoutDeadCode o).graph
      (straightened (p.withoutDeadCode o).graph o).graph.compact := by
  have hstraight := replaces_straightened (valid_withoutDeadCode hvalid o).sound o
  exact hstraight.trans (Graph.replaces_compact hstraight.sound)

theorem improves_optimize (hvalid : p.Valid) (o : OptimizeOptions) :
    Improves p (p.optimize o).1 := by
  have hreplaces := (replaces_optimized hvalid o).improves (p.withoutDeadCode o).toInterface
  exact ((improves_withoutDeadCode hvalid o).trans hreplaces).trans (improves_collect _)

theorem valid_optimize (hvalid : p.Valid) (o : OptimizeOptions) : (p.optimize o).1.Valid := by
  have hreplaces := replaces_optimized hvalid o
  have hswept := valid_withoutDeadCode hvalid o
  exact valid_collect hswept.orderly.collectable hreplaces.sound
    (hreplaces.fits _ hswept.fits)

theorem toInterface_withoutDeadCode (p : Program) (o : OptimizeOptions) :
    (p.withoutDeadCode o).toInterface = p.toInterface := by
  unfold withoutDeadCode
  split
  · exact DeadCode.toInterface_sweeps _ p
  · rfl

theorem mem_symbols_of_optimize (hvalid : p.Valid) {o : OptimizeOptions} {s : Symbol}
    (hs : s ∈ (p.optimize o).1.symbols) : s ∈ p.symbols := by
  have hsymbols : (p.withoutDeadCode o).symbols = p.symbols := by
    rw [toInterface_withoutDeadCode]
  have hfits := (replaces_optimized hvalid o).fits _ (valid_withoutDeadCode hvalid o).fits
  rw [hsymbols] at hfits
  rcases mem_of_mem_symbols_collect hs with hs | hs
  · exact hsymbols ▸ hs
  · exact mem_of_mem_mentions hfits hs

theorem isClosed_of_sound {g : Graph} (hsound : g.Sound) : g.isClosed = true := by
  simp only [Graph.isClosed, hsound.entry_lt, hsound.exit_lt, decide_true, Bool.true_and,
    List.all_eq_true]
  intro id hid
  obtain ⟨n, hn⟩ := ((Graph.mem_kept hsound).mp hid).node
  simp only [hn, Graph.staysInside, List.all_eq_true, decide_eq_true_eq]
  exact hsound.closed id n hn

theorem tryOptimize_of_valid (hvalid : p.Valid) (o : OptimizeOptions) :
    p.tryOptimize o = .ok (p.optimize o) := by
  simp [tryOptimize, isClosed_of_sound hvalid.sound]

/--
Optimizing a program that validation accepts succeeds, and whatever the program computes within
a number of visited nodes, the result computes within the same number.
-/
theorem tryOptimize_preserves_runs {p : Program} (hvalid : p.issues = []) (o : OptimizeOptions) :
    ∃ q stats, p.tryOptimize o = .ok (q, stats) ∧
      ∀ (inputs : List (List Float)) (u : Overrides) (limit : Nat) (r : Result),
        runWithin p inputs u limit = .ok r →
          ∃ r', runWithin q inputs u limit = .ok r' ∧ r'.killed = r.killed ∧
            r'.steps ≤ r.steps ∧ (r.killed = false → r'.outputs = r.outputs) := by
  have hvalid := issues_eq_nil_iff.mp hvalid
  refine ⟨_, _, tryOptimize_of_valid hvalid o, ?_⟩
  intro inputs u limit r hrun
  exact (improves_optimize hvalid o).runWithin hrun

/-- Copies its input in a second node, next to a sum that nobody reads. -/
def copying : Program :=
  let x : Symbol := ⟨1, .input, 1, .float32, .attrib, "x", []⟩
  let y : Symbol := ⟨2, .output, 1, .float32, .attrib, "y", []⟩
  let t : Symbol := ⟨3, .temp, 1, .float32, .attrib, "t", []⟩
  { Interface.empty "" with
    inputs := [x], outputs := [y], temps := [t],
    graph :=
      ⟨[.straight [⟨.add, .full t, [.full x, .full x]⟩] 1, ⟨[.copy y x], [], none⟩], 0, 1⟩ }

theorem tryOptimize_copying : ∃ q stats r, copying.tryOptimize {} = .ok (q, stats) ∧
    runWithin q [[3]] [] 2 = .ok r ∧ r.killed = false ∧ r.outputs = [[3]] := by
  have hrun : runWithin copying [[3]] [] 2 = .ok ⟨[[3]], false, 2⟩ := rfl
  obtain ⟨q, stats, hq, h⟩ := tryOptimize_preserves_runs (p := copying) rfl {}
  obtain ⟨r, hr, hkilled, _, houtputs⟩ := h _ _ _ _ hrun
  exact ⟨q, stats, r, hq, hr, hkilled, houtputs rfl⟩

end KernelAlgebra.Program
