import KernelAlgebra.Compose.Handle
import KernelAlgebra.Metrics
import KernelAlgebra.Optimizer.Basic

/-!
# Composers and what they leave behind

A composer says whether results are optimized and what is logged and counted.  Composition
runs over an environment that holds the supply of symbols, the log and the counters; these
keep what a failed operation did to them.
-/

namespace KernelAlgebra

inductive Counting where
  /-- In the counters of the environment. -/
  | here
  /-- In counters that nobody reads. -/
  | elsewhere
  | off
  deriving DecidableEq, Repr

structure Composer where
  optimize : Bool := true
  passes : OptimizeOptions := {}
  debug : Bool := false
  logs : Bool := true
  counting : Counting := .here
  deriving DecidableEq, Repr

/-- A composer that leaves results as they are, for steps whose results are composed further. -/
def Composer.raw (c : Composer) : Composer := { c with optimize := false }

structure Env where
  supply : Supply
  nextTag : Nat
  log : List String
  metrics : Metrics

def Env.start : Env := ⟨Supply.start, 1, [], Metrics.empty⟩

abbrev Compose := ExceptT (Fault ComposeError) (StateM Env)

namespace Compose

def refuse {α : Type} (e : ComposeError) : Compose α := throw (.error e)

def ofFresh {α : Type} (x : Fresh ComposeError α) : Compose α := do
  let env ← get
  let (r, g) := x.run.run env.supply
  set { env with supply := g }
  match r with
  | .ok a => return a
  | .error e => throw e

def newTag : Compose Nat := do
  let env ← get
  set { env with nextTag := env.nextTag + 1 }
  return env.nextTag

def handleOver (s : Sketch) (bindings : List Binding) (spare : List Symbol) : Compose Handle := do
  let tag ← newTag
  return ⟨tag, tag, s, bindings, spare⟩

def newHandle (p : Program) (bindings : List Binding) (spare : List Symbol) : Compose Handle :=
  handleOver p.sketch bindings spare

/-- Binds the next free inputs to sources; the new handle shares the program. -/
def bound (h : Handle) (kind : BindingKind) (sources : List Symbol) : Compose Handle := do
  let bindings ← ofFresh (h.boundTo kind sources)
  let tag ← newTag
  return { h with tag := tag, bindings := bindings }

def log (c : Composer) (line : String) : Compose Unit := do
  if c.logs then modify fun env => { env with log := env.log ++ [line] }

def debug (c : Composer) (line : String) : Compose Unit := do
  if c.debug then log c line

def count (c : Composer) (f : Metrics → Metrics) : Compose Unit := do
  if c.counting = .here then modify fun env => { env with metrics := f env.metrics }

/-! ## Steps shared by all operations -/

def optimizeLine (p : Program) (st : OptimizeStats) : String :=
  s!"optimized {p.summary}: removed {st.removedInstructions} instructions, " ++
    s!"merged {st.mergedNodes} nodes"

/-- Collects the symbols of an assembled program and optimizes it if the composer does so. -/
def finish (c : Composer) (p : Program) : Compose Program := do
  let p := p.collect
  if c.optimize then
    match p.tryOptimize c.passes with
    | .ok (q, st) =>
        debug c (optimizeLine q st)
        return q
    | .error f => throw (.crash f.message)
  else
    return p

def attempt {α : Type} (x : Compose α) : Compose (Except ComposeError α) :=
  tryCatch (return .ok (← x)) fun
    | .error e => return .error e
    | f => throw f

def countResult (c : Composer) (op : String) (s : Sketch) : Compose Unit := do
  count c fun m => m.countSuccess op (some ((s.graph?.map Graph.instructionCount).getD 0))
  if c.counting ≠ .off && s.graph?.isNone then throw .outside

def countFailure (c : Composer) (op : String) (e : ComposeError) : Compose Unit := do
  count c fun m => m.countFailure op e.kind
  debug c s!"{op} failed: {e.toError.message}"

def observe (c : Composer) (op : String) (x : Compose Handle) : Compose Handle := do
  match ← attempt x with
  | .ok h =>
      countResult c op h.sketch
      debug c s!"{op}: {h.summary}"
      return h
  | .error e =>
      countFailure c op e
      refuse e

end Compose

/-! ## Putting two programs one after the other -/

def reconcileTarget (a b : String) : String × Bool :=
  if a = "" then (b, false)
  else if b = "" || a = b then (a, false)
  else ("", true)

def conflictText (a b : String) : String :=
  s!"target conflict: {Text.quoted a} vs {Text.quoted b}, result has no target"

/-- Copies of two operands, the second with fresh symbols if the two share any. -/
def operands (a b : Sketch) : Fresh ComposeError (Program × Program) := do
  let first ← Fresh.copyOf a
  let second ← if a.sharesLocals b.toInterface then Fresh.freshCopyOf b else Fresh.copyOf b
  return (first, second)

/-- The code of `a` followed by that of `b`, with an interface still to be set. -/
def sequenced (a b : Program) : Program :=
  let (target, conflict) := reconcileTarget a.target b.target
  { target := target,
    graph := a.graph.append b.graph,
    inputs := [],
    outputs := [],
    temps := dedup (a.temps ++ b.temps),
    constants := dedup (a.constants ++ b.constants),
    uniforms := dedup (a.uniforms ++ b.uniforms),
    textures := dedup (a.textures ++ b.textures),
    diagnostics := a.diagnostics ++ b.diagnostics ++
      (if conflict then [conflictText a.target b.target] else []) }

def assemble (c : Composer) (a b : Program) : Compose Program := do
  match a.graph.tryAppend b.graph with
  | .error f => throw (.crash f.message)
  | .ok _ =>
      if (reconcileTarget a.target b.target).2 then
        Compose.log c s!"warning: {conflictText a.target b.target}"
      return sequenced a b

end KernelAlgebra
