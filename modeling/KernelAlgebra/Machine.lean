import KernelAlgebra.Graph.Edit
import KernelAlgebra.Number.Power
import KernelAlgebra.Number.Trigonometry
import KernelAlgebra.Program.Basic

/-!
# The evaluator

A run keeps a vector of numbers per symbol.  Inputs come from outside; a uniform starts with
its override or its default, a constant with its payload, everything else with zeros.  The
run visits nodes from the entry until the exit has been executed, an instruction discards
it, or the number of visited nodes exceeds a limit.
-/

namespace KernelAlgebra

namespace Machine

abbrev Overrides := List (String × List Float)

/-- The symbols that have been written, with their vectors. -/
abbrev Store := List (Symbol × List Float)

/-- Exactly `size` numbers: the given ones as far as they go, then zeros. -/
def padded (size : Nat) (xs : List Float) : List Float :=
  (xs ++ List.replicate size 0).take size

@[simp] theorem length_padded (size : Nat) (xs : List Float) : (padded size xs).length = size := by
  simp [padded]

def startValue (u : Overrides) (s : Symbol) : List Float :=
  match s.role, u.lookup s.name with
  | .uniform, some xs => padded s.size xs
  | _, _ => padded s.size s.value

namespace Store

def get (u : Overrides) (st : Store) (s : Symbol) : List Float :=
  (st.lookup s).getD (startValue u s)

def set (st : Store) (s : Symbol) (xs : List Float) : Store :=
  match st with
  | [] => [(s, xs)]
  | (t, ys) :: rest => if t = s then (s, xs) :: rest else (t, ys) :: set rest s xs

theorem lookup_set (st : Store) (s t : Symbol) (xs : List Float) :
    (set st s xs).lookup t = if t = s then some xs else st.lookup t := by
  induction st with
  | nil => by_cases h : t = s <;> simp [set, List.lookup_cons, h, beq_eq_false_iff_ne.mpr]
  | cons q rest ih =>
      obtain ⟨r, ys⟩ := q
      by_cases hr : r = s
      · by_cases h : t = s <;> simp [set, hr, List.lookup_cons, h, beq_eq_false_iff_ne.mpr]
      · by_cases h : t = r
        · subst h
          simp [set, hr]
        · simp [set, hr, List.lookup_cons, beq_eq_false_iff_ne.mpr h, ih]

theorem get_set (u : Overrides) (st : Store) (s t : Symbol) (xs : List Float) :
    get u (set st s xs) t = if t = s then xs else get u st t := by
  unfold get
  rw [lookup_set]
  by_cases h : t = s <;> simp [h]

end Store

/-! ## Faults -/

inductive ExecFault where
  /-- An element or an operand that does not exist. -/
  | crash
  | unsampled (texture : Symbol)
  | noMeaning (op : Op)

inductive RunError where
  | inputCount (expected actual : Nat)
  | inputSize (sym : Symbol) (actual : Nat)
  | stepLimit (limit : Nat)
  | unsupported (node index : Nat) (i : Instruction) (fault : ExecFault)
  | noSuccessor (node : Nat)
  | noSuchNode (id count : Nat)
  | crash

def ExecFault.message : ExecFault → String
  | .crash => "runtime error"
  | .unsampled s => s!"cannot sample {s.label}"
  | .noMeaning op => s!"opcode {op.name}"

def RunError.message : RunError → String
  | .inputCount expected actual => s!"program has {expected} inputs, got {actual} values"
  | .inputSize s actual => s!"input {s.label} has {s.size} elements, got {actual}"
  | .stepLimit limit => s!"after {limit} nodes: step limit exceeded"
  | .unsupported n k i f =>
      s!"node {n}, instruction {k} ({i.text}): {f.message}: unsupported instruction"
  | .noSuccessor n => s!"node {n} has no successor"
  | .noSuchNode id count => (GraphFault.noSuchNode id count).message
  | .crash => "runtime error"

/-! ## Instructions -/

def element? (xs : List Float) (k : Int) : Option Float :=
  if k < 0 then none else xs[k.toNat]?

/-- The numbers that a view shows; an absent operand shows none. -/
def read (u : Overrides) (st : Store) (v : View) : Option (List Float) :=
  if v.isAbsent then none
  else
    let xs := st.get u v.sym
    v.elements.mapM fun k => (element? xs k).map fun x => if v.neg then -x else x

/-- Puts numbers into the elements of a vector that a view shows, in order. -/
def place (v : View) (xs : List Float) : Nat → List Float → Option (List Float)
  | _, [] => some xs
  | i, r :: rest =>
      match v.index? i with
      | some k =>
          if k < 0 || (xs.length : Int) ≤ k then none
          else place v (xs.set k.toNat r) (i + 1) rest
      | none => none

def write (u : Overrides) (st : Store) (v : View) (r : List Float) : Option Store :=
  if v.isAbsent then none else (place v (st.get u v.sym) 0 r).map (st.set v.sym)

def elementwise : Op → List Float → Option Float
  | .asn, [a] => some a
  | .add, [a, b] => some (a + b)
  | .mul, [a, b] => some (a * b)
  | .div, [a, b] => some (a / b)
  | .mod, [a, b] => some (Number.remainder a b)
  | .min, [a, b] => some (Number.minimum a b)
  | .max, [a, b] => some (Number.maximum a b)
  | .pow, [a, b] => some (Number.power a b)
  | .slt, [a, b] => some (Number.ofTruth (a < b))
  | .sle, [a, b] => some (Number.ofTruth (a ≤ b))
  | .sgt, [a, b] => some (Number.ofTruth (a > b))
  | .sge, [a, b] => some (Number.ofTruth (a ≥ b))
  | .seq, [a, b] => some (Number.ofTruth (a == b))
  | .sne, [a, b] => some (Number.ofTruth (a != b))
  | .abs, [a] => some a.abs
  | .ceil, [a] => some a.ceil
  | .flr, [a] => some a.floor
  | .frac, [a] => some (a - a.floor)
  | .exp, [a] => some (Number.exponential a)
  | .log, [a] => some (Number.logarithm a)
  | .sqrt, [a] => some a.sqrt
  | .rsq, [a] => some (1 / a.sqrt)
  | .rcp, [a] => some (1 / a)
  | .sin, [a] => some (Number.sine a)
  | .cos, [a] => some (Number.cosine a)
  | .tan, [a] => some (Number.tangent a)
  | .sgn, [a] => some (Number.signum a)
  | .mad, [a, b, c] => some (a * b + c)
  | .lrp, [a, b, c] => some (a * b + (1 - a) * c)
  | .cond, [a, b, c] => some (if a > 0 then b else c)
  | _, _ => none

/-- The `i`-th element of a source; a scalar serves every position. -/
def broadcast (i : Nat) (xs : List Float) : Option Float :=
  match xs with
  | [x] => some x
  | _ => xs[i]?

def dot : List Float → List Float → Float → Option Float
  | [], _, acc => some acc
  | x :: xs, y :: ys, acc => dot xs ys (acc + x * y)
  | _ :: _, [], _ => none

def compute (op : Op) (size : Nat) (srcs : List (List Float)) : Option (List Float) :=
  match op.rule, srcs with
  | .elementwise, vs =>
      (List.range size).mapM fun i => do elementwise op (← vs.mapM (broadcast i))
  | .dot, [a, b] => (dot a b 0).map ([·])
  | .cross, [a0 :: a1 :: a2 :: _, b0 :: b1 :: b2 :: _] =>
      some [a1 * b2 - a2 * b1, a2 * b0 - a0 * b2, a0 * b1 - a1 * b0]
  | .norm, [a] => (dot a a 0).map fun s => a.map (· / s.sqrt)
  | _, _ => none

structure Outcome where
  store : Store
  killed : Bool

def readAll (u : Overrides) (st : Store) (srcs : List View) : Option (List (List Float)) :=
  srcs.mapM (read u st)

def exec (u : Overrides) (st : Store) (i : Instruction) : Except ExecFault Outcome :=
  match i.op with
  | .nop => .ok ⟨st, false⟩
  | .kil =>
      match readAll u st i.src with
      | some [xs] => .ok ⟨st, xs.any (· < 0)⟩
      | _ => .error .crash
  | .tex => .error (.unsampled ((i.src.head?.getD View.absent).sym))
  | .unknown code => .error (.noMeaning (.unknown code))
  | op =>
      match readAll u st i.src with
      | none => .error .crash
      | some srcs =>
          match (compute op i.dst.size srcs).bind (write u st i.dst) with
          | some st => .ok ⟨st, false⟩
          | none => .error .crash

/-! ## Runs -/

def execBlock (u : Overrides) (node : Nat) : Nat → Block → Store → Except RunError Outcome
  | _, [], st => .ok ⟨st, false⟩
  | k, i :: rest, st =>
      match exec u st i with
      | .error .crash => .error .crash
      | .error f => .error (.unsupported node k i f)
      | .ok ⟨st, true⟩ => .ok ⟨st, true⟩
      | .ok ⟨st, false⟩ => execBlock u node (k + 1) rest st

def holds (u : Overrides) (st : Store) (b : Branch) : Option Bool :=
  match read u st b.cond with
  | some (x :: _) => some (x > 0)
  | _ => none

/-- The target of the first branch whose condition holds, or the follower. -/
def next (u : Overrides) (st : Store) (count node : Nat) (follower : Option Nat) :
    List Branch → Except RunError Nat
  | [] =>
      match follower with
      | some f => .ok f
      | none => .error (.noSuccessor node)
  | b :: rest =>
      match holds u st b with
      | some true =>
          match Graph.follower? count b.target with
          | some id => .ok id
          | none => .error (.noSuccessor node)
      | some false => next u st count node follower rest
      | none => .error .crash

structure Final where
  store : Store
  killed : Bool
  steps : Nat

/-- Visits at most `fuel` more nodes of a run that may visit `limit` nodes in all. -/
def visit (g : Graph) (u : Overrides) (limit : Nat) :
    Nat → Nat → Nat → Store → Except RunError Final
  | 0, _, _, _ => .error (.stepLimit limit)
  | fuel + 1, steps, id, st =>
      match g.node? id with
      | none => .error (.noSuchNode id g.size)
      | some n =>
          match execBlock u id 0 n.block st with
          | .error e => .error e
          | .ok ⟨st, true⟩ => .ok ⟨st, true, steps + 1⟩
          | .ok ⟨st, false⟩ =>
              if id = g.exit then .ok ⟨st, false, steps + 1⟩
              else
                match next u st g.size id n.follower n.branches with
                | .error e => .error e
                | .ok id => visit g u limit fuel (steps + 1) id st

def load : List Symbol → List (List Float) → Store → Except RunError Store
  | s :: rest, xs :: more, st =>
      if s.isHole then .error .crash
      else if xs.length != s.size then .error (.inputSize s xs.length)
      else load rest more (st.set s xs)
  | _, _, st => .ok st

structure Result where
  outputs : List (List Float)
  killed : Bool
  steps : Nat

def start (i : Interface) (inputs : List (List Float)) : Except RunError Store :=
  if inputs.length != i.inputs.length then .error (.inputCount i.inputs.length inputs.length)
  else load i.inputs inputs []

/-- A run that visits at most `limit` nodes, with its final store. -/
def runToEnd (p : Program) (inputs : List (List Float)) (u : Overrides) (limit : Nat) :
    Except RunError Final :=
  match start p.toInterface inputs with
  | .error e => .error e
  | .ok st => visit p.graph u limit limit 0 p.graph.entry st

def resultOf (p : Program) (u : Overrides) (f : Final) : Result :=
  ⟨p.outputs.map (f.store.get u), f.killed, f.steps⟩

def result (p : Program) (u : Overrides) (f : Final) : Except RunError Result :=
  if p.outputs.any (·.isHole) then .error .crash else .ok (resultOf p u f)

def runWithin (p : Program) (inputs : List (List Float)) (u : Overrides) (limit : Nat) :
    Except RunError Result :=
  match runToEnd p inputs u limit with
  | .error e => .error e
  | .ok f => result p u f

/-- The run completes with this result, however many nodes it takes. -/
def Completes (p : Program) (inputs : List (List Float)) (u : Overrides) (r : Result) : Prop :=
  ∃ limit, runWithin p inputs u limit = .ok r

end Machine

structure RunOptions where
  /-- The bound on visited nodes; zero or less asks for none. -/
  maxSteps : Int := 65536
  overrides : Machine.Overrides := []

/-- Where a run without a bound is given up after all, so that `Program.run` is a function.  What
such a run really comes to says `Program.Answers`. -/
def RunOptions.unbounded : Nat := Nat.pow 2 48

def RunOptions.limit (o : RunOptions) : Nat :=
  if 0 < o.maxSteps then o.maxSteps.toNat else unbounded

namespace Program

def runToEnd (p : Program) (inputs : List (List Float)) (o : RunOptions) :
    Except Machine.RunError Machine.Final :=
  Machine.runToEnd p inputs o.overrides o.limit

def run (p : Program) (inputs : List (List Float)) (o : RunOptions) :
    Except Machine.RunError Machine.Result :=
  Machine.runWithin p inputs o.overrides o.limit

/-- The run comes to this answer.  Without a bound it may visit any number of nodes before that,
and it comes to no answer if it goes on for ever. -/
def Answers (p : Program) (inputs : List (List Float)) (o : RunOptions)
    (x : Except Machine.RunError Machine.Result) : Prop :=
  if 0 < o.maxSteps then Machine.runWithin p inputs o.overrides o.maxSteps.toNat = x
  else ∃ limit, Machine.runWithin p inputs o.overrides limit = x ∧ x ≠ .error (.stepLimit limit)

end Program

end KernelAlgebra
