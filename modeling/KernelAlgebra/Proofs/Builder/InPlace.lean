import KernelAlgebra.Builder

/-!
# Statements that change a builder in place

A statement is a row of checks and changes, each on what the ones before have left, and a refusal
undoes none of the changes that were made before it.  Done in place, every statement comes to the
same as the function that returns another builder, and one that is refused leaves the builder as
it was: no check comes after a change.
-/

namespace KernelAlgebra.Builder

/-- Work on a builder in place.  What was changed before a refusal stays changed. -/
abbrev InPlace := ExceptT BuilderError (StateM Builder)

def left {ε α : Type} (b : Builder) : Except ε (α × Builder) → Except ε α × Builder
  | .ok (a, b') => (.ok a, b')
  | .error e => (.error e, b)

def leaving {ε : Type} (b : Builder) (x : Except ε Builder) : Except ε Unit × Builder :=
  b.left (x.map fun b' => ((), b'))

namespace InPlace

/-! ## Checks -/

def alive : InPlace Unit := do
  if (← get).ended then throw .alreadyEnded

def demand {α : Type} : Except BuilderError α → InPlace α
  | .ok a => return a
  | .error e => throw e

/-! ## Changes -/

def changeGraph (f : Graph → Graph) : InPlace Unit :=
  modify fun b => b.withGraph (f b.graph)

def newNode : InPlace Nat := do
  let b ← get
  let (g, id) := b.graph.newNode
  set (b.withGraph g)
  return id

def goTo (id : Nat) : InPlace Unit :=
  modify fun b => { b with current := id }

def setFrames (frames : List Frame) : InPlace Unit :=
  modify fun b => { b with frames := frames }

def changeProgram (f : Program → Program) : InPlace Unit :=
  modify fun b => { b with program := f b.program }

/-! ## Statements -/

def emit (op : Op) (dst : View) (srcs : List View) : InPlace Unit := do
  alive
  let i ← demand ((Instruction.make op dst srcs).mapError .operand)
  let current := (← get).current
  changeGraph (·.modify current fun n => { n with block := n.block ++ [i] })

def openIf (cond : View) : InPlace Unit := do
  alive
  demand (checkCondition cond)
  let body ← newNode
  let join ← newNode
  let head := (← get).current
  changeGraph (·.modify head fun n => { n with branches := n.branches ++ [⟨cond, body⟩] })
  changeGraph (·.setFollower head (some join))
  setFrames (⟨.conditional, head, join⟩ :: (← get).frames)
  goTo body

def openElse : InPlace Unit := do
  alive
  match (← get).frames with
  | ⟨.conditional, head, join⟩ :: outer =>
      let alternative ← newNode
      changeGraph (·.setFollower head (some alternative))
      let current := (← get).current
      changeGraph (·.setFollower current (some join))
      setFrames (⟨.alternative, head, join⟩ :: outer)
      goTo alternative
  | _ => throw .elseWithoutIf

def closeIf : InPlace Unit := do
  alive
  match (← get).frames with
  | ⟨kind, _, join⟩ :: outer =>
      if kind = .loop then throw .endifWithoutIf
      setFrames outer
      let current := (← get).current
      changeGraph (·.setFollower current (some join))
      goTo join
  | [] => throw .endifWithoutIf

def openWhile (cond : View) : InPlace Unit := do
  alive
  demand (checkCondition cond)
  let head ← newNode
  let body ← newNode
  let after ← newNode
  let current := (← get).current
  changeGraph (·.setFollower current (some head))
  changeGraph (·.modify head fun n => { n with branches := [⟨cond, body⟩] })
  changeGraph (·.setFollower head (some after))
  setFrames (⟨.loop, head, after⟩ :: (← get).frames)
  goTo body

def closeWhile : InPlace Unit := do
  alive
  match (← get).frames with
  | ⟨.loop, head, join⟩ :: outer =>
      setFrames outer
      let current := (← get).current
      changeGraph (·.setFollower current (some head))
      goTo join
  | _ => throw .endwhileWithoutWhile

def inline (p : Program) : InPlace Unit := do
  alive
  if !p.inputs.isEmpty || !p.outputs.isEmpty then throw (.openInterface p.toInterface)
  let sub := p.copied.graph
  let b ← get
  changeGraph (·.insertAfter b.current sub)
  goTo (sub.exitIn b.graph)
  changeProgram fun q => { q with constants := addNew q.constants p.constants }
  changeProgram fun q => { q with uniforms := addNew q.uniforms p.uniforms }
  changeProgram fun q => { q with textures := addNew q.textures p.textures }
  changeProgram fun q => { q with temps := addNew q.temps p.temps }

def finish : InPlace Program := do
  alive
  match (← get).frames with
  | f :: _ => throw (.unterminated f.kind)
  | [] =>
      modify fun b => { b with ended := true }
      let current := (← get).current
      changeGraph fun g => g.setFollower current (some g.exit)
      changeProgram Program.collect
      return (← get).program

/-! ## What statements leave -/

variable {b : Builder}

theorem run_alive {α : Type} (k : InPlace α) :
    (alive >>= fun _ => k).run.run b =
      if b.ended then (.error .alreadyEnded, b) else k.run.run b := by
  change ((if b.ended then throw .alreadyEnded else pure () : InPlace Unit) >>=
    fun _ => k).run.run b = _
  split <;> rfl

theorem run_guarded {k : InPlace Unit} {call : Except BuilderError Builder}
    (h : k.run.run b = b.leaving call) :
    (alive >>= fun _ => k).run.run b = b.leaving (b.ifAlive call) := by
  rw [run_alive, h, ifAlive]
  split <;> rfl

theorem run_emit (op : Op) (dst : View) (srcs : List View) :
    (emit op dst srcs).run.run b = b.leaving (b.emit op dst srcs) := by
  refine run_guarded ?_
  cases Instruction.make op dst srcs <;> rfl

theorem setFollower_modify (g : Graph) (id : Nat) (f : Node → Node) (follower : Option Nat) :
    (g.modify id f).setFollower id follower =
      g.modify id fun n => { f n with follower := follower } := by
  simp only [Graph.setFollower, Graph.modify, List.modify_modify_eq]
  rfl

theorem run_openIf (cond : View) : (openIf cond).run.run b = b.leaving (b.openIf cond) := by
  refine run_guarded ?_
  cases checkCondition cond with
  | error e => rfl
  | ok _ =>
      refine congrArg (fun g => (Except.ok (), { b.withGraph g with
        current := b.graph.size,
        frames := ⟨.conditional, b.current, b.graph.newNode.1.size⟩ :: b.frames })) ?_
      exact setFollower_modify b.graph.newNode.1.newNode.1 b.current _ _

theorem run_openWhile (cond : View) :
    (openWhile cond).run.run b = b.leaving (b.openWhile cond) := by
  refine run_guarded ?_
  cases checkCondition cond with
  | error e => rfl
  | ok _ =>
      refine congrArg (fun g => (Except.ok (), { b.withGraph g with
        current := b.graph.newNode.1.size,
        frames := ⟨.loop, b.graph.size, b.graph.newNode.1.newNode.1.size⟩ :: b.frames })) ?_
      exact setFollower_modify
        (b.graph.newNode.1.newNode.1.newNode.1.setFollower b.current (some b.graph.size)) _ _ _

theorem run_openElse : openElse.run.run b = b.leaving b.openElse := by
  refine run_guarded ?_
  obtain ⟨program, current, frames, pool, ended⟩ := b
  cases frames with
  | nil => rfl
  | cons f outer =>
      obtain ⟨kind, head, join⟩ := f
      cases kind <;> rfl

theorem run_closeIf : closeIf.run.run b = b.leaving b.closeIf := by
  refine run_guarded ?_
  obtain ⟨program, current, frames, pool, ended⟩ := b
  cases frames with
  | nil => rfl
  | cons f outer =>
      obtain ⟨kind, head, join⟩ := f
      cases kind <;> rfl

theorem run_closeWhile : closeWhile.run.run b = b.leaving b.closeWhile := by
  refine run_guarded ?_
  obtain ⟨program, current, frames, pool, ended⟩ := b
  cases frames with
  | nil => rfl
  | cons f outer =>
      obtain ⟨kind, head, join⟩ := f
      cases kind <;> rfl

theorem run_inline (p : Program) : (inline p).run.run b = b.leaving (b.inline p) := by
  rw [inline, run_alive, Builder.inline, checkInline]
  cases b.ended with
  | true => rfl
  | false =>
      simp only [Bool.false_eq_true, if_false]
      cases hopen : (!p.inputs.isEmpty || !p.outputs.isEmpty) with
      | true => rfl
      | false => rfl

theorem run_finish : finish.run.run b = b.left b.finish := by
  rw [finish, run_alive, Builder.finish]
  obtain ⟨program, current, frames, pool, ended⟩ := b
  cases ended with
  | true => rfl
  | false =>
      cases frames with
      | nil => rfl
      | cons f outer => rfl

end InPlace

end KernelAlgebra.Builder
