import KernelAlgebra.Proofs.Builder.InPlace
import KernelAlgebra.Proofs.Compose.Acceptance

/-!
# Refused statements

A caller changes a kernel in place, in an environment that compositions draw from.  Records are
assigned by several statements, and a program is assigned after compositions that may be refused
on their own; still no statement is refused after a change, so a kernel is as it was when one is.
-/

namespace KernelAlgebra

open Builder (InPlace)

/-- Work on a kernel in place, in an environment.  What was done before a failure stays done. -/
abbrev Session := ExceptT (Fault ComposeError) (StateM (Builder × Env))

namespace Session

/-! ## Steps -/

def onBuilder {α : Type} (x : InPlace α) : Session α := do
  let (b, env) ← get
  let (result, b) := x.run.run b
  set (b, env)
  match result with
  | .ok a => return a
  | .error e => throw (.error (.refused e.toError))

def onEnv {α : Type} (x : Compose α) : Session α := do
  let (b, env) ← get
  let (result, env) := x.run.run env
  set (b, env)
  match result with
  | .ok a => return a
  | .error f => throw f

def demand {α : Type} : Except (Fault ComposeError) α → Session α
  | .ok a => return a
  | .error f => throw f

/-! ## Assignments -/

def assignAll : Record → Record → Session Unit
  | d :: ds, s :: ss => do
      onBuilder (InPlace.emit .asn (View.full d) [View.full s])
      assignAll ds ss
  | _, _ => return ()

def assign (dst src : Record) : Session Unit := do
  demand (Record.checkSizes (fun i d s => .recordSizes i s d) 0 dst src)
  assignAll dst src

def assignProgramOf (c : Composer) (r : Record) (h : Handle) (args : Record) : Session Unit := do
  let (b, _) ← get
  let p ← onEnv (Composer.callCode c b.program.target r h args)
  onBuilder (InPlace.inline p)

def assignProgramCore (c : Composer) (r : Record) (h : Option Handle) (args : Record) :
    Session Unit :=
  match h with
  | some h => assignProgramOf c r h args
  | none => onEnv (Compose.refuse (.missing "assignment of a nil program"))

def assignProgram (c : Composer) (r : Record) (h : Option Handle) (args : Record) :
    Session Unit :=
  tryCatch (do
    assignProgramCore c r h args
    onEnv (Compose.count c fun m => m.countSuccess "assign_program" none)) fun
    | .error e => do
        onEnv (Compose.countFailure c "assign_program" e)
        throw (.error e)
    | f => throw f

/-! ## Work in place and calls -/

/-- Done in place, the work comes to the same as the call that makes another kernel, and where the
call fails, the kernel stays as it was. -/
def Mirrors (x : Session Unit) (call : Builder → Compose Builder) : Prop :=
  ∀ b env result env', Yields (call b) env result env' →
    Yields x (b, env) (b.leaving result).1 ((b.leaving result).2, env')

variable {α : Type} {b b' : Builder} {env env' : Env}

theorem yields_onEnv {x : Compose α} {result : Except (Fault ComposeError) α}
    (h : Yields x env result env') : Yields (onEnv x) (b, env) result (b, env') := by
  have hrun : (onEnv x).run.run (b, env) = ((x.run.run env).1, b, (x.run.run env).2) := by
    change (match (x.run.run env).1 with
      | .ok a => pure a
      | .error f => throw f : Session α).run.run (b, (x.run.run env).2) = _
    cases (x.run.run env).1 <;> rfl
  unfold Yields at h ⊢
  rw [hrun, h]

theorem yields_onBuilder {x : InPlace α} {result : Except BuilderError α}
    (h : x.run.run b = (result, b')) :
    Yields (onBuilder x) (b, env) (result.mapError fun e => .error (.refused e.toError))
      (b', env) := by
  have hrun : (onBuilder x).run.run (b, env) =
      ((x.run.run b).1.mapError fun e => .error (.refused e.toError), (x.run.run b).2, env) := by
    change (match (x.run.run b).1 with
      | .ok a => pure a
      | .error e => throw (.error (.refused e.toError)) : Session α).run.run
        ((x.run.run b).2, env) = _
    cases (x.run.run b).1 <;> rfl
  unfold Yields
  rw [hrun, h]

theorem yields_demand {x : Except (Fault ComposeError) α} :
    Yields (demand x) (b, env) x (b, env) := by
  cases x <;> rfl

def accept (x : Except BuilderError Builder) : Compose Builder :=
  match x with
  | .ok b => return b
  | .error e => Compose.refuse (.refused e.toError)

theorem yields_accept_iff {x : Except BuilderError Builder}
    {result : Except (Fault ComposeError) Builder} :
    Yields (accept x) env result env' ↔
      result = x.mapError (fun e => .error (.refused e.toError)) ∧ env' = env := by
  cases x with
  | ok b => exact yields_pure
  | error e => exact yields_throw

theorem mirrors_onBuilder {x : InPlace Unit} {f : Builder → Except BuilderError Builder}
    (h : ∀ b, x.run.run b = b.leaving (f b)) : Mirrors (onBuilder x) fun b => accept (f b) := by
  intro b env result env' hcall
  obtain ⟨rfl, rfl⟩ := yields_accept_iff.mp hcall
  have hrun := h b
  cases hf : f b with
  | ok b' =>
      rw [hf] at hrun
      exact yields_onBuilder hrun
  | error e =>
      rw [hf] at hrun
      exact yields_onBuilder hrun

theorem mirrors_finish : Mirrors (onBuilder InPlace.finish >>= fun _ => pure ())
    fun b => accept (b.finish.map Prod.snd) := by
  intro b env result env' hcall
  obtain ⟨rfl, rfl⟩ := yields_accept_iff.mp hcall
  have hrun := InPlace.run_finish (b := b)
  cases hf : b.finish with
  | ok q =>
      rw [hf] at hrun
      exact (yields_bind (yields_onBuilder hrun)).mpr (yields_pure.mpr ⟨rfl, rfl⟩)
  | error e =>
      rw [hf] at hrun
      exact (yields_bind_error (yields_onBuilder hrun)).mpr ⟨rfl, rfl⟩

/-! ## Records -/

theorem exists_assign {d s : Symbol} (halive : b.ended = false) (hd : d.isHole = false)
    (hs : s.isHole = false) (hsize : d.size = s.size) :
    ∃ b', b.assign (View.full d) (View.full s) = .ok b' ∧ b'.ended = false := by
  have hmake : Instruction.make .asn (View.full d) [View.full s] = .ok (Instruction.copy d s) :=
    Instruction.assign_full hd hs hsize.symm
  refine ⟨b.withGraph (b.graph.modify b.current fun n =>
    { n with block := n.block ++ [Instruction.copy d s] }), ?_, halive⟩
  unfold Builder.assign Builder.emit
  rw [Builder.ifAlive_eq halive, hmake]

theorem checkSizes_cons {fault : Nat → Symbol → Symbol → ComposeError} {i : Nat} {d s : Symbol}
    {ds ss : Record} (h : Record.checkSizes fault i (d :: ds) (s :: ss) = .ok ()) :
    d.isHole = false ∧ s.isHole = false ∧ d.size = s.size ∧
      Record.checkSizes fault (i + 1) ds ss = .ok () := by
  simp only [Record.checkSizes] at h
  split at h
  · cases h
  rename_i hholes
  split at h
  · cases h
  rename_i hsize
  simp only [Bool.or_eq_true, not_or, Bool.not_eq_true] at hholes
  exact ⟨hholes.1, hholes.2, by simpa using hsize, h⟩

theorem yields_assignAll {fault : Nat → Symbol → Symbol → ComposeError} {i : Nat} {dst src : Record}
    (halive : b.ended = false) (hsizes : Record.checkSizes fault i dst src = .ok ()) :
    ∃ b', Record.assignAll b dst src = .ok b' ∧
      Yields (assignAll dst src) (b, env) (.ok ()) (b', env) := by
  induction dst generalizing src b i with
  | nil => exact ⟨b, rfl, yields_pure.mpr ⟨rfl, rfl⟩⟩
  | cons d ds ih =>
      cases src with
      | nil => exact ⟨b, rfl, yields_pure.mpr ⟨rfl, rfl⟩⟩
      | cons s ss =>
          obtain ⟨hd, hs, hsize, hrest⟩ := checkSizes_cons hsizes
          obtain ⟨b₁, hassign, halive₁⟩ := exists_assign halive hd hs hsize
          obtain ⟨b', hall, hyields⟩ := ih halive₁ hrest
          have hrun := InPlace.run_emit (b := b) .asn (View.full d) [View.full s]
          rw [show b.emit .asn (View.full d) [View.full s] = .ok b₁ from hassign] at hrun
          refine ⟨b', by rw [Record.assignAll, hassign]; exact hall, ?_⟩
          exact (yields_bind (yields_onBuilder hrun)).mpr hyields

theorem yields_assignAll_of_ended (hended : b.ended = true) (dst src : Record) :
    let result := (Record.assignAll b dst src).mapError fun e =>
      (.error (.refused e.toError) : Fault ComposeError)
    Yields (assignAll dst src) (b, env) (b.leaving result).1 ((b.leaving result).2, env) := by
  cases dst with
  | nil => exact yields_pure.mpr ⟨rfl, rfl⟩
  | cons d ds =>
      cases src with
      | nil => exact yields_pure.mpr ⟨rfl, rfl⟩
      | cons s ss =>
          have hrefused : b.emit .asn (View.full d) [View.full s] = .error .alreadyEnded := by
            rw [Builder.emit, Builder.ifAlive, if_pos hended]
          have hrun := InPlace.run_emit (b := b) .asn (View.full d) [View.full s]
          rw [hrefused] at hrun
          rw [Record.assignAll, Builder.assign, hrefused]
          exact (yields_bind_error (yields_onBuilder hrun)).mpr ⟨rfl, rfl⟩

theorem yields_ofExcept_iff {x result : Except (Fault ComposeError) α} {g g' : Supply} :
    Yields (Fresh.ofExcept x) g result g' ↔ result = x ∧ g' = g := by
  cases x with
  | ok a => exact yields_pure
  | error f => exact yields_throw

def assigned (b : Builder) (dst src : Record) : Compose Builder :=
  Compose.ofFresh (Fresh.ofExcept (Record.assign b dst src))

theorem mirrors_assign (dst src : Record) :
    Mirrors (assign dst src) fun b => assigned b dst src := by
  intro b env result env' hcall
  obtain ⟨g, hassign, rfl⟩ := Compose.yields_ofFresh_iff.mp hcall
  obtain ⟨rfl, rfl⟩ := yields_ofExcept_iff.mp hassign
  unfold assign Record.assign
  cases hsizes : Record.checkSizes (fun i d s => .recordSizes i s d) 0 dst src with
  | error f => exact (yields_bind_error yields_demand).mpr ⟨rfl, rfl⟩
  | ok _ =>
      refine (yields_bind yields_demand).mpr ?_
      cases hended : b.ended with
      | true => exact yields_assignAll_of_ended hended dst src
      | false =>
          obtain ⟨b', hall, hyields⟩ := yields_assignAll hended hsizes
          rw [hall]
          exact hyields

/-! ## Programs -/

theorem inlineInto_eq_accept (b : Builder) (p : Program) :
    Composer.inlineInto b p = accept (b.inline p) := by
  unfold Composer.inlineInto accept
  cases b.inline p <;> rfl

variable {c : Composer} {r args : Record}

theorem mirrors_assignProgramOf {h : Handle} :
    Mirrors (assignProgramOf c r h args) fun b => Composer.assignProgramOf c r b h args := by
  intro b env result env' hcall
  beta_reduce at hcall
  rw [Composer.assignProgramOf_eq_bind] at hcall
  obtain ⟨code, env₁, hcode⟩ := yields_self (Composer.callCode c b.program.target r h args) env
  have hget : Yields (get : Session (Builder × Env)) (b, env) (.ok (b, env)) (b, env) := rfl
  refine (yields_bind hget).mpr ?_
  cases code with
  | error f =>
      obtain ⟨rfl, rfl⟩ := (yields_bind_error hcode).mp hcall
      exact (yields_bind_error (yields_onEnv hcode)).mpr ⟨rfl, rfl⟩
  | ok p =>
      have hinline := (yields_bind hcode).mp hcall
      rw [inlineInto_eq_accept] at hinline
      refine (yields_bind (yields_onEnv hcode)).mpr ?_
      exact mirrors_onBuilder (fun b => InPlace.run_inline p) b env₁ result env' hinline

theorem mirrors_assignProgramCore {h : Option Handle} :
    Mirrors (assignProgramCore c r h args) fun b => Composer.assignProgramCore c r b h args := by
  cases h with
  | some h => exact mirrors_assignProgramOf
  | none =>
      intro b env result env' hcall
      obtain ⟨rfl, rfl⟩ := yields_throw.mp hcall
      exact yields_onEnv (yields_throw.mpr ⟨rfl, rfl⟩)

theorem mirrors_assignProgram {h : Option Handle} :
    Mirrors (assignProgram c r h args) fun b => Composer.assignProgram c r b h args := by
  intro b env result env' hcall
  beta_reduce at hcall
  obtain ⟨result₁, env₁, hcore⟩ := yields_self (Composer.assignProgramCore c r b h args) env
  have hmirror := mirrors_assignProgramCore b env result₁ env₁ hcore
  cases result₁ with
  | ok b₁ =>
      have hcall := (yields_bind (Compose.yields_attempt_ok hcore)).mp hcall
      obtain ⟨env₂, hcount, _, hcall⟩ :=
        (Compose.yields_bind_quiet Compose.supply_of_yields_count).mp hcall
      obtain ⟨rfl, rfl⟩ := yields_pure.mp hcall
      exact yields_tryCatch ((yields_bind hmirror).mpr (yields_onEnv hcount))
  | error f =>
      refine (yields_tryCatch_error ((yields_bind_error hmirror).mpr ⟨rfl, rfl⟩)).mpr ?_
      cases f with
      | error e =>
          have hcall := (yields_bind (Compose.yields_attempt_refused hcore)).mp hcall
          obtain ⟨env₂, hcount, _, hcall⟩ :=
            (Compose.yields_bind_quiet Compose.supply_of_yields_countFailure).mp hcall
          obtain ⟨rfl, rfl⟩ := yields_throw.mp hcall
          exact (yields_bind (yields_onEnv hcount)).mpr (yields_throw.mpr ⟨rfl, rfl⟩)
      | crash text =>
          obtain ⟨rfl, rfl⟩ := (yields_bind_error (Compose.yields_attempt_crash hcore)).mp hcall
          exact yields_throw.mpr ⟨rfl, rfl⟩

end Session

/-! ## Statements -/

/-- What a caller does to a kernel under construction. -/
inductive Statement where
  | emit (op : Op) (dst : View) (srcs : List View)
  | openIf (cond : View)
  | openElse
  | closeIf
  | openWhile (cond : View)
  | closeWhile
  | inline (p : Program)
  | finish
  | assign (dst src : Record)
  | assignProgram (c : Composer) (r : Record) (h : Option Handle) (args : Record)

namespace Statement

def inPlace : Statement → Session Unit
  | emit op dst srcs => Session.onBuilder (InPlace.emit op dst srcs)
  | openIf cond => Session.onBuilder (InPlace.openIf cond)
  | openElse => Session.onBuilder InPlace.openElse
  | closeIf => Session.onBuilder InPlace.closeIf
  | openWhile cond => Session.onBuilder (InPlace.openWhile cond)
  | closeWhile => Session.onBuilder InPlace.closeWhile
  | inline p => Session.onBuilder (InPlace.inline p)
  | finish => do
      let _ ← Session.onBuilder InPlace.finish
  | assign dst src => Session.assign dst src
  | assignProgram c r h args => Session.assignProgram c r h args

def call (b : Builder) : Statement → Compose Builder
  | emit op dst srcs => Session.accept (b.emit op dst srcs)
  | openIf cond => Session.accept (b.openIf cond)
  | openElse => Session.accept b.openElse
  | closeIf => Session.accept b.closeIf
  | openWhile cond => Session.accept (b.openWhile cond)
  | closeWhile => Session.accept b.closeWhile
  | inline p => Session.accept (b.inline p)
  | finish => Session.accept (b.finish.map Prod.snd)
  | assign dst src => Session.assigned b dst src
  | assignProgram c r h args => Composer.assignProgram c r b h args

theorem mirrors (s : Statement) : Session.Mirrors s.inPlace fun b => s.call b := by
  cases s <;> simp only [inPlace, call]
  case emit op dst srcs => exact Session.mirrors_onBuilder fun _ => InPlace.run_emit op dst srcs
  case openIf cond => exact Session.mirrors_onBuilder fun _ => InPlace.run_openIf cond
  case openElse => exact Session.mirrors_onBuilder fun _ => InPlace.run_openElse
  case closeIf => exact Session.mirrors_onBuilder fun _ => InPlace.run_closeIf
  case openWhile cond => exact Session.mirrors_onBuilder fun _ => InPlace.run_openWhile cond
  case closeWhile => exact Session.mirrors_onBuilder fun _ => InPlace.run_closeWhile
  case inline p => exact Session.mirrors_onBuilder fun _ => InPlace.run_inline p
  case finish => exact Session.mirrors_finish
  case assign dst src => exact Session.mirrors_assign dst src
  case assignProgram c r h args => exact Session.mirrors_assignProgram

theorem untouched_of_inPlace (s : Statement) {b b' : Builder} {env env' : Env}
    {result : Except (Fault ComposeError) Unit}
    (hrun : s.inPlace.run.run (b, env) = (result, b', env')) :
    (s.call b).run.run env = (result.map fun _ => b', env') ∧
      ∀ f, result = .error f → b' = b := by
  obtain ⟨called, env₁, hcall⟩ := yields_self (s.call b) env
  obtain ⟨hresult, hleft⟩ := (s.mirrors b env called env₁ hcall).unique hrun
  obtain ⟨rfl, rfl⟩ := Prod.mk.injEq .. ▸ hleft
  subst hresult
  cases called with
  | ok b₁ => exact ⟨hcall, by rintro f ⟨⟩⟩
  | error f => exact ⟨hcall, fun _ _ => rfl⟩

/--
A statement does to a kernel what the call returns, and one that fails leaves the kernel exactly as
it was.  Of a program that is valid, with bindings as wide as their inputs, an assignment to a
kernel that is still open is refused only for what can be seen before anything is composed: there
is no program, something is bound to a stream, or the arguments or the record differ from the free
inputs or the outputs in number or in size.
-/
theorem refusal_leaves_untouched :
    (∀ (s : Statement) (b b' : Builder) (env env' : Env)
        (result : Except (Fault ComposeError) Unit),
      s.inPlace.run.run (b, env) = (result, b', env') →
        (s.call b).run.run env = (result.map fun _ => b', env') ∧
          ∀ f, result = .error f → b' = b) ∧
    ∀ (c : Composer) (b : Builder) (env : Env) (oh : Option Handle) (r args : Record),
      b.ended = false →
      (∀ h ∈ oh, h.WellFormed ∧ env.supply.Above h.sketch.symbols ∧ ∀ x ∈ h.bindings, x.Proper) →
      env.supply.Above args → (∀ s ∈ args ++ r, s.isHole = false) →
      ((∃ b' env', (Composer.assignProgram c r b oh args).run.run env = (.ok b', env')) ∨
        ∃ e env', (Composer.assignProgram c r b oh args).run.run env = (.error (.error e), env')) ∧
      ((∃ e env', (Composer.assignProgram c r b oh args).run.run env = (.error (.error e), env')) ↔
        oh = none ∨ ∃ h, oh = some h ∧
          (h.hasStreams = true ∨ h.free.length ≠ args.length ∨ h.outputs.length ≠ r.length ∨
            (∃ q ∈ h.free.zip args, q.1.size ≠ q.2.size) ∨
            ∃ q ∈ h.outputs.zip r, q.1.size ≠ q.2.size)) := by
  refine ⟨fun s b b' env env' result => s.untouched_of_inPlace, ?_⟩
  intro c b env oh r args halive hoh hold hsolid
  have hh : ∀ h ∈ oh, h.InOrder Binding.Proper env.supply := by
    intro h hmem
    obtain ⟨hwell, habove, hproper⟩ := hoh h hmem
    exact hwell.inOrder habove hproper
  simp only [← Handle.not_takes_iff]
  rcases Composer.assignProgram_cases (c := c) halive hh hold hsolid with
    ⟨h, rfl, htakes, b', env₁, hrun⟩ | ⟨htakes, e, env₁, hrun⟩
  · refine ⟨.inl ⟨b', env₁, hrun⟩, ?_, ?_⟩
    · rintro ⟨e, env₂, hrefused⟩
      cases hrun.symm.trans hrefused
    · rintro (hnone | ⟨h', heq, hnot⟩)
      · cases hnone
      · cases heq
        exact absurd htakes hnot
  · refine ⟨.inr ⟨e, env₁, hrun⟩, fun _ => ?_, fun _ => ⟨e, env₁, hrun⟩⟩
    cases oh with
    | none => exact .inl rfl
    | some h => exact .inr ⟨h, rfl, htakes h rfl⟩

def copying : Handle := ⟨1, 1, Program.copying.sketch, [], []⟩

def callerEnv : Env := { Env.start with supply := ⟨6⟩ }

theorem refusal_leaves_untouched_copying :
    (∃ f env', (assignProgram {} [Composer.callerTemp] (some copying)
      [Composer.callerInput, Composer.callerInput]).inPlace.run.run (Composer.caller, callerEnv) =
        (.error f, Composer.caller, env')) ∧
    ∃ b' env', (Composer.assignProgram {} [Composer.callerTemp] Composer.caller (some copying)
      [Composer.callerInput]).run.run callerEnv = (.ok b', env') := by
  have hcopying : ∀ h ∈ some copying, h.WellFormed ∧ callerEnv.supply.Above h.sketch.symbols ∧
      ∀ x ∈ h.bindings, x.Proper := by
    rintro h ⟨⟩
    exact ⟨Composer.callable_copying.wellFormed, Composer.callable_copying.above,
      Composer.callable_copying.proper⟩
  constructor
  · have hrefused := (refusal_leaves_untouched.2 {} Composer.caller callerEnv (some copying)
      [Composer.callerTemp] [Composer.callerInput, Composer.callerInput] rfl hcopying (by decide)
      (by decide)).2.mpr (.inr ⟨copying, rfl, .inr (.inl (by decide))⟩)
    obtain ⟨e, env₁, hcall⟩ := hrefused
    obtain ⟨result, ⟨b', env'⟩, hrun⟩ := yields_self (assignProgram {} [Composer.callerTemp]
      (some copying) [Composer.callerInput, Composer.callerInput]).inPlace
        (Composer.caller, callerEnv)
    obtain ⟨hresult, huntouched⟩ := refusal_leaves_untouched.1 _ _ _ _ _ _ hrun
    cases result with
    | ok _ => cases hresult.symm.trans hcall
    | error f =>
        obtain rfl := huntouched f rfl
        exact ⟨f, env', hrun⟩
  · have htaken := refusal_leaves_untouched.2 {} Composer.caller callerEnv (some copying)
      [Composer.callerTemp] [Composer.callerInput] rfl hcopying (by decide) (by decide)
    rcases htaken.1 with hok | hrefused
    · exact hok
    · rcases htaken.2.mp hrefused with hnone | ⟨h, heq, hwrong⟩
      · cases hnone
      · cases heq
        exact absurd hwrong (by decide)

end Statement

end KernelAlgebra
