import KernelAlgebra.Proofs.Builder.Inlining
import KernelAlgebra.Proofs.Symbol

/-!
# Calls after the end

A builder that has finished its program refuses every statement.  Declarations and constants are
not statements, and the program that was finished still grows by what they return.
-/

namespace KernelAlgebra

/-! ## Calls -/

namespace Builder

inductive Request where
  | declare (d : Declaration)
  | constant (values : List Float)
  | emit (op : Op) (dst : View) (srcs : List View)
  | assign (dst src : View)
  | kill (src : View)
  | openIf (cond : View)
  | openElse
  | closeIf
  | openWhile (cond : View)
  | closeWhile
  | inline (p : Program)
  | finish

def Request.isStatement : Request → Bool
  | .declare _ | .constant _ => false
  | _ => true

inductive Answer where
  | symbol (s : Symbol)
  | done
  | program (p : Program)
  | refused (e : BuilderError)
  | rejected (e : DeclarationFault)

def Answer.symbols : List Answer → List Symbol
  | [] => []
  | symbol s :: rest => s :: symbols rest
  | _ :: rest => symbols rest

/-- A call that is refused leaves the builder as it was. -/
def stated (b : Builder) (g : Supply) : Except BuilderError Builder → Answer × Builder × Supply
  | .ok b' => (.done, b', g)
  | .error e => (.refused e, b, g)

def declared (b : Builder) (g : Supply) :
    Except DeclarationFault (Symbol × Builder × Supply) → Answer × Builder × Supply
  | .ok (s, b', g') => (.symbol s, b', g')
  | .error e => (.rejected e, b, g)

def finished (b : Builder) (g : Supply) :
    Except BuilderError (Program × Builder) → Answer × Builder × Supply
  | .ok (p, b') => (.program p, b', g)
  | .error e => (.refused e, b, g)

def perform (b : Builder) (g : Supply) : Request → Answer × Builder × Supply
  | .declare d => b.declared g (b.declare g d)
  | .constant values => b.declared g (b.constant g values)
  | .emit op dst srcs => b.stated g (b.emit op dst srcs)
  | .assign dst src => b.stated g (b.assign dst src)
  | .kill src => b.stated g (b.kill src)
  | .openIf cond => b.stated g (b.openIf cond)
  | .openElse => b.stated g b.openElse
  | .closeIf => b.stated g b.closeIf
  | .openWhile cond => b.stated g (b.openWhile cond)
  | .closeWhile => b.stated g b.closeWhile
  | .inline p => b.stated g (b.inline p)
  | .finish => b.finished g b.finish

def performAll (b : Builder) (g : Supply) : List Request → List Answer × Builder × Supply
  | [] => ([], b, g)
  | r :: rest =>
      let (a, b, g) := b.perform g r
      let (as, b, g) := b.performAll g rest
      (a :: as, b, g)

/-! ## What a finished builder answers -/

variable {b : Builder} {g : Supply}

theorem ifAlive_of_ended (h : b.ended = true) (k : Except BuilderError Builder) :
    b.ifAlive k = .error .alreadyEnded := by
  simp [ifAlive, h]

theorem perform_statement (h : b.ended = true) {r : Request} (hr : r.isStatement = true) :
    b.perform g r = (.refused .alreadyEnded, b, g) := by
  cases r with
  | declare | constant => cases hr
  | emit | assign | kill | openIf | openElse | closeIf | openWhile | closeWhile =>
      exact congrArg (b.stated g) (ifAlive_of_ended h _)
  | inline p => simp [perform, inline, checkInline, h, Except.map, stated]
  | finish => simp [perform, finish, h, finished]

theorem declared_cases {x : Except DeclarationFault (Symbol × Builder × Supply)}
    (hx : ∀ {s b' g'}, x = .ok (s, b', g') →
      b'.ended = b.ended ∧ b'.program = b.program.declare s) :
    (b.declared g x).2.1.ended = b.ended ∧ (b.declared g x).2.1.program =
      (Answer.symbols [(b.declared g x).1]).foldl Program.declare b.program := by
  cases x with
  | error e => exact ⟨rfl, rfl⟩
  | ok r => exact hx rfl

theorem perform_of_ended (h : b.ended = true) (r : Request) :
    (b.perform g r).2.1.ended = true ∧ (b.perform g r).2.1.program =
      (Answer.symbols [(b.perform g r).1]).foldl Program.declare b.program := by
  cases hr : r.isStatement with
  | true =>
      rw [perform_statement h hr]
      exact ⟨h, rfl⟩
  | false =>
      rw [← h]
      cases r with
      | declare d =>
          refine declared_cases fun hx => ?_
          rw [eq_of_declare hx]
          exact ⟨rfl, rfl⟩
      | constant values =>
          refine declared_cases fun hx => ?_
          obtain ⟨pool, rfl⟩ := eq_of_constant hx
          exact ⟨rfl, rfl⟩
      | emit | assign | kill | openIf | openElse | closeIf | openWhile | closeWhile | inline
      | finish => cases hr

theorem Answer.symbols_cons (a : Answer) (as : List Answer) :
    Answer.symbols (a :: as) = Answer.symbols [a] ++ Answer.symbols as := by
  cases a <;> rfl

theorem performAll_of_ended (h : b.ended = true) (requests : List Request) :
    (b.performAll g requests).2.1.ended = true ∧ (b.performAll g requests).2.1.program =
      (Answer.symbols (b.performAll g requests).1).foldl Program.declare b.program := by
  induction requests generalizing b g with
  | nil => exact ⟨h, rfl⟩
  | cons r rest ih =>
      obtain ⟨hended, hprogram⟩ := perform_of_ended (g := g) h r
      obtain ⟨hended', hprogram'⟩ := ih (g := (b.perform g r).2.2) hended
      refine ⟨hended', ?_⟩
      rw [performAll, Answer.symbols_cons, List.foldl_append, ← hprogram]
      exact hprogram'

theorem performAll_refuses (h : b.ended = true) (requests : List Request) :
    ∀ q ∈ requests.zip (b.performAll g requests).1, q.1.isStatement = true →
      q.2 = .refused .alreadyEnded := by
  induction requests generalizing b g with
  | nil => simp [performAll]
  | cons r rest ih =>
      intro q hq hstatement
      rcases List.mem_cons.mp hq with rfl | hq
      · exact congrArg Prod.fst (perform_statement h hstatement)
      · exact ih (perform_of_ended h r).1 q hq hstatement

theorem performAll_statements (h : b.ended = true) {requests : List Request}
    (hall : ∀ r ∈ requests, r.isStatement = true) : (b.performAll g requests).2.1 = b := by
  induction requests with
  | nil => rfl
  | cons r rest ih =>
      rw [performAll, perform_statement h (hall r (by simp))]
      exact ih fun t ht => hall t (List.mem_cons_of_mem r ht)

end Builder

/-! ## Lists that grow -/

namespace Program

variable {p : Program}

structure GrownBy (p q : Program) (more : List Symbol) : Prop where
  graph : q.graph = p.graph
  inputs : q.inputs = p.inputs ++ more.filter Symbol.isInput
  outputs : q.outputs = p.outputs ++ more.filter Symbol.isOutput
  temps : q.temps = p.temps ++ more.filter (·.role = .temp)
  constants : q.constants = addNew p.constants (more.filter (·.role = .const))
  uniforms : q.uniforms = p.uniforms ++ more.filter (·.role = .uniform)
  textures : q.textures = p.textures ++ more.filter Symbol.isResource

theorem GrownBy.refl (p : Program) : p.GrownBy p [] := by
  constructor <;> simp [addNew]

theorem grownBy_declare (p : Program) (s : Symbol) : p.GrownBy (p.declare s) [s] := by
  unfold declare
  constructor <;> cases hrole : s.role <;>
    simp [hrole, Symbol.isInput, Symbol.isOutput, Symbol.isResource, addNew]

theorem GrownBy.trans {q r : Program} {more later : List Symbol} (h : p.GrownBy q more)
    (h' : q.GrownBy r later) : p.GrownBy r (more ++ later) := by
  constructor
  · rw [h'.graph, h.graph]
  · rw [h'.inputs, h.inputs, List.filter_append, List.append_assoc]
  · rw [h'.outputs, h.outputs, List.filter_append, List.append_assoc]
  · rw [h'.temps, h.temps, List.filter_append, List.append_assoc]
  · rw [h'.constants, h.constants, List.filter_append, addNew_append]
  · rw [h'.uniforms, h.uniforms, List.filter_append, List.append_assoc]
  · rw [h'.textures, h.textures, List.filter_append, List.append_assoc]

theorem grownBy_foldl (p : Program) (more : List Symbol) :
    p.GrownBy (more.foldl declare p) more := by
  induction more generalizing p with
  | nil => exact .refl p
  | cons s rest ih => exact (grownBy_declare p s).trans (ih _)

end Program

namespace Builder

variable {b b' : Builder} {g : Supply} {p : Program}

theorem ended_of_finish (h : b.finish = .ok (p, b')) : b'.ended = true ∧ b'.program = p := by
  unfold finish at h
  split at h
  · cases h
  · split at h
    · cases h
    · cases h
      exact ⟨rfl, rfl⟩

/--
Once a builder has finished its program, every statement is refused, and statements leave the
program as it is.  Its code stays the same whatever is called.  Its lists grow, however, by the
symbols that later declarations and constants return.
-/
theorem finished_grows_by_declarations (hfinish : b.finish = .ok (p, b')) (g : Supply)
    (requests : List Request) : ∃ answers later g',
      b'.performAll g requests = (answers, later, g') ∧
      p.GrownBy later.program (Answer.symbols answers) ∧
      (∀ q ∈ requests.zip answers, q.1.isStatement = true → q.2 = .refused .alreadyEnded) ∧
      ((∀ r ∈ requests, r.isStatement = true) → later.program = p) := by
  obtain ⟨hended, rfl⟩ := ended_of_finish hfinish
  refine ⟨_, _, _, rfl, ?_, performAll_refuses hended requests, fun hall => ?_⟩
  · rw [(performAll_of_ended hended requests).2]
    exact Program.grownBy_foldl _ _
  · rw [performAll_statements hended hall]

/-- An input and a temporary are declared after the end, and a statement is tried in between. -/
theorem finished_grows_by_declarations_late :
    ∃ p b', (start "").finish = .ok (p, b') ∧ p.inputs = [] ∧ p.temps = [] ∧
      ∃ answers later g', b'.performAll Supply.start
        [.declare { role := .input, size := 1, name := "x" }, .openElse,
          .declare { role := .temp, size := 2, name := "t" }] = (answers, later, g') ∧
        later.program.inputs.map Symbol.name = ["x"] ∧
        later.program.temps.map Symbol.name = ["t"] := by
  obtain ⟨answers, later, g', hrun, hgrown, _⟩ :=
    finished_grows_by_declarations (b := start "") rfl Supply.start
      [.declare { role := .input, size := 1, name := "x" }, .openElse,
        .declare { role := .temp, size := 2, name := "t" }]
  refine ⟨_, _, rfl, rfl, rfl, answers, later, g', hrun, ?_, ?_⟩
  · rw [hgrown.inputs]
    cases hrun
    rfl
  · rw [hgrown.temps]
    cases hrun
    rfl

end Builder

end KernelAlgebra
