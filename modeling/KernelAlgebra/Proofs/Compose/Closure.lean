import KernelAlgebra.Proofs.Compose.Resolution
import KernelAlgebra.Proofs.Selection.Manipulation

/-!
# Validity is closed under composition

However many operations are performed one after the other, on whatever handles there are by
then, every handle that comes out is as well-formed as those that went in, and those without
streams resolve to valid programs.
-/

namespace KernelAlgebra

/-- A handle over a valid program, with bindings for inputs of the sizes of their sources. -/
structure Handle.WellFormed (h : Handle) : Prop where
  valid : ∃ p, h.sketch.program? = some p ∧ p.issues = []
  bindings : h.bindings.length ≤ h.sketch.inputs.length
  sizes : ∀ q ∈ h.bindings.zip h.sketch.inputs, q.1.source.size = q.2.size

section WellFormed

variable {P : Binding → Prop} {g : Supply} {h : Handle}

theorem Handle.wellFormed_iff_fed {p : Program} (hsketch : h.sketch = p.sketch) (hp : p.Valid) :
    h.WellFormed ↔ Fed h.bindings p.inputs := by
  rw [← Sketch.inputs_of_eq hsketch, fed_iff]
  constructor
  · exact fun hh => ⟨hh.bindings, hh.sizes⟩
  · rintro ⟨hlen, hsizes⟩
    exact ⟨⟨p, Sketch.program?_of_eq hsketch, Program.issues_eq_nil_iff.mpr hp⟩, hlen, hsizes⟩

theorem Handle.InOrder.wellFormed (hh : h.InOrder P g) : h.WellFormed := by
  obtain ⟨p, hp⟩ := hh
  exact (wellFormed_iff_fed hp.sketch hp.valid).mpr hp.fed

theorem Handle.WellFormed.inOrder (hh : h.WellFormed) (habove : g.Above h.sketch.symbols)
    (hall : ∀ b ∈ h.bindings, P b) : h.InOrder P g := by
  obtain ⟨p, hp, hissues⟩ := hh.valid
  have hsketch := Sketch.eq_of_program? hp
  have hvalid := Program.issues_eq_nil_iff.mp hissues
  rw [hsketch] at habove
  exact ⟨p, hsketch, hvalid, habove, (wellFormed_iff_fed hsketch hvalid).mp hh, hall⟩

end WellFormed

/-! ## Operations -/

/-- An operation that makes a handle from handles, any of which may be absent. -/
inductive Operation where
  | connect (a b : Option Handle)
  | combine (a b : Option Handle)
  | namedConnect (a b : Option Handle) (keepExtra : Bool)
  | namedCombine (a b : Option Handle)
  | mergeNames (h : Option Handle)
  | permuteInputs (h : Option Handle) (idx : List Int)
  | permuteOutputs (h : Option Handle) (idx : List Int)
  | renameInput (h : Option Handle) (old new : String)
  | renameOutput (h : Option Handle) (old new : String)
  | bind (h : Handle) (kind : BindingKind) (sources : List Symbol)
  | fixInputs (h : Option Handle) (f : Selection.Fixed)
  | fixOutputs (h : Option Handle) (f : Selection.Fixed)
  | selectInputs (h : Option Handle) (m : Selection.Manipulator)
  | selectOutputs (h : Option Handle) (m : Selection.Manipulator)

namespace Operation

def operands : Operation → List Handle
  | connect a b | combine a b | namedConnect a b _ | namedCombine a b => a.toList ++ b.toList
  | mergeNames h | permuteInputs h _ | permuteOutputs h _ | renameInput h _ _
  | renameOutput h _ _ | selectInputs h _ | selectOutputs h _ => h.toList
  | bind h _ _ => [h]
  | fixInputs h f | fixOutputs h f => h.toList ++ f.handles

def perform (c : Composer) : Operation → Compose Handle
  | connect a b => c.connect a b
  | combine a b => c.combine a b
  | namedConnect a b keepExtra => c.namedConnect a b keepExtra
  | namedCombine a b => c.namedCombine a b
  | mergeNames h => c.mergeNames h
  | permuteInputs h idx => c.permuteInputs h idx
  | permuteOutputs h idx => c.permuteOutputs h idx
  | renameInput h old new => c.renameInput h old new
  | renameOutput h old new => c.renameOutput h old new
  | bind h kind sources => Compose.bound h kind sources
  | fixInputs h f => c.fixInputs h f
  | fixOutputs h f => c.fixOutputs h f
  | selectInputs h m => c.selectInputs h m
  | selectOutputs h m => c.selectOutputsBy h m

open Composer in
theorem ensures_perform {P : Binding → Prop} {c : Composer} {env : Env} {op : Operation}
    (hop : ∀ h ∈ op.operands, h.InOrder P env.supply) (hP : ∀ b : Binding, b.Proper → P b) :
    Compose.Ensures (op.perform c) env fun h g => h.InOrder P g := by
  cases op with
  | connect a b =>
      exact ensures_connect (fun h hh => hop h (by simp_all [operands]))
        fun h hh => hop h (by simp_all [operands])
  | combine a b =>
      exact ensures_combine (fun h hh => hop h (by simp_all [operands]))
        fun h hh => hop h (by simp_all [operands])
  | namedConnect a b keepExtra =>
      exact ensures_namedConnect (fun h hh => hop h (by simp_all [operands]))
        fun h hh => hop h (by simp_all [operands])
  | namedCombine a b =>
      exact ensures_namedCombine (fun h hh => hop h (by simp_all [operands]))
        fun h hh => hop h (by simp_all [operands])
  | mergeNames h => exact ensures_mergeNames fun h hh => hop h (by simp_all [operands])
  | permuteInputs h idx => exact ensures_permuteInputs fun h hh => hop h (by simp_all [operands])
  | permuteOutputs h idx => exact ensures_permuteOutputs fun h hh => hop h (by simp_all [operands])
  | renameInput h old new => exact ensures_renameInput fun h hh => hop h (by simp_all [operands])
  | renameOutput h old new => exact ensures_renameOutput fun h hh => hop h (by simp_all [operands])
  | bind h kind sources => exact Handle.ensures_bound (hop h (by simp [operands])) hP
  | fixInputs h f =>
      exact ensures_fixInputs (fun h hh => hop h (by simp_all [operands]))
        fun h hh => hop h (by simp_all [operands])
  | fixOutputs h f =>
      exact ensures_fixOutputs (fun h hh => hop h (by simp_all [operands]))
        fun h hh => hop h (by simp_all [operands])
  | selectInputs h m => exact ensures_selectInputs fun h hh => hop h (by simp_all [operands])
  | selectOutputs h m => exact ensures_selectOutputsBy fun h hh => hop h (by simp_all [operands])

end Operation

/-! ## Sequences of operations -/

/-- From some handles, operations of any composers lead to others.  An operation that fails
leaves the handles as they are. -/
inductive History (pool : List Handle) (env : Env) : List Handle → Env → Prop
  | start : History pool env pool env
  | success {pool₁ : List Handle} {env₁ env₂ : Env} {c : Composer} {op : Operation} {h : Handle} :
      History pool env pool₁ env₁ → (∀ h ∈ op.operands, h ∈ pool₁) →
        (op.perform c).run.run env₁ = (.ok h, env₂) → History pool env (h :: pool₁) env₂
  | failure {pool₁ : List Handle} {env₁ env₂ : Env} {c : Composer} {op : Operation}
      {f : Fault ComposeError} :
      History pool env pool₁ env₁ → (∀ h ∈ op.operands, h ∈ pool₁) →
        (op.perform c).run.run env₁ = (.error f, env₂) → History pool env pool₁ env₂

namespace History

variable {P : Binding → Prop} {pool pool' : List Handle} {env env' : Env}

theorem inOrder (hrun : History pool env pool' env') (hpool : ∀ h ∈ pool, h.InOrder P env.supply)
    (hP : ∀ b : Binding, b.Proper → P b) : ∀ h ∈ pool', h.InOrder P env'.supply := by
  induction hrun with
  | start => exact hpool
  | success _ hoperands hperform ih =>
      obtain ⟨hle, hresult⟩ :=
        Operation.ensures_perform (fun h hh => ih h (hoperands h hh)) hP _ _ hperform
      exact List.forall_mem_cons.mpr ⟨hresult _ rfl, fun h hh => (ih h hh).mono hle⟩
  | failure _ hoperands hperform ih =>
      obtain ⟨hle, _⟩ :=
        Operation.ensures_perform (fun h hh => ih h (hoperands h hh)) hP _ _ hperform
      exact fun h hh => (ih h hh).mono hle

/--
Every handle that operations make from well-formed handles is well-formed.  If the sources of
the bindings had the roles that binding asks for, a handle with only uniform bindings resolves,
and to a valid program.
-/
theorem wellFormed_and_resolves (hpool : ∀ h ∈ pool, h.WellFormed)
    (habove : ∀ h ∈ pool, env.supply.Above h.sketch.symbols)
    (hrun : History pool env pool' env') :
    (∀ h ∈ pool', h.WellFormed) ∧
      ((∀ h ∈ pool, ∀ b ∈ h.bindings, b.Proper) → ∀ h ∈ pool',
        (∀ b ∈ h.bindings, b.kind = .uniform) →
          ∃ q g, h.resolve.run.run env'.supply = (.ok q, g) ∧ q.issues = []) := by
  constructor
  · intro h hh
    have hstart : ∀ h ∈ pool, h.InOrder (fun _ => True) env.supply :=
      fun h hh => (hpool h hh).inOrder (habove h hh) (by simp)
    exact (hrun.inOrder hstart (by simp) h hh).wellFormed
  · intro hproper h hh huniform
    have hstart : ∀ h ∈ pool, h.InOrder Binding.Proper env.supply :=
      fun h hh => (hpool h hh).inOrder (habove h hh) (hproper h hh)
    obtain ⟨p, hp⟩ := hrun.inOrder hstart (fun _ hb => hb) h hh
    obtain ⟨q, g, hresolve, hvalid⟩ := hp.exists_resolve huniform
    exact ⟨q, g, hresolve, Program.issues_eq_nil_iff.mpr hvalid⟩

theorem wellFormed_and_resolves_copying :
    let h₀ : Handle := ⟨1, 1, Program.copying.sketch, [], []⟩
    let u : Symbol := ⟨4, .uniform, 1, .float32, .attrib, "u", []⟩
    let h₁ : Handle := { h₀ with bindings := [⟨.uniform, u⟩] }
    let env₀ : Env := { Env.start with supply := ⟨5⟩ }
    ∃ h env', History [h₀] env₀ [h, h₁, h₀] env' ∧ h.WellFormed ∧
      ∃ q g, h.resolve.run.run env'.supply = (.ok q, g) ∧ q.issues = [] := by
  intro h₀ u h₁ env₀
  have hpool : ∀ h ∈ [h₀], h.WellFormed := by
    intro h hh
    rw [List.mem_singleton.mp hh]
    exact ⟨⟨Program.copying, rfl, rfl⟩, by decide, by decide⟩
  have habove : ∀ h ∈ [h₀], env₀.supply.Above h.sketch.symbols := by decide
  have hstart : History [h₀] env₀ [h₀] env₀ := .start
  have hbind : ((Operation.bind h₀ .uniform [u]).perform {}).run.run env₀ =
      (.ok h₁, { env₀ with nextTag := 2 }) := rfl
  have hconnect : (((Operation.connect (some h₁) (some h₀)).perform {}).run.run
      { env₀ with nextTag := 2 }).1.toOption.map
        (fun h => h.bindings.all fun b => b.kind = .uniform) = some true := by decide +kernel
  cases hrun : ((Operation.connect (some h₁) (some h₀)).perform {}).run.run
      { env₀ with nextTag := 2 } with
  | mk r env' =>
      rw [hrun] at hconnect
      cases r with
      | error f => cases hconnect
      | ok h =>
          have hhistory := (hstart.success (by simp [Operation.operands]) hbind).success
            (by simp [Operation.operands]) hrun
          obtain ⟨hwell, hresolves⟩ := wellFormed_and_resolves hpool habove hhistory
          refine ⟨h, env', hhistory, hwell h (by simp), hresolves (by simp [h₀]) h (by simp) ?_⟩
          simpa [Except.toOption] using hconnect

end History

end KernelAlgebra
