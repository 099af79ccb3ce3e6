import KernelAlgebra.Proofs.Compose.Binding
import KernelAlgebra.Proofs.Compose.Operands
import KernelAlgebra.Proofs.Program.Lockstep

/-!
# Renaming keeps behaviour

Renaming channels gives a handle over a copy of the program in which exactly the channels with
the old name have the new one, in both lists where they stand in both.  A fresh copy has symbols
of its own that were declared like the ones of the program.  Both run like the program.
-/

namespace KernelAlgebra

open Machine Compose

/-- What a symbol was declared as: everything but its id. -/
def Symbol.declaration (s : Symbol) : Declaration :=
  ⟨s.role, s.size, s.name, s.scalar, s.semantic, s.value⟩

/-- What the run comes to, with the reason if there is no result. -/
def Program.ComesTo (p : Program) (values : List (List Float)) (o : RunOptions)
    (r : Except Reason Result) : Prop :=
  ∃ x, p.Answers values o x ∧ x.mapError RunError.reason = r

/-- Both give the same result after as many nodes, or fail for the same reason.  Options without a
bound are among those of `answers`. -/
structure Program.RunsLike (q p : Program) : Prop where
  within : ∀ (values : List (List Float)) (u : Overrides) (limit : Nat),
    (runWithin q values u limit).mapError RunError.reason =
      (runWithin p values u limit).mapError RunError.reason
  answers : ∀ (values : List (List Float)) (o : RunOptions) (r : Except Reason Result),
    q.ComesTo values o r ↔ p.ComesTo values o r

theorem Program.ComesTo.carry {p q : Program} {values : List (List Float)} {o : RunOptions}
    {r : Except Reason Result}
    (h : ∀ limit, (runWithin q values o.overrides limit).mapError RunError.reason =
      (runWithin p values o.overrides limit).mapError RunError.reason)
    (hr : p.ComesTo values o r) : q.ComesTo values o r := by
  obtain ⟨x, hx, rfl⟩ := hr
  refine hx.carry (R := fun x y => y.mapError RunError.reason = x.mapError RunError.reason) h
    fun limit x hsame => ?_
  -- only being cut off has the step limit as its reason
  rcases x with (_ | _ | _ | _ | _ | _ | _) | _ <;>
    simp_all [Except.mapError, RunError.reason]

theorem Program.runsLike_of_runWithin {p q : Program}
    (h : ∀ (values : List (List Float)) (u : Overrides) (limit : Nat),
      (runWithin q values u limit).mapError RunError.reason =
        (runWithin p values u limit).mapError RunError.reason) : q.RunsLike p where
  within := h
  answers := fun values o _ =>
    ⟨.carry fun limit => (h values o.overrides limit).symm, .carry (h values o.overrides)⟩

theorem Copies.runsLike {ρ : Symbol → Symbol} {p q : Program} (h : Copies ρ p q)
    (hvalid : p.Valid) : q.RunsLike p :=
  Program.runsLike_of_runWithin (h.runWithin_eq hvalid)

/-! ## Partners for the symbols of a list -/

/-- The symbols of a list that have the old name get the new one, and all others stay. -/
structure Renames (chosen : List Symbol) (old new : String) (ρ : Symbol → Symbol) : Prop where
  renamed : ∀ s ∈ chosen, s.name = old → ρ s = { s with id := (ρ s).id, name := new }
  kept : ∀ s, ¬ (s ∈ chosen ∧ s.name = old) → ρ s = s

theorem Renames.map_name {chosen : List Symbol} {old new : String} {ρ : Symbol → Symbol}
    (h : Renames chosen old new ρ) (list : List Symbol) : (list.map ρ).map Symbol.name =
      list.map fun s => if s ∈ chosen ∧ s.name = old then new else s.name := by
  rw [List.map_map]
  refine List.map_congr_left fun s _ => ?_
  change (ρ s).name = _
  split
  · rename_i hs
    rw [h.renamed s hs.1 hs.2]
  · rename_i hs
    rw [h.kept s hs]

namespace Composer

variable {c : Composer} {h : Handle} {env : Env} {old new : String} {list : List Symbol}
  {m m' : Renaming} {g : Supply}

structure Covers (list : List Symbol) (old new : String) (m : Renaming) : Prop where
  entry : ∀ q ∈ m, q.1 ∈ list ∧ q.1.name = old ∧ q.2 = { q.1 with id := q.2.id, name := new }
  key : ∀ s ∈ list, s.name = old → s ∈ m.map Prod.fst

theorem Covers.renames (h : Covers list old new m) : Renames list old new m.apply where
  renamed := by
    intro s hs hname
    rcases m.apply_cases s with hpair | ⟨_, hnot⟩
    · exact (h.entry _ hpair).2.2
    · exact absurd (h.key s hs hname) hnot
  kept := by
    intro s hs
    rcases m.apply_cases s with hpair | ⟨hsame, _⟩
    · exact absurd ⟨(h.entry _ hpair).1, (h.entry _ hpair).2.1⟩ hs
    · exact hsame

theorem exists_freshNames (old new : String) (hsolid : ∀ s ∈ list, s.isHole = false) :
    ∃ m' g', Yields (freshNames old new m list) g (.ok (m' ++ m)) g' ∧ Covers list old new m' := by
  induction list generalizing m g with
  | nil => exact ⟨[], g, yields_pure.mpr ⟨rfl, rfl⟩, by simp, by simp⟩
  | cons s rest ih =>
      have hrest : ∀ t ∈ rest, t.isHole = false := fun t ht => hsolid t (by simp [ht])
      unfold freshNames
      rw [hsolid s (by simp)]
      simp only [Bool.false_eq_true, if_false]
      split
      · rename_i hname
        have hrenamed : Yields (Fresh.renamed s new : Fresh ComposeError Symbol) g
            (.ok { s with id := g.next, name := new }) ⟨g.next + 1⟩ := rfl
        obtain ⟨m', g', hrun, hcovers⟩ :=
          ih (m := (s, { s with id := g.next, name := new }) :: m) (g := ⟨g.next + 1⟩) hrest
        refine ⟨m' ++ [(s, { s with id := g.next, name := new })], g', ?_, ?_, ?_⟩
        · rw [List.append_assoc]
          exact (yields_bind hrenamed).mpr hrun
        · intro q hq
          rcases List.mem_append.mp hq with hq | hq
          · obtain ⟨hmem, hentry⟩ := hcovers.entry q hq
            exact ⟨List.mem_cons_of_mem s hmem, hentry⟩
          · rw [List.mem_singleton.mp hq]
            exact ⟨by simp, hname, rfl⟩
        · intro t ht htname
          rw [List.map_append, List.mem_append]
          rcases List.mem_cons.mp ht with rfl | ht
          · exact .inr (by simp)
          · exact .inl (hcovers.key t ht htname)
      · rename_i hname
        obtain ⟨m', g', hrun, hcovers⟩ := ih (m := m) (g := g) hrest
        refine ⟨m', g', hrun, ?_, ?_⟩
        · intro q hq
          obtain ⟨hmem, hentry⟩ := hcovers.entry q hq
          exact ⟨List.mem_cons_of_mem s hmem, hentry⟩
        · intro t ht htname
          rcases List.mem_cons.mp ht with rfl | ht
          · exact absurd htname hname
          · exact hcovers.key t ht htname

/-! ## Renaming channels -/

/-- The handle has the bindings of the other one and a program that runs like it, under the new
names. -/
structure RenamedTo (h h' : Handle) (p : Program) (chosen : List Symbol) (old new : String) :
    Prop where
  bindings : h'.bindings = h.bindings
  program : ∃ q ρ, h'.sketch.program? = some q ∧ Renames chosen old new ρ ∧
    q.inputs = p.inputs.map ρ ∧ q.outputs = p.outputs.map ρ ∧ q.RunsLike p

theorem exists_renameIn {p : Program} (hsketch : h.sketch = p.sketch) (hvalid : p.Valid)
    (habove : env.supply.Above p.symbols)
    (hlist : ∀ s ∈ list, s.isLocal = true ∧ s.isHole = false) :
    ∃ h' env', Yields (renameIn c h list old new) env (.ok h') env' ∧
      RenamedTo h h' p list old new := by
  obtain ⟨m, g, hnames, hcovers⟩ :=
    exists_freshNames (m := []) (g := env.supply) old new fun s hs => (hlist s hs).2
  rw [List.append_nil] at hnames
  obtain ⟨_, hfresh⟩ := draws_of_freshNames hnames (.nil _ _) (by simp [Retitles]) (Nat.le_refl _)
    fun s hs => (hlist s hs).1
  obtain ⟨hdraws, htitles⟩ := hfresh m rfl
  have hfirst : Yields (ofFresh (freshNames old new [] list)) env (.ok m)
      { env with supply := g } := yields_ofFresh_iff.mpr ⟨g, hnames, rfl⟩
  cases hempty : m.isEmpty with
  | true =>
      obtain rfl := List.isEmpty_iff.mp hempty
      obtain ⟨r, env', hdebug⟩ := yields_self
        (Compose.debug c s!"rename: no symbol named {Text.quoted old} in {h.sketch.summary}")
        { env with supply := g }
      obtain ⟨rfl, _⟩ := supply_of_yields_debug hdebug
      have hrun : Yields (renameIn c h list old new) env (.ok h) env' :=
        (yields_bind hfirst).mpr ((yields_bind hdebug).mpr (yields_pure.mpr ⟨rfl, rfl⟩))
      have hsame : ∀ all : List Symbol, all.map (Renaming.apply []) = all := List.map_id
      exact ⟨h, env', hrun, rfl, p, _, Sketch.program?_of_eq hsketch, hcovers.renames,
        (hsame _).symm, (hsame _).symm, Program.runsLike_of_runWithin fun _ _ _ => rfl⟩
  | false =>
      have hcopies := Program.copies_rename hvalid habove hdraws htitles
      have hrun : Yields (renameIn c h list old new) env (.ok ⟨env.nextTag, env.nextTag,
          (p.copied.rename m).sketch, h.bindings, Handle.spareAfter m p.inputs⟩)
          ⟨g, env.nextTag + 1, env.log, env.metrics⟩ := by
        refine (yields_bind hfirst).mpr ?_
        rw [hempty]
        exact yields_renamedBy hsketch
      exact ⟨_, _, hrun, rfl, p.copied.rename m, _, rfl, hcovers.renames, hcopies.inputs,
        hcopies.outputs, hcopies.runsLike hvalid⟩

theorem exists_observed_rename {p : Program} {op : String} (hsketch : h.sketch = p.sketch)
    (hvalid : p.Valid) (habove : env.supply.Above p.symbols)
    (hlist : ∀ s ∈ list, s.isLocal = true ∧ s.isHole = false) :
    ∃ h' env', Yields (observe c op (renameIn c h list old new)) env (.ok h') env' ∧
      RenamedTo h h' p list old new := by
  obtain ⟨h', env₁, hrun, hrenamed⟩ := exists_renameIn (c := c) hsketch hvalid habove hlist
  obtain ⟨q, _, hq, _⟩ := hrenamed.program
  have hgraph : h'.sketch.graph?.isSome := by
    rw [Sketch.eq_of_program? hq]
    rfl
  obtain ⟨env', hobserved, _⟩ := yields_observe hrun hgraph
  exact ⟨h', env', hobserved, hrenamed⟩

end Composer

/-! ## Fresh copies -/

/-- A fresh copy shares no local symbol, but all others, and was declared in the same way. -/
structure FreshCopy (p q : Program) : Prop where
  inputs : q.inputs.map Symbol.declaration = p.inputs.map Symbol.declaration
  outputs : q.outputs.map Symbol.declaration = p.outputs.map Symbol.declaration
  temps : q.temps.map Symbol.declaration = p.temps.map Symbol.declaration
  constants : q.constants = p.constants
  uniforms : q.uniforms = p.uniforms
  textures : q.textures = p.textures
  apart : p.sharesLocals q.toInterface = false
  runs : q.RunsLike p

theorem Copies.map_declaration {ρ : Symbol → Symbol} {p q : Program} (h : Copies ρ p q)
    (hnames : ∀ s, (ρ s).name = s.name) {list : List Symbol} (hsub : ∀ s ∈ list, s ∈ p.symbols) :
    (list.map ρ).map Symbol.declaration = list.map Symbol.declaration := by
  rw [List.map_map]
  refine List.map_congr_left fun s hs => ?_
  change (ρ s).declaration = s.declaration
  rw [h.twin s (hsub s hs), hnames s]
  rfl

theorem exists_freshCopy {p : Program} (hvalid : p.Valid) {g : Supply}
    (habove : g.Above p.symbols) :
    ∃ q g', Yields (Fresh.freshCopyOf p.sketch : Fresh ComposeError Program) g (.ok q) g' ∧
      FreshCopy p q := by
  have hsolid : ∀ s ∈ p.locals, s.isHole = false :=
    fun s hs => hvalid.orderly.solid (Interface.mem_symbols_of_mem_locals hs)
  have hoperand := secondOperand_fresh hvalid habove habove
  have hcopies := hoperand.copies
  have hnames : ∀ s, ((p.freshening g).apply s).name = s.name := Program.name_freshening
  refine ⟨_, _, Fresh.yields_freshCopyOf hsolid, ?_, ?_, ?_, hcopies.constants, hcopies.uniforms,
    hcopies.textures, ?_, hcopies.runsLike hvalid⟩
  · rw [hcopies.inputs]
    exact hcopies.map_declaration hnames fun s hs => Interface.mem_symbols.mpr (.inl hs)
  · rw [hcopies.outputs]
    exact hcopies.map_declaration hnames fun s hs => Interface.mem_symbols.mpr (.inr (.inl hs))
  · rw [hcopies.temps]
    exact hcopies.map_declaration hnames
      fun s hs => Interface.mem_symbols.mpr (.inr (.inr (.inl hs)))
  · exact List.any_eq_false.mpr fun s hs => by simpa using hoperand.apart s hs

/-! ## The three of them -/

namespace Composer

variable {h : Handle} {env : Env} {p : Program}

/--
Renaming inputs or outputs of a handle over a valid program leads to a handle with the same
bindings over a program in which exactly the chosen channels with the old name have the new one,
in both lists if they stand in both.  A fresh copy has the constants, uniforms and textures of the
program and shares no local symbol with it; its own were declared like those of the program.  All
three run like the program for all inputs and options, with a bound and without: with the same
outputs after as many nodes, or with the same failure, or for ever.
-/
theorem renamed_and_copied_run_alike (hp : h.sketch.program? = some p) (hissues : p.issues = [])
    (habove : env.supply.Above p.symbols) (c : Composer) (old new : String) :
    (∃ h' env', (renameInput c (some h) old new).run.run env = (.ok h', env') ∧
      RenamedTo h h' p p.inputs old new) ∧
    (∃ h' env', (renameOutput c (some h) old new).run.run env = (.ok h', env') ∧
      RenamedTo h h' p p.outputs old new) ∧
    ∃ q g', (Fresh.freshCopyOf h.sketch : Fresh ComposeError Program).run.run env.supply =
      (.ok q, g') ∧ FreshCopy p q := by
  have hvalid := Program.issues_eq_nil_iff.mp hissues
  have hsketch := Sketch.eq_of_program? hp
  have hinputs : ∀ s ∈ p.inputs, s.isLocal = true ∧ s.isHole = false := fun s hs =>
    ⟨hvalid.orderly.inputs.isLocal (by decide) hs, hvalid.orderly.inputs.solid s hs⟩
  have houtputs : ∀ s ∈ p.outputs, s.isLocal = true ∧ s.isHole = false := fun s hs =>
    ⟨hvalid.orderly.outputs.isLocal (by decide) hs, hvalid.orderly.outputs.solid s hs⟩
  refine ⟨?_, ?_, ?_⟩
  · change ∃ h' env', Yields (observe c "rename_input" (renameIn c h h.sketch.inputs old new)) env
      (.ok h') env' ∧ RenamedTo h h' p p.inputs old new
    rw [show h.sketch.inputs = p.inputs from congrArg (·.inputs) hsketch]
    exact exists_observed_rename hsketch hvalid habove hinputs
  · change ∃ h' env', Yields (observe c "rename_output" (renameIn c h h.sketch.outputs old new)) env
      (.ok h') env' ∧ RenamedTo h h' p p.outputs old new
    rw [show h.sketch.outputs = p.outputs from congrArg (·.outputs) hsketch]
    exact exists_observed_rename hsketch hvalid habove houtputs
  · rw [hsketch]
    exact exists_freshCopy hvalid habove

theorem RenamedTo.names {h' : Handle} {chosen : List Symbol} {old new : String}
    (hrenamed : RenamedTo h h' p chosen old new) :
    h'.sketch.inputs.map Symbol.name =
      p.inputs.map (fun s => if s ∈ chosen ∧ s.name = old then new else s.name) ∧
    h'.sketch.outputs.map Symbol.name =
      p.outputs.map fun s => if s ∈ chosen ∧ s.name = old then new else s.name := by
  obtain ⟨q, ρ, hq, hrenames, hinputs, houtputs, _⟩ := hrenamed.program
  rw [Sketch.eq_of_program? hq]
  exact ⟨(congrArg _ hinputs).trans (hrenames.map_name _),
    (congrArg _ houtputs).trans (hrenames.map_name _)⟩

end Composer

/-- Counts one channel on and copies another one to an output of its name. -/
def summing : Program :=
  let v : Symbol := ⟨1, .inout, 1, .float32, .attrib, "x", []⟩
  let a : Symbol := ⟨2, .input, 1, .float32, .attrib, "x", []⟩
  let b : Symbol := ⟨3, .output, 1, .float32, .attrib, "x", []⟩
  { Interface.empty "" with
    inputs := [v, a], outputs := [v, b],
    graph := Graph.single [⟨.add, .full v, [.full v, .full a]⟩, ⟨.asn, .full b, [.full a]⟩] }

namespace Composer

theorem renamed_and_copied_run_alike_summing :
    let h : Handle := ⟨1, 1, summing.sketch, [], []⟩
    let env : Env := { Env.start with supply := ⟨4⟩ }
    (∃ h' env', (renameInput {} (some h) "x" "z").run.run env = (.ok h', env') ∧
      h'.sketch.inputs.map Symbol.name = ["z", "z"] ∧
      h'.sketch.outputs.map Symbol.name = ["z", "x"]) ∧
    ∃ h' env', (renameOutput {} (some h) "x" "z").run.run env = (.ok h', env') ∧
      h'.sketch.inputs.map Symbol.name = ["z", "x"] ∧
      h'.sketch.outputs.map Symbol.name = ["z", "z"] := by
  intro h env
  obtain ⟨⟨h₁, env₁, hrun₁, hrenamed₁⟩, ⟨h₂, env₂, hrun₂, hrenamed₂⟩, _⟩ :=
    @renamed_and_copied_run_alike h env summing rfl (by decide) (by decide) {} "x" "z"
  exact ⟨⟨h₁, env₁, hrun₁, hrenamed₁.names⟩, h₂, env₂, hrun₂, hrenamed₂.names⟩

end Composer

end KernelAlgebra
