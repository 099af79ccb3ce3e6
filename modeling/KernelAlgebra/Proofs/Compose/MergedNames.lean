import KernelAlgebra.Proofs.Compose.Associativity
import KernelAlgebra.Proofs.Compose.Merging

/-!
# Merging names

A handle with merged names computes what it did on inputs of which those of one name and size are
equal.  Merging it once more finds nothing to do.
-/

namespace KernelAlgebra

open Machine

namespace Composer

open Compose

variable {c : Composer} {env : Env} {g : Supply} {h : Handle} {p : Program}

/-- Two handles show the same channels and have the same of them bound. -/
structure SameInterface (h h' : Handle) : Prop where
  bindings : h'.bindings = h.bindings
  inputs : h'.sketch.inputs = h.sketch.inputs
  outputs : h'.outputs = h.outputs

theorem yields_mergeNamesOf_of_nodup (c : Composer) (env : Env) (hp : h.Carries g p)
    (hnodup : (h.free.map NameGroup.key).Nodup) :
    ∃ h' env', Yields (mergeNamesOf c h) env (.ok h') env' ∧ h'.sketch.graph?.isSome ∧
      SameInterface h h' := by
  obtain ⟨_, env₁, hfree, _, rfl, _⟩ := hp.succeeds_freeInputs env
  have hclear : h.free.any (·.isHole) = false := by
    rw [List.any_eq_false]
    exact fun s hs => by simp [hp.above_free.2 s hs]
  have hlen : (NameGroup.ofList h.free).length = h.free.length := by
    rw [NameGroup.ofList_eq, List.length_map, eraseDups_of_nodup hnodup, List.length_map]
  by_cases hoptimize : c.optimize = true
  · obtain ⟨q, tag, env', hyields, hfinished, _⟩ := yields_optimized (c := c) hp.holds env₁
    refine ⟨⟨tag, tag, q.sketch, h.bindings, []⟩, env', (yields_bind hfree).mpr ?_, rfl, rfl,
      ?_, ?_⟩
    · simp only [hclear, hlen, hoptimize, Bool.false_eq_true, if_false, if_true]
      exact hyields
    · rw [hp.holds.sketch]
      exact hfinished.improves.inputs
    · rw [Handle.outputs, Handle.outputs, hp.holds.sketch]
      exact hfinished.improves.outputs
  · refine ⟨h, env₁, (yields_bind hfree).mpr ?_, by rw [hp.holds.sketch]; rfl, rfl, rfl, rfl⟩
    simp only [hclear, hlen, hoptimize, Bool.false_eq_true, if_false, if_true]
    exact yields_pure.mpr ⟨rfl, rfl⟩

/--
Merging the names of a handle over a valid program always succeeds.  The free inputs are then the
different names and sizes of those before in the order of their first occurrence, and bindings and
outputs are as before.  Where the handle computes outputs from vectors that only depend on the
name and size of a free input, the merged one computes them from these vectors.  Merging once
more, with any composer and at any time, changes no channel.
-/
theorem mergeNames_identifies_names (c : Composer) {h : Handle} {p : Program} {env : Env}
    (hp : h.sketch.program? = some p) (hvalid : p.issues = [])
    (hbindings : h.bindings.length ≤ p.inputs.length) (habove : env.supply.Above p.symbols) :
    ∃ h' q env', (mergeNames c (some h)).run.run env = (.ok h', env') ∧
      h'.sketch.program? = some q ∧ q.issues = [] ∧ h'.bindings = h.bindings ∧
      h'.free.map NameGroup.key = (h.free.map NameGroup.key).eraseDups ∧
      h'.outputs.map NameGroup.key = h.outputs.map NameGroup.key ∧
      (∀ (u : Overrides) (cs outputs : List (List Float)) (v : String × Nat → List Float),
        cs.length = h.bindings.length →
        (∃ steps, Completes p (cs ++ h.free.map (v ∘ NameGroup.key)) u
          ⟨outputs, false, steps⟩) →
        ∃ steps, Completes q (cs ++ h'.free.map (v ∘ NameGroup.key)) u
          ⟨outputs, false, steps⟩) ∧
      ∀ (c' : Composer) (env₁ : Env), ∃ h'' env₂,
        (mergeNames c' (some h')).run.run env₁ = (.ok h'', env₂) ∧ SameInterface h' h'' := by
  have hh : h.Offers env.supply h.bindings h.keys (Gives p) :=
    Handle.Carries.offers ⟨over_of_program? hp hvalid hbindings, habove⟩
  obtain ⟨h', env₁, hrun, _, hbindings', hkeys, q, hq, hruns⟩ :=
    succeeds_mergeNamesOf (c := c) hh
  have hprogram : h'.sketch.program? = some q := by
    rw [hq.holds.sketch]
    rfl
  obtain ⟨env', hobserve, _⟩ := yields_observe hrun (by rw [hq.holds.sketch]; rfl)
  have hfree : h'.free.map NameGroup.key = (h.free.map NameGroup.key).eraseDups :=
    congrArg Facade.free hkeys
  have houtputs : h'.outputs.map NameGroup.key = h.outputs.map NameGroup.key :=
    congrArg Facade.outputs hkeys
  refine ⟨h', q, env', hobserve, hprogram, Program.issues_eq_nil_iff.mpr hq.holds.valid,
    hbindings', hfree, houtputs, ?_, ?_⟩
  · intro u cs outputs v hcs hcompletes
    rw [← List.map_map, hfree]
    refine hruns u _ _ ⟨cs, v, hcs.trans hh.length_curried.symm, rfl, ?_⟩
    rwa [← List.map_map] at hcompletes
  · intro c' env₁
    obtain ⟨h'', env₂, hyields, hgraph, hsame⟩ := yields_mergeNamesOf_of_nodup c' env₁ hq
      (hfree ▸ nodup_eraseDups _)
    obtain ⟨env₃, hobserve', _⟩ := yields_observe hyields hgraph
    exact ⟨h'', env₃, hobserve', hsame⟩

/-- Two of three inputs share their name; one of these is an output as well. -/
def repeating : Program :=
  let k : Symbol := ⟨1, .input, 1, .float32, .attrib, "k", []⟩
  let x : Symbol := ⟨2, .inout, 1, .float32, .attrib, "x", []⟩
  let y : Symbol := ⟨3, .input, 1, .float32, .attrib, "y", []⟩
  let x' : Symbol := ⟨4, .input, 1, .float32, .attrib, "x", []⟩
  let z : Symbol := ⟨5, .output, 1, .float32, .attrib, "z", []⟩
  { Interface.empty "" with
    inputs := [k, x, y, x'], outputs := [z, x],
    graph := ⟨[⟨[.copy z x', .copy x y], [], none⟩], 0, 0⟩ }

theorem mergeNames_identifies_names_repeating :
    let k : Symbol := ⟨6, .uniform, 1, .float32, .attrib, "k", []⟩
    let h : Handle := ⟨1, 1, repeating.sketch, [⟨.uniform, k⟩], []⟩
    ∃ h' q env', (mergeNames {} (some h)).run.run { Env.start with supply := ⟨7⟩ } =
        (.ok h', env') ∧ h'.sketch.program? = some q ∧
      h'.free.map NameGroup.key = [("x", 1), ("y", 1)] ∧
      h'.outputs.map NameGroup.key = [("z", 1), ("x", 1)] ∧
      ∃ steps, Completes q [[2], [3], [5]] [] ⟨[[3], [5]], false, steps⟩ := by
  intro k h
  obtain ⟨h', q, env', hrun, hq, _, _, hfree, houtputs, hruns, _⟩ :=
    @mergeNames_identifies_names {} h repeating { Env.start with supply := ⟨7⟩ } rfl rfl
      (by decide) (by decide)
  have hfree : h'.free.map NameGroup.key = [("x", 1), ("y", 1)] := hfree
  have hcompletes := hruns [] [[2]] [[3], [5]]
    (fun k => if k = ("x", 1) then [3] else [5]) rfl ⟨1, 1, rfl⟩
  rw [← List.map_map, hfree] at hcompletes
  exact ⟨h', q, env', hrun, hq, hfree, houtputs, hcompletes⟩

end Composer

end KernelAlgebra
