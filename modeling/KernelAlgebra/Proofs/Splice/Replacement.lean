import KernelAlgebra.Proofs.Program.Collection
import KernelAlgebra.Proofs.Splice.StandIn

/-!
# Replacing an instruction by a program

A replacement whose channels fit the operands of the instruction takes its place: the edited
program is valid, has the channels it had, and gives what the reference gives.  Any other
replacement is refused before the program is touched.
-/

namespace KernelAlgebra

open Machine

namespace Splice

/-! ## Steps of the edit -/

section Steps

variable {α : Type} {s : State}

theorem yields_draw {x : Fresh SpliceError α} {r : Except (Fault SpliceError) α} {g : Supply}
    (h : Yields x s.supply r g) : Yields (draw x) s r { s with supply := g } := by
  have hrun : x.run.run s.supply = (r, g) := h
  refine (yields_bind (yields_get.mpr ⟨rfl, rfl⟩)).mpr ?_
  rw [hrun]
  refine (yields_bind (yields_set.mpr ⟨rfl, rfl⟩)).mpr ?_
  cases r with
  | ok a => exact yields_pure.mpr ⟨rfl, rfl⟩
  | error f => exact yields_throw.mpr ⟨rfl, rfl⟩

theorem yields_edit {x : Edit α} {r : Except GraphFault α} {g : Graph}
    (h : Yields x s.program.graph r g) :
    Yields (edit x) s (r.mapError fun f => .crash f.message)
      { s with program := { s.program with graph := g } } := by
  have hrun : x.run.run s.program.graph = (r, g) := h
  refine (yields_bind (yields_get.mpr ⟨rfl, rfl⟩)).mpr ?_
  rw [hrun]
  refine (yields_bind (yields_set.mpr ⟨rfl, rfl⟩)).mpr ?_
  cases r with
  | ok a => exact yields_pure.mpr ⟨rfl, rfl⟩
  | error f => exact yields_throw.mpr ⟨rfl, rfl⟩

end Steps

variable {p sub repl : Program} {g g₁ : Supply} {g' : Graph} {id index : Nat} {n : Node}
  {i : Instruction}

theorem instructionAt_eq (hn : p.graph.node? id = some n) (hi : n.block[index]? = some i) :
    Program.instructionAt p.graph id index = .ok i := by
  have hindex : ¬ (index : Int) < 0 := by omega
  simp [Program.instructionAt, Graph.node, hn, hi, hindex]

theorem yields_replace {code : Option Sketch} (hn : p.graph.node? id = some n)
    (hi : n.block[index]? = some i)
    (hstandIn : Yields (Program.standIn i code) g (.ok sub) g₁)
    (hreplace : Yields (Edit.replaceInstruction id index sub.graph) p.graph (.ok ()) g') :
    Yields (replace id index code) ⟨p, g⟩ (.ok ())
      ⟨(Program.sharing { p with graph := g' } sub).collect, g₁⟩ := by
  have hedit : Yields (edit (Edit.replaceInstruction id index sub.graph)) ⟨p, g₁⟩ (.ok ())
      ⟨{ p with graph := g' }, g₁⟩ := @yields_edit _ ⟨p, g₁⟩ _ _ _ hreplace
  refine (yields_bind (yields_get.mpr ⟨rfl, rfl⟩)).mpr ?_
  rw [instructionAt_eq hn hi]
  refine (yields_bind (yields_draw hstandIn)).mpr ((yields_bind hedit).mpr ?_)
  exact yields_modify.mpr ⟨rfl, rfl⟩

theorem yields_replace_error {code : Option Sketch} {f : Fault SpliceError}
    (hn : p.graph.node? id = some n) (hi : n.block[index]? = some i)
    (hstandIn : Yields (Program.standIn i code) g (.error f) g₁) :
    Yields (replace id index code) ⟨p, g⟩ (.error f) ⟨p, g₁⟩ := by
  refine (yields_bind (yields_get.mpr ⟨rfl, rfl⟩)).mpr ?_
  rw [instructionAt_eq hn hi]
  exact (yields_bind_error (yields_draw hstandIn)).mpr ⟨rfl, rfl⟩

/-- A replacement that is refused leaves the program as it is. -/
theorem program_of_replace_error {s s' : State} {at_ : Int} {code : Option Sketch}
    {e : SpliceError} (h : Yields (replace id at_ code) s (.error (.error e)) s') :
    s'.program = s.program := by
  have h := (yields_bind (yields_get.mpr ⟨rfl, rfl⟩)).mp h
  cases hplace : Program.instructionAt s.program.graph id at_ with
  | error f =>
      rw [hplace] at h
      cases (yields_throw.mp h).1
  | ok i =>
      rw [hplace] at h
      obtain ⟨r, g, hstandIn⟩ := yields_self (Program.standIn i code) s.supply
      cases r with
      | error f =>
          obtain ⟨_, rfl⟩ := (yields_bind_error (yields_draw hstandIn)).mp h
          rfl
      | ok sub =>
          have h := (yields_bind (yields_draw hstandIn)).mp h
          obtain ⟨r, g', hreplace⟩ :=
            yields_self (Edit.replaceInstruction id at_ sub.graph) s.program.graph
          have hedit := @yields_edit _ { s with supply := g } _ _ _ hreplace
          cases r with
          | error f =>
              cases ((yields_bind_error hedit).mp h).1
          | ok _ =>
              cases (yields_modify.mp ((yields_bind hedit).mp h)).1

/-! ## The edited program -/

theorem roles_of_mem_addNew {roles : List Role} {list more : List Symbol}
    (hlist : RoleList roles list) (hmore : RoleList roles more) :
    ∀ s ∈ addNew list more, s.role ∈ roles ∧ s.isHole = false := by
  intro s hs
  rcases mem_addNew.mp hs with hs | hs
  · exact ⟨hlist.role s hs, hlist.solid s hs⟩
  · exact ⟨hmore.role s hs, hmore.solid s hs⟩

theorem collectable_sharing {declared : List Symbol} (hp : p.Valid) (hrepl : repl.Valid)
    (hsub : Prepared i repl declared g sub) :
    (Program.sharing { p with graph := g' } sub).Collectable where
  inputs := hp.orderly.inputs
  outputs := hp.orderly.outputs
  constants := roles_of_mem_addNew hp.orderly.constants (hsub.constants ▸ hrepl.orderly.constants)
  uniforms := roles_of_mem_addNew hp.orderly.uniforms (hsub.uniforms ▸ hrepl.orderly.uniforms)
  textures := roles_of_mem_addNew hp.orderly.textures (hsub.textures ▸ hrepl.orderly.textures)
  inout_output := hp.orderly.inout_output
  inout_input := hp.orderly.inout_input

theorem valid_edited (hp : p.Valid) (hrepl : repl.Valid) (hid : p.graph.Reaches id)
    (hsub : Prepared i repl p.symbols g sub)
    (hspliced : Graph.Spliced id index n sub.graph p.graph g') :
    (Program.sharing { p with graph := g' } sub).collect.Valid := by
  obtain ⟨σ, core, hinlining, hgraph⟩ := hsub.code
  have hcodeFits : sub.graph.Fits (Inlining.vocabulary σ repl p.symbols) :=
    hgraph ▸ hinlining.fits_code
  have hfits : p.graph.Fits (Inlining.vocabulary σ repl p.symbols) :=
    hp.fits.mono fun _ => Inlining.mem_vocabulary_of_declared
  exact Program.valid_collect (collectable_sharing hp hrepl hsub)
    (hspliced.sound hp.sound hsub.sound hid)
    (hspliced.fits hp.sound hsub.sound hid hfits hcodeFits)

theorem gives_edited (hp : p.Valid) (hid : p.graph.Reaches id) (hloop : ¬ p.graph.Leads id id)
    (hi : n.block[index]? = some i) (hsub : Prepared i repl p.symbols g sub)
    (hspliced : Graph.Spliced id index n sub.graph p.graph g') {u : Overrides}
    {inputs outputs : List (List Float)} (h : GivesWith p repl id index u inputs outputs) :
    Gives (Program.sharing { p with graph := g' } sub).collect u inputs outputs := by
  obtain ⟨n', m, st, fin, hn', hm, hstart, hdetour, rfl⟩ := h
  cases hn'.symm.trans hspliced.node
  obtain ⟨σ, core, hinlining, hgraph⟩ := hsub.code
  have hacts : ActsFor sub.graph repl u i p.symbols := hgraph ▸ hinlining.actsFor u
  obtain ⟨fin', hcomputes, hagree⟩ := hspliced.computes_of_detour hp.sound hsub.sound hp.fits hid
    hloop hi hacts hm (confined_start hp hstart) hdetour
  refine completes_iff.mpr ⟨st, fin', hstart, hcomputes, ?_, ?_⟩
  · intro s hs
    simpa using hp.orderly.outputs.solid s hs
  · apply List.map_congr_left
    intro s hs
    exact (hagree s (Inlining.mem_symbols_of_output hs)).symm

/--
Replacing an instruction of a valid program, in a node that no run enters twice, by a valid
program: where the channels fit the operands, the result is valid, has the same channels and
gives what the program gives when the replacement stands for the instruction.  Where they do
not fit, the program stays as it was.
-/
theorem replace_substitutes (hp : p.issues = []) (hrepl : repl.issues = [])
    (habove : g.Above p.symbols) (habove' : g.Above repl.symbols)
    (hn : p.graph.node? id = some n) (hid : p.graph.Reaches id) (hloop : ¬ p.graph.Leads id id)
    (hi : n.block[index]? = some i) :
    (i.Admits repl.toInterface →
      ∃ q g', (replace id index (some repl.sketch)).run.run ⟨p, g⟩ = (.ok (), ⟨q, g'⟩) ∧
        q.issues = [] ∧ q.inputs = p.inputs ∧ q.outputs = p.outputs ∧
        ∀ u inputs outputs, GivesWith p repl id index u inputs outputs →
          ∃ steps, Completes q inputs u ⟨outputs, false, steps⟩) ∧
    (¬ i.Admits repl.toInterface →
      ∃ e, (replace id index (some repl.sketch)).run.run ⟨p, g⟩ = (.error (.error e), ⟨p, g⟩)) := by
  have hp := Program.issues_eq_nil_iff.mp hp
  have hrepl := Program.issues_eq_nil_iff.mp hrepl
  obtain ⟨hindex, hget⟩ := List.getElem?_eq_some_iff.mp hi
  have hfits : i.Fits p.symbols := (hp.fits id n hid hn).block i (hget ▸ List.getElem_mem hindex)
  obtain ⟨hfitting, hrefused⟩ := Program.yields_standIn hrepl habove' habove hfits
  constructor
  · intro hadmits
    obtain ⟨sub, g₁, hstandIn, hsub⟩ := hfitting hadmits
    obtain ⟨g', hreplace, hspliced⟩ :=
      Graph.yields_replaceInstruction hn (Nat.le_of_lt hindex) hsub.sound
    exact ⟨_, g₁, yields_replace hn hi hstandIn hreplace,
      Program.issues_eq_nil_iff.mpr (valid_edited hp hrepl hid hsub hspliced), rfl, rfl,
      fun u inputs outputs => gives_edited hp hid hloop hi hsub hspliced⟩
  · intro hadmits
    obtain ⟨e, hstandIn⟩ := hrefused hadmits
    exact ⟨e, yields_replace_error hn hi hstandIn⟩

/-- Adds a pair to the same pair turned around, which the sum then overwrites. -/
def turning : Program :=
  let x : Symbol := ⟨1, .input, 2, .float32, .attrib, "x", []⟩
  let y : Symbol := ⟨2, .output, 2, .float32, .attrib, "y", []⟩
  { Interface.empty "" with
    inputs := [x], outputs := [y],
    graph :=
      ⟨[⟨[.copy y x, ⟨.add, .full y, [⟨y, some [1, 0], false⟩, .full x]⟩], [], none⟩], 0, 0⟩ }

def scaling : Program :=
  let c : Symbol := ⟨3, .inout, 2, .float32, .attrib, "c", []⟩
  let b : Symbol := ⟨4, .input, 2, .float32, .attrib, "b", []⟩
  { Interface.empty "" with
    inputs := [c, b], outputs := [c],
    graph := ⟨[⟨[⟨.mul, .full c, [.full c, .full b]⟩], [], none⟩], 0, 0⟩ }

theorem replace_substitutes_turning :
    ∃ q g', (replace 0 1 (some scaling.sketch)).run.run ⟨turning, ⟨5⟩⟩ = (.ok (), ⟨q, g'⟩) ∧
      q.issues = [] ∧ ∃ steps, Completes q [[3, 4]] [] ⟨[[4 * 3, 3 * 4]], false, steps⟩ := by
  have hloop : ¬ turning.graph.Leads 0 0 := by
    intro h
    obtain ⟨y, hy, _⟩ := Relation.TransGen.head'_iff.mp h
    cases hy
  have hproduct : Gives scaling [] [[4, 3], [3, 4]] [[4 * 3, 3 * 4]] := ⟨1, 1, rfl⟩
  have hreference : GivesWith turning scaling 0 1 [] [[3, 4]] [[4 * 3, 3 * 4]] :=
    ⟨_, _, _, _, rfl, rfl, rfl, .instruction (by decide) rfl
      (.call rfl (.stored rfl hproduct rfl) .exit), rfl⟩
  have hsubstitutes := @replace_substitutes turning scaling ⟨5⟩ 0 1 _ _ rfl rfl (by decide)
    (by decide) rfl (.entry (by decide)) hloop rfl
  obtain ⟨q, g', hrun, hvalid, _, _, hgives⟩ :=
    hsubstitutes.1 ⟨rfl, fun _ => ⟨_, _, rfl, rfl⟩⟩
  exact ⟨q, g', hrun, hvalid, hgives _ _ _ hreference⟩

end Splice

end KernelAlgebra
