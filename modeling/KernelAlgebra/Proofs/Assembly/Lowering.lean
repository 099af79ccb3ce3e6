import KernelAlgebra.Proofs.Assembly.Nesting
import KernelAlgebra.Proofs.Machine.Sequence
import KernelAlgebra.Proofs.Machine.Start

/-!
# Lowering keeps the meaning of statements

A list of statements that is accepted has a structure, and a run of the program that it becomes
completes exactly as the evaluation of that structure does.
-/

namespace KernelAlgebra.Assembly

open Machine
open Draft (finished grows_finished)

/-! ## A whole list of statements -/

theorem progress_of_accepts {stmts : List Statement} {l l' : Lowering} {g g' : Supply}
    {a : PUnit} (hready : l.builder.draft.Ready)
    (h : Accepts (stmts.forM LowerM.statement) l g a l' g') :
    Progress l'.dictionary stmts l.builder.draft l'.builder.draft ∧
      Widens l g l' g' (declarations stmts) := by
  induction stmts generalizing l g with
  | nil =>
      obtain ⟨_, rfl, rfl⟩ := accepts_pure.mp h
      exact ⟨.nil _, widens_of_same rfl ⟨rfl, rfl⟩⟩
  | cons s stmts ih =>
      obtain ⟨_, l₁, g₁, hs, hrest⟩ := accepts_bind.mp h
      obtain ⟨hadvances, hwidens⟩ := advances_of_accepts hready.alive hs
      obtain ⟨hprogress, hwidens'⟩ := ih (hadvances.ready hready) hrest
      refine ⟨.cons (hadvances.extend hwidens'.dictionary) hprogress, ?_⟩
      have hdecls : declarations (s :: stmts) = declarations [s] ++ declarations stmts :=
        List.filterMap_append (l := [s])
      rw [hdecls]
      exact hwidens.trans hwidens'

/-! ## The beginning and the end -/

def Lowering.start (target : String) : Lowering := ⟨Builder.start target, [], [], []⟩

theorem ready_start (target : String) : (Lowering.start target).builder.draft.Ready :=
  Builder.ready_start target

theorem kept_start (target : String) {g : Supply} (hg : 0 < g.next) :
    Kept (Lowering.start target) g [] where
  proper := ⟨by simp [Lowering.start, Lowering.dictionary],
    by simp [Lowering.start, Lowering.dictionary],
    by simp [Lowering.start, Lowering.dictionary],
    by simp [Lowering.start, Lowering.dictionary, Builder.start, ConstantPool.empty],
    by simp [Lowering.start, Lowering.dictionary, Builder.start, ConstantPool.empty]⟩
  supply := hg
  declared := .nil
  inputs := rfl
  outputs := rfl
  literals := by simp [Lowering.start, Builder.start, ConstantPool.empty]
  collectable := Interface.collectable_empty target

theorem lower_cases {source : Text} {f : File} {g g' : Supply} {r : Lowered}
    (h : lower source f g = (.ok r, g')) :
    ∃ l, Accepts (f.statements.forM LowerM.statement) (Lowering.start f.target) g ⟨⟩ l g' ∧
      l.builder.frames = [] ∧
      r.program = { l.builder.program with
        graph := l.builder.graph.setFollower l.builder.current
          (some l.builder.graph.exit) }.collect := by
  unfold lower at h
  split at h
  · rename_i r₁ l₁ g₁ hrun
    cases h
    obtain ⟨_, l, g₂, hstmts, h₁⟩ := accepts_bind.mp hrun
    obtain ⟨l₂, l₃, g₃, hget, h₂⟩ := accepts_bind.mp h₁
    obtain ⟨rfl, rfl, rfl⟩ := accepts_get.mp hget
    split at h₂
    · rename_i p b hfinish
      obtain ⟨_, l₄, g₄, hset, h₃⟩ := accepts_bind.mp h₂
      obtain ⟨rfl, rfl⟩ := accepts_set.mp hset
      obtain ⟨rfl, rfl, rfl⟩ := accepts_pure.mp h₃
      obtain ⟨hframes, hp⟩ := Builder.finish_cases hfinish
      exact ⟨_, hstmts, hframes, hp⟩
    · exact absurd h₂ not_accepts_complain
  · cases h

theorem slides_finished {b : Draft} (hready : b.Ready) :
    b.Rest (finished b) [] ∧
      Slides (finished b) ⟨b.current, []⟩ ⟨(finished b).exit, []⟩ := by
  obtain ⟨block, hblock⟩ := hready.current
  have hcurrent := Draft.node?_finished_current hblock
  have hexit : (finished b).node? b.graph.exit = some Node.empty := by
    rw [Draft.node?_finished_of_ne (hready.current_ne List.mem_cons_self)]
    exact hready.waiting _ List.mem_cons_self
  refine ⟨⟨block, _, hblock, hcurrent, (List.append_nil block).symm⟩, ?_⟩
  exact .step ⟨rfl, inner_of_grows hready (grows_finished hready), block, hcurrent⟩
    ⟨_, hexit, rfl⟩ (.refl _)

theorem implements_finished {stmts : List Statement} {code : Code} {target : String}
    {l : Lowering} {g g' : Supply} {a : PUnit} (hreads : Reads stmts code)
    (h : Accepts (stmts.forM LowerM.statement) (Lowering.start target) g a l g') :
    ∃ n, (finished l.builder.draft).node? (finished l.builder.draft).entry = some n ∧
      Implements (finished l.builder.draft) l.dictionary
        ⟨(finished l.builder.draft).entry, n.block⟩ code ⟨(finished l.builder.draft).exit, []⟩ := by
  have hready := ready_start target
  have hbuilds := (progress_of_accepts hready h).1.builds hreads hready
  have hgrows := grows_finished hbuilds.ready
  obtain ⟨hrest', hslides⟩ := slides_finished hbuilds.ready
  obtain ⟨rest, ⟨block, n, hblock, hn, hsplit⟩, himpl⟩ := hbuilds.implements hgrows hrest'
  have hentry : (finished l.builder.draft).entry = 0 := (hbuilds.grows hgrows).entry
  cases hblock
  rw [List.nil_append] at hsplit
  rw [hentry]
  refine ⟨n, hn, ?_⟩
  rw [hsplit]
  exact himpl.slide_end hslides

/-! ## The first memory -/

theorem lookup_of_mem {keys : List String} {values : List (List Float)} {name : String}
    {xs : List Float} (hnodup : keys.Nodup) (h : (name, xs) ∈ keys.zip values) :
    (keys.zip values).lookup name = some xs := by
  induction keys generalizing values with
  | nil => simp at h
  | cons key keys ih =>
      obtain ⟨hkey, hkeys⟩ := List.nodup_cons.mp hnodup
      cases values with
      | nil => simp at h
      | cons ys values =>
          rw [List.zip_cons_cons, List.mem_cons] at h
          rcases h with heq | hmem
          · cases heq
            simp
          · have hne : name ≠ key := by
              rintro rfl
              exact hkey (List.of_mem_zip hmem).1
            rw [List.zip_cons_cons, List.lookup_cons, beq_eq_false_iff_ne.mpr hne]
            exact ih hkeys hmem

theorem lookup_of_not_mem {keys : List String} {values : List (List Float)} {name : String}
    (h : name ∉ keys) : (keys.zip values).lookup name = none := by
  rw [List.lookup_eq_none_iff]
  intro q hq
  have hmem := (List.of_mem_zip hq).1
  simp only [ne_eq, bne_iff_ne]
  rintro rfl
  exact h hmem

section Declared

variable {ds : List DeclStatement} {es : List Entry}

theorem declared_filter {P : DeclStatement → Bool} {Q : Entry → Bool}
    (hPQ : ∀ d e, Declares d e → P d = Q e) (h : List.Forall₂ Declares ds es) :
    List.Forall₂ Declares (ds.filter P) (es.filter Q) := by
  induction h with
  | nil => exact .nil
  | @cons d e _ _ hd _ ih =>
      rw [List.filter_cons, List.filter_cons, hPQ d e hd]
      split
      · exact .cons hd ih
      · exact ih

theorem declared_inputs (h : List.Forall₂ Declares ds es) :
    List.Forall₂ Declares (inputsOf ds) (es.filter (·.sym.isInput)) :=
  declared_filter (fun _ _ hd => by
    simp [DeclStatement.isInput, Symbol.isInput, hd.role]) h

theorem declared_outputs (h : List.Forall₂ Declares ds es) :
    List.Forall₂ Declares (outputsOf ds) (es.filter (·.sym.isOutput)) :=
  declared_filter (fun _ _ hd => by
    simp [DeclStatement.isOutput, Symbol.isOutput, hd.role]) h

theorem names_of_declared (h : List.Forall₂ Declares ds es) :
    ds.map DeclStatement.name = es.map Entry.name := by
  induction h with
  | nil => rfl
  | cons hd _ ih => rw [List.map_cons, List.map_cons, hd.name, ih]

theorem exists_of_mem_zip {α : Type} {f : Entry → α} {values : List (List Float)} {x : α}
    {xs : List Float} (h : List.Forall₂ Declares ds es)
    (hmem : (x, xs) ∈ (es.map f).zip values) :
    ∃ d e, Declares d e ∧ e ∈ es ∧ x = f e ∧ (d, xs) ∈ ds.zip values := by
  induction h generalizing values with
  | nil => simp at hmem
  | @cons d e _ _ hd _ ih =>
      cases values with
      | nil => simp at hmem
      | cons ys values =>
          rw [List.map_cons, List.zip_cons_cons, List.mem_cons] at hmem
          rcases hmem with heq | hmem
          · cases heq
            exact ⟨d, e, hd, List.mem_cons_self, rfl, by simp⟩
          · obtain ⟨d', e', hd', he', hx, hzip⟩ := ih hmem
            exact ⟨d', e', hd', List.mem_cons_of_mem _ he', hx, List.mem_cons_of_mem _ hzip⟩

theorem find?_declared {e : Entry} (h : List.Forall₂ Declares ds es) (he : e ∈ es)
    (hnodup : (es.map Entry.name).Nodup) :
    ∃ d, ds.find? (·.name == e.name) = some d ∧ Declares d e := by
  induction h with
  | nil => cases he
  | @cons d e' _ _ hd _ ih =>
      rw [List.map_cons, List.nodup_cons] at hnodup
      rw [List.find?_cons]
      rcases List.mem_cons.mp he with rfl | he
      · exact ⟨d, by simp [hd.name], hd⟩
      · have hne : d.name ≠ e.name := by
          rw [← hd.name]
          exact fun heq => hnodup.1 (heq ▸ List.mem_map_of_mem he)
        rw [beq_eq_false_iff_ne.mpr hne]
        exact ih he hnodup.2

theorem startValue_of_declares {d : DeclStatement} {e : Entry} (h : Declares d e)
    (hname : e.sym.name = e.name) (u : Overrides) :
    startValue u e.sym = d.startValue u := by
  have hlookup : u.lookup e.sym.name = u.lookup d.name := by rw [hname, h.name]
  cases hrole : d.role <;> cases hvalue : u.lookup d.name <;>
    simp [startValue, DeclStatement.startValue, hlookup, hvalue, h.role, hrole, h.size, h.value]

end Declared

theorem padded_of_length {size : Nat} {xs : List Float} (h : xs.length = size) :
    padded size xs = xs := by
  simp [padded, ← h]

section Start

variable {l : Lowering} {g : Supply} {ds : List DeclStatement} {i : Interface}
  {values : List (List Float)} {u : Overrides}

theorem exists_start (hkept : Kept l g ds) (hinputs : i.inputs = l.builder.program.inputs)
    (hsupplied : Supplied ds values) : ∃ st, Machine.start i values = .ok st := by
  have hdeclared := declared_inputs hkept.declared
  rw [start_eq_ok_iff, hinputs, hkept.inputs]
  refine ⟨?_, ?_⟩
  · rw [hsupplied.1, List.length_map, hdeclared.length_eq]
  · intro s xs hmem
    obtain ⟨d, e, hd, he, rfl, hzip⟩ := exists_of_mem_zip hdeclared hmem
    exact ⟨hkept.proper.solid e (List.mem_of_mem_filter he), by rw [hsupplied.2 _ hzip, hd.size]⟩

theorem nodup_inputs (hkept : Kept l g ds) : l.builder.program.inputs.Nodup := by
  rw [hkept.inputs]
  have hnames : ((l.entries.filter (·.sym.isInput)).map Entry.name).Nodup :=
    hkept.proper.names.sublist (List.filter_sublist.map _)
  have hmap : (l.entries.filter (·.sym.isInput)).map Entry.name =
      ((l.entries.filter (·.sym.isInput)).map Entry.sym).map Symbol.name := by
    rw [List.map_map]
    apply List.map_congr_left
    intro e he
    exact (hkept.proper.named e (List.mem_of_mem_filter he)).symm
  rw [hmap] at hnames
  exact hnames.of_map _

theorem get_start_input (hkept : Kept l g ds) (hinputs : i.inputs = l.builder.program.inputs)
    {st : Store} (hstart : Machine.start i values = .ok st) {e : Entry} (he : e ∈ l.entries)
    (hinput : e.sym.isInput = true) :
    st.get u e.sym = Memory.start ds u values e.name := by
  have hdeclared := declared_inputs hkept.declared
  have hmem : e.sym ∈ i.inputs := by
    rw [hinputs, hkept.inputs]
    exact List.mem_map.mpr ⟨e, List.mem_filter.mpr ⟨he, hinput⟩, rfl⟩
  obtain ⟨xs, hxs⟩ := exists_value_of_mem hstart hmem
  have hnodup : i.inputs.Nodup := hinputs ▸ nodup_inputs hkept
  rw [get_start_of_mem hnodup hstart hxs]
  rw [hinputs, hkept.inputs] at hxs
  obtain ⟨d, e', hd, he', hsym, hzip⟩ := exists_of_mem_zip hdeclared hxs
  have hname : d.name = e.name := by
    rw [← hd.name, ← hkept.proper.named e he, hsym,
      hkept.proper.named e' (List.mem_of_mem_filter he')]
  have hkeys : ((inputsOf ds).map DeclStatement.name).Nodup := by
    rw [names_of_declared hdeclared]
    exact hkept.proper.names.sublist (List.filter_sublist.map _)
  have hpair : (e.name, xs) ∈ ((inputsOf ds).map DeclStatement.name).zip values := by
    rw [List.zip_map_left]
    exact List.mem_map.mpr ⟨(d, xs), hzip, by rw [← hname]; rfl⟩
  rw [Memory.start, lookup_of_mem hkeys hpair]

/-- Every other name starts with what its declaration says. -/
theorem get_start_other (hkept : Kept l g ds) (hinputs : i.inputs = l.builder.program.inputs)
    {st : Store} (hstart : Machine.start i values = .ok st) {e : Entry} (he : e ∈ l.entries)
    (hinput : ¬ e.sym.isInput = true) :
    st.get u e.sym = Memory.start ds u values e.name := by
  have hdeclared := declared_inputs hkept.declared
  have hmem : e.sym ∉ i.inputs := by
    rw [hinputs, hkept.inputs]
    intro hmem
    obtain ⟨e', he', heq⟩ := List.mem_map.mp hmem
    exact hinput (heq ▸ (List.mem_filter.mp he').2)
  have hnone : e.name ∉ (inputsOf ds).map DeclStatement.name := by
    rw [names_of_declared hdeclared]
    intro hname
    obtain ⟨e', he', heq⟩ := List.mem_map.mp hname
    obtain ⟨hentry, hinput'⟩ := List.mem_filter.mp he'
    exact hinput (hkept.proper.unique hentry he heq ▸ hinput')
  obtain ⟨d, hfind, hd⟩ := find?_declared hkept.declared he hkept.proper.names
  rw [get_start_of_not_mem hstart hmem, Memory.start, lookup_of_not_mem hnone, hfind,
    startValue_of_declares hd (hkept.proper.named e he)]
  rfl

theorem shows_start (hkept : Kept l g ds) (hinputs : i.inputs = l.builder.program.inputs)
    {st : Store} (hstart : Machine.start i values = .ok st) :
    Shows u l.dictionary st (Memory.start ds u values) where
  names := by
    intro e he
    by_cases hinput : e.sym.isInput = true
    · exact get_start_input hkept hinputs hstart he hinput
    · exact get_start_other hkept hinputs hstart he hinput
  literals := by
    intro s hs
    have hrole := hkept.proper.const s hs
    have hmem : s ∉ i.inputs := by
      rw [hinputs, hkept.inputs]
      intro hmem
      obtain ⟨e, he, rfl⟩ := List.mem_map.mp hmem
      have hinput := (List.mem_filter.mp he).2
      simp [Symbol.isInput, hrole] at hinput
    rw [get_start_of_not_mem hstart hmem]
    simp only [startValue, hrole]
    exact padded_of_length (hkept.literals s hs)
  sized := sized_start hstart

theorem outputs_of_shows (hkept : Kept l g ds) {fin : Store} {m : Memory}
    (hfin : Shows u l.dictionary fin m) :
    ((l.entries.filter (·.sym.isOutput)).map Entry.sym).map (fin.get u) =
      (outputsOf ds).map fun d => m d.name := by
  have hnames := names_of_declared (declared_outputs hkept.declared)
  calc ((l.entries.filter (·.sym.isOutput)).map Entry.sym).map (fin.get u)
      = (l.entries.filter (·.sym.isOutput)).map fun e => m e.name := by
        rw [List.map_map]
        apply List.map_congr_left
        intro e he
        exact hfin.names e (List.mem_of_mem_filter he)
    _ = ((l.entries.filter (·.sym.isOutput)).map Entry.name).map m := by
        rw [List.map_map]
        rfl
    _ = (outputsOf ds).map fun d => m d.name := by
        rw [← hnames, List.map_map]
        rfl

end Start

/--
A file that is accepted has a structure, and whatever structure its statements have, a run of
the program completes with outputs and discarded or not exactly when the structured evaluation
does, on every list of vectors of the right sizes for the inputs.
-/
theorem lower_completes_iff_evaluates {source : Text} {f : File} {g g' : Supply} {r : Lowered}
    (hg : 0 < g.next) (h : lower source f g = (.ok r, g')) :
    (∃ code, Reads f.statements code) ∧
    ∀ code, Reads f.statements code →
      ∀ (u : Overrides) (values : List (List Float)),
        Supplied (declarations f.statements) values →
        ∀ (results : List (List Float)) (killed : Bool),
          (∃ steps, Completes r.program values u ⟨results, killed, steps⟩) ↔
            ∃ fin, Evaluates code (Memory.start (declarations f.statements) u values) fin killed ∧
              results = (outputsOf (declarations f.statements)).map fun d => fin d.name := by
  obtain ⟨l, hstmts, hframes, hprogram⟩ := lower_cases h
  obtain ⟨hprogress, hwidens⟩ := progress_of_accepts (ready_start f.target) hstmts
  refine ⟨hprogress.exists_reads rfl hframes, ?_⟩
  intro code hreads u values hsupplied results killed
  have hkept : Kept l g' (declarations f.statements) := hwidens.kept [] (kept_start f.target hg)
  have hinputs : r.program.inputs = l.builder.program.inputs := by rw [hprogram]; rfl
  have houtputs : r.program.outputs =
      (l.entries.filter (·.sym.isOutput)).map Entry.sym := by
    rw [hprogram, ← hkept.outputs]
    rfl
  have hgraph : r.program.graph = finished l.builder.draft := by rw [hprogram]; rfl
  obtain ⟨n, hn, himpl⟩ := implements_finished hreads hstmts
  obtain ⟨st, hst⟩ := exists_start hkept hinputs hsupplied
  have hshows := shows_start (u := u) hkept hinputs hst
  have hresults : ∀ {fin : Store} {m : Memory}, Shows u l.dictionary fin m →
      r.program.outputs.map (fin.get u) =
        (outputsOf (declarations f.statements)).map fun d => m d.name := by
    intro fin m hfin
    rw [houtputs]
    exact outputs_of_shows hkept hfin
  rw [completes_iff]
  constructor
  · rintro ⟨st', fin, hst', ⟨k, n', hn', hends⟩, _, rfl⟩
    cases hst.symm.trans hst'
    rw [hgraph] at hn' hends
    cases hn.symm.trans hn'
    obtain ⟨m, heval, hfin⟩ := evaluates_of_ends hkept.proper himpl hshows hends
    exact ⟨m, heval, hresults hfin⟩
  · rintro ⟨m, heval, rfl⟩
    obtain ⟨k, fin, hends, hfin⟩ := ends_of_evaluates hkept.proper himpl hshows heval
    refine ⟨st, fin, hst, ⟨k, n, hgraph ▸ hn, hgraph ▸ hends⟩, ?_, (hresults hfin).symm⟩
    intro s hs
    rw [houtputs] at hs
    obtain ⟨e, he, rfl⟩ := List.mem_map.mp hs
    simp [hkept.proper.solid e (List.mem_of_mem_filter he)]

def copyingFile : File :=
  let at_ := Span.unset
  let x : Operand := .ref "x" "" false at_
  let y : Operand := .ref "y" "" false at_
  { File.empty with
    statements := [
      .decl ⟨.input, "x", 1, "", "", [], at_⟩, .decl ⟨.output, "y", 1, "", "", [], at_⟩,
      .openIf x at_, .instr .asn y [x] at_, .openElse at_, .instr .asn y [x] at_, .closeIf at_] }

theorem lower_copyingFile : ∃ r g', lower [] copyingFile Supply.start = (.ok r, g') ∧
    ∃ steps, Completes r.program [[3]] [] ⟨[[3]], false, steps⟩ := by
  have haccepted : (lower [] copyingFile Supply.start).1.isOk = true := by decide +kernel
  obtain ⟨r, g', hlower⟩ : ∃ r g', lower [] copyingFile Supply.start = (.ok r, g') := by
    cases hlower : lower [] copyingFile Supply.start with
    | mk result g' =>
        cases result with
        | ok r => exact ⟨r, g', rfl⟩
        | error e =>
            rw [hlower] at haccepted
            cases haccepted
  let x : Operand := .ref "x" "" false Span.unset
  let y : Operand := .ref "y" "" false Span.unset
  let copy : Code := .assign .asn y [x] .done
  let m := Memory.start (declarations copyingFile.statements) [] [[3]]
  have hreads : Reads copyingFile.statements (.choice x copy copy .done) :=
    .decl (.decl (@Reads.alternative _ _ _ _ [_] [_] _ _ _ _ (.assign .done) (.assign .done) .done))
  have hassign : y.assign m .asn [x] = some (m.set "y" [3]) := rfl
  have hcopies : ∀ t : Bool, Evaluates (bif t then copy else copy) m (m.set "y" [3]) false := by
    intro t
    cases t <;> exact .assign hassign (.done _)
  have hcorrect := (lower_completes_iff_evaluates (by decide) hlower).2 _ hreads [] [[3]]
    ⟨rfl, by decide⟩ [[3]] false
  exact ⟨r, g', hlower, hcorrect.mpr ⟨m.set "y" [3], .choice rfl (hcopies _) (.done _), rfl⟩⟩

end KernelAlgebra.Assembly
