import KernelAlgebra.Proofs.Compose.Connect
import KernelAlgebra.Proofs.Machine.Safety
import KernelAlgebra.Proofs.Splice.Reference
import KernelAlgebra.Proofs.Splice.Temporaries

/-!
# Code that stands for an instruction

The code assigns the sources to private temporaries, runs the replacement under its private names
and assigns its first output to the destination.  All that a surrounding program sees of this is
the destination, also where the destination is one of the sources.
-/

namespace KernelAlgebra

open Machine

/-- A program whose code stands in a graph under private names, ready for an instruction. -/
structure Inlining (σ : Symbol → Symbol) (core : Graph) (i : Instruction) (repl : Program)
    (declared : List Symbol) (g : Supply) : Prop where
  names : PrivateNames σ repl g
  valid : repl.Valid
  renders : Renders σ repl.graph core
  fits : i.Fits declared
  admits : i.Admits repl.toInterface
  above : g.Above declared

namespace Inlining

def arguments (σ : Symbol → Symbol) (i : Instruction) (repl : Program) : List (Symbol × View) :=
  (repl.inputs.zip i.src).map fun q => (σ q.1, q.2)

def results (σ : Symbol → Symbol) (i : Instruction) (repl : Program) : Block :=
  if i.dst.isAbsent then []
  else (repl.outputs.take 1).map fun s => .move i.dst (View.full (σ s))

def code (σ : Symbol → Symbol) (core : Graph) (i : Instruction) (repl : Program) : Graph :=
  Program.withEpilogue (Program.withPrologue core (feedBlock (arguments σ i repl)))
    (results σ i repl)

variable {σ : Symbol → Symbol} {core : Graph} {i : Instruction} {repl : Program}
  {declared : List Symbol} {g : Supply} {u : Overrides}

theorem mem_symbols_of_input {s : Symbol} (hs : s ∈ repl.inputs) : s ∈ repl.symbols :=
  Interface.mem_symbols.mpr (.inl hs)

theorem mem_symbols_of_output {s : Symbol} (hs : s ∈ repl.outputs) : s ∈ repl.symbols :=
  Interface.mem_symbols.mpr (.inr (.inl hs))

theorem exists_of_mem_arguments {q : Symbol × View} (hq : q ∈ arguments σ i repl) :
    ∃ s ∈ repl.inputs, q.2 ∈ i.src ∧ (s, q.2) ∈ repl.inputs.zip i.src ∧ q.1 = σ s := by
  obtain ⟨⟨s, v⟩, hzip, rfl⟩ := List.mem_map.mp hq
  exact ⟨s, (List.of_mem_zip hzip).1, (List.of_mem_zip hzip).2, hzip, rfl⟩

theorem map_fst_arguments (h : Inlining σ core i repl declared g) :
    (arguments σ i repl).map Prod.fst = repl.inputs.map σ := by
  have hlen : repl.inputs.length = i.src.length := by
    simpa using congrArg List.length h.admits.inputs
  calc (arguments σ i repl).map Prod.fst
      = ((repl.inputs.zip i.src).map Prod.fst).map σ := by simp [arguments]
    _ = repl.inputs.map σ := by rw [List.map_fst_zip (Nat.le_of_eq hlen)]

theorem size_argument (h : Inlining σ core i repl declared g) {s : Symbol} {v : View}
    (hq : (s, v) ∈ repl.inputs.zip i.src) : s.size = v.size :=
  (map_eq_map_iff_zip.mp h.admits.inputs).2 (s, v) hq

theorem not_mem_declared (h : Inlining σ core i repl declared g) {s : Symbol}
    (hs : s ∈ repl.inputs) : σ s ∉ declared :=
  h.names.not_mem h.above (mem_symbols_of_input hs)
    (h.valid.orderly.inputs.isLocal (by decide) hs)

theorem feeds_arguments (h : Inlining σ core i repl declared g) : Feeds (arguments σ i repl) where
  solid := by
    intro q hq
    obtain ⟨s, hs, _, _, heq⟩ := exists_of_mem_arguments hq
    exact heq ▸ h.names.solid s (mem_symbols_of_input hs)
  sizes := by
    intro q hq
    obtain ⟨s, hs, _, hzip, heq⟩ := exists_of_mem_arguments hq
    rw [heq, (h.names.alike s (mem_symbols_of_input hs)).1, h.size_argument hzip]
  nodup := by
    rw [h.map_fst_arguments]
    refine nodup_map h.valid.orderly.inputs.nodup fun s hs t ht => ?_
    exact h.names.injective s (mem_symbols_of_input hs) t (mem_symbols_of_input ht)
  apart := by
    intro q hq q' hq' heq
    obtain ⟨s, hs, _, _, hname⟩ := exists_of_mem_arguments hq
    obtain ⟨_, _, hsrc, _, _⟩ := exists_of_mem_arguments hq'
    exact h.not_mem_declared hs (hname ▸ heq ▸ h.fits.sym_mem hsrc)

/-! ## The run -/

theorem exists_source {st : Store} {inputs : List Symbol} {views : List View}
    {values : List (List Float)} (h : readAll u st views = some values) {s : Symbol}
    {xs : List Float} (hmem : (s, xs) ∈ inputs.zip values) :
    ∃ v, (s, v) ∈ inputs.zip views ∧ read u st v = some xs := by
  unfold readAll at h
  induction views generalizing inputs values with
  | nil =>
      simp only [List.mapM_nil, Option.pure_def, Option.some.injEq] at h
      simp [← h] at hmem
  | cons v views ih =>
      simp only [List.mapM_cons, Option.bind_eq_bind, Option.bind_eq_some_iff, Option.pure_def,
        Option.some.injEq] at h
      obtain ⟨ys, hys, more, hmore, rfl⟩ := h
      cases inputs with
      | nil => simp at hmem
      | cons t inputs =>
          rcases List.mem_cons.mp hmem with heq | hmem
          · cases heq
            exact ⟨v, by simp, hys⟩
          · obtain ⟨w, hw, hread⟩ := ih hmore hmem
            exact ⟨w, by simp [hw], hread⟩

theorem not_written (h : Inlining σ core i repl declared g) {s : Symbol}
    (hs : s ∈ repl.symbols) : ¬ (σ s ∈ declared ∧ (σ s).isLocal = true) := by
  rintro ⟨hmem, hlocal⟩
  cases hs' : s.isLocal with
  | true => exact h.names.not_mem h.above hs hs' hmem
  | false =>
      rw [h.names.fixed s hs hs', hs'] at hlocal
      cases hlocal

variable {st st' sr mid fin finr : Store} {values : List (List Float)}

theorem agree_fed (h : Inlining σ core i repl declared g) (hst : st.Confined u declared)
    (hread : readAll u st i.src = some values) (hstart : start repl.toInterface values = .ok sr)
    (hfed : ∀ q ∈ arguments σ i repl, read u st q.2 = some (mid.get u q.1))
    (hkept : ∀ s, s ∉ (arguments σ i repl).map Prod.fst → mid.get u s = st.get u s) :
    Machine.Agree u (· ∈ repl.symbols) σ sr mid := by
  intro s hs
  by_cases hinput : s ∈ repl.inputs
  · obtain ⟨xs, hxs⟩ := exists_value_of_mem hstart hinput
    obtain ⟨v, hv, hshown⟩ := exists_source hread hxs
    have hnew := hfed (σ s, v) (List.mem_map.mpr ⟨(s, v), hv, rfl⟩)
    rw [get_start_of_mem h.valid.orderly.inputs.nodup hstart hxs]
    exact (Option.some.inj (hshown.symm.trans hnew)).symm
  · have hunfed : σ s ∉ (arguments σ i repl).map Prod.fst := by
      rw [h.map_fst_arguments, List.mem_map]
      rintro ⟨t, ht, heq⟩
      exact hinput (h.names.injective t (mem_symbols_of_input ht) s hs heq ▸ ht)
    rw [hkept _ hunfed, hst.kept _ (h.not_written hs), h.names.startValue_eq u hs,
      get_start_of_not_mem hstart hinput]

theorem computes_arguments (h : Inlining σ core i repl declared g) (hst : st.Confined u declared)
    (hread : readAll u st i.src = some values)
    (hstart : start repl.toInterface values = .ok sr) :
    ∃ mid, Computes (Graph.single (feedBlock (arguments σ i repl))) u st mid false ∧
      Machine.Agree u (· ∈ repl.symbols) σ sr mid ∧ ∀ s ∈ declared, mid.get u s = st.get u s := by
  have hreads : ∀ q ∈ arguments σ i repl, ∃ xs, read u st q.2 = some xs := by
    intro q hq
    obtain ⟨_, _, hsrc, _⟩ := exists_of_mem_arguments hq
    obtain ⟨hpresent, hcheck⟩ := Instruction.check_src_of_check h.fits.checked hsrc
    exact exists_read hst.sized hpresent hcheck
  obtain ⟨mid, hpath, _, hfed, hkept⟩ :=
    @path_feedBlock u (Graph.single (feedBlock (arguments σ i repl))) 0 _ st h.feeds_arguments
      hst.sized hreads
  refine ⟨mid, ⟨0, _, rfl, _, hpath, .at_exit rfl mid⟩,
    h.agree_fed hst hread hstart hfed hkept, fun s hs => hkept s ?_⟩
  rw [h.map_fst_arguments, List.mem_map]
  rintro ⟨t, ht, rfl⟩
  exact h.not_mem_declared ht hs

/-- The code of the replacement leaves the surroundings alone. -/
theorem computes_core (h : Inlining σ core i repl declared g)
    (hagree : Machine.Agree u (· ∈ repl.symbols) σ sr mid)
    (hrun : Computes repl.graph u sr finr false) :
    ∃ fin, Computes core u mid fin false ∧ Machine.Agree u (· ∈ repl.symbols) σ finr fin ∧
      ∀ s ∈ declared, fin.get u s = mid.get u s := by
  obtain ⟨fin, hcomputes, hfin, hframe⟩ :=
    (h.renders.embeds h.valid.sound h.valid.fits).computes
      (h.names.relabels.faithful h.names.injective) h.valid.sound h.renders.shape.entry
      h.renders.shape.exit hagree hrun
  refine ⟨fin, hcomputes, hfin, fun s hs => hframe s ?_⟩
  rintro t ⟨ht, hlocal⟩ rfl
  exact h.names.not_mem h.above ht hlocal hs

theorem sound_core (h : Inlining σ core i repl declared g) : core.Sound :=
  h.valid.sound.of_sameShape h.renders.shape

theorem computes_opened (h : Inlining σ core i repl declared g) (hst : st.Confined u declared)
    (hread : readAll u st i.src = some values)
    (hstart : start repl.toInterface values = .ok sr)
    (hrun : Computes repl.graph u sr finr false) :
    ∃ fin, Computes (Program.withPrologue core (feedBlock (arguments σ i repl))) u st fin false ∧
      Machine.Agree u (· ∈ repl.symbols) σ finr fin ∧ ∀ s ∈ declared, fin.get u s = st.get u s := by
  obtain ⟨mid, hblock, hmid, hkept⟩ := h.computes_arguments hst hread hstart
  obtain ⟨fin₁, hcode, hfin₁, hframe⟩ := h.computes_core hmid hrun
  obtain ⟨fin, hcomputes, halike⟩ := computes_withPrologue h.sound_core hblock hcode
  refine ⟨fin, hcomputes, ?_, ?_⟩
  · intro s hs
    rw [halike, hfin₁ s hs]
  · intro s hs
    rw [halike, hframe s hs, hkept s hs]

theorem results_of_dst (hdst : i.dst.isAbsent = false) {s : Symbol} {rest : List Symbol}
    (houtputs : repl.outputs = s :: rest) :
    results σ i repl = [.move i.dst (View.full (σ s))] := by
  simp [results, hdst, houtputs]

theorem size_result (h : Inlining σ core i repl declared g) (hdst : i.dst.isAbsent = false)
    {s : Symbol} {rest : List Symbol} (houtputs : repl.outputs = s :: rest) :
    (View.full (σ s)).size = i.dst.size := by
  have hs : s ∈ repl.symbols := mem_symbols_of_output (by simp [houtputs])
  obtain ⟨t, more, hcons, hsize⟩ := h.admits.output hdst
  obtain ⟨rfl, _⟩ := List.cons.inj (houtputs.symm.trans hcons)
  rw [View.size_full (h.names.solid s hs), (h.names.alike s hs).1, hsize]

theorem computes_results (h : Inlining σ core i repl declared g) (hfin : fin.Sized u)
    (hframe : ∀ s ∈ declared, fin.get u s = st.get u s)
    (hagree : Machine.Agree u (· ∈ repl.symbols) σ finr fin) {s : Symbol} {rest : List Symbol}
    (houtputs : repl.outputs = s :: rest) (hwrite : write u st i.dst (finr.get u s) = some st') :
    ∃ fin', Computes (Graph.single (results σ i repl)) u fin fin' false ∧
      Machine.Agree u (· ∈ declared) (fun s => s) st' fin' := by
  obtain ⟨hdst, ys, hplace, rfl⟩ := write_eq_some_iff.mp hwrite
  have hs : s ∈ repl.symbols := mem_symbols_of_output (by simp [houtputs])
  have hsolid := h.names.solid s hs
  have hsize := h.size_result hdst houtputs
  have hread : read u fin (View.full (σ s)) = some (finr.get u s) := by
    rw [read_full hfin hsolid, hagree s hs]
  have hwrite' : write u fin i.dst (finr.get u s) = some (fin.set i.dst.sym ys) := by
    refine write_eq_some_iff.mpr ⟨hdst, ys, ?_, rfl⟩
    rw [hframe _ (h.fits.dst_mem hdst).1, hplace]
  rw [results_of_dst hdst houtputs]
  refine ⟨_, ⟨0, _, rfl, _, .instruction (exec_move hread hsize hwrite') (.done _),
    .at_exit rfl _⟩, ?_⟩
  intro t ht
  simp only [Store.get_set, hframe t ht]

theorem actsFor (h : Inlining σ core i repl declared g) (u : Overrides) :
    ActsFor (code σ core i repl) repl u i declared := by
  have hsound := sound_withPrologue h.sound_core (feedBlock (arguments σ i repl))
  intro st st' hst hstands
  cases hstands with
  | silent hdst hread hgives =>
      obtain ⟨sr, finr, hstart, hrun, _, _⟩ := completes_iff.mp hgives
      obtain ⟨fin, hopened, _, hframe⟩ := h.computes_opened hst hread hstart hrun
      have hnone : results σ i repl = [] := if_pos hdst
      have hblock : Computes (Graph.single (results σ i repl)) u fin fin false := by
        rw [hnone]
        exact ⟨0, _, rfl, _, .done _, .at_exit rfl fin⟩
      obtain ⟨fin', hcomputes, halike⟩ :=
        computes_withEpilogue hsound hopened (fun _ => rfl) hblock
      refine ⟨fin', hcomputes, fun s hs => ?_⟩
      rw [halike, hframe s hs]
  | stored hread hgives hwrite =>
      obtain ⟨sr, finr, hstart, hrun, _, houtputs⟩ := completes_iff.mp hgives
      obtain ⟨fin, hopened, hagree, hframe⟩ := h.computes_opened hst hread hstart hrun
      obtain ⟨s, rest, hcons, rfl, _⟩ := List.map_eq_cons_iff.mp houtputs.symm
      obtain ⟨fin₁, hblock, hfin₁⟩ :=
        h.computes_results (hopened.sized hst.sized) hframe hagree hcons hwrite
      obtain ⟨fin', hcomputes, halike⟩ :=
        computes_withEpilogue hsound hopened (fun _ => rfl) hblock
      refine ⟨fin', hcomputes, fun s hs => ?_⟩
      rw [halike, hfin₁ s hs]

/-! ## Validity -/

theorem sound_code (h : Inlining σ core i repl declared g) : (code σ core i repl).Sound :=
  sound_withEpilogue (sound_withPrologue h.sound_core _) _

def vocabulary (σ : Symbol → Symbol) (repl : Program) (declared : List Symbol) : List Symbol :=
  declared ++ repl.symbols.map σ

theorem mem_vocabulary {s : Symbol} (hs : s ∈ repl.symbols) : σ s ∈ vocabulary σ repl declared :=
  List.mem_append.mpr (.inr (List.mem_map_of_mem hs))

theorem mem_vocabulary_of_declared {s : Symbol} (hs : s ∈ declared) :
    s ∈ vocabulary σ repl declared :=
  List.mem_append.mpr (.inl hs)

theorem fits_arguments (h : Inlining σ core i repl declared g) :
    ∀ j ∈ feedBlock (arguments σ i repl), j.Fits (vocabulary σ repl declared) := by
  intro j hj
  obtain ⟨q, hq, rfl⟩ := List.mem_map.mp hj
  obtain ⟨s, hs, hsrc, _, hname⟩ := exists_of_mem_arguments hq
  have hinput := mem_symbols_of_input hs
  obtain ⟨hpresent, hcheck⟩ := Instruction.check_src_of_check h.fits.checked hsrc
  have hsolid := h.feeds_arguments.solid q hq
  refine fits_move (Instruction.check_move hsolid View.check_full hpresent hcheck ?_) ?_
    (mem_vocabulary_of_declared (h.fits.sym_mem hsrc))
  · rw [View.size_full hsolid, h.feeds_arguments.sizes q hq]
  · rw [View.full, hname]
    exact ⟨mem_vocabulary hinput,
      h.names.stays s hinput (h.valid.orderly.inputs.isLocal (by decide) hs)⟩

theorem fits_results (h : Inlining σ core i repl declared g) :
    ∀ j ∈ results σ i repl, j.Fits (vocabulary σ repl declared) := by
  intro j hj
  cases hdst : i.dst.isAbsent with
  | true => simp [results, hdst] at hj
  | false =>
      obtain ⟨s, rest, houtputs, _⟩ := h.admits.output hdst
      have hs : s ∈ repl.symbols := mem_symbols_of_output (by simp [houtputs])
      obtain ⟨hmem, hlocal⟩ := h.fits.dst_mem hdst
      rw [results_of_dst hdst houtputs, List.mem_singleton] at hj
      rw [hj]
      refine fits_move (Instruction.check_move hdst
        (Instruction.check_dst_of_check h.fits.checked hdst) (h.names.solid s hs)
        View.check_full (h.size_result hdst houtputs)) ?_ (mem_vocabulary hs)
      exact ⟨mem_vocabulary_of_declared hmem, hlocal⟩

theorem fits_code (h : Inlining σ core i repl declared g) :
    (code σ core i repl).Fits (vocabulary σ repl declared) :=
  fits_withEpilogue (sound_withPrologue h.sound_core _)
    (fits_withPrologue h.sound_core
      (h.renders.fits h.names.relabels.conforms (fun _ hs => mem_vocabulary hs) h.valid.fits)
      h.fits_arguments) h.fits_results

end Inlining

/-! ## Preparing the code -/

/-- A program whose code stands for the instruction and that shares what `repl` shares. -/
structure Prepared (i : Instruction) (repl : Program) (declared : List Symbol) (g : Supply)
    (sub : Program) : Prop where
  code : ∃ σ core, Inlining σ core i repl declared g ∧ sub.graph = Inlining.code σ core i repl
  constants : sub.constants = repl.constants
  uniforms : sub.uniforms = repl.uniforms
  textures : sub.textures = repl.textures

theorem Prepared.sound {i : Instruction} {repl sub : Program} {declared : List Symbol} {g : Supply}
    (h : Prepared i repl declared g sub) : sub.graph.Sound := by
  obtain ⟨σ, core, hinlining, hgraph⟩ := h.code
  exact hgraph ▸ hinlining.sound_code

namespace Program

variable {i : Instruction} {repl : Program} {declared : List Symbol} {g : Supply}

theorem feeds_map {m m' : Renaming} {ρ : Symbol → Symbol} {inputs : List Symbol}
    (hsame : ∀ s ∈ inputs.map ρ, m'.apply s = m.apply s) (views : List View) :
    m.feeds (inputs.map ρ) views = (inputs.zip views).map fun q => (m'.apply (ρ q.1), q.2) := by
  unfold Renaming.feeds
  rw [List.zip_map_left, List.map_map]
  apply List.map_congr_left
  intro q hq
  simp only [Function.comp_apply, Prod.map_fst, Prod.map_snd, id_eq]
  rw [hsame (ρ q.1) (List.mem_map_of_mem (List.of_mem_zip hq).1)]

theorem epilogueOf_eq {m : Renaming} {ρ : Symbol → Symbol}
    (hcheck : ∀ s rest, i.dst.isAbsent = false → repl.outputs = s :: rest →
      (Instruction.move i.dst (View.full (m.apply (ρ s)))).check = .ok ()) :
    epilogueOf m i.dst (repl.outputs.map ρ) =
      .ok (Inlining.results (fun s => m.apply (ρ s)) i repl) := by
  unfold epilogueOf Inlining.results
  cases houtputs : repl.outputs with
  | nil => simp
  | cons s rest =>
      cases hdst : i.dst.isAbsent with
      | true => simp
      | false =>
          simp [Instruction.assign_of_check (hcheck s rest hdst houtputs), Except.map]

theorem fresh_freshening (hrepl : repl.Valid) :
    ∀ s ∈ repl.symbols, s.isLocal = true → g.next ≤ ((repl.freshening g).apply s).id :=
  fun _ hs hlocal =>
    (draws_freshening.fresh _ (mem_freshening ((hrepl.orderly.mem_locals_iff hs).mpr hlocal))).1

theorem yields_inlined (hrepl : repl.Valid) (habove : g.Above repl.symbols)
    (hdeclared : g.Above declared) (hi : i.Fits declared) (hadmits : i.Admits repl.toInterface) :
    ∃ sub g', Yields (inlined i repl.sketch) g (.ok sub) g' ∧
      Prepared i repl declared g sub := by
  have hsolid : ∀ s ∈ repl.locals, s.isHole = false :=
    fun s hs => hrepl.orderly.solid (Interface.mem_symbols_of_mem_locals hs)
  have hcopy := Fresh.yields_freshCopyOf (ε := SpliceError) (g := g) hsolid
  have hoperand := secondOperand_fresh hrepl habove habove
  have hfresh := fresh_freshening (g := g) hrepl
  have hold := draws_freshening.above habove hoperand.later
  generalize (repl.freshening g).apply = ρ at hoperand hfresh hold
  generalize repl.withLocals (g.copyAll Symbol.role repl.locals).1 = sub at hcopy hoperand
  generalize (g.copyAll Symbol.role repl.locals).2 = g₁ at hcopy hoperand hold
  have hcopies := hoperand.copies
  have hsub := hcopies.valid hrepl
  have hsizes : sub.inputs.map Symbol.size = i.src.map View.size := by
    rw [← hadmits.inputs, hcopies.inputs, List.map_map]
    exact List.map_congr_left fun s hs => hcopies.size_eq (Interface.mem_symbols.mpr (.inl hs))
  obtain ⟨m₁, g₂, hfeed, htemps₁⟩ := yields_feedInputs hsub.orderly.inputs.nodup
    hsub.orderly.inputs.solid
    (fun s hs => hoperand.above s (Interface.mem_symbols.mpr (.inl hs))) hsizes
    fun v hv => Instruction.check_src_of_check hi.checked hv
  obtain ⟨m, g₃, hdraw, htemps, hsame⟩ := yields_freshOutputs htemps₁ hsub.orderly.outputs.solid
  have hinlining : Inlining (fun s => m.apply (ρ s)) (m.onGraph sub.graph) i repl declared g :=
    { names := hcopies.privateNames hrepl hoperand.later hfresh hold htemps
      valid := hrepl
      renders := hcopies.graph.trans (renders_onGraph hsub.fits m) hcopies.relabels hrepl.fits
      fits := hi
      admits := hadmits
      above := hdeclared }
  have hprologue : m₁.feeds sub.inputs i.src =
      Inlining.arguments (fun s => m.apply (ρ s)) i repl := by
    rw [hcopies.inputs] at hsame ⊢
    exact feeds_map hsame i.src
  have hepilogue : epilogueOf m i.dst sub.outputs =
      .ok (Inlining.results (fun s => m.apply (ρ s)) i repl) := by
    rw [hcopies.outputs]
    refine epilogueOf_eq fun s rest hdst houtputs => ?_
    exact Instruction.check_move hdst (Instruction.check_dst_of_check hi.checked hdst)
      (hinlining.names.solid s (Inlining.mem_symbols_of_output (by simp [houtputs])))
      View.check_full (hinlining.size_result hdst houtputs)
  refine ⟨{ sub with graph := Inlining.code _ (m.onGraph sub.graph) i repl }, g₃, ?_,
    ⟨_, _, hinlining, rfl⟩, hcopies.constants, hcopies.uniforms, hcopies.textures⟩
  rw [hprologue] at hfeed
  refine (yields_bind hcopy).mpr ((yields_bind hfeed).mpr ((yields_bind hdraw).mpr ?_))
  have htakes := takesEpilogue_of_sound (sound_withPrologue hinlining.sound_core
    (feedBlock (Inlining.arguments (fun s => m.apply (ρ s)) i repl)))
    (Inlining.results (fun s => m.apply (ρ s)) i repl)
  simp only [hepilogue, htakes, if_true]
  exact yields_pure.mpr ⟨rfl, rfl⟩

theorem yields_standIn (hrepl : repl.Valid) (habove : g.Above repl.symbols)
    (hdeclared : g.Above declared) (hi : i.Fits declared) :
    (i.Admits repl.toInterface → ∃ sub g', Yields (standIn i (some repl.sketch)) g (.ok sub) g' ∧
      Prepared i repl declared g sub) ∧
    (¬ i.Admits repl.toInterface →
      ∃ e, Yields (standIn i (some repl.sketch)) g (.error (.error e)) g) := by
  have hpresent : Yields (Fresh.present (some repl.sketch) : Fresh SpliceError Sketch) g
      (.ok repl.sketch) g := rfl
  rcases checkSplice_cases (i := i) hrepl.orderly.inputs.solid hrepl.orderly.outputs.solid with
    ⟨hcheck, hadmits⟩ | ⟨e, hcheck, hrefused⟩
  · refine ⟨fun _ => ?_, fun hnot => absurd hadmits hnot⟩
    obtain ⟨sub, g', hyields, hprepared⟩ := yields_inlined hrepl habove hdeclared hi hadmits
    refine ⟨sub, g', (yields_bind hpresent).mpr ?_, hprepared⟩
    rw [show checkSplice i repl.sketch.toInterface = .ok () from hcheck]
    exact (yields_bind (yields_pure.mpr ⟨rfl, rfl⟩)).mpr hyields
  · refine ⟨fun hadmits => absurd hadmits hrefused, fun _ => ⟨e, (yields_bind hpresent).mpr ?_⟩⟩
    rw [show checkSplice i repl.sketch.toInterface = .error (.error e) from hcheck]
    exact (yields_bind_error (yields_throw.mpr ⟨rfl, rfl⟩)).mpr ⟨rfl, rfl⟩

end Program

end KernelAlgebra
