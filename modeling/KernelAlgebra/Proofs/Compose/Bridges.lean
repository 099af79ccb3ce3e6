import KernelAlgebra.Proofs.Compose.Conduits
import KernelAlgebra.Proofs.Compose.InOrder

/-!
# Bridges between a kernel and a program

The arguments of a call reach the program over a bridge of copies, and its results come back
over another one.  The sources and the destinations belong to the kernel and may be the same.
-/

namespace KernelAlgebra

open Machine

/-! ## Runs of valid programs -/

namespace Program.Valid

variable {p : Program} {u : Overrides} {st fin : Store}

theorem get_of_computes (hp : p.Valid) (h : Computes p.graph u st fin false) {t : Symbol}
    (ht : t ∈ p.symbols → t.isLocal = false) : fin.get u t = st.get u t := by
  have hself : Agree u (· ∈ p.symbols) (fun s => s) st st := fun _ _ => rfl
  obtain ⟨fin', hcomputes, _, hframe⟩ :=
    ((Renders.refl p.graph).embeds hp.sound hp.fits).computes (.id _) hp.sound rfl rfl hself h
  obtain ⟨rfl, _⟩ := h.unique hcomputes
  refine hframe t ?_
  rintro s ⟨hs, hlocal⟩ rfl
  rw [ht hs] at hlocal
  cases hlocal

theorem computes_copied (hp : p.Valid) (h : Computes p.graph u st fin false) :
    ∃ fin', Computes p.copied.graph u st fin' false ∧ Alike u fin fin' := by
  have hcopies := Program.copies_copied hp
  have hself : Agree u (· ∈ p.symbols) (fun s => s) st st := fun _ _ => rfl
  obtain ⟨fin', hcomputes, hagree, hframe⟩ :=
    (hcopies.graph.embeds hp.sound hp.fits).computes (.id _) hp.sound rfl rfl hself h
  refine ⟨fin', hcomputes, fun t => ?_⟩
  by_cases ht : t ∈ p.symbols
  · exact hagree t ht
  · rw [hframe t fun s hs heq => ht (heq ▸ hs.1), hp.get_of_computes h fun hmem => absurd hmem ht]

end Program.Valid

/-! ## Bridges -/

/-- Copies between symbols of a kernel and the channels of a program. -/
def bridge (target : String) (ins outs : List Symbol) (pairs : List (Symbol × Symbol)) : Program :=
  { channelProgram ins outs (copyBlock pairs) with target := target }

section Bridge

variable {target : String} {ins outs : List Symbol} {pairs : List (Symbol × Symbol)}

theorem fits_bridge (hpairs : Independent pairs) (hlocal : ∀ q ∈ pairs, q.1.isLocal = true) :
    (bridge target ins outs pairs).graph.Fits (pairs.map Prod.fst ++ pairs.map Prod.snd) := by
  have hsequel := Graph.sequel_epilogue (Graph.sound_single (copyBlock pairs)) []
  refine hsequel.fits (Graph.sound_single _) (Graph.sound_single [])
    (Graph.fits_single (fits_copyBlock hpairs ?_ ?_)) (Graph.fits_single (by simp))
  · exact fun q hq => ⟨List.mem_append.mpr (.inl (List.mem_map_of_mem hq)), hlocal q hq⟩
  · exact fun q hq => List.mem_append.mpr (.inr (List.mem_map_of_mem hq))

theorem sound_bridge : (bridge target ins outs pairs).graph.Sound :=
  (Graph.sequel_epilogue (Graph.sound_single (copyBlock pairs)) []).sound (Graph.sound_single _)
    (Graph.sound_single [])

theorem valid_bridge (hin : RoleList [.input] ins) (hout : RoleList [.output] outs)
    (hpairs : Independent pairs) (hlocal : ∀ q ∈ pairs, q.1.isLocal = true) :
    (bridge target ins outs pairs).collect.Valid := by
  refine Program.valid_collect ⟨⟨hin.nodup, ?_, hin.solid⟩, ⟨hout.nodup, ?_, hout.solid⟩, ?_, ?_,
    ?_, ?_, ?_⟩ sound_bridge (fits_bridge hpairs hlocal)
  · exact fun s hs => List.mem_cons.mpr (.inl (List.mem_singleton.mp (hin.role s hs)))
  · exact fun s hs => List.mem_cons.mpr (.inl (List.mem_singleton.mp (hout.role s hs)))
  · intro s hs
    cases hs
  · intro s hs
    cases hs
  · intro s hs
    cases hs
  · intro s hs hinout
    rw [Symbol.isInOut, List.mem_singleton.mp (hin.role s hs)] at hinout
    cases hinout
  · intro s hs hinout
    rw [Symbol.isInOut, List.mem_singleton.mp (hout.role s hs)] at hinout
    cases hinout

theorem mem_channels_of_mem_bridge {s : Symbol} (hs : s ∈ (bridge target ins outs pairs).symbols) :
    s ∈ ins ∨ s ∈ outs := by
  have hs : s ∈ (channelProgram ins outs (copyBlock pairs)).symbols := hs
  exact mem_symbols_channelProgram.mp hs

theorem mem_symbols_bridge (hpairs : Independent pairs) (hlocal : ∀ q ∈ pairs, q.1.isLocal = true)
    {s : Symbol} (hs : s ∈ (bridge target ins outs pairs).collect.symbols) :
    s ∈ ins ∨ s ∈ outs ∨ s ∈ pairs.map Prod.fst ∨ s ∈ pairs.map Prod.snd := by
  rcases Program.mem_of_mem_symbols_collect hs with hs | hs
  · rcases mem_channels_of_mem_bridge hs with hs | hs
    · exact .inl hs
    · exact .inr (.inl hs)
  · have hmention := Program.mem_of_mem_mentions (fits_bridge hpairs hlocal) hs
    exact .inr (.inr (List.mem_append.mp hmention))

theorem copied_bridge : (bridge target ins outs pairs).copied = bridge target ins outs pairs := by
  have hblock : (copyBlock pairs).map Program.copiedInstruction = copyBlock pairs := by
    rw [copyBlock, List.map_map]
    rfl
  simp [bridge, Program.copied, channelProgram, Graph.initial, Graph.setBlock, Graph.modify,
    Program.copiedNode, Node.straight, Node.empty, hblock]

theorem onGraph_bridge {m : Renaming} (hpairs : Independent pairs) :
    m.onGraph (bridge target ins outs pairs).graph =
      (bridge target ins outs (pairs.map fun q => (m.apply q.1, m.apply q.2))).graph := by
  have hblock : (copyBlock pairs).map m.onInstruction =
      copyBlock (pairs.map fun q => (m.apply q.1, m.apply q.2)) := by
    rw [copyBlock, copyBlock, List.map_map, List.map_map]
    apply List.map_congr_left
    intro q hq
    obtain ⟨hd, hs⟩ := hpairs.solid q hq
    simp [Renaming.onInstruction, Renaming.onOperand, Renaming.onView, Instruction.copy,
      View.full, View.isAbsent, hd, hs]
  simp [bridge, channelProgram, Graph.initial, Graph.setBlock, Graph.modify, Renaming.onGraph,
    Renaming.onNode, Node.straight, Node.empty, hblock]

end Bridge

/-! ## Arguments -/

namespace Connection

variable {target : String} {a b : Program} {args ins outs r : List Symbol} {taken bound : Nat}
  {ws : List Wire} {g g' : Supply} {u : Overrides} {st sta stb fina finb : Store}

theorem computes_arguments
    (h : Connection (bridge target [] outs (outs.zip args)).collect b bound ws g g')
    (hcopies : Independent (outs.zip args)) (hlen : args.length = outs.length)
    (hfree : (b.inputs.drop bound).length = outs.length) (hsized : st.Sized u)
    (hrun : Computes b.graph u stb finb false)
    (htemps : ∀ w ∈ ws, st.get u w.temp = st.get u w.output)
    (hargs : (b.inputs.drop bound).map (stb.get u) = args.map (st.get u))
    (hother : ∀ s ∈ b.symbols, s ∉ b.inputs.drop bound → stb.get u s = st.get u s) :
    ∃ fin, Computes (code (bridge target [] outs (outs.zip args)) b ws) u st fin false ∧
      (program (bridge target [] outs (outs.zip args)) b 0 bound ws).outputs.map (fin.get u) =
        b.outputs.map (finb.get u) ∧
      ∀ t, t ∉ b.locals → t ∉ outs → t ∉ ws.flatMap Wire.news → fin.get u t = st.get u t := by
  obtain ⟨fina, hfeeder, hcopied, hkept⟩ :=
    computes_channelProgram [] outs hcopies hsized
  have hinputs : ws.map Wire.input = b.inputs.drop bound := by
    rw [h.inputs_eq]
    exact List.take_of_length_le (Nat.le_of_eq hfree)
  have hwired : ∀ w ∈ ws, stb.get u w.input = fina.get u w.output := by
    intro w hw
    have houts : outs.map (fina.get u) = (b.inputs.drop bound).map (stb.get u) :=
      (map_eq_map_iff_zip.mpr ⟨hlen.symm, hcopied⟩).trans hargs.symm
    exact ((map_eq_map_iff_zip.mp houts).2 (w.output, w.input) (h.ends_mem hw)).symm
  have hunread : ∀ s, (∀ w ∈ ws, s ≠ w.input) → s ∉ b.inputs.drop bound := by
    intro s hne hmem
    rw [← hinputs] at hmem
    obtain ⟨w, hw, rfl⟩ := List.mem_map.mp hmem
    exact hne w hw rfl
  have hmerged : ∀ s ∈ (bridge target [] outs (outs.zip args)).collect.symbols,
      st.get u ((Wire.merging ws).apply s) = st.get u s := by
    intro s hs
    rcases h.tapped_first.cases s hs with ⟨w, hw, rfl, htemp⟩ | ⟨_, hfixed⟩
    · rw [htemp, htemps w hw]
    · rw [hfixed]
  obtain ⟨fin, hfin, houtputs, hfirst, hsecond, hframe⟩ := h.computes_program 0
    hsized hfeeder hrun (fun mid hread hstay => h.agree_behind_entrances
      (fun s hs => by cases hs) (fun s hs _ => hmerged s hs) hread hstay)
    (fun mid fin' hstay hagree hunwritten => h.agree_behind_first
      hwired (fun s hs hne => hother s hs (hunread s hne)) hstay hagree hunwritten)
  refine ⟨fin, hfin, ?_, ?_⟩
  · have hall : ((bridge target [] outs (outs.zip args)).collect.outputs.map
        (fina.get u)).drop (b.inputs.drop bound).length = [] :=
      List.drop_eq_nil_of_le (by rw [List.length_map]; exact Nat.le_of_eq hfree.symm)
    exact houtputs.trans (by rw [hall, List.append_nil])
  · intro t hunused hout hnew
    by_cases hta : t ∈ (bridge target [] outs (outs.zip args)).collect.symbols
    · have hne : ∀ w ∈ ws, t ≠ w.output := fun w hw heq => hout (heq ▸ h.output_mem hw)
      rw [hfirst t hta hne, hkept t fun hmem => ?_]
      rw [map_fst_zip] at hmem
      exact hout (List.mem_of_mem_take hmem)
    · by_cases htb : t ∈ b.symbols
      · have hne : ∀ w ∈ ws, t ≠ w.input := fun w hw heq => hunused (heq ▸ h.input_mem_locals hw)
        have hread : t ∉ b.inputs.drop bound := fun hmem =>
          hunused (Interface.mem_locals.mpr (.inl (List.mem_of_mem_drop hmem)))
        have hshared : t.isLocal = false :=
          Bool.eq_false_iff.mpr fun hlocal =>
            hunused ((h.second.orderly.mem_locals_iff htb).mpr hlocal)
        rw [hsecond t htb hne, h.second.get_of_computes hrun fun _ => hshared,
          hother t htb hread]
      · exact hframe t hta htb hnew

/-! ## Results -/

structure Receives (a : Program) (ins r : List Symbol) (g : Supply) : Prop where
  nodup : r.Nodup
  isLocal : ∀ s ∈ r, s.isLocal = true
  solid : ∀ s ∈ r, s.isHole = false
  old : g.Above r
  apart : ∀ s ∈ r, s ∉ a.outputs ∧ s ∉ ins
  sizes : r.map Symbol.size = ins.map Symbol.size
  role : ∀ s ∈ ins, s.role = .input
  count : a.outputs.length = ins.length

theorem Receives.size_eq (hr : Receives a ins r g) {q : Symbol × Symbol} (hq : q ∈ r.zip ins) :
    q.2.size = q.1.size :=
  ((map_eq_map_iff_zip.mp hr.sizes).2 q hq).symm

section Results

variable (h : Connection a (bridge target ins [] []) 0 ws g g') (hr : Receives a ins r g)
include h hr

theorem inputs_results : ws.map Wire.input = ins := by
  rw [h.inputs_eq]
  exact List.take_of_length_le (Nat.le_of_eq hr.count.symm)

theorem outputs_results : ws.map Wire.output = a.outputs := by
  rw [h.outputs_eq]
  exact List.take_of_length_le (Nat.le_of_eq hr.count)

theorem epilogue_results : Wire.epilogue ws = [] := by
  rw [Wire.epilogue, List.filterMap_eq_nil_iff]
  intro w hw
  have hnone := (h.drawn.shaped w hw).leaving_iff
  rw [Symbol.isInOut, hr.role _ (h.input_mem hw)] at hnone
  rw [Option.isSome_eq_false_iff.mp hnone |> Option.isNone_iff_eq_none.mp]
  rfl

theorem length_results : r.length = ws.length := by
  have hlen := congrArg List.length hr.sizes
  rw [List.length_map, List.length_map] at hlen
  rw [hlen, ← inputs_results h hr, List.length_map]

theorem apply_results {s : Symbol} (hs : s ∈ r) : (Wire.merging ws).apply s = s := by
  obtain ⟨hout, hin⟩ := hr.apart s hs
  exact Wire.apply_merging_of_ne fun w hw =>
    ⟨fun heq => hout (heq ▸ h.output_mem hw), fun heq => hin (heq ▸ h.input_mem hw)⟩

theorem not_new_results {s : Symbol} (hs : s ∈ r) {w : Wire} (hw : w ∈ ws) : s ∉ w.news := by
  intro hmem
  have hnew := h.drawn.fresh s (List.mem_flatMap.mpr ⟨w, hw, hmem⟩)
  have hold := hr.old s hs
  omega

theorem independent_ends : Independent (r.zip ins) where
  solid := by
    intro q hq
    obtain ⟨hdst, hsrc⟩ := List.of_mem_zip hq
    exact ⟨hr.solid _ hdst, h.second.orderly.inputs.solid _ hsrc⟩
  sizes := fun q hq => hr.size_eq hq
  nodup := by
    rw [map_fst_zip]
    exact hr.nodup.sublist (List.take_sublist _ _)
  apart := by
    intro q hq q' hq' heq
    exact (hr.apart q.1 (List.of_mem_zip hq).1).2 (heq ▸ (List.of_mem_zip hq').2)

theorem merged_results :
    (r.zip ins).map (fun q => ((Wire.merging ws).apply q.1, (Wire.merging ws).apply q.2)) =
      r.zip (ws.map Wire.temp) := by
  have hdst : r.map (Wire.merging ws).apply = r :=
    (List.map_congr_left fun s hs => apply_results h hr hs).trans (List.map_id r)
  have hsrc : ins.map (Wire.merging ws).apply = ws.map Wire.temp := by
    rw [← inputs_results h hr, List.map_map]
    exact List.map_congr_left fun w hw => Wire.apply_merging_input h.separate hw
  have hzip : (r.map (Wire.merging ws).apply).zip (ins.map (Wire.merging ws).apply) =
    (r.zip ins).map _ := List.zip_map
  rw [hdst, hsrc] at hzip
  exact hzip.symm

theorem independent_results : Independent (r.zip (ws.map Wire.temp)) where
  solid := by
    intro q hq
    obtain ⟨hdst, hsrc⟩ := List.of_mem_zip hq
    obtain ⟨w, hw, heq⟩ := List.mem_map.mp hsrc
    exact ⟨hr.solid _ hdst, heq ▸ h.solid_new hw w.temp_mem_news⟩
  sizes := by
    intro q hq
    rw [← merged_results h hr] at hq
    obtain ⟨ends, hends, rfl⟩ := List.mem_map.mp hq
    obtain ⟨hdst, hsrc⟩ := List.of_mem_zip hends
    rw [apply_results h hr hdst, ← hr.size_eq hends]
    exact h.tapped_second.relabels.size ends.2 (Interface.mem_symbols.mpr (.inl hsrc))
  nodup := by
    rw [map_fst_zip]
    exact hr.nodup.sublist (List.take_sublist _ _)
  apart := by
    intro q hq q' hq' heq
    obtain ⟨w, hw, htemp⟩ := List.mem_map.mp (List.of_mem_zip hq').2
    exact not_new_results h hr (List.of_mem_zip hq).1 hw (heq ▸ htemp ▸ w.temp_mem_news)

theorem onGraph_results :
    (Wire.merging ws).onGraph (bridge target ins [] (r.zip ins)).graph =
      (bridge target ins [] (r.zip (ws.map Wire.temp))).graph := by
  rw [onGraph_bridge (independent_ends h hr), merged_results h hr]

theorem sequel_results :
    Graph.Sequel (fun id => id) (· + a.graph.size) ((Wire.merging ws).onGraph a.graph)
      (bridge target ins [] (r.zip (ws.map Wire.temp))).graph
      (core a (bridge target ins [] (r.zip ins)) ws) := by
  rw [← onGraph_results h hr]
  exact (Graph.sequel_append h.first.sound sound_bridge).onGraph _

theorem sound_core_results : (core a (bridge target ins [] (r.zip ins)) ws).Sound :=
  (sequel_results h hr).sound h.sound_first sound_bridge

theorem code_results :
    code a (bridge target ins [] (r.zip ins)) ws =
      Program.withPrologue (core a (bridge target ins [] (r.zip ins)) ws) (Wire.prologue ws) := by
  rw [code, epilogue_results h hr]
  rfl

theorem fits_results :
    (program a (bridge target ins [] (r.zip ins)) taken 0 ws).graph.Fits
      (vocabulary a (bridge target ins [] []) ws ++ r) := by
  have hvocabulary : ∀ s ∈ vocabulary a (bridge target ins [] []) ws,
      s ∈ vocabulary a (bridge target ins [] []) ws ++ r :=
    fun s hs => List.mem_append.mpr (.inl hs)
  rw [graph_program, code_results h hr]
  refine fits_withPrologue (sound_core_results h hr) ?_
    fun i hi => (h.fits_prologue i hi).mono hvocabulary
  refine (sequel_results h hr).fits h.sound_first sound_bridge
    (h.renders_first.fits h.tapped_first.relabels.conforms
      (fun s hs => hvocabulary _ (apply_mem_first hs)) h.first.fits)
    ((fits_bridge (independent_results h hr) ?_).mono ?_)
  · exact fun q hq => hr.isLocal _ (List.of_mem_zip hq).1
  · intro s hs
    rcases List.mem_append.mp hs with hs | hs
    · rw [map_fst_zip] at hs
      exact List.mem_append.mpr (.inr (List.mem_of_mem_take hs))
    · rw [map_snd_zip] at hs
      obtain ⟨w, hw, rfl⟩ := List.mem_map.mp (List.mem_of_mem_take hs)
      exact hvocabulary _ (new_mem hw w.temp_mem_news)

theorem valid_results :
    (program a (bridge target ins [] (r.zip ins)) taken 0 ws).collect.Valid := by
  have hlists : (program a (bridge target ins [] []) taken 0 ws).toInterface.Collectable :=
    h.collectable_program
  refine Program.valid_collect
    ⟨hlists.inputs, hlists.outputs, hlists.constants, hlists.uniforms, hlists.textures,
      hlists.inout_output, hlists.inout_input⟩ ?_ (fits_results h hr)
  rw [graph_program, code_results h hr]
  exact sound_withPrologue (sound_core_results h hr) _

theorem mem_symbols_results {t : Symbol}
    (ht : t ∈ (program a (bridge target ins [] (r.zip ins)) taken 0 ws).collect.symbols) :
    ((t ∈ a.symbols ∨ t ∈ (bridge target ins [] []).symbols) ∨ t ∈ ws.flatMap Wire.news) ∨
      t ∈ r := by
  rcases Program.mem_of_mem_symbols_collect ht with ht | ht
  · have ht : t ∈ (program a (bridge target ins [] []) taken 0 ws).symbols := ht
    exact .inl (h.mem_of_mem_symbols_program ht)
  · rcases List.mem_append.mp (Program.mem_of_mem_mentions (fits_results h hr) ht) with ht | ht
    · exact .inl (h.mem_of_mem_vocabulary ht)
    · exact .inr ht

theorem computes_results (hsized : st.Sized u) (hrun : Computes a.graph u sta fina false)
    (hin : ∀ s ∈ a.inputs, st.get u (Wire.entering ws s) = sta.get u s)
    (hother : ∀ s ∈ a.symbols, s ∉ a.inputs →
      st.get u ((Wire.merging ws).apply s) = sta.get u s) :
    ∃ fin, Computes (code a (bridge target ins [] (r.zip ins)) ws) u st fin false ∧
      r.map (fin.get u) = a.outputs.map (fina.get u) ∧
      ∀ t, t ∉ r → t ∉ a.outputs → t ∉ ws.flatMap Wire.news →
        (t ∈ a.symbols → fin.get u t = fina.get u t) ∧
        (t ∉ a.symbols → fin.get u t = st.get u t) := by
  obtain ⟨mid, fin₁, hcomp₀, hsized₀, hkept, hcomp₁, hfin₁, hframe₁⟩ :=
    h.computes_first hsized hrun fun mid => h.agree_behind_entrances hin hother
  obtain ⟨fin₂, hcomp₂, hcopied, hkept₂⟩ := computes_channelProgram ins []
    (independent_results h hr) (hcomp₁.sized hsized₀)
  obtain ⟨x, hx, hx'⟩ := computes_sequel (sequel_results h hr) h.sound_first sound_bridge hcomp₁
    (fun _ => rfl) hcomp₂
  obtain ⟨fin, hfin, hfin'⟩ := computes_withPrologue (sound_core_results h hr) hcomp₀ hx
  have hback : ∀ t, fin.get u t = fin₂.get u t := fun t => (hfin' t).trans (hx' t)
  refine ⟨fin, (code_results h hr).symm ▸ hfin, ?_, ?_⟩
  · have hlen : r.length = (ws.map Wire.temp).length := by
      rw [List.length_map, length_results h hr]
    calc r.map (fin.get u)
        = (ws.map Wire.temp).map (fin₁.get u) :=
          map_eq_map_iff_zip.mpr ⟨hlen, fun q hq => (hback q.1).trans (hcopied q hq)⟩
      _ = (ws.map Wire.output).map (fina.get u) := by
          rw [List.map_map, List.map_map]
          refine List.map_congr_left fun w hw => ?_
          have hagree := hfin₁ w.output
            (Interface.mem_symbols_of_mem_locals (h.output_mem_locals hw))
          rwa [Wire.apply_merging_output h.separate hw] at hagree
      _ = a.outputs.map (fina.get u) := by rw [outputs_results h hr]
  · intro t hrecord hout hnew
    have hunwired : ∀ w ∈ ws, t ≠ w.output := fun w hw heq => hout (heq ▸ h.output_mem hw)
    have hunread : t ∉ (r.zip (ws.map Wire.temp)).map Prod.fst := by
      rw [map_fst_zip]
      exact fun hmem => hrecord (List.mem_of_mem_take hmem)
    rw [hback t, hkept₂ t hunread]
    constructor
    · intro hta
      rcases h.tapped_first.cases t hta with ⟨w, hw, heq, _⟩ | ⟨_, hfixed⟩
      · exact absurd heq (hunwired w hw)
      · have hagree := hfin₁ t hta
        rwa [hfixed] at hagree
    · intro hta
      have hnews : ∀ w ∈ ws, t ∉ w.news :=
        fun w hw hmem => hnew (List.mem_flatMap.mpr ⟨w, hw, hmem⟩)
      rw [hframe₁ t fun s hs => h.tapped_first.apply_ne hs.1 hta hnews,
        hkept t (Wire.not_mem_entrances hnews)]

end Results

end Connection

end KernelAlgebra
