import KernelAlgebra.Proofs.Compose.Behaviour
import KernelAlgebra.Proofs.Compose.InOrder

/-!
# The behaviour of connected programs

A run of a connected program that comes to its end consists of a run of the first program, whose
wired outputs become inputs of the second, and a run of the second program.  Together with the
converse this says that the behaviour of a connection that is not optimized is the composition
of the behaviours.
-/

namespace KernelAlgebra

open Machine

/-! ## Behaviours of programs -/

namespace Machine

variable {p q : Program} {u : Overrides} {values outputs : List (List Float)}

theorem gives_iff : Gives p u values outputs ↔
    ∃ st fin, start p.toInterface values = .ok st ∧ Computes p.graph u st fin false ∧
      (∀ s ∈ p.outputs, ¬ s.isHole) ∧ outputs = p.outputs.map (fin.get u) :=
  completes_iff

theorem gives_sized (p : Program) (u : Overrides) :
    (Gives p u).Sized p.inputs.length p.outputs.length := by
  intro values results h
  obtain ⟨st, fin, hstart, _, _, rfl⟩ := gives_iff.mp h
  exact ⟨(start_eq_ok_iff.mp ⟨st, hstart⟩).1, List.length_map ..⟩

theorem gives_congr (hinputs : q.inputs = p.inputs) (houtputs : q.outputs = p.outputs)
    (hgraph : q.graph = p.graph) : Gives q u values outputs ↔ Gives p u values outputs :=
  ⟨(Improves.of_graph_eq hinputs.symm houtputs.symm hgraph.symm).completes,
    (Improves.of_graph_eq hinputs houtputs hgraph).completes⟩

end Machine

theorem Copies.gives_iff {ρ : Symbol → Symbol} {p q : Program} (h : Copies ρ p q)
    (hvalid : p.Valid) {u : Overrides} {values outputs : List (List Float)} :
    Gives q u values outputs ↔ Gives p u values outputs := by
  refine ⟨fun hrun => ?_, h.completes hvalid⟩
  obtain ⟨st', fin', hstart', hcomputes', _, rfl⟩ := Machine.gives_iff.mp hrun
  have hstart : ∃ st, start p.toInterface values = .ok st := by
    have hsizes := (start_iff_sizes (h.valid hvalid).orderly.inputs.solid).mp ⟨st', hstart'⟩
    rw [start_iff_sizes hvalid.orderly.inputs.solid, hsizes, h.inputs, List.map_map]
    exact List.map_congr_left fun s hs => h.size_eq (Interface.mem_symbols.mpr (.inl hs))
  obtain ⟨st, hstart⟩ := hstart
  obtain ⟨st₁, hst₁, hagree⟩ := h.agree_start (u := u) hvalid hstart
  obtain rfl : st₁ = st' := Except.ok.inj (hst₁.symm.trans hstart')
  obtain ⟨fin, hcomputes, hfin, _⟩ :=
    (h.graph.embeds hvalid.sound hvalid.fits).computes_back (h.relabels.faithful h.injective)
      hvalid.sound h.graph.shape.entry h.graph.shape.exit hagree hcomputes'
  refine Machine.gives_iff.mpr ⟨st, fin, hstart, hcomputes, ?_, ?_⟩
  · intro s hs
    simp [hvalid.orderly.outputs.solid s hs]
  · rw [h.outputs, List.map_map]
    apply List.map_congr_left
    intro s hs
    exact hfin s (Interface.mem_symbols.mpr (.inr (.inl hs)))

/-! ## Blocks around a graph -/

section Blocks

variable {g : Graph} {block : Block} {u : Overrides} {st fin : Store}

theorem computes_single_nil (st : Store) : Computes (Graph.single []) u st st false :=
  ⟨0, _, rfl, _, .done _, .at_exit rfl st⟩

theorem computes_withPrologue_back (hsound : g.Sound)
    (h : Computes (Program.withPrologue g block) u st fin false) :
    ∃ mid mid' fin', Computes (Graph.single block) u st mid false ∧ Alike u mid mid' ∧
      Computes g u mid' fin' false ∧ Alike u fin' fin := by
  unfold Program.withPrologue at h
  split at h
  · rename_i hempty
    rw [List.isEmpty_iff.mp hempty]
    exact ⟨st, st, fin, computes_single_nil st, fun _ => rfl, h, fun _ => rfl⟩
  · exact computes_sequel_back (Graph.sequel_prologue hsound block) (Graph.sound_single block)
      hsound h

theorem computes_withEpilogue_back (hsound : g.Sound)
    (h : Computes (Program.withEpilogue g block) u st fin false) :
    ∃ mid mid' fin', Computes g u st mid false ∧ Alike u mid mid' ∧
      Computes (Graph.single block) u mid' fin' false ∧ Alike u fin' fin := by
  unfold Program.withEpilogue at h
  split at h
  · rename_i hempty
    rw [List.isEmpty_iff.mp hempty]
    exact ⟨fin, fin, fin, h, fun _ => rfl, computes_single_nil fin, fun _ => rfl⟩
  · exact computes_sequel_back (Graph.sequel_epilogue hsound block) hsound
      (Graph.sound_single block) h

theorem copied_of_computes {pairs : List (Symbol × Symbol)} (h : Independent pairs)
    (hsized : st.Sized u) (hcomputes : Computes (Graph.single (copyBlock pairs)) u st fin false) :
    (∀ q ∈ pairs, fin.get u q.1 = st.get u q.2) ∧
      ∀ s, s ∉ pairs.map Prod.fst → fin.get u s = st.get u s := by
  obtain ⟨mid, hmid, _, hcopied, hkept⟩ := computes_copyBlock h hsized
  obtain ⟨rfl, _⟩ := hmid.unique hcomputes
  exact ⟨hcopied, hkept⟩

end Blocks

/-! ## Connections -/

namespace Connection

variable {a b : Program} {taken bound : Nat} {ws : List Wire} {g g' : Supply} {u : Overrides}
  {values ca cb xa xb fed : List (List Float)} {st : Store}

theorem eq_of_mem_zip {α β : Type} {xs : List α} {ys : List β} (hxs : xs.Nodup) {x : α}
    {y y' : β} (h : (x, y) ∈ xs.zip ys) (h' : (x, y') ∈ xs.zip ys) : y = y' := by
  obtain ⟨i, hi, hget⟩ := List.getElem_of_mem h
  obtain ⟨j, hj, hget'⟩ := List.getElem_of_mem h'
  simp only [List.getElem_zip, Prod.mk.injEq] at hget hget'
  obtain rfl := (List.Nodup.getElem_inj_iff hxs).mp (hget.1.trans hget'.1.symm)
  exact hget.2.symm.trans hget'.2

theorem exists_feeding
    (hst : start (program a b taken bound ws).toInterface values = .ok st)
    (h : Connection a b bound ws g g') :
    ∃ ca cb xa xb, values = ca ++ cb ++ xa ++ xb ∧
      ∀ fed : List (List Float),
        fed.length = ((b.inputs.drop bound).take a.outputs.length).length →
          Feeding a b taken bound ca cb xa xb fed := by
  have hlen := (start_eq_ok_iff.mp ⟨st, hst⟩).1
  rw [h.inputs_program, List.length_map] at hlen
  generalize hm : (inputs a b taken bound).length = m at hlen
  simp only [inputs, List.length_append] at hm
  generalize h₁ : (a.inputs.take taken).length = n₁ at hm
  generalize h₂ : (b.inputs.take bound).length = n₂ at hm
  generalize h₃ : (a.inputs.drop taken).length = n₃ at hm
  refine ⟨values.take n₁, (values.drop n₁).take n₂, ((values.drop n₁).drop n₂).take n₃,
    ((values.drop n₁).drop n₂).drop n₃, ?_, fun fed hfed => ⟨?_, ?_, ?_, ?_, hfed⟩⟩
  · rw [List.append_assoc, List.append_assoc, List.take_append_drop, List.take_append_drop,
      List.take_append_drop]
  all_goals
    simp only [List.length_take, List.length_drop] at h₁ h₂ h₃ hm ⊢
    omega

theorem start_first (h : Connection a b bound ws g g')
    (hfeed : Feeding a b taken bound ca cb xa xb fed)
    (hst : start (program a b taken bound ws).toInterface (ca ++ cb ++ xa ++ xb) = .ok st) :
    ∃ sta, start a.toInterface (ca ++ xa) = .ok sta := by
  have hsizes := (start_eq_ok_iff.mp ⟨st, hst⟩).2
  refine start_eq_ok_iff.mpr ⟨?_, fun s xs hmem => ⟨?_, ?_⟩⟩
  · rw [List.length_append, hfeed.ca, hfeed.xa, ← List.length_append, List.take_append_drop]
  · exact h.first.orderly.inputs.solid s (List.of_mem_zip hmem).1
  · rw [h.inputs_program] at hsizes
    have hsize := (hsizes _ xs
      (Copies.zip_map_left_mem.mpr ⟨s, hfeed.mem_of_mem_first hmem, rfl⟩)).2
    rwa [h.entering_size] at hsize

theorem start_second (h : Connection a b bound ws g g') {fina : Store} (hsized : fina.Sized u)
    (hfeed : Feeding a b taken bound ca cb xa xb
      ((a.outputs.map (fina.get u)).take (b.inputs.drop bound).length))
    (hst : start (program a b taken bound ws).toInterface (ca ++ cb ++ xa ++ xb) = .ok st) :
    ∃ stb, start b.toInterface (cb ++ ((a.outputs.map (fina.get u)).take
      (b.inputs.drop bound).length ++ xb)) = .ok stb := by
  have hsizes := (start_eq_ok_iff.mp ⟨st, hst⟩).2
  refine start_eq_ok_iff.mpr ⟨?_, fun s xs hmem => ⟨?_, ?_⟩⟩
  · have hfed := hfeed.fed
    rw [List.length_append, List.length_append, hfeed.cb, hfed, hfeed.xb, ← List.length_append,
      List.take_append_drop, ← List.length_append, List.take_append_drop]
  · exact h.second.orderly.inputs.solid s (List.of_mem_zip hmem).1
  · rcases hfeed.mem_of_mem_second h hmem with ⟨w, hw, rfl⟩ | hboth
    · have hwire := Feeding.mem_of_wire h hfeed hw
      rw [eq_of_mem_zip h.second.orderly.inputs.nodup hmem hwire, hsized, h.sizes w hw]
    · rw [h.inputs_program] at hsizes
      have hsize := (hsizes _ xs (Copies.zip_map_left_mem.mpr ⟨s, hboth, rfl⟩)).2
      rwa [h.entering_size] at hsize

theorem composed_of_gives (h : Connection a b bound ws g g') {outputs : List (List Float)}
    (hrun : Gives (program a b taken bound ws) u values outputs) :
    ∃ ca cb xa xb ra rb, values = ca ++ cb ++ xa ++ xb ∧
      ca.length = (a.inputs.take taken).length ∧ cb.length = (b.inputs.take bound).length ∧
      Gives a u (ca ++ xa) ra ∧ Gives b u (cb ++ ra.take (b.inputs.drop bound).length ++ xb) rb ∧
      outputs = rb ++ ra.drop (b.inputs.drop bound).length := by
  obtain ⟨st, fin, hst, hcomputes, _, rfl⟩ := gives_iff.mp hrun
  obtain ⟨ca, cb, xa, xb, rfl, hfeeding⟩ := exists_feeding hst h
  have hfeed := hfeeding (List.replicate _ []) List.length_replicate
  obtain ⟨sta, hsta⟩ := h.start_first hfeed hst
  have hsized : st.Sized u := sized_start hst
  -- leavings, entrances, second program, first program
  rw [graph_program, code] at hcomputes
  obtain ⟨y, fin₂', z, hy, hy', hz, hz'⟩ :=
    computes_withEpilogue_back (sound_withPrologue h.sound_core _) hcomputes
  obtain ⟨mid, mid', x, hmid, hmid', hx, hx'⟩ := computes_withPrologue_back h.sound_core hy
  obtain ⟨fin₁, fin₁', fin₂, hcomp₁, hsame₁, hcomp₂, hsame₂⟩ :=
    computes_sequel_back h.sequel_core h.sound_first h.sound_second hx
  rw [Wire.prologue_eq] at hmid
  rw [Wire.epilogue_eq] at hz
  obtain ⟨hcopied, hkept⟩ := copied_of_computes h.independent_entrances hsized hmid
  have hcopied' : ∀ q ∈ Wire.entrances ws, mid'.get u q.1 = st.get u q.2 :=
    fun q hq => (hmid' q.1).trans (hcopied q hq)
  have hkept' : ∀ s, s ∉ (Wire.entrances ws).map Prod.fst → mid'.get u s = st.get u s :=
    fun s hs => (hmid' s).trans (hkept s hs)
  have hagreea := h.agree_first hfeed hsta hst hcopied' hkept'
  obtain ⟨fina, hcompa, hfina, hframea⟩ :=
    (h.renders_first.embeds h.first.sound h.first.fits).computes_back
      (h.tapped_first.relabels.faithful h.tapped_first.injective) h.first.sound rfl rfl
      hagreea hcomp₁
  have hsizeda : fina.Sized u := hcompa.sized (sized_start hsta)
  have hfeed := hfeeding ((a.outputs.map (fina.get u)).take (b.inputs.drop bound).length)
    (by simp [Nat.min_comm])
  obtain ⟨stb, hstb⟩ := h.start_second hsizeda hfeed hst
  have hfina' : Agree u (· ∈ a.symbols) (Wire.merging ws).apply fina fin₁' :=
    fun s hs => (hsame₁ _).trans (hfina s hs)
  have hagreeb := h.agree_second hfeed hstb hst hkept' hfina'
    fun t ht => (hsame₁ t).trans (hframea t ht)
  obtain ⟨finb, hcompb, hfinb, hframeb⟩ :=
    (h.renders_second.embeds h.second.sound h.second.fits).computes_back
      (h.tapped_second.relabels.faithful h.tapped_second.injective) h.second.sound rfl rfl
      hagreeb hcomp₂
  have hback : Alike u fin₂ fin₂' := fun s => by rw [hy' s, hx' s, hsame₂ s]
  have hsized₂ : fin₂'.Sized u := by
    intro s
    rw [hy' s]
    exact hy.sized hsized s
  obtain ⟨hcopied₃, hkept₃⟩ := copied_of_computes h.independent_leavings hsized₂ hz
  refine ⟨ca, cb, xa, xb, a.outputs.map (fina.get u), b.outputs.map (finb.get u), rfl, hfeed.ca,
    hfeed.cb, ?_, ?_, ?_⟩
  · exact gives_iff.mpr ⟨sta, fina, hsta, hcompa,
      fun s hs => by simp [h.first.orderly.outputs.solid s hs], rfl⟩
  · rw [List.append_assoc]
    exact gives_iff.mpr ⟨stb, finb, hstb, hcompb,
      fun s hs => by simp [h.second.orderly.outputs.solid s hs], rfl⟩
  · have hfinb' : Agree u (· ∈ b.symbols) (Wire.merging ws).apply finb fin₂' :=
      fun s hs => (hback _).trans (hfinb s hs)
    have houtputs := @outputs_agree a b taken bound ws g g' u h fina finb fin₁' fin₂' z hfina'
      hfinb' (fun t ht => (hback t).trans (hframeb t ht)) hcopied₃ hkept₃
    rw [← houtputs]
    exact List.map_congr_left fun s _ => hz' s

end Connection

/-! ## Joined programs -/

namespace Joins

variable {c : Composer} {ap bp q : Program} {taken bound : Nat} {g g' : Supply}
  {u : Overrides} {values outputs : List (List Float)}

theorem gives (h : Joins c ap bp taken bound g q g') (ha : ap.Valid) (hb : bp.Valid)
    (htaken : taken ≤ ap.inputs.length) (hbound : bound ≤ bp.inputs.length)
    (hrun : Behaviour.Composed (Gives ap u) (Gives bp u) taken bound
      (bp.inputs.drop bound).length values outputs) : Gives q u values outputs := by
  obtain ⟨ca, cb, xa, xb, ra, rb, rfl, hca, hcb, hruna, hrunb, rfl⟩ := hrun
  exact h.completes ha hb htaken hbound hca hcb hruna hrunb

theorem gives_iff (h : Joins c ap bp taken bound g q g') (hc : c.optimize = false)
    (ha : ap.Valid) (hb : bp.Valid) (htaken : taken ≤ ap.inputs.length)
    (hbound : bound ≤ bp.inputs.length) :
    Gives q u values outputs ↔ Behaviour.Composed (Gives ap u) (Gives bp u) taken bound
      (bp.inputs.drop bound).length values outputs := by
  refine ⟨fun hrun => ?_, h.gives ha hb htaken hbound⟩
  obtain ⟨operand, connection, finished⟩ := h
  rename_i bq ρ g₁ ws
  rw [finished.plain hc] at hrun
  have hrun := (gives_congr rfl rfl rfl).mp hrun
  obtain ⟨ca, cb, xa, xb, ra, rb, rfl, hca, hcb, hruna, hrunb, rfl⟩ :=
    connection.composed_of_gives hrun
  have hlen : (bq.inputs.drop bound).length = (bp.inputs.drop bound).length := by
    rw [operand.copies.inputs, List.length_drop, List.length_map, List.length_drop]
  rw [hlen] at hrunb ⊢
  refine ⟨ca, cb, xa, xb, ra, rb, rfl, ?_, ?_, ?_, ?_, rfl⟩
  · rw [hca, show ap.copied.inputs = ap.inputs from rfl, List.length_take_of_le htaken]
  · rw [hcb, operand.copies.inputs, List.length_take, List.length_map, Nat.min_eq_left hbound]
  · exact ((Program.copies_copied ha).gives_iff ha).mp hruna
  · exact (operand.copies.gives_iff hb).mp hrunb

end Joins

end KernelAlgebra
