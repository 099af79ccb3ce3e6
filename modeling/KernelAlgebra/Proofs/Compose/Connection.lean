import KernelAlgebra.Proofs.Compose.Wires

/-!
# Two programs with wires between them

The wires merge symbols of two programs, but within either program different symbols stay
different.
-/

namespace KernelAlgebra

theorem map_fst_zip {α β : Type} (xs : List α) (ys : List β) :
    (xs.zip ys).map Prod.fst = xs.take ys.length := by
  induction xs generalizing ys with
  | nil => simp
  | cons x xs ih => cases ys <;> simp [ih]

theorem map_snd_zip {α β : Type} (xs : List α) (ys : List β) :
    (xs.zip ys).map Prod.snd = ys.take xs.length := by
  induction xs generalizing ys with
  | nil => simp
  | cons x xs ih => cases ys <;> simp [ih]

theorem Wire.eq_of_mem_news {ws : List Wire} (h : (ws.flatMap news).Nodup) {w w' : Wire}
    (hw : w ∈ ws) (hw' : w' ∈ ws) {s : Symbol} (hs : s ∈ w.news) (hs' : s ∈ w'.news) :
    w = w' := by
  induction ws with
  | nil => cases hw
  | cons v rest ih =>
      obtain ⟨_, hrest, hapart⟩ := List.nodup_append.mp (List.flatMap_cons ▸ h)
      rcases List.mem_cons.mp hw with rfl | hrest₁
      · rcases List.mem_cons.mp hw' with rfl | hrest₂
        · rfl
        · exact absurd rfl (hapart s hs s (List.mem_flatMap.mpr ⟨w', hrest₂, hs'⟩))
      · rcases List.mem_cons.mp hw' with rfl | hrest₂
        · exact absurd rfl (hapart s hs' s (List.mem_flatMap.mpr ⟨w, hrest₁, hs⟩))
        · exact ih hrest hrest₁ hrest₂

theorem Wire.temp_mem_news (w : Wire) : w.temp ∈ w.news := by
  simp [news]

theorem Wire.entrance_mem_news {w : Wire} {e : Symbol} (h : w.entrance = some e) :
    e ∈ w.news := by
  simp [news, h]

theorem Wire.leaving_mem_news {w : Wire} {l : Symbol} (h : w.leaving = some l) :
    l ∈ w.news := by
  simp [news, h]

/-- A valid program of which one symbol for every wire is replaced by the temporary. -/
structure Tapped (p : Program) (ws : List Wire) (key : Wire → Symbol) (ρ : Symbol → Symbol) :
    Prop where
  cases : ∀ s ∈ p.symbols, (∃ w ∈ ws, s = key w ∧ ρ s = w.temp) ∨
    ((∀ w ∈ ws, s ≠ key w) ∧ ρ s = s)
  local_ : ∀ w ∈ ws, (key w).isLocal = true
  shaped : ∀ w ∈ ws, w.temp.isLocal = true ∧ w.temp.size = (key w).size ∧ w.temp.isHole = false
  temps : ∀ w ∈ ws, ∀ w' ∈ ws, w.temp = w'.temp → w = w'
  new : ∀ w ∈ ws, w.temp ∉ p.symbols

namespace Tapped

variable {p : Program} {ws : List Wire} {key : Wire → Symbol} {ρ : Symbol → Symbol}

theorem relabels (h : Tapped p ws key ρ) : Relabels p.symbols ρ where
  fixed := by
    intro s hs hlocal
    rcases h.cases s hs with ⟨w, hw, rfl, _⟩ | ⟨_, hfixed⟩
    · rw [h.local_ w hw] at hlocal
      cases hlocal
    · exact hfixed
  stays := by
    intro s hs hlocal
    rcases h.cases s hs with ⟨w, hw, _, htemp⟩ | ⟨_, hfixed⟩
    · rw [htemp]
      exact (h.shaped w hw).1
    · rw [hfixed]
      exact hlocal
  size := by
    intro s hs
    rcases h.cases s hs with ⟨w, hw, rfl, htemp⟩ | ⟨_, hfixed⟩
    · rw [htemp]
      exact (h.shaped w hw).2.1
    · rw [hfixed]
  solid := by
    intro s hs hsolid
    rcases h.cases s hs with ⟨w, hw, _, htemp⟩ | ⟨_, hfixed⟩
    · rw [htemp]
      exact (h.shaped w hw).2.2
    · rw [hfixed]
      exact hsolid

theorem injective (h : Tapped p ws key ρ) :
    ∀ s ∈ p.symbols, ∀ t ∈ p.symbols, ρ s = ρ t → s = t := by
  intro s hs t ht heq
  rcases h.cases s hs with ⟨w, hw, rfl, htemp⟩ | ⟨_, hfixed⟩
  · rcases h.cases t ht with ⟨w', hw', rfl, htemp'⟩ | ⟨_, hfixed'⟩
    · rw [htemp, htemp'] at heq
      rw [h.temps w hw w' hw' heq]
    · rw [htemp, hfixed'] at heq
      exact absurd (heq ▸ ht) (h.new w hw)
  · rcases h.cases t ht with ⟨w', hw', rfl, htemp'⟩ | ⟨_, hfixed'⟩
    · rw [hfixed, htemp'] at heq
      exact absurd (heq ▸ hs) (h.new w' hw')
    · rw [← hfixed, heq, hfixed']

theorem apply_ne (h : Tapped p ws key ρ) {s t : Symbol} (hs : s ∈ p.symbols)
    (ht : t ∉ p.symbols) (hnew : ∀ w ∈ ws, t ∉ w.news) : ρ s ≠ t := by
  intro heq
  rcases h.cases s hs with ⟨w, hw, _, htemp⟩ | ⟨_, hfixed⟩
  · exact hnew w hw (heq ▸ htemp ▸ w.temp_mem_news)
  · exact ht (hfixed.symm.trans heq ▸ hs)

end Tapped

/-- Valid programs without common local symbols, and wires from the outputs of the first one
to the inputs of the second one that are not among the first `bound`. -/
structure Connection (a b : Program) (bound : Nat) (ws : List Wire) (g g' : Supply) : Prop where
  first : a.Valid
  second : b.Valid
  apart : ∀ s ∈ b.locals, s ∉ a.locals
  above : g.Above a.symbols
  above' : g.Above b.symbols
  drawn : Wire.Drawn g g' (a.outputs.zip (b.inputs.drop bound)) ws
  sizes : ∀ w ∈ ws, w.output.size = w.input.size

namespace Connection

variable {a b : Program} {bound : Nat} {ws : List Wire} {g g' : Supply}

/-! ## The ends of wires -/

theorem outputs_eq (h : Connection a b bound ws g g') :
    ws.map Wire.output = a.outputs.take (b.inputs.drop bound).length := by
  rw [← map_fst_zip, ← h.drawn.ends, List.map_map]
  rfl

theorem inputs_eq (h : Connection a b bound ws g g') :
    ws.map Wire.input = (b.inputs.drop bound).take a.outputs.length := by
  rw [← map_snd_zip, ← h.drawn.ends, List.map_map]
  rfl

theorem ends_mem (h : Connection a b bound ws g g') {w : Wire} (hw : w ∈ ws) :
    (w.output, w.input) ∈ a.outputs.zip (b.inputs.drop bound) := by
  rw [← h.drawn.ends]
  exact List.mem_map.mpr ⟨w, hw, rfl⟩

theorem output_mem (h : Connection a b bound ws g g') {w : Wire} (hw : w ∈ ws) :
    w.output ∈ a.outputs := by
  have hmem : w.output ∈ ws.map Wire.output := List.mem_map.mpr ⟨w, hw, rfl⟩
  rw [h.outputs_eq] at hmem
  exact List.mem_of_mem_take hmem

theorem input_mem (h : Connection a b bound ws g g') {w : Wire} (hw : w ∈ ws) :
    w.input ∈ b.inputs := by
  have hmem : w.input ∈ ws.map Wire.input := List.mem_map.mpr ⟨w, hw, rfl⟩
  rw [h.inputs_eq] at hmem
  exact List.mem_of_mem_drop (List.mem_of_mem_take hmem)

theorem output_mem_locals (h : Connection a b bound ws g g') {w : Wire} (hw : w ∈ ws) :
    w.output ∈ a.locals :=
  Interface.mem_locals.mpr (.inr (.inl (h.output_mem hw)))

theorem input_mem_locals (h : Connection a b bound ws g g') {w : Wire} (hw : w ∈ ws) :
    w.input ∈ b.locals :=
  Interface.mem_locals.mpr (.inl (h.input_mem hw))

theorem separate (h : Connection a b bound ws g g') : Wire.Separate ws where
  outputs := by
    intro w hw w' hw' heq
    have hnodup : (ws.map Wire.output).Nodup := by
      rw [h.outputs_eq]
      exact h.first.orderly.outputs.nodup.sublist (List.take_sublist _ _)
    exact List.inj_on_of_nodup_map hnodup hw hw' heq
  inputs := by
    intro w hw w' hw' heq
    have hnodup : (ws.map Wire.input).Nodup := by
      rw [h.inputs_eq]
      exact h.second.orderly.inputs.nodup.sublist
        ((List.take_sublist _ _).trans (List.drop_sublist _ _))
    exact List.inj_on_of_nodup_map hnodup hw hw' heq
  apart := by
    intro w hw w' hw' heq
    exact h.apart _ (h.input_mem_locals hw') (heq ▸ h.output_mem_locals hw)

/-! ## New symbols -/

theorem new_first (h : Connection a b bound ws g g') {w : Wire} (hw : w ∈ ws) {s : Symbol}
    (hs : s ∈ w.news) : s ∉ a.symbols := by
  intro hmem
  have hold := h.above s hmem
  have hnew := h.drawn.fresh s (List.mem_flatMap.mpr ⟨w, hw, hs⟩)
  omega

theorem new_second (h : Connection a b bound ws g g') {w : Wire} (hw : w ∈ ws) {s : Symbol}
    (hs : s ∈ w.news) : s ∉ b.symbols := by
  intro hmem
  have hold := h.above' s hmem
  have hnew := h.drawn.fresh s (List.mem_flatMap.mpr ⟨w, hw, hs⟩)
  omega

theorem solid_new (h : Connection a b bound ws g g') {w : Wire} (hw : w ∈ ws) {s : Symbol}
    (hs : s ∈ w.news) : s.isHole = false := by
  have hnew := h.drawn.fresh s (List.mem_flatMap.mpr ⟨w, hw, hs⟩)
  have hold := h.above _ (Interface.mem_symbols_of_mem_locals (h.output_mem_locals hw))
  simp only [Symbol.isHole, decide_eq_false_iff_not]
  omega

theorem temp_local (h : Connection a b bound ws g g') {w : Wire} (hw : w ∈ ws) :
    w.temp.isLocal = true := by
  rw [(h.drawn.shaped w hw).temp]
  rfl

theorem temp_size (h : Connection a b bound ws g g') {w : Wire} (hw : w ∈ ws) :
    w.temp.size = w.output.size := by
  rw [(h.drawn.shaped w hw).temp]

theorem temp_injective (h : Connection a b bound ws g g') :
    ∀ w ∈ ws, ∀ w' ∈ ws, w.temp = w'.temp → w = w' := by
  intro w hw w' hw' heq
  exact Wire.eq_of_mem_news h.drawn.nodup hw hw' w.temp_mem_news (heq ▸ w'.temp_mem_news)

/-! ## The two programs -/

theorem tapped_first (h : Connection a b bound ws g g') :
    Tapped a ws Wire.output (Wire.merging ws).apply where
  cases := by
    intro s hs
    by_cases hwired : ∃ w ∈ ws, s = w.output
    · obtain ⟨w, hw, rfl⟩ := hwired
      exact .inl ⟨w, hw, rfl, Wire.apply_merging_output h.separate hw⟩
    · have hne : ∀ w ∈ ws, s ≠ w.output := fun w hw heq => hwired ⟨w, hw, heq⟩
      refine .inr ⟨hne, Wire.apply_merging_of_ne fun w hw => ⟨hne w hw, ?_⟩⟩
      rintro rfl
      have hlocal := h.second.orderly.isLocal_of_mem_locals (h.input_mem_locals hw)
      exact h.apart _ (h.input_mem_locals hw) ((h.first.orderly.mem_locals_iff hs).mpr hlocal)
  local_ := fun w hw => h.first.orderly.isLocal_of_mem_locals (h.output_mem_locals hw)
  shaped := fun w hw =>
    ⟨h.temp_local hw, h.temp_size hw, h.solid_new hw w.temp_mem_news⟩
  temps := h.temp_injective
  new := fun w hw => h.new_first hw w.temp_mem_news

theorem tapped_second (h : Connection a b bound ws g g') :
    Tapped b ws Wire.input (Wire.merging ws).apply where
  cases := by
    intro s hs
    by_cases hwired : ∃ w ∈ ws, s = w.input
    · obtain ⟨w, hw, rfl⟩ := hwired
      exact .inl ⟨w, hw, rfl, Wire.apply_merging_input h.separate hw⟩
    · have hne : ∀ w ∈ ws, s ≠ w.input := fun w hw heq => hwired ⟨w, hw, heq⟩
      refine .inr ⟨hne, Wire.apply_merging_of_ne fun w hw => ⟨?_, hne w hw⟩⟩
      rintro rfl
      have hlocal := h.first.orderly.isLocal_of_mem_locals (h.output_mem_locals hw)
      exact h.apart _ ((h.second.orderly.mem_locals_iff hs).mpr hlocal) (h.output_mem_locals hw)
  local_ := fun w hw => h.second.orderly.isLocal_of_mem_locals (h.input_mem_locals hw)
  shaped := fun w hw =>
    ⟨h.temp_local hw, (h.temp_size hw).trans (h.sizes w hw), h.solid_new hw w.temp_mem_news⟩
  temps := h.temp_injective
  new := fun w hw => h.new_second hw w.temp_mem_news

end Connection

end KernelAlgebra
