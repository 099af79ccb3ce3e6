import KernelAlgebra.Proofs.Compose.Code
import KernelAlgebra.Proofs.Program.Collection

/-!
# The channels of a connection

The channels that are left of two connected programs are pairwise different, and a channel of
both directions still stands on both sides.
-/

namespace KernelAlgebra.Connection

variable {a b : Program} {taken bound : Nat} {ws : List Wire} {g g' : Supply}

def inputs (a b : Program) (taken bound : Nat) : List Symbol :=
  a.inputs.take taken ++ b.inputs.take bound ++ a.inputs.drop taken ++
    (b.inputs.drop bound).drop a.outputs.length

def outputs (a b : Program) (bound : Nat) : List Symbol :=
  b.outputs ++ a.outputs.drop (b.inputs.drop bound).length

/-! ## Which channels are left -/

theorem mem_first_of_wired (h : Connection a b bound ws g g') {s : Symbol}
    (hs : s ∈ a.outputs) :
    (∃ w ∈ ws, s = w.output) ∨ s ∈ a.outputs.drop (b.inputs.drop bound).length := by
  rw [← List.take_append_drop (b.inputs.drop bound).length a.outputs, List.mem_append] at hs
  rcases hs with hs | hs
  · rw [← h.outputs_eq] at hs
    obtain ⟨w, hw, rfl⟩ := List.mem_map.mp hs
    exact .inl ⟨w, hw, rfl⟩
  · exact .inr hs

theorem not_wired_of_mem_drop (h : Connection a b bound ws g g') {s : Symbol}
    (hs : s ∈ a.outputs.drop (b.inputs.drop bound).length) : ∀ w ∈ ws, s ≠ w.output := by
  rintro w hw rfl
  have hmem : w.output ∈ ws.map Wire.output := List.mem_map.mpr ⟨w, hw, rfl⟩
  rw [h.outputs_eq] at hmem
  have hnodup := h.first.orderly.outputs.nodup
  rw [← List.take_append_drop (b.inputs.drop bound).length a.outputs, List.nodup_append] at hnodup
  exact hnodup.2.2 _ hmem _ hs rfl

def unfed (a b : Program) (bound : Nat) : List Symbol :=
  b.inputs.take bound ++ (b.inputs.drop bound).drop a.outputs.length

theorem mem_inputs {s : Symbol} :
    s ∈ inputs a b taken bound ↔ s ∈ a.inputs ∨ s ∈ unfed a b bound := by
  have hsplit : s ∈ a.inputs ↔ s ∈ a.inputs.take taken ∨ s ∈ a.inputs.drop taken := by
    rw [← List.mem_append, List.take_append_drop]
  rw [hsplit]
  simp only [inputs, unfed, List.mem_append]
  grind

theorem mem_unfed_of_mem (h : Connection a b bound ws g g') {s : Symbol} (hs : s ∈ b.inputs) :
    (∃ w ∈ ws, s = w.input) ∨ s ∈ unfed a b bound := by
  rw [← List.take_append_drop bound b.inputs, List.mem_append] at hs
  rcases hs with hs | hs
  · exact .inr (List.mem_append.mpr (.inl hs))
  · rw [← List.take_append_drop a.outputs.length (b.inputs.drop bound), List.mem_append] at hs
    rcases hs with hs | hs
    · rw [← h.inputs_eq] at hs
      obtain ⟨w, hw, rfl⟩ := List.mem_map.mp hs
      exact .inl ⟨w, hw, rfl⟩
    · exact .inr (List.mem_append.mpr (.inr hs))

theorem unfed_sublist (a b : Program) (bound : Nat) :
    List.Sublist (unfed a b bound) b.inputs := by
  have happend : List.Sublist (unfed a b bound) (b.inputs.take bound ++ b.inputs.drop bound) :=
    (List.Sublist.refl _).append (List.drop_sublist _ _)
  rwa [List.take_append_drop] at happend

theorem not_wired_of_mem_unfed (h : Connection a b bound ws g g') {s : Symbol}
    (hs : s ∈ unfed a b bound) : ∀ w ∈ ws, s ≠ w.input := by
  rintro w hw rfl
  have hmem : w.input ∈ ws.map Wire.input := List.mem_map.mpr ⟨w, hw, rfl⟩
  rw [h.inputs_eq] at hmem
  have hnodup := h.second.orderly.inputs.nodup
  rw [← List.take_append_drop bound b.inputs, List.nodup_append] at hnodup
  obtain ⟨_, hfree, hapart⟩ := hnodup
  rcases List.mem_append.mp hs with hs | hs
  · exact hapart _ hs _ (List.mem_of_mem_take hmem) rfl
  · rw [← List.take_append_drop a.outputs.length (b.inputs.drop bound), List.nodup_append] at hfree
    exact hfree.2.2 _ hmem _ hs rfl

theorem not_output_of_mem_second (h : Connection a b bound ws g g') {s : Symbol}
    (hs : s ∈ b.locals) : ∀ w ∈ ws, s ≠ w.output := by
  rintro w hw rfl
  exact h.apart _ hs (h.output_mem_locals hw)

theorem not_input_of_mem_first (h : Connection a b bound ws g g') {s : Symbol}
    (hs : s ∈ a.locals) : ∀ w ∈ ws, s ≠ w.input := by
  rintro w hw rfl
  exact h.apart _ (h.input_mem_locals hw) hs

theorem mem_locals_of_mem_unfed {s : Symbol} (hs : s ∈ unfed a b bound) : s ∈ b.locals :=
  Interface.mem_locals.mpr (.inl ((unfed_sublist a b bound).subset hs))

theorem mem_locals_of_mem_drop {s : Symbol} {k : Nat} (hs : s ∈ a.outputs.drop k) :
    s ∈ a.locals :=
  Interface.mem_locals.mpr (.inr (.inl (List.mem_of_mem_drop hs)))

/-! ## What stands in their places -/

theorem entering_cases (h : Connection a b bound ws g g') (s : Symbol) :
    (∃ w ∈ ws, s = w.output ∧ w.entrance = some (Wire.entering ws s)) ∨
      Wire.entering ws s = s ∧ ∀ w ∈ ws, s = w.output → w.entrance = none := by
  by_cases hwired : ∃ w ∈ ws, s = w.output ∧ w.entrance.isSome
  · obtain ⟨w, hw, rfl, hsome⟩ := hwired
    obtain ⟨e, he⟩ := Option.isSome_iff_exists.mp hsome
    refine .inl ⟨w, hw, rfl, ?_⟩
    rw [Wire.entering_output h.separate hw he, he]
    rintro w' hw' rfl
    exact h.new_first hw (Wire.entrance_mem_news he)
      (Interface.mem_symbols_of_mem_locals (h.output_mem_locals hw'))
  · have hnone : ∀ w ∈ ws, s = w.output → w.entrance = none := by
      intro w hw hs
      cases he : w.entrance with
      | none => rfl
      | some e => exact absurd ⟨w, hw, hs, by simp [he]⟩ hwired
    exact .inr ⟨Wire.entering_of_ne hnone, hnone⟩

theorem leaving_cases (h : Connection a b bound ws g g') (s : Symbol) :
    (∃ w ∈ ws, s = w.input ∧ w.leaving = some (Wire.leavingFor ws s)) ∨
      Wire.leavingFor ws s = s ∧ ∀ w ∈ ws, s = w.input → w.leaving = none := by
  by_cases hwired : ∃ w ∈ ws, s = w.input ∧ w.leaving.isSome
  · obtain ⟨w, hw, rfl, hsome⟩ := hwired
    obtain ⟨l, hl⟩ := Option.isSome_iff_exists.mp hsome
    refine .inl ⟨w, hw, rfl, ?_⟩
    rw [Wire.leavingFor_input h.separate hw hl, hl]
    rintro w' hw' rfl
    exact h.new_second hw (Wire.leaving_mem_news hl)
      (Interface.mem_symbols_of_mem_locals (h.input_mem_locals hw'))
  · have hnone : ∀ w ∈ ws, s = w.input → w.leaving = none := by
      intro w hw hs
      cases hl : w.leaving with
      | none => rfl
      | some l => exact absurd ⟨w, hw, hs, by simp [hl]⟩ hwired
    exact .inr ⟨Wire.leavingFor_of_ne hnone, hnone⟩

theorem entering_second (h : Connection a b bound ws g g') {s : Symbol} (hs : s ∈ b.locals) :
    Wire.entering ws s = s :=
  Wire.entering_of_ne fun w hw heq => absurd heq (h.not_output_of_mem_second hs w hw)

theorem leaving_first (h : Connection a b bound ws g g') {s : Symbol} (hs : s ∈ a.locals) :
    Wire.leavingFor ws s = s :=
  Wire.leavingFor_of_ne fun w hw heq => absurd heq (h.not_input_of_mem_first hs w hw)

private theorem nodup_exchanged (hws : (ws.flatMap Wire.news).Nodup) {list : List Symbol}
    {σ : Symbol → Symbol} {key : Wire → Symbol}
    (hcases : ∀ s ∈ list, (∃ w ∈ ws, s = key w ∧ σ s ∈ w.news) ∨ σ s = s)
    (hold : ∀ s ∈ list, ∀ w ∈ ws, s ∉ w.news) (hlist : list.Nodup) : (list.map σ).Nodup := by
  apply nodup_map hlist
  intro s hs t ht heq
  rcases hcases s hs with ⟨w, hw, rfl, hnew⟩ | hsame
  · rcases hcases t ht with ⟨w', hw', rfl, hnew'⟩ | hsame'
    · rw [Wire.eq_of_mem_news hws hw hw' hnew (heq ▸ hnew')]
    · rw [heq, hsame'] at hnew
      exact absurd hnew (hold t ht w hw)
  · rcases hcases t ht with ⟨w', hw', rfl, hnew'⟩ | hsame'
    · rw [← heq, hsame] at hnew'
      exact absurd hnew' (hold s hs w' hw')
    · rw [← hsame, heq, hsame']

theorem nodup_inputs (h : Connection a b bound ws g g') (taken : Nat) :
    (inputs a b taken bound).Nodup := by
  have hperm : List.Perm (inputs a b taken bound)
      ((a.inputs.take taken ++ a.inputs.drop taken) ++ unfed a b bound) := by
    unfold inputs unfed
    simp only [List.append_assoc]
    exact (List.perm_append_comm_assoc _ _ _).append_left _
  rw [hperm.nodup_iff, List.take_append_drop, List.nodup_append]
  refine ⟨h.first.orderly.inputs.nodup,
    h.second.orderly.inputs.nodup.sublist (unfed_sublist a b bound), ?_⟩
  rintro s hs t ht rfl
  exact h.apart s (mem_locals_of_mem_unfed ht) (Interface.mem_locals.mpr (.inl hs))

theorem nodup_outputs (h : Connection a b bound ws g g') : (outputs a b bound).Nodup := by
  unfold outputs
  rw [List.nodup_append]
  refine ⟨h.second.orderly.outputs.nodup,
    h.first.orderly.outputs.nodup.sublist (List.drop_sublist _ _), ?_⟩
  rintro s hs t ht rfl
  exact h.apart s (Interface.mem_locals.mpr (.inr (.inl hs))) (mem_locals_of_mem_drop ht)

theorem mem_symbols_of_mem_inputs {s : Symbol} (hs : s ∈ inputs a b taken bound) :
    s ∈ a.symbols ∨ s ∈ b.symbols := by
  rcases mem_inputs.mp hs with hs | hs
  · exact .inl (Interface.mem_symbols.mpr (.inl hs))
  · exact .inr (Interface.mem_symbols_of_mem_locals (mem_locals_of_mem_unfed hs))

theorem mem_symbols_of_mem_outputs {s : Symbol} (hs : s ∈ outputs a b bound) :
    s ∈ a.symbols ∨ s ∈ b.symbols := by
  rcases List.mem_append.mp hs with hs | hs
  · exact .inr (Interface.mem_symbols.mpr (.inr (.inl hs)))
  · exact .inl (Interface.mem_symbols_of_mem_locals (mem_locals_of_mem_drop hs))

theorem not_new (h : Connection a b bound ws g g') {s : Symbol}
    (hs : s ∈ a.symbols ∨ s ∈ b.symbols) {w : Wire} (hw : w ∈ ws) : s ∉ w.news := by
  intro hnew
  rcases hs with hs | hs
  · exact h.new_first hw hnew hs
  · exact h.new_second hw hnew hs

theorem nodup_entering (h : Connection a b bound ws g g') (taken : Nat) :
    ((inputs a b taken bound).map (Wire.entering ws)).Nodup := by
  have hcases : ∀ s ∈ inputs a b taken bound,
      (∃ w ∈ ws, s = w.output ∧ Wire.entering ws s ∈ w.news) ∨ Wire.entering ws s = s := by
    intro s _
    rcases h.entering_cases s with ⟨w, hw, hs, he⟩ | ⟨hsame, _⟩
    · exact .inl ⟨w, hw, hs, Wire.entrance_mem_news he⟩
    · exact .inr hsame
  exact nodup_exchanged h.drawn.nodup hcases
    (fun s hs w hw => h.not_new (mem_symbols_of_mem_inputs hs) hw) (h.nodup_inputs taken)

theorem nodup_leaving (h : Connection a b bound ws g g') :
    ((outputs a b bound).map (Wire.leavingFor ws)).Nodup := by
  have hcases : ∀ s ∈ outputs a b bound,
      (∃ w ∈ ws, s = w.input ∧ Wire.leavingFor ws s ∈ w.news) ∨ Wire.leavingFor ws s = s := by
    intro s _
    rcases h.leaving_cases s with ⟨w, hw, hs, hl⟩ | ⟨hsame, _⟩
    · exact .inl ⟨w, hw, hs, Wire.leaving_mem_news hl⟩
    · exact .inr hsame
  exact nodup_exchanged h.drawn.nodup hcases
    (fun s hs w hw => h.not_new (mem_symbols_of_mem_outputs hs) hw) h.nodup_outputs

/-! ## The connected program -/

def program (a b : Program) (taken bound : Nat) (ws : List Wire) : Program :=
  Composer.wired (sequenced a b) ws (inputs a b taken bound) (outputs a b bound)

theorem graph_program : (program a b taken bound ws).graph = code a b ws := rfl

theorem inputs_program (h : Connection a b bound ws g g') :
    (program a b taken bound ws).inputs = (inputs a b taken bound).map (Wire.entering ws) := by
  change dedup (Wire.onInputs ws (inputs a b taken bound)) = _
  rw [Wire.onInputs_eq_map, dedup_of_nodup (h.nodup_entering taken)]

theorem outputs_program (h : Connection a b bound ws g g') :
    (program a b taken bound ws).outputs = (outputs a b bound).map (Wire.leavingFor ws) := by
  change dedup (Wire.onOutputs ws (outputs a b bound)) = _
  rw [Wire.onOutputs_eq_map, dedup_of_nodup h.nodup_leaving]

theorem roleList_inputs (h : Connection a b bound ws g g') :
    RoleList [.input, .inout] (program a b taken bound ws).inputs := by
  rw [h.inputs_program]
  refine ⟨h.nodup_entering taken, ?_, ?_⟩
  · intro t ht
    obtain ⟨s, hs, rfl⟩ := List.mem_map.mp ht
    rcases h.entering_cases s with ⟨w, hw, _, he⟩ | ⟨hsame, _⟩
    · rw [(h.drawn.shaped w hw).entrance _ he]
      exact List.mem_cons_self
    · rw [hsame]
      rcases mem_inputs.mp hs with hs | hs
      · exact h.first.orderly.inputs.role s hs
      · exact h.second.orderly.inputs.role s ((unfed_sublist a b bound).subset hs)
  · intro t ht
    obtain ⟨s, hs, rfl⟩ := List.mem_map.mp ht
    rcases h.entering_cases s with ⟨w, hw, _, he⟩ | ⟨hsame, _⟩
    · exact h.solid_new hw (Wire.entrance_mem_news he)
    · rw [hsame]
      rcases mem_symbols_of_mem_inputs hs with hs | hs
      · exact h.first.orderly.solid hs
      · exact h.second.orderly.solid hs

theorem roleList_outputs (h : Connection a b bound ws g g') :
    RoleList [.output, .inout] (program a b taken bound ws).outputs := by
  rw [h.outputs_program]
  refine ⟨h.nodup_leaving, ?_, ?_⟩
  · intro t ht
    obtain ⟨s, hs, rfl⟩ := List.mem_map.mp ht
    rcases h.leaving_cases s with ⟨w, hw, _, hl⟩ | ⟨hsame, _⟩
    · rw [(h.drawn.shaped w hw).leaving _ hl]
      exact List.mem_cons_self
    · rw [hsame]
      rcases List.mem_append.mp hs with hs | hs
      · exact h.second.orderly.outputs.role s hs
      · exact h.first.orderly.outputs.role s (List.mem_of_mem_drop hs)
  · intro t ht
    obtain ⟨s, hs, rfl⟩ := List.mem_map.mp ht
    rcases h.leaving_cases s with ⟨w, hw, _, hl⟩ | ⟨hsame, _⟩
    · exact h.solid_new hw (Wire.leaving_mem_news hl)
    · rw [hsame]
      rcases mem_symbols_of_mem_outputs hs with hs | hs
      · exact h.first.orderly.solid hs
      · exact h.second.orderly.solid hs

theorem entrance_of_inout (h : Connection a b bound ws g g') {w : Wire} (hw : w ∈ ws)
    (hinout : w.output.isInOut = true) : w.entrance ≠ none := by
  rw [← (h.drawn.shaped w hw).entrance_iff] at hinout
  exact Option.isSome_iff_ne_none.mp hinout

theorem leaving_of_inout (h : Connection a b bound ws g g') {w : Wire} (hw : w ∈ ws)
    (hinout : w.input.isInOut = true) : w.leaving ≠ none := by
  rw [← (h.drawn.shaped w hw).leaving_iff] at hinout
  exact Option.isSome_iff_ne_none.mp hinout

theorem inout_output (h : Connection a b bound ws g g') {t : Symbol}
    (ht : t ∈ (program a b taken bound ws).inputs) (hinout : t.isInOut = true) :
    t ∈ (program a b taken bound ws).outputs := by
  rw [h.inputs_program] at ht
  rw [h.outputs_program]
  obtain ⟨s, hs, rfl⟩ := List.mem_map.mp ht
  rcases h.entering_cases s with ⟨w, hw, _, he⟩ | ⟨hsame, hnone⟩
  · rw [(h.drawn.shaped w hw).entrance _ he] at hinout
    cases hinout
  · rw [hsame] at hinout ⊢
    rcases mem_inputs.mp hs with hs | hs
    · have hout := h.first.orderly.inout_output s hs hinout
      rcases h.mem_first_of_wired hout with ⟨w, hw, rfl⟩ | hleft
      · exact absurd (hnone w hw rfl) (h.entrance_of_inout hw hinout)
      · exact List.mem_map.mpr ⟨s, List.mem_append.mpr (.inr hleft),
          h.leaving_first (mem_locals_of_mem_drop hleft)⟩
    · have hout := h.second.orderly.inout_output s ((unfed_sublist a b bound).subset hs) hinout
      refine List.mem_map.mpr ⟨s, List.mem_append.mpr (.inl hout), ?_⟩
      exact Wire.leavingFor_of_ne fun w hw heq => absurd heq (h.not_wired_of_mem_unfed hs w hw)

theorem inout_input (h : Connection a b bound ws g g') {t : Symbol}
    (ht : t ∈ (program a b taken bound ws).outputs) (hinout : t.isInOut = true) :
    t ∈ (program a b taken bound ws).inputs := by
  rw [h.outputs_program] at ht
  rw [h.inputs_program]
  obtain ⟨s, hs, rfl⟩ := List.mem_map.mp ht
  rcases h.leaving_cases s with ⟨w, hw, _, hl⟩ | ⟨hsame, hnone⟩
  · rw [(h.drawn.shaped w hw).leaving _ hl] at hinout
    cases hinout
  · rw [hsame] at hinout ⊢
    rcases List.mem_append.mp hs with hs | hs
    · have hin := h.second.orderly.inout_input s hs hinout
      rcases h.mem_unfed_of_mem hin with ⟨w, hw, rfl⟩ | hleft
      · exact absurd (hnone w hw rfl) (h.leaving_of_inout hw hinout)
      · exact List.mem_map.mpr ⟨s, mem_inputs.mpr (.inr hleft),
          h.entering_second (mem_locals_of_mem_unfed hleft)⟩
    · have hin := h.first.orderly.inout_input s (List.mem_of_mem_drop hs) hinout
      refine List.mem_map.mpr ⟨s, mem_inputs.mpr (.inl hin), ?_⟩
      exact Wire.entering_of_ne fun w hw heq => absurd heq (h.not_wired_of_mem_drop hs w hw)

theorem shared_sequenced {roles : List Role} {xs ys : List Symbol} (hxs : RoleList roles xs)
    (hys : RoleList roles ys) : ∀ s ∈ dedup (xs ++ ys), s.role ∈ roles ∧ s.isHole = false := by
  intro s hs
  rcases List.mem_append.mp (mem_dedup.mp hs) with hs | hs
  · exact ⟨hxs.role s hs, hxs.solid s hs⟩
  · exact ⟨hys.role s hs, hys.solid s hs⟩

theorem collectable_program (h : Connection a b bound ws g g') :
    (program a b taken bound ws).toInterface.Collectable where
  inputs := h.roleList_inputs
  outputs := h.roleList_outputs
  constants := shared_sequenced h.first.orderly.constants h.second.orderly.constants
  uniforms := shared_sequenced h.first.orderly.uniforms h.second.orderly.uniforms
  textures := shared_sequenced h.first.orderly.textures h.second.orderly.textures
  inout_output := fun _ ht hinout => h.inout_output ht hinout
  inout_input := fun _ ht hinout => h.inout_input ht hinout

theorem valid_program (h : Connection a b bound ws g g') :
    (program a b taken bound ws).collect.Valid :=
  Program.valid_collect h.collectable_program h.sound_code h.fits_code

end KernelAlgebra.Connection
