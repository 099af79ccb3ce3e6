import KernelAlgebra.Program.Basic
import KernelAlgebra.Proofs.Symbol
import KernelAlgebra.Proofs.Validity

/-!
# Collecting symbols makes the lists fit the code

However the temporaries were listed before, collecting declares every symbol that the code
mentions and keeps the lists orderly.
-/

namespace KernelAlgebra

/-! ## Symbols that the code mentions -/

namespace Program

theorem mem_mentions {p : Program} {s : Symbol} :
    s ∈ p.mentions ↔ ∃ id n, p.graph.Reaches id ∧ p.graph.node? id = some n ∧
      s ∈ nodeSymbols n := by
  simp only [mentions, List.mem_flatMap, Prod.exists, Graph.mem_reachableNodes, and_assoc]

theorem mentions_eq_append {p : Program} {n : Node}
    (hn : p.graph.node? p.graph.entry = some n) :
    ∃ rest, p.mentions = nodeSymbols n ++ rest := by
  obtain ⟨rest, hrest⟩ := Graph.reachable_eq_cons (Graph.lt_of_node? hn)
  simp [mentions, Graph.reachableNodes, hrest, hn]

theorem isHole_of_mem_uses {i : Instruction} {s : Symbol} (h : s ∈ i.uses) :
    s.isHole = false := by
  obtain ⟨v, hv, rfl⟩ := List.mem_map.mp h
  simpa [View.isAbsent] using (List.mem_filter.mp hv).2

theorem isHole_of_defines {i : Instruction} {s : Symbol} (h : i.defines = some s) :
    s.isHole = false := by
  unfold Instruction.defines at h
  split at h
  · cases h
  · rename_i hpresent
    cases h
    simpa [View.isAbsent] using hpresent

theorem isHole_of_conditionSymbol? {b : Branch} {s : Symbol} (h : conditionSymbol? b = some s) :
    s.isHole = false := by
  unfold conditionSymbol? at h
  split at h
  · cases h
  · rename_i hpresent
    cases h
    simpa [View.isAbsent] using hpresent

theorem isHole_of_mem_mentions {p : Program} {s : Symbol} (h : s ∈ p.mentions) :
    s.isHole = false := by
  obtain ⟨id, n, _, _, hs⟩ := mem_mentions.mp h
  rcases List.mem_append.mp hs with hs | hs
  · obtain ⟨i, _, hs⟩ := List.mem_flatMap.mp hs
    rcases List.mem_append.mp hs with hs | hs
    · exact isHole_of_mem_uses hs
    · exact isHole_of_defines (Option.mem_toList.mp hs)
  · obtain ⟨b, _, hs⟩ := List.mem_filterMap.mp hs
    exact isHole_of_conditionSymbol? hs

theorem mem_symbols_collect {p : Program} {s : Symbol} (h : s ∈ p.mentions) :
    s ∈ p.collect.symbols := by
  simp only [Interface.symbols, List.mem_append, inputs_collect, outputs_collect]
  cases hrole : s.role <;>
    simp [collect, mem_dedup, h, hrole, isCollectedTemp, Symbol.isLocal, Role.isLocal,
      Symbol.isResource] <;>
    grind

theorem fits_collect {p : Program} {declared : List Symbol} (h : p.graph.Fits declared) :
    p.graph.Fits p.collect.symbols := by
  intro id n hreach hn
  have hnode := h id n hreach hn
  have hmention : ∀ s ∈ nodeSymbols n, s ∈ p.collect.symbols :=
    fun s hs => mem_symbols_collect (mem_mentions.mpr ⟨id, n, hreach, hn, hs⟩)
  have hblock : ∀ i ∈ n.block, ∀ s ∈ instructionSymbols i, s ∈ p.collect.symbols :=
    fun i hi s hs => hmention s (List.mem_append.mpr (.inl (List.mem_flatMap.mpr ⟨i, hi, hs⟩)))
  constructor
  · intro i hi
    have hfits := hnode.block i hi
    refine ⟨hfits.checked, ?_, ?_⟩
    · exact fun s hs => hblock i hi s (List.mem_append.mpr (.inl hs))
    · exact fun s hs => ⟨hblock i hi s (List.mem_append.mpr (.inr (Option.mem_toList.mpr hs))),
        (hfits.defines s hs).2⟩
  · intro b hb
    have hfits := hnode.branches b hb
    refine ⟨hfits.present, hfits.checked, hmention _ (List.mem_append.mpr (.inr ?_))⟩
    exact List.mem_filterMap.mpr ⟨b, hb, by simp [conditionSymbol?, hfits.present]⟩

theorem mem_of_mem_mentions {p : Program} {declared : List Symbol} (h : p.graph.Fits declared)
    {s : Symbol} (hs : s ∈ p.mentions) : s ∈ declared := by
  obtain ⟨id, n, hreach, hn, hs⟩ := mem_mentions.mp hs
  have hnode := h id n hreach hn
  rcases List.mem_append.mp hs with hs | hs
  · obtain ⟨i, hi, hs⟩ := List.mem_flatMap.mp hs
    rcases List.mem_append.mp hs with hs | hs
    · exact (hnode.block i hi).uses s hs
    · exact ((hnode.block i hi).defines s (Option.mem_toList.mp hs)).1
  · obtain ⟨b, hb, hs⟩ := List.mem_filterMap.mp hs
    have hfits := hnode.branches b hb
    simp only [conditionSymbol?, hfits.present, Bool.false_eq_true, if_false,
      Option.some.injEq] at hs
    exact hs ▸ hfits.declared

theorem mem_of_mem_symbols_collect {p : Program} {s : Symbol} (h : s ∈ p.collect.symbols) :
    s ∈ p.symbols ∨ s ∈ p.mentions := by
  simp only [Interface.mem_symbols, collect, mem_dedup, List.mem_append, List.mem_filter] at h ⊢
  grind

end Program

/-! ## Lists -/

theorem roleList_dedup {roles : List Role} {list : List Symbol}
    (hrole : ∀ s ∈ list, s.role ∈ roles) (hsolid : ∀ s ∈ list, s.isHole = false) :
    RoleList roles (dedup list) :=
  ⟨nodup_dedup list, fun s hs => hrole s (mem_dedup.mp hs), fun s hs => hsolid s (mem_dedup.mp hs)⟩

/-- The lists of an interface that collection turns into orderly ones. -/
structure Interface.Collectable (l : Interface) : Prop where
  inputs : RoleList [.input, .inout] l.inputs
  outputs : RoleList [.output, .inout] l.outputs
  constants : ∀ s ∈ l.constants, s.role ∈ [Role.const] ∧ s.isHole = false
  uniforms : ∀ s ∈ l.uniforms, s.role ∈ [Role.uniform] ∧ s.isHole = false
  textures : ∀ s ∈ l.textures, s.role ∈ [Role.texture, Role.stream] ∧ s.isHole = false
  inout_output : ∀ s ∈ l.inputs, s.isInOut = true → s ∈ l.outputs
  inout_input : ∀ s ∈ l.outputs, s.isInOut = true → s ∈ l.inputs

theorem Interface.Orderly.collectable {l : Interface} (h : l.Orderly) : l.Collectable where
  inputs := h.inputs
  outputs := h.outputs
  constants := fun s hs => ⟨h.constants.role s hs, h.constants.solid s hs⟩
  uniforms := fun s hs => ⟨h.uniforms.role s hs, h.uniforms.solid s hs⟩
  textures := fun s hs => ⟨h.textures.role s hs, h.textures.solid s hs⟩
  inout_output := h.inout_output
  inout_input := h.inout_input

namespace Program

private theorem roleList_collected {roles : List Role} {list used : List Symbol}
    {keep : Symbol → Bool} (hlist : ∀ s ∈ list, s.role ∈ roles ∧ s.isHole = false)
    (hused : ∀ s ∈ used, s.isHole = false) (hkeep : ∀ s, keep s = true → s.role ∈ roles) :
    RoleList roles (dedup (list ++ used.filter keep)) := by
  apply roleList_dedup
  · intro s hs
    rcases List.mem_append.mp hs with hs | hs
    · exact (hlist s hs).1
    · exact hkeep s (List.mem_filter.mp hs).2
  · intro s hs
    rcases List.mem_append.mp hs with hs | hs
    · exact (hlist s hs).2
    · exact hused s (List.mem_filter.mp hs).1

theorem orderly_collect {p : Program} (h : p.toInterface.Collectable) :
    p.collect.toInterface.Orderly where
  inputs := h.inputs
  outputs := h.outputs
  temps := by
    have htemp : ∀ s, p.isCollectedTemp s = true →
        s.role ∈ [Role.temp, .input, .output, .inout] := by
      intro s hs
      simp only [isCollectedTemp, Symbol.isLocal, Bool.and_eq_true] at hs
      cases hrole : s.role <;> simp_all [Role.isLocal]
    have htemps : RoleList _ (dedup ([] ++ p.mentions.filter p.isCollectedTemp)) :=
      roleList_collected (by simp) (fun _ => isHole_of_mem_mentions) htemp
    exact htemps
  constants := roleList_collected h.constants (fun _ => isHole_of_mem_mentions) (by simp)
  uniforms := roleList_collected h.uniforms (fun _ => isHole_of_mem_mentions) (by simp)
  textures := roleList_collected h.textures (fun _ => isHole_of_mem_mentions)
    (by simp [Symbol.isResource])
  inout_output := h.inout_output
  inout_input := h.inout_input
  temps_apart := by
    intro s hs
    have htemp := (List.mem_filter.mp (mem_dedup.mp hs)).2
    simp only [isCollectedTemp, Bool.and_eq_true, Bool.not_eq_true', List.contains_eq_mem,
      decide_eq_false_iff_not] at htemp
    exact ⟨htemp.1.2, htemp.2⟩

theorem valid_collect {p : Program} {declared : List Symbol} (h : p.toInterface.Collectable)
    (hsound : p.graph.Sound) (hfits : p.graph.Fits declared) : p.collect.Valid :=
  ⟨orderly_collect h, hsound, fits_collect hfits⟩

/-! ## Lists that have everything -/

theorem dedup_append_of_subset {list more : List Symbol} (hnodup : list.Nodup)
    (hsubset : ∀ s ∈ more, s ∈ list) : dedup (list ++ more) = list := by
  have hsplit : dedup (list ++ more) = addNew (dedup list) more := addNew_append [] list more
  rw [hsplit, dedup_of_nodup hnodup, addNew_of_subset hsubset]

theorem mem_list_of_role {i : Interface} (h : i.Orderly) {s : Symbol} (hs : s ∈ i.symbols) :
    (s.role = .const → s ∈ i.constants) ∧ (s.role = .uniform → s ∈ i.uniforms) ∧
      (s.isResource = true → s ∈ i.textures) := by
  have hinputs := h.inputs.role s
  have houtputs := h.outputs.role s
  have htemps := h.temps.role s
  have hconstants := h.constants.role s
  have huniforms := h.uniforms.role s
  have htextures := h.textures.role s
  rw [Interface.mem_symbols] at hs
  simp only [Symbol.isResource]
  grind

theorem lists_collect {p : Program} (hvalid : p.Valid) :
    p.collect.constants = p.constants ∧ p.collect.uniforms = p.uniforms ∧
      p.collect.textures = p.textures := by
  have hlist : ∀ s ∈ p.mentions, _ := fun s hs =>
    mem_list_of_role hvalid.orderly (mem_of_mem_mentions hvalid.fits hs)
  refine ⟨dedup_append_of_subset hvalid.orderly.constants.nodup ?_,
    dedup_append_of_subset hvalid.orderly.uniforms.nodup ?_,
    dedup_append_of_subset hvalid.orderly.textures.nodup ?_⟩
  · intro s hs
    obtain ⟨hmem, hrole⟩ := List.mem_filter.mp hs
    exact (hlist s hmem).1 (by simpa using hrole)
  · intro s hs
    obtain ⟨hmem, hrole⟩ := List.mem_filter.mp hs
    exact (hlist s hmem).2.1 (by simpa using hrole)
  · intro s hs
    obtain ⟨hmem, hrole⟩ := List.mem_filter.mp hs
    exact (hlist s hmem).2.2 hrole

theorem collect_collect {p : Program} (hvalid : p.Valid) : p.collect.collect = p.collect := by
  have hcollected := valid_collect hvalid.orderly.collectable hvalid.sound hvalid.fits
  obtain ⟨hconstants, huniforms, htextures⟩ := lists_collect hcollected
  have heq : p.collect.collect =
      { p.collect with
        constants := p.collect.collect.constants,
        uniforms := p.collect.collect.uniforms,
        textures := p.collect.collect.textures } := rfl
  rw [heq, hconstants, huniforms, htextures]

end Program

end KernelAlgebra
