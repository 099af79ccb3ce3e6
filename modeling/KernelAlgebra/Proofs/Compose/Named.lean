import KernelAlgebra.Compose.Named
import KernelAlgebra.Proofs.Compose.Routing

/-!
# Composition by name keeps handles in order
-/

namespace KernelAlgebra

/-- What a program says about itself has no part in its validity. -/
theorem Program.Valid.withDiagnostics {p : Program} (hp : p.Valid) (lines : List String) :
    Program.Valid { p with diagnostics := lines } := by
  have horderly := hp.orderly
  exact ⟨⟨horderly.inputs, horderly.outputs, horderly.temps, horderly.constants,
    horderly.uniforms, horderly.textures, horderly.inout_output, horderly.inout_input,
    horderly.temps_apart⟩, hp.sound, hp.fits⟩

namespace Handle

variable {P : Binding → Prop} {g : Supply} {h : Handle}

theorem ensures_copyOf {p : Program} {env : Env} (hsketch : h.sketch = p.sketch) :
    Compose.Ensures (Compose.ofFresh (Fresh.copyOf h.sketch)) env fun q _ => q = p.copied := by
  apply Compose.ensures_ofFresh
  intro r g hrun
  rw [hsketch] at hrun
  obtain ⟨rfl, rfl⟩ := Fresh.yields_copyOf.unique hrun
  exact ⟨Nat.le_refl _, fun q hq => by cases hq; rfl⟩

theorem InOrder.withDiagnostics (hh : h.InOrder P g) (lines : List String) :
    Handle.InOrder P g { h with sketch := { h.sketch with diagnostics := lines } } := by
  obtain ⟨p, hp⟩ := hh
  refine ⟨{ p with diagnostics := lines }, ?_, hp.valid.withDiagnostics lines, hp.above, hp.fed,
    hp.all⟩
  rw [hp.sketch]
  rfl

end Handle

namespace NameMatch

theorem mem_of_mem_unmatched {m : NameMatch} {inputs : List Symbol} {s : Symbol}
    (hs : s ∈ m.unmatched inputs) : s ∈ inputs := by
  obtain ⟨⟨t, j⟩, hq, rfl⟩ := List.mem_map.mp hs
  exact List.mem_of_getElem? (List.mk_mem_zipIdx_iff_getElem?.mp (List.mem_of_mem_filter hq))

end NameMatch

namespace Composer

open Compose

variable {P : Binding → Prop} {c : Composer} {env : Env} {h a b : Handle}

theorem ensures_optimized (hh : h.InOrder P env.supply) :
    Ensures (optimized c h) env fun h' g => h'.InOrder P g := by
  obtain ⟨p, hp⟩ := hh
  have hcopied : p.copied.Valid := (Program.copies_copied hp.valid).valid hp.valid
  have hvalid : p.copied.collect.Valid :=
    Program.valid_collect hcopied.orderly.collectable hcopied.sound hcopied.fits
  refine (Handle.ensures_copyOf hp.sketch).bind ?_
  rintro _ env₁ hle₁ rfl
  refine (ensures_finish hvalid).bind ?_
  rintro q env₂ _ ⟨hq, hsupply⟩
  have habove : env₂.supply.Above p.symbols := by
    rw [hsupply]
    exact hp.above.mono hle₁
  refine ensures_newHandle fun _ => ⟨q, rfl, hq.valid, ?_, ?_, hp.all⟩
  · exact hq.above habove hcopied.fits habove
  · rw [hq.improves.inputs]
    exact hp.fed

/-! ## Merging inputs -/

theorem ensures_groupPiece {free : List Symbol} {group : NameGroup}
    (hfree : env.supply.Above free) :
    Ensures (groupPiece free group) env fun h g => h.InOrder P g := by
  have hmembers : env.supply.Above (group.2.filterMap (free[·]?)) := by
    intro s hs
    obtain ⟨i, _, hi⟩ := List.mem_filterMap.mp hs
    exact hfree s (List.mem_of_getElem? hi)
  unfold groupPiece
  split
  · exact Channels.ensures_passThrough (by simp [Supply.Above])
  · rename_i s heq
    rw [heq] at hmembers
    exact Channels.ensures_passThrough hmembers
  · rename_i s rest _ heq
    rw [heq] at hmembers
    exact Channels.ensures_copies (hmembers s (by simp))

theorem ensures_groupFeeder {free : List Symbol} {feeder : Option Handle}
    {groups : List NameGroup} (hfree : env.supply.Above free)
    (hfeeder : ∀ h ∈ feeder, h.InOrder P env.supply) :
    Ensures (groupFeeder c free feeder groups) env fun r g => ∀ h ∈ r, h.InOrder P g := by
  induction groups generalizing feeder env with
  | nil => exact ensures_pure hfeeder
  | cons group rest ih =>
      refine (ensures_groupPiece (P := P) hfree).bind fun piece env₁ hle₁ hpiece => ?_
      have hfeeder : ∀ h ∈ feeder, h.InOrder P env₁.supply :=
        fun h hh => (hfeeder h hh).mono hle₁
      refine (ensures_combineCore hfeeder hpiece.of_some).bind fun wider env₂ hle₂ hwider => ?_
      exact ih (hfree.mono (Nat.le_trans hle₁ hle₂)) hwider.of_some

theorem ensures_mergeNamesOf (hh : h.InOrder P env.supply) :
    Ensures (mergeNamesOf c h) env fun h' g => h'.InOrder P g := by
  refine Handle.ensures_freeInputs.bind ?_
  rintro _ env₁ hle₁ rfl
  have hh := hh.mono hle₁
  refine ensures_unless ?_
  simp only
  split
  · split
    · exact ensures_optimized hh
    · exact ensures_pure hh
  · refine (ensures_groupFeeder (P := P) hh.above_free (by simp)).bind
      fun feeder env₂ hle₂ hfeeder => ?_
    refine (ensures_permuteInputsCore (hh.mono hle₂)).bind fun grouped env₃ hle₃ hgrouped => ?_
    exact ensures_connectCore (fun h hh => (hfeeder h hh).mono hle₃) hgrouped.of_some

theorem ensures_mergeNames {oh : Option Handle} (hh : ∀ h ∈ oh, h.InOrder P env.supply) :
    Ensures (mergeNames c oh) env fun h g => h.InOrder P g := by
  refine ensures_observe ?_ Handle.InOrder.mono
  cases oh with
  | none => exact ensures_refuse
  | some h => exact ensures_mergeNamesOf (hh h rfl)

/-! ## Connecting and combining -/

theorem ensures_namedConnectBoth {keepExtra : Bool} (ha : a.InOrder P env.supply)
    (hb : b.InOrder P env.supply) :
    Ensures (namedConnectBoth c a b keepExtra) env fun h g => h.InOrder P g := by
  refine Handle.ensures_freeInputs.bind ?_
  rintro _ env₁ hle₁ rfl
  refine ensures_unless ?_
  refine Ensures.after ensures_logAll fun env₂ hle₂ => ?_
  have ha := ha.mono (Nat.le_trans hle₁ hle₂)
  have hb := hb.mono (Nat.le_trans hle₁ hle₂)
  have hrest : env₂.supply.Above ((NameMatch.ofLists a.outputs b.free).unmatched b.free) :=
    fun s hs => hb.above_free s (NameMatch.mem_of_mem_unmatched hs)
  refine (Channels.ensures_passThrough (P := P) hrest).bind fun rest env₃ hle₃ hpass => ?_
  have ha := ha.mono hle₃
  refine (ensures_combineCore ha.of_some hpass.of_some).bind fun wide env₄ hle₄ hwide => ?_
  refine (ensures_permuteOutputsCore hwide).bind fun arranged env₅ hle₅ harranged => ?_
  have hb := hb.mono (Nat.le_trans hle₃ (Nat.le_trans hle₄ hle₅))
  refine (ensures_connectCore harranged.of_some hb.of_some).bind fun joined env₆ _ hjoined => ?_
  exact ensures_mergeNamesOf (hjoined.withDiagnostics _)

variable {oa ob : Option Handle}

theorem ensures_namedConnect {keepExtra : Bool} (ha : ∀ h ∈ oa, h.InOrder P env.supply)
    (hb : ∀ h ∈ ob, h.InOrder P env.supply) :
    Ensures (namedConnect c oa ob keepExtra) env fun h g => h.InOrder P g := by
  refine ensures_observe ?_ Handle.InOrder.mono
  cases oa <;> cases ob
  · exact ensures_refuse
  · exact ensures_mergeNamesOf (hb _ rfl)
  · exact ensures_mergeNamesOf (ha _ rfl)
  · exact ensures_namedConnectBoth (ha _ rfl) (hb _ rfl)

theorem ensures_namedCombine (ha : ∀ h ∈ oa, h.InOrder P env.supply)
    (hb : ∀ h ∈ ob, h.InOrder P env.supply) :
    Ensures (namedCombine c oa ob) env fun h g => h.InOrder P g := by
  refine ensures_observe ?_ Handle.InOrder.mono
  exact (ensures_combineCore ha hb).bind fun h _ _ hh => ensures_mergeNamesOf hh

end Composer

end KernelAlgebra
