import KernelAlgebra.Proofs.Compose.Combination

/-!
# Handles in order

A handle is in order when its program is valid, no id of its program is still to be drawn, and
every binding has the size of its input.  Connecting and combining handles that are in order
gives handles that are in order.
-/

namespace KernelAlgebra

/-! ## Bindings and inputs -/

/-- The inputs in front have the sizes of the sources that are bound to them. -/
def Fed (bindings : List Binding) (inputs : List Symbol) : Prop :=
  bindings.map (·.source.size) = (inputs.take bindings.length).map Symbol.size

section Fed

variable {bindings bindings' : List Binding} {inputs inputs' rest : List Symbol}

theorem Fed.length_le (h : Fed bindings inputs) : bindings.length ≤ inputs.length := by
  have hlen := congrArg List.length h
  simp only [List.length_map, List.length_take] at hlen
  omega

theorem fed_iff : Fed bindings inputs ↔ bindings.length ≤ inputs.length ∧
    ∀ q ∈ bindings.zip inputs, q.1.source.size = q.2.size := by
  induction bindings generalizing inputs with
  | nil => simp [Fed]
  | cons b bs ih =>
      cases inputs with
      | nil => simp [Fed]
      | cons s ss =>
          have htail : Fed bs ss ↔ _ := ih
          unfold Fed at htail
          simp only [Fed, List.map_cons, List.length_cons, List.take_succ_cons, List.cons.injEq,
            htail, List.zip_cons_cons, List.forall_mem_cons]
          grind

theorem Fed.append (h : Fed bindings inputs) (h' : Fed bindings' inputs') :
    Fed (bindings ++ bindings')
      (inputs.take bindings.length ++ inputs'.take bindings'.length ++ rest) := by
  have hlen : (inputs.take bindings.length ++ inputs'.take bindings'.length).length =
      (bindings ++ bindings').length := by
    simp [h.length_le, h'.length_le]
  unfold Fed at h h' ⊢
  rw [← hlen, List.take_left, List.map_append, List.map_append, h, h']

theorem Fed.map {σ : Symbol → Symbol} (h : Fed bindings inputs)
    (hσ : ∀ s ∈ inputs, (σ s).size = s.size) : Fed bindings (inputs.map σ) := by
  unfold Fed at h ⊢
  rw [h, ← List.map_take, List.map_map]
  exact (List.map_congr_left fun s hs => hσ s (List.mem_of_mem_take hs)).symm

end Fed

/-! ## Handles -/

/-- The handle holds this valid program, whose ids were all drawn, and its bindings fit. -/
structure Handle.Holds (P : Binding → Prop) (g : Supply) (h : Handle) (p : Program) : Prop where
  sketch : h.sketch = p.sketch
  valid : p.Valid
  above : g.Above p.symbols
  fed : Fed h.bindings p.inputs
  all : ∀ b ∈ h.bindings, P b

def Handle.InOrder (P : Binding → Prop) (g : Supply) (h : Handle) : Prop :=
  ∃ p, h.Holds P g p

variable {P : Binding → Prop} {h a b : Handle} {p q ap bp : Program} {g g' : Supply}

theorem Handle.Holds.over (hp : h.Holds P g p) : h.Over p :=
  ⟨hp.sketch, hp.valid, hp.fed.length_le⟩

theorem Handle.Holds.mono (hp : h.Holds P g p) (hle : g.next ≤ g'.next) : h.Holds P g' p :=
  ⟨hp.sketch, hp.valid, hp.above.mono hle, hp.fed, hp.all⟩

theorem Handle.InOrder.mono (hh : h.InOrder P g) (hle : g.next ≤ g'.next) : h.InOrder P g' := by
  obtain ⟨p, hp⟩ := hh
  exact ⟨p, hp.mono hle⟩

theorem Handle.InOrder.of_some (hh : h.InOrder P g) : ∀ h' ∈ some h, h'.InOrder P g := by
  intro h' hh'
  cases hh'
  exact hh

theorem Compose.Finished.above {c : Composer} {declared : List Symbol} (hq : Finished c p q)
    (hlists : g.Above p.symbols) (hfits : p.graph.Fits declared) (hdeclared : g.Above declared) :
    g.Above q.symbols := by
  intro s hs
  rcases Program.mem_of_mem_symbols_collect (hq.symbols s hs) with hs | hs
  · exact hlists s hs
  · exact hdeclared s (Program.mem_of_mem_mentions hfits hs)

/-! ## Connections -/

namespace Connection

variable {x y : Program} {taken bound : Nat} {ws : List Wire}

theorem entering_size (hc : Connection x y bound ws g g') (s : Symbol) :
    (Wire.entering ws s).size = s.size := by
  rcases hc.entering_cases s with ⟨w, hw, rfl, he⟩ | ⟨hsame, _⟩
  · rw [(hc.drawn.shaped w hw).entrance _ he]
  · rw [hsame]

theorem above_both (hc : Connection x y bound ws g g') {s : Symbol}
    (hs : s ∈ x.symbols ∨ s ∈ y.symbols) : s.id < g'.next := by
  rcases hs with hs | hs
  · exact hc.above.mono hc.drawn.later s hs
  · exact hc.above'.mono hc.drawn.later s hs

theorem mem_of_mem_vocabulary (hc : Connection x y bound ws g g') {t : Symbol}
    (ht : t ∈ vocabulary x y ws) : (t ∈ x.symbols ∨ t ∈ y.symbols) ∨ t ∈ ws.flatMap Wire.news := by
  rcases List.mem_append.mp ht with ht | ht
  · obtain ⟨s, hs, rfl⟩ := List.mem_map.mp ht
    have hcases : (∃ w ∈ ws, (Wire.merging ws).apply s = w.temp) ∨
        (Wire.merging ws).apply s = s := by
      rcases List.mem_append.mp hs with hs | hs
      · rcases hc.tapped_first.cases s hs with ⟨w, hw, _, htemp⟩ | ⟨_, hsame⟩
        · exact .inl ⟨w, hw, htemp⟩
        · exact .inr hsame
      · rcases hc.tapped_second.cases s hs with ⟨w, hw, _, htemp⟩ | ⟨_, hsame⟩
        · exact .inl ⟨w, hw, htemp⟩
        · exact .inr hsame
    rcases hcases with ⟨w, hw, htemp⟩ | hsame
    · rw [htemp]
      exact .inr (List.mem_flatMap.mpr ⟨w, hw, w.temp_mem_news⟩)
    · rw [hsame]
      exact .inl (List.mem_append.mp hs)
  · exact .inr ht

theorem mem_of_mem_symbols_program (hc : Connection x y bound ws g g') {t : Symbol}
    (ht : t ∈ (program x y taken bound ws).symbols) :
    (t ∈ x.symbols ∨ t ∈ y.symbols) ∨ t ∈ ws.flatMap Wire.news := by
  have hshared : ∀ {xs ys : List Symbol}, (∀ s ∈ xs, s ∈ x.symbols) → (∀ s ∈ ys, s ∈ y.symbols) →
      ∀ s ∈ dedup (xs ++ ys), s ∈ x.symbols ∨ s ∈ y.symbols := by
    intro xs ys hxs hys s hs
    rcases List.mem_append.mp (mem_dedup.mp hs) with hs | hs
    · exact .inl (hxs s hs)
    · exact .inr (hys s hs)
  rcases Interface.mem_symbols.mp ht with ht | ht | ht | ht | ht | ht
  · rw [hc.inputs_program] at ht
    obtain ⟨s, hs, rfl⟩ := List.mem_map.mp ht
    rcases hc.entering_cases s with ⟨w, hw, _, he⟩ | ⟨hsame, _⟩
    · exact .inr (List.mem_flatMap.mpr ⟨w, hw, Wire.entrance_mem_news he⟩)
    · rw [hsame]
      exact .inl (mem_symbols_of_mem_inputs hs)
  · rw [hc.outputs_program] at ht
    obtain ⟨s, hs, rfl⟩ := List.mem_map.mp ht
    rcases hc.leaving_cases s with ⟨w, hw, _, hl⟩ | ⟨hsame, _⟩
    · exact .inr (List.mem_flatMap.mpr ⟨w, hw, Wire.leaving_mem_news hl⟩)
    · rw [hsame]
      exact .inl (mem_symbols_of_mem_outputs hs)
  all_goals
    refine .inl (hshared (fun s hs => ?_) (fun s hs => ?_) t ht) <;>
      simp [Interface.mem_symbols, hs]

theorem above_of_cases (hc : Connection x y bound ws g g') {t : Symbol}
    (ht : (t ∈ x.symbols ∨ t ∈ y.symbols) ∨ t ∈ ws.flatMap Wire.news) : t.id < g'.next := by
  rcases ht with hold | hnew
  · exact hc.above_both hold
  · exact (hc.drawn.fresh t hnew).2

theorem above_vocabulary (hc : Connection x y bound ws g g') : g'.Above (vocabulary x y ws) :=
  fun _ ht => hc.above_of_cases (hc.mem_of_mem_vocabulary ht)

theorem above_program (hc : Connection x y bound ws g g') :
    g'.Above (program x y taken bound ws).symbols :=
  fun _ ht => hc.above_of_cases (hc.mem_of_mem_symbols_program ht)

end Connection

namespace Joins

variable {c : Composer} {taken bound : Nat}

theorem later (hq : Joins c ap bp taken bound g q g') : g.next ≤ g'.next := by
  obtain ⟨operand, connection, _⟩ := hq
  exact Nat.le_trans operand.later connection.drawn.later

theorem valid (hq : Joins c ap bp taken bound g q g') : q.Valid := by
  obtain ⟨_, _, finished⟩ := hq
  exact finished.valid

theorem above (hq : Joins c ap bp taken bound g q g') : g'.Above q.symbols := by
  obtain ⟨_, connection, finished⟩ := hq
  exact finished.above connection.above_program connection.fits_code connection.above_vocabulary

theorem fed {bindings bindings' : List Binding}
    (hq : Joins c ap bp bindings.length bindings'.length g q g') (hap : Fed bindings ap.inputs)
    (hbp : Fed bindings' bp.inputs) : Fed (bindings ++ bindings') q.inputs := by
  obtain ⟨operand, connection, finished⟩ := hq
  rename_i bq ρ g₁ ws
  have hbq : Fed bindings' bq.inputs := by
    rw [operand.copies.inputs]
    exact hbp.map fun s hs => operand.copies.size_eq (Interface.mem_symbols.mpr (.inl hs))
  have hcurried : Fed (bindings ++ bindings')
      (Connection.inputs ap.copied bq bindings.length bindings'.length) := by
    unfold Connection.inputs
    rw [List.append_assoc _ (ap.copied.inputs.drop bindings.length)]
    exact Fed.append hap hbq
  rw [finished.improves.inputs, connection.inputs_program]
  exact hcurried.map fun s _ => connection.entering_size s

end Joins

/-! ## Combinations -/

namespace Combines

variable {c : Composer} {taken bound : Nat}

theorem later (hq : Combines c ap bp taken bound g q g') : g.next ≤ g'.next := by
  obtain ⟨operand, _⟩ := hq
  exact operand.later

theorem valid (hq : Combines c ap bp taken bound g q g') : q.Valid := by
  obtain ⟨_, finished⟩ := hq
  exact finished.valid

theorem above (hq : Combines c ap bp taken bound g q g') (ha : ap.Valid) (hb : bp.Valid)
    (habove : g.Above ap.symbols) : g'.Above q.symbols := by
  obtain ⟨operand, finished⟩ := hq
  rename_i bq ρ
  have hboth : g'.Above (ap.copied.symbols ++ bq.symbols) :=
    List.forall_mem_append.mpr ⟨operand.above_first habove, operand.above⟩
  have hx : ap.copied.Valid := (Program.copies_copied ha).valid ha
  exact finished.above (fun s hs => hboth s (Combination.mem_symbols_program hs))
    (Combination.fits_program hx (operand.copies.valid hb)) hboth

theorem fed {bindings bindings' : List Binding}
    (hq : Combines c ap bp bindings.length bindings'.length g q g') (hap : Fed bindings ap.inputs)
    (hbp : Fed bindings' bp.inputs) : Fed (bindings ++ bindings') q.inputs := by
  obtain ⟨operand, finished⟩ := hq
  rename_i bq ρ
  have hbq : Fed bindings' bq.inputs := by
    rw [operand.copies.inputs]
    exact hbp.map fun s hs => operand.copies.size_eq (Interface.mem_symbols.mpr (.inl hs))
  rw [finished.improves.inputs]
  change Fed _ (Combination.inputs ap.copied bq bindings.length bindings'.length)
  unfold Combination.inputs
  rw [List.append_assoc _ (ap.copied.inputs.drop bindings.length)]
  exact Fed.append hap hbq

end Combines

/-! ## Connecting and combining -/

namespace Composer

open Compose

variable {c : Composer} {env : Env}

theorem ensures_connectBoth (ha : a.InOrder P env.supply) (hb : b.InOrder P env.supply) :
    Ensures (connectBoth c a b) env fun h g => h.InOrder P g := by
  obtain ⟨ap, ha⟩ := ha
  obtain ⟨bp, hb⟩ := hb
  intro r env' hrun
  rcases connects_of_yields ha.over hb.over ha.above hb.above hrun with
    ⟨_, h, q, rfl, hjoins, hsketch, hbindings⟩ | ⟨_, hle, e, rfl, _⟩
  · refine ⟨hjoins.later, fun h' hh' => ?_⟩
    cases hh'
    refine ⟨q, hsketch, hjoins.valid, hjoins.above, ?_, ?_⟩
    · rw [hbindings]
      exact hjoins.fed ha.fed hb.fed
    · rw [hbindings]
      exact List.forall_mem_append.mpr ⟨ha.all, hb.all⟩
  · exact ⟨hle, by simp⟩

theorem ensures_combineBoth (ha : a.InOrder P env.supply) (hb : b.InOrder P env.supply) :
    Ensures (combineBoth c a b) env fun h g => h.InOrder P g := by
  obtain ⟨ap, ha⟩ := ha
  obtain ⟨bp, hb⟩ := hb
  intro r env' hrun
  obtain ⟨h, q, rfl, hcombines, hsketch, hbindings⟩ :=
    combines_of_yields ha.over hb.over ha.above hb.above hrun
  refine ⟨hcombines.later, fun h' hh' => ?_⟩
  cases hh'
  refine ⟨q, hsketch, hcombines.valid, hcombines.above ha.valid hb.valid ha.above, ?_, ?_⟩
  · rw [hbindings]
    exact hcombines.fed ha.fed hb.fed
  · rw [hbindings]
    exact List.forall_mem_append.mpr ⟨ha.all, hb.all⟩

variable {oa ob : Option Handle}

theorem ensures_connectCore (ha : ∀ h ∈ oa, h.InOrder P env.supply)
    (hb : ∀ h ∈ ob, h.InOrder P env.supply) :
    Ensures (connectCore c oa ob) env fun h g => h.InOrder P g := by
  cases oa <;> cases ob
  · exact ensures_refuse
  · exact ensures_pure (hb _ rfl)
  · exact ensures_pure (ha _ rfl)
  · exact ensures_connectBoth (ha _ rfl) (hb _ rfl)

theorem ensures_combineCore (ha : ∀ h ∈ oa, h.InOrder P env.supply)
    (hb : ∀ h ∈ ob, h.InOrder P env.supply) :
    Ensures (combineCore c oa ob) env fun h g => h.InOrder P g := by
  cases oa <;> cases ob
  · exact ensures_refuse
  · exact ensures_pure (hb _ rfl)
  · exact ensures_pure (ha _ rfl)
  · exact ensures_combineBoth (ha _ rfl) (hb _ rfl)

theorem ensures_connect (ha : ∀ h ∈ oa, h.InOrder P env.supply)
    (hb : ∀ h ∈ ob, h.InOrder P env.supply) :
    Ensures (connect c oa ob) env fun h g => h.InOrder P g :=
  ensures_observe (ensures_connectCore ha hb) Handle.InOrder.mono

theorem ensures_combine (ha : ∀ h ∈ oa, h.InOrder P env.supply)
    (hb : ∀ h ∈ ob, h.InOrder P env.supply) :
    Ensures (combine c oa ob) env fun h g => h.InOrder P g :=
  ensures_observe (ensures_combineCore ha hb) Handle.InOrder.mono

end Composer

end KernelAlgebra
