import KernelAlgebra.Proofs.Compose.Connect

/-!
# Programs side by side

Combined programs run one after the other on one store.  Neither of them touches the local
symbols of the other one, so both run as they would alone.
-/

namespace KernelAlgebra

open Machine

namespace Combination

variable {x y : Program} {taken bound : Nat}

def inputs (x y : Program) (taken bound : Nat) : List Symbol :=
  x.inputs.take taken ++ y.inputs.take bound ++ x.inputs.drop taken ++ y.inputs.drop bound

def program (x y : Program) (taken bound : Nat) : Program :=
  { sequenced x y with
    inputs := inputs x y taken bound,
    outputs := x.outputs ++ y.outputs }

theorem inputs_perm (x y : Program) (taken bound : Nat) :
    List.Perm (inputs x y taken bound) (x.inputs ++ y.inputs) := by
  have hswap : List.Perm (inputs x y taken bound)
      ((x.inputs.take taken ++ x.inputs.drop taken) ++
        (y.inputs.take bound ++ y.inputs.drop bound)) := by
    unfold inputs
    simp only [List.append_assoc]
    exact (List.perm_append_comm_assoc _ _ _).append_left _
  simpa using hswap

theorem mem_inputs {s : Symbol} :
    s ∈ inputs x y taken bound ↔ s ∈ x.inputs ∨ s ∈ y.inputs := by
  rw [(inputs_perm x y taken bound).mem_iff, List.mem_append]

theorem collectable_program (hx : x.Valid) (hy : y.Valid)
    (hapart : ∀ s ∈ y.locals, s ∉ x.locals) :
    (program x y taken bound).toInterface.Collectable where
  inputs := by
    have hboth := hx.orderly.inputs.append hy.orderly.inputs fun s hs hmem =>
      hapart s (Interface.mem_locals.mpr (.inl hs)) (Interface.mem_locals.mpr (.inl hmem))
    have hperm := inputs_perm x y taken bound
    exact ⟨hperm.nodup_iff.mpr hboth.nodup, fun s hs => hboth.role s (hperm.mem_iff.mp hs),
      fun s hs => hboth.solid s (hperm.mem_iff.mp hs)⟩
  outputs := hx.orderly.outputs.append hy.orderly.outputs fun s hs hmem =>
    hapart s (Interface.mem_locals.mpr (.inr (.inl hs)))
      (Interface.mem_locals.mpr (.inr (.inl hmem)))
  constants := Connection.shared_sequenced hx.orderly.constants hy.orderly.constants
  uniforms := Connection.shared_sequenced hx.orderly.uniforms hy.orderly.uniforms
  textures := Connection.shared_sequenced hx.orderly.textures hy.orderly.textures
  inout_output := by
    intro s hs hinout
    rcases mem_inputs.mp hs with hs | hs
    · exact List.mem_append.mpr (.inl (hx.orderly.inout_output s hs hinout))
    · exact List.mem_append.mpr (.inr (hy.orderly.inout_output s hs hinout))
  inout_input := by
    intro s hs hinout
    rcases List.mem_append.mp hs with hs | hs
    · exact mem_inputs.mpr (.inl (hx.orderly.inout_input s hs hinout))
    · exact mem_inputs.mpr (.inr (hy.orderly.inout_input s hs hinout))

theorem fits_program (hx : x.Valid) (hy : y.Valid) :
    (program x y taken bound).graph.Fits (x.symbols ++ y.symbols) :=
  (Graph.sequel_append hx.sound hy.sound).fits hx.sound hy.sound
    (hx.fits.mono fun _ hs => List.mem_append.mpr (.inl hs))
    (hy.fits.mono fun _ hs => List.mem_append.mpr (.inr hs))

theorem valid_program (hx : x.Valid) (hy : y.Valid) (hapart : ∀ s ∈ y.locals, s ∉ x.locals) :
    (program x y taken bound).collect.Valid :=
  Program.valid_collect (collectable_program hx hy hapart)
    ((Graph.sequel_append hx.sound hy.sound).sound hx.sound hy.sound) (fits_program hx hy)

theorem mem_symbols_program {s : Symbol} (hs : s ∈ (program x y taken bound).symbols) :
    s ∈ x.symbols ++ y.symbols := by
  simp only [Interface.mem_symbols, program, sequenced, mem_inputs, mem_dedup,
    List.mem_append] at hs ⊢
  grind

/-! ## Runs -/

variable {u : Overrides} {ca cb xa xb : List (List Float)} {sta stb st : Store}

theorem mem_zip_inputs (hca : ca.length = (x.inputs.take taken).length)
    (hcb : cb.length = (y.inputs.take bound).length)
    (hxa : xa.length = (x.inputs.drop taken).length) {q : Symbol × List Float} :
    q ∈ (inputs x y taken bound).zip (ca ++ cb ++ xa ++ xb) ↔
      q ∈ x.inputs.zip (ca ++ xa) ∨ q ∈ y.inputs.zip (cb ++ xb) := by
  unfold inputs
  rw [zip_of_split hca, zip_of_split hcb, List.zip_append (by simp [hca, hcb, hxa]),
    List.zip_append (by simp [hca, hcb]), List.zip_append hca.symm]
  simp only [List.mem_append]
  grind

theorem start_program (hca : ca.length = (x.inputs.take taken).length)
    (hcb : cb.length = (y.inputs.take bound).length)
    (hxa : xa.length = (x.inputs.drop taken).length)
    (ha : start x.toInterface (ca ++ xa) = .ok sta)
    (hb : start y.toInterface (cb ++ xb) = .ok stb) :
    ∃ st, start (program x y taken bound).toInterface (ca ++ cb ++ xa ++ xb) = .ok st := by
  obtain ⟨hlena, hsizesa⟩ := start_eq_ok_iff.mp ⟨sta, ha⟩
  obtain ⟨hlenb, hsizesb⟩ := start_eq_ok_iff.mp ⟨stb, hb⟩
  refine start_eq_ok_iff.mpr ⟨?_, ?_⟩
  · have hperm := (inputs_perm x y taken bound).length_eq
    change _ = (inputs x y taken bound).length
    simp only [List.length_append] at hlena hlenb hperm ⊢
    omega
  · intro s xs hmem
    rcases (mem_zip_inputs hca hcb hxa).mp hmem with hmem | hmem
    · exact hsizesa s xs hmem
    · exact hsizesb s xs hmem

theorem not_mem_inputs_of_apart (hx : x.Valid) (hy : y.Valid)
    (hapart : ∀ s ∈ y.locals, s ∉ x.locals) {s : Symbol} (hs : s ∈ x.symbols) :
    s ∉ y.inputs := by
  intro hmem
  have hlocal : s ∈ y.locals := Interface.mem_locals.mpr (.inl hmem)
  exact hapart s hlocal ((hx.orderly.mem_locals_iff hs).mpr
    (hy.orderly.isLocal_of_mem_locals hlocal))

theorem computes_alone (hx : x.Valid) {st' fin : Store} {killed : Bool}
    (hagree : Agree u (· ∈ x.symbols) (fun s => s) st st')
    (h : Computes x.graph u st fin killed) :
    ∃ fin', Computes x.graph u st' fin' killed ∧
      Agree u (· ∈ x.symbols) (fun s => s) fin fin' ∧
      ∀ t, (∀ s, s ∈ x.symbols ∧ s.isLocal = true → s ≠ t) → fin'.get u t = st'.get u t :=
  ((Renders.refl x.graph).embeds hx.sound hx.fits).computes (.id _) hx.sound rfl rfl hagree h

theorem completes_program (hx : x.Valid) (hy : y.Valid) (hapart : ∀ s ∈ y.locals, s ∉ x.locals)
    (hca : ca.length = (x.inputs.take taken).length)
    (hcb : cb.length = (y.inputs.take bound).length) {ra rb : List (List Float)} {ka kb : Bool}
    (hruna : ∃ steps, Completes x (ca ++ xa) u ⟨ra, ka, steps⟩)
    (hrunb : ∃ steps, Completes y (cb ++ xb) u ⟨rb, kb, steps⟩) :
    ∃ r, (∃ steps, Completes (program x y taken bound) (ca ++ cb ++ xa ++ xb) u
      ⟨r, ka || kb, steps⟩) ∧ ((ka || kb) = false → r = ra ++ rb) := by
  obtain ⟨sta, fina, ha, hcompa, _, rfl⟩ := completes_iff.mp hruna
  obtain ⟨stb, finb, hb, hcompb, _, rfl⟩ := completes_iff.mp hrunb
  have hxa : xa.length = (x.inputs.drop taken).length := by
    have hlen := (start_eq_ok_iff.mp ⟨sta, ha⟩).1
    simp only [List.length_append, List.length_take, List.length_drop] at hlen hca ⊢
    omega
  obtain ⟨st, hst⟩ := start_program hca hcb hxa ha hb
  have hcollectable := @collectable_program x y taken bound hx hy hapart
  have hapart' : ∀ s ∈ x.locals, s ∉ y.locals := fun s hs hmem => hapart s hmem hs
  have hagreea : Agree u (· ∈ x.symbols) (fun s => s) sta st := by
    intro s hs
    refine get_start_eq hx.orderly.inputs.nodup hcollectable.inputs.nodup ha hst ?_ ?_
    · exact fun xs hxs => (mem_zip_inputs hca hcb hxa).mpr (.inl hxs)
    · exact fun hin hmem => (mem_inputs.mp hmem).elim hin (not_mem_inputs_of_apart hx hy hapart hs)
  have hagreeb : Agree u (· ∈ y.symbols) (fun s => s) stb st := by
    intro s hs
    refine get_start_eq hy.orderly.inputs.nodup hcollectable.inputs.nodup hb hst ?_ ?_
    · exact fun xs hxs => (mem_zip_inputs hca hcb hxa).mpr (.inr hxs)
    · exact fun hin hmem => (mem_inputs.mp hmem).elim (not_mem_inputs_of_apart hy hx hapart' hs) hin
  have hsequel := Graph.sequel_append hx.sound hy.sound
  have hsolid : ∀ s ∈ (program x y taken bound).outputs, ¬ s.isHole :=
    fun s hs => by simp [hcollectable.outputs.solid s hs]
  obtain ⟨fin₁, hcomp₁, hfin₁, hframe₁⟩ := computes_alone hx hagreea hcompa
  cases ka with
  | true =>
      obtain ⟨fin, hcomp⟩ := discards_sequel hsequel hx.sound hy.sound hcomp₁
      exact ⟨_, completes_iff.mpr ⟨st, fin, hst, hcomp, hsolid, rfl⟩, by simp⟩
  | false =>
      -- the first program wrote local symbols of its own only
      have hbetween : Agree u (· ∈ y.symbols) (fun s => s) stb fin₁ := by
        intro s hs
        rw [hframe₁ s, hagreeb s hs]
        rintro t ⟨ht, hlocal⟩ rfl
        exact hapart t ((hy.orderly.mem_locals_iff hs).mpr hlocal)
          ((hx.orderly.mem_locals_iff ht).mpr hlocal)
      obtain ⟨fin₂, hcomp₂, hfin₂, hframe₂⟩ := computes_alone hy hbetween hcompb
      obtain ⟨fin, hcomp, hfin⟩ :=
        computes_sequel hsequel hx.sound hy.sound hcomp₁ (fun _ => rfl) hcomp₂
      refine ⟨_, completes_iff.mpr ⟨st, fin, hst, hcomp, hsolid, rfl⟩, fun _ => ?_⟩
      change (x.outputs ++ y.outputs).map (fin.get u) = _
      rw [List.map_append]
      congr 1
      · apply List.map_congr_left
        intro s hs
        have hlocal : s ∈ x.locals := Interface.mem_locals.mpr (.inr (.inl hs))
        rw [hfin s, hframe₂ s, hfin₁ s (Interface.mem_symbols_of_mem_locals hlocal)]
        rintro t ⟨ht, hlocal'⟩ rfl
        exact hapart t ((hy.orderly.mem_locals_iff ht).mpr hlocal') hlocal
      · apply List.map_congr_left
        intro s hs
        rw [hfin s, hfin₂ s (Interface.mem_symbols.mpr (.inr (.inl hs)))]

end Combination

/-- The program is a finished combination of the two others, drawn from one supply and leaving
another. -/
inductive Combines (c : Composer) (ap bp : Program) (taken bound : Nat) (g : Supply) :
    Program → Supply → Prop
  | intro {bq q : Program} {ρ : Symbol → Symbol} {g' : Supply}
      (operand : SecondOperand ap bp bq ρ g g')
      (finished : Compose.Finished c (Combination.program ap.copied bq taken bound) q) :
      Combines c ap bp taken bound g q g'

theorem Combines.completes {c : Composer} {ap bp q : Program} {taken bound : Nat}
    {g g' : Supply} (h : Combines c ap bp taken bound g q g') (ha : ap.Valid) (hb : bp.Valid)
    (htaken : taken ≤ ap.inputs.length) (hbound : bound ≤ bp.inputs.length) {u : Overrides}
    {ca cb xa xb ra rb : List (List Float)} {ka kb : Bool} (hca : ca.length = taken)
    (hcb : cb.length = bound) (hruna : ∃ steps, Completes ap (ca ++ xa) u ⟨ra, ka, steps⟩)
    (hrunb : ∃ steps, Completes bp (cb ++ xb) u ⟨rb, kb, steps⟩) :
    ∃ r, (∃ steps, Completes q (ca ++ cb ++ xa ++ xb) u ⟨r, ka || kb, steps⟩) ∧
      ((ka || kb) = false → r = ra ++ rb) := by
  obtain ⟨operand, finished⟩ := h
  rename_i bq ρ
  have hcopies := Program.copies_copied ha
  have hca' : ca.length = (ap.copied.inputs.take taken).length := by
    rw [hca, show ap.copied.inputs = ap.inputs from rfl, List.length_take_of_le htaken]
  have hcb' : cb.length = (bq.inputs.take bound).length := by
    rw [operand.copies.inputs, List.length_take, List.length_map, Nat.min_eq_left hbound, hcb]
  obtain ⟨r, ⟨steps, limit, hrun⟩, hr⟩ := Combination.completes_program (hcopies.valid ha)
    (operand.copies.valid hb) operand.apart hca' hcb' (hcopies.completes ha hruna)
    (operand.copies.completes hb hrunb)
  obtain ⟨⟨r', killed, steps'⟩, hrun', hkilled, _, houtputs⟩ := finished.improves.runWithin hrun
  obtain rfl : killed = (ka || kb) := hkilled
  exact ⟨r', ⟨steps', limit, hrun'⟩, fun hlives => (houtputs hlives).trans (hr hlives)⟩

/-! ## Combining -/

namespace Composer

variable {c : Composer} {a b : Handle} {ap bp : Program} {env env' : Env}

theorem combines_of_yields (ha : a.Over ap) (hb : b.Over bp)
    (habove : env.supply.Above ap.symbols) (habove' : env.supply.Above bp.symbols)
    {r : Except (Fault ComposeError) Handle} (hrun : Yields (combineBoth c a b) env r env') :
    ∃ h q, r = .ok h ∧
      Combines c ap bp a.bindings.length b.bindings.length env.supply q env'.supply ∧
      h.sketch = q.sketch ∧ h.bindings = a.bindings ++ b.bindings := by
  obtain ⟨bq, ρ, g₁, hoperands, operand⟩ := yields_operands hb.valid habove habove'
  have hx : ap.copied.Valid := (Program.copies_copied ha.valid).valid ha.valid
  have hy : bq.Valid := operand.copies.valid hb.valid
  have hinputs : b.bindings.length ≤ bq.inputs.length := by
    rw [operand.copies.inputs, List.length_map]
    exact hb.bindings
  unfold combineBoth at hrun
  rw [ha.sketch, hb.sketch] at hrun
  have hrun := (yields_bind (Compose.yields_ofFresh_iff.mpr ⟨_, hoperands, rfl⟩)).mp hrun
  obtain ⟨env₁, hassemble, hsupply₁⟩ := yields_assemble c { env with supply := g₁ }
    (b := bq) hx.sound
  have hrun := (yields_bind hassemble).mp hrun
  have hrun := (yields_bind (Compose.yields_ofFresh_iff.mpr
    ⟨_, yields_splitInputs ha.bindings, rfl⟩)).mp hrun
  have hrun := (yields_bind (Compose.yields_ofFresh_iff.mpr
    ⟨_, yields_splitInputs hinputs, rfl⟩)).mp hrun
  obtain ⟨r₂, env₂, hfinish⟩ := yields_self (Compose.finish c
    (Combination.program ap.copied bq a.bindings.length b.bindings.length)) env₁
  obtain ⟨q, rfl, finished, hsupply₂⟩ :=
    Compose.finished_of_yields (Combination.valid_program hx hy operand.apart) hfinish
  have hrun := (yields_bind hfinish).mp hrun
  obtain ⟨rfl, rfl⟩ := Compose.yields_newHandle_iff.mp hrun
  have hsupply : env₂.supply = g₁ := hsupply₂.trans hsupply₁
  refine ⟨_, q, rfl, ?_, rfl, rfl⟩
  rw [hsupply]
  exact .intro operand finished

/--
Combining handles over valid programs always succeeds, and the result runs both programs, each
on its own curried and free inputs: it gives the outputs of the first followed by those of the
second, and it is discarded when one of them is.
-/
theorem combine_runs_both (c : Composer) {a b : Handle} {ap bp : Program} {env : Env}
    (hap : a.sketch.program? = some ap) (hbp : b.sketch.program? = some bp)
    (hva : ap.issues = []) (hvb : bp.issues = [])
    (hba : a.bindings.length ≤ ap.inputs.length) (hbb : b.bindings.length ≤ bp.inputs.length)
    (habove : env.supply.Above ap.symbols) (habove' : env.supply.Above bp.symbols) :
    ∃ h q env', (combine c (some a) (some b)).run.run env = (.ok h, env') ∧
      h.sketch.program? = some q ∧ h.bindings = a.bindings ++ b.bindings ∧
      ∀ (u : Overrides) (ca cb xa xb ra rb : List (List Float)) (ka kb : Bool),
        ca.length = a.bindings.length → cb.length = b.bindings.length →
        (∃ steps, Completes ap (ca ++ xa) u ⟨ra, ka, steps⟩) →
        (∃ steps, Completes bp (cb ++ xb) u ⟨rb, kb, steps⟩) →
        (ka = false → kb = false →
          ∃ steps, Completes q (ca ++ cb ++ xa ++ xb) u ⟨ra ++ rb, false, steps⟩) ∧
        (ka = true ∨ kb = true →
          ∃ r steps, Completes q (ca ++ cb ++ xa ++ xb) u ⟨r, true, steps⟩) := by
  have ha := over_of_program? hap hva hba
  have hb := over_of_program? hbp hvb hbb
  obtain ⟨r, env₁, hrun⟩ := yields_self (combineCore c (some a) (some b)) env
  obtain ⟨h, q, rfl, hcombines, hsketch, hbindings⟩ :=
    combines_of_yields ha hb habove habove' hrun
  have hprogram : h.sketch.program? = some q := by
    rw [hsketch]
    rfl
  obtain ⟨env', hobserve, _⟩ := Compose.yields_observe hrun (by rw [hsketch]; rfl)
  refine ⟨h, q, env', hobserve, hprogram, hbindings, ?_⟩
  intro u ca cb xa xb ra rb ka kb hca hcb hruna hrunb
  obtain ⟨r, hr, houtputs⟩ := hcombines.completes ha.valid hb.valid ha.bindings hb.bindings
    hca hcb hruna hrunb
  constructor
  · rintro rfl rfl
    rwa [houtputs rfl] at hr
  · intro hkilled
    have hor : (ka || kb) = true := Bool.or_eq_true_iff.mpr hkilled
    rw [hor] at hr
    exact ⟨r, hr⟩

theorem combine_runs_both_copying :
    ∃ h q env', (combine {} (some ⟨1, 1, Program.copying.sketch, [], []⟩)
        (some ⟨1, 1, Program.copying.sketch, [], []⟩)).run.run { Env.start with supply := ⟨4⟩ } =
          (.ok h, env') ∧
      h.sketch.program? = some q ∧
      ∃ steps, Completes q [[3], [5]] [] ⟨[[3], [5]], false, steps⟩ := by
  have hrun : ∀ x : Float, ∃ steps, Completes Program.copying [[x]] [] ⟨[[x]], false, steps⟩ :=
    fun _ => ⟨2, 2, rfl⟩
  have habove : (⟨4⟩ : Supply).Above Program.copying.symbols := by decide
  obtain ⟨h, q, env', hcombine, hq, _, hruns⟩ := @combine_runs_both {}
    ⟨1, 1, Program.copying.sketch, [], []⟩ ⟨1, 1, Program.copying.sketch, [], []⟩
    Program.copying Program.copying { Env.start with supply := ⟨4⟩ } rfl rfl rfl rfl
    (by decide) (by decide) habove habove
  exact ⟨h, q, env', hcombine, hq,
    (hruns [] [] [] [[3]] [[5]] [[3]] [[5]] false false rfl rfl (hrun 3) (hrun 5)).1 rfl rfl⟩

end Composer

end KernelAlgebra
