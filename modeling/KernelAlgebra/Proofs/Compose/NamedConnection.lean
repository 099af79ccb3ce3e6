import KernelAlgebra.Proofs.Compose.Associativity
import KernelAlgebra.Proofs.Compose.Matching
import KernelAlgebra.Proofs.Compose.Merging
import KernelAlgebra.Proofs.Compose.Named

/-!
# What connecting by name does

The first program runs beside a program that passes on what nothing feeds of the second one.  The
outputs of both are put in the order of the inputs of the second program, the second program is
connected, and inputs of equal name and size are merged.  So every input of the second program
gets the vector of the output that is the same occurrence of its name and size, or else the one
that its name and size have.
-/

namespace KernelAlgebra

open Machine

theorem Handle.Offers.withDiagnostics {g : Supply} {h : Handle} {bs : List Binding}
    {F : Facade (String × Nat)} {R : Overrides → Behaviour} (hh : h.Offers g bs F R)
    (lines : List String) :
    Handle.Offers g bs F R { h with sketch := { h.sketch with diagnostics := lines } } := by
  obtain ⟨hbindings, hkeys, p, hp, hruns⟩ := hh
  refine ⟨hbindings, hkeys, { p with diagnostics := lines }, ⟨⟨?_, ?_, ?_⟩, hp.above⟩, ?_⟩
  · rw [hp.holds.sketch]
    rfl
  · exact hp.holds.valid.withDiagnostics lines
  · exact hp.holds.bindings
  · intro u values outputs hR
    exact (gives_congr rfl rfl rfl).mpr (hruns u values outputs hR)

namespace Composer

open Compose

variable {c : Composer} {env : Env} {a b h : Handle} {bs bs' : List Binding}
  {A B : Facade (String × Nat)} {R S : Overrides → Behaviour} {keepExtra : Bool}

def arrangedKeys (A B : Facade (String × Nat)) (keepExtra : Bool) : Facade (String × Nat) :=
  ⟨A.curried, A.free ++ (unfed A.outputs B.free).map Prod.fst,
    B.free ++ if keepExtra then spare A.outputs B.free A.outputs else []⟩

/-- What arrives from the first behaviour, where `w` is what passes on. -/
def Arranged (A B : Facade (String × Nat)) (keepExtra : Bool) (G : Behaviour) : Behaviour :=
  fun values outputs => ∃ ca xa ra w, values = ca ++ (xa ++ (unfed A.outputs B.free).map w) ∧
    ca.length = A.curried.length ∧ G (ca ++ xa) ra ∧
    Suits ((unfed A.outputs B.free).map Prod.fst) ((unfed A.outputs B.free).map w) ∧
    outputs = arriving A.outputs B.free ra w ++
      if keepExtra then spare A.outputs B.free ra else []

def matchedKeys (A B : Facade (String × Nat)) (keepExtra : Bool) : Facade (String × Nat) :=
  ⟨A.curried ++ B.curried, A.free ++ (unfed A.outputs B.free).map Prod.fst,
    B.outputs ++ if keepExtra then spare A.outputs B.free A.outputs else []⟩

/-- The second behaviour on what arrives from the first one, where `w` is what nothing feeds. -/
def Matched (A B : Facade (String × Nat)) (keepExtra : Bool) (G H : Behaviour) : Behaviour :=
  fun values outputs => ∃ ca cb xa ra rb w,
    values = ca ++ cb ++ (xa ++ (unfed A.outputs B.free).map w) ∧
    ca.length = A.curried.length ∧ cb.length = B.curried.length ∧ G (ca ++ xa) ra ∧
    H (cb ++ arriving A.outputs B.free ra w) rb ∧
    outputs = rb ++ if keepExtra then spare A.outputs B.free ra else []

theorem succeeds_arrange (keepExtra : Bool) {outputs free : List Symbol}
    (hh : h.Offers env.supply bs (A.beside ⟨[], (unfed A.outputs B.free).map Prod.fst,
      (unfed A.outputs B.free).map Prod.fst⟩) fun u => Behaviour.Paired (R u)
        (fun values outputs => Suits ((unfed A.outputs B.free).map Prod.fst) values ∧
          outputs = values) A.curried.length 0)
    (hsuits : ∀ {u values outputs}, R u values outputs → Suits A.outputs outputs)
    (houtputs : outputs.map NameGroup.key = A.outputs)
    (hfree : free.map NameGroup.key = B.free) :
    Succeeds (permuteOutputsCore c (some h)
      ((NameMatch.places outputs free keepExtra).map Int.ofNat)) env fun h' g =>
        h'.Offers g bs (arrangedKeys A B keepExtra) fun u => Arranged A B keepExtra (R u) := by
  have hlen : A.outputs.length = outputs.length := by rw [← houtputs, List.length_map]
  have hplaces : ∀ {α : Type} {ys : List α} (w : (String × Nat) × Nat → α),
      ys.length = outputs.length → atPlaces (NameMatch.places outputs free keepExtra)
        (ys ++ (unfed A.outputs B.free).map w) = arriving A.outputs B.free ys w ++
          if keepExtra then spare A.outputs B.free ys else [] := by
    intro α ys w hys
    rw [← houtputs, ← hfree]
    exact NameMatch.atPlaces_places hys w
  simp only [Facade.beside, List.append_nil] at hh
  refine (succeeds_permuteOutputsCore hh ?_).imp fun h' g hh' => ?_
  · intro i hi
    have hlt := NameMatch.lt_of_mem_places i hi
    rw [List.length_append, List.length_map, hlen]
    rwa [houtputs, hfree] at hlt
  · simp only [hplaces Prod.fst hlen, arriving_keys] at hh'
    refine hh'.imp ?_
    rintro u _ _ ⟨ca, xa, ra, w, rfl, hca, hR, hunfed, rfl⟩
    refine ⟨ra ++ (unfed A.outputs B.free).map w,
      ⟨ca, [], xa, _, ra, _, by simp, hca, rfl, hR, ⟨hunfed, rfl⟩, rfl⟩, ?_⟩
    exact (hplaces w ((hsuits hR).length.trans hlen)).symm

theorem succeeds_connect_arranged
    (ha : a.Offers env.supply bs (arrangedKeys A B keepExtra) fun u =>
      Arranged A B keepExtra (R u)) (hb : b.Offers env.supply bs' B S) :
    Succeeds (connectBoth c a b) env fun h g => h.Offers g (bs ++ bs')
      (matchedKeys A B keepExtra) fun u => Matched A B keepExtra (R u) (S u) := by
  have hkeys : (arrangedKeys A B keepExtra).joined B = matchedKeys A B keepExtra := by
    simp [arrangedKeys, matchedKeys, Facade.joined]
  refine (succeeds_connectBoth ha hb (Facade.meets_of_append rfl)).imp fun h g hh => ?_
  rw [hkeys] at hh
  refine hh.imp ?_
  rintro u _ _ ⟨ca, cb, xa, ra, rb, w, rfl, hca, hcb, hR, hS, rfl⟩
  have hlen : (arriving A.outputs B.free ra w).length = B.free.length := length_arriving
  -- the second program takes what passes on, so that has the right sizes
  obtain ⟨_, harriving⟩ := (suits_append hcb).mp (hb.suits hS).1
  refine ⟨ca, cb, _, [], _, rb, by rw [List.append_nil], hca, hcb,
    ⟨ca, xa, ra, w, rfl, hca, hR, suits_unfed harriving, rfl⟩, ?_, ?_⟩
  · rwa [List.take_left' hlen, List.append_nil]
  · rw [List.drop_left' hlen]

theorem succeeds_namedConnectBoth (keepExtra : Bool) (ha : a.Offers env.supply bs A R)
    (hb : b.Offers env.supply bs' B S) :
    Succeeds (namedConnectBoth c a b keepExtra) env fun h g => h.Offers g (bs ++ bs')
      (mergedKeys (matchedKeys A B keepExtra)) fun u =>
        Merged (matchedKeys A B keepExtra) (Matched A B keepExtra (R u) (S u)) := by
  obtain ⟨ap, hap, _⟩ := ha.runs
  obtain ⟨bp, hbp, _⟩ := hb.runs
  obtain ⟨_, hsolida⟩ := hap.above_outputs
  obtain ⟨hfree, hsolidb⟩ := hbp.above_free
  have hclear : NameMatch.isClear b.free .empty a.outputs.zipIdx = true :=
    NameMatch.isClear_of_solid (fun q hq => hsolida q.1 (List.fst_mem_of_mem_zipIdx hq)) hsolidb
  refine (hbp.succeeds_freeInputs env).bind ?_
  rintro _ env₁ hle₁ ⟨rfl, _⟩
  simp only [hclear, Bool.not_true, Bool.false_eq_true, if_false]
  refine succeeds_after supply_of_yields_logAll fun env₂ hsupply₂ => ?_
  have hle₂ : env.supply.next ≤ env₂.supply.next := by rwa [hsupply₂]
  have hunmatched : ∀ s ∈ (NameMatch.ofLists a.outputs b.free).unmatched b.free, s ∈ b.free :=
    fun s hs => NameMatch.mem_of_mem_unmatched hs
  refine (Channels.succeeds_passThrough (fun s hs => hfree.mono hle₂ s (hunmatched s hs))
    fun s hs => hsolidb s (hunmatched s hs)).bind fun rest env₃ hle₃ hrest => ?_
  rw [NameMatch.map_key_unmatched, ha.keys_outputs, hb.keys_free] at hrest
  have hle₃ := Nat.le_trans hle₂ hle₃
  refine (succeeds_combineBoth (ha.mono hle₃) hrest).bind fun wide env₄ hle₄ hwide => ?_
  rw [List.append_nil] at hwide
  refine (succeeds_arrange keepExtra hwide (fun hR => (ha.suits hR).2)
    ha.keys_outputs hb.keys_free).bind fun arranged env₅ hle₅ harranged => ?_
  have hle₅ := Nat.le_trans hle₃ (Nat.le_trans hle₄ hle₅)
  refine (succeeds_connect_arranged harranged (hb.mono hle₅)).bind fun joined env₆ _ hjoined => ?_
  exact succeeds_mergeNamesOf (hjoined.withDiagnostics _)

/--
Connecting handles over valid programs by name always succeeds.  The first output of a name and
size feeds the first such free input of the second program, the second output the second one, and
so on.  The free inputs of the result have different names or sizes: those of the first program
and those of the second one that nothing feeds, in the order of their first occurrence.  Each of
them feeds all inputs of its name and size.  The outputs are those of the second program, and
where they are kept those of the first one that feed nothing.
-/
theorem namedConnect_matches_names (c : Composer) (keepExtra : Bool) {a b : Handle}
    {ap bp : Program} {env : Env}
    (hap : a.sketch.program? = some ap) (hbp : b.sketch.program? = some bp)
    (hva : ap.issues = []) (hvb : bp.issues = [])
    (hba : a.bindings.length ≤ ap.inputs.length) (hbb : b.bindings.length ≤ bp.inputs.length)
    (habove : env.supply.Above ap.symbols) (habove' : env.supply.Above bp.symbols) :
    let outs := a.outputs.map NameGroup.key
    let ins := b.free.map NameGroup.key
    ∃ h q env', (namedConnect c (some a) (some b) keepExtra).run.run env = (.ok h, env') ∧
      h.sketch.program? = some q ∧ h.bindings = a.bindings ++ b.bindings ∧
      (h.free.map NameGroup.key).Nodup ∧
      h.free.map NameGroup.key =
        (a.free.map NameGroup.key ++ (unfed outs ins).map Prod.fst).eraseDups ∧
      h.outputs.map NameGroup.key =
        b.outputs.map NameGroup.key ++ (if keepExtra then spare outs ins outs else []) ∧
      ∀ (u : Overrides) (ca cb ra rb : List (List Float)) (v : String × Nat → List Float),
        ca.length = a.bindings.length → cb.length = b.bindings.length →
        (∃ steps, Completes ap (ca ++ a.free.map (v ∘ NameGroup.key)) u ⟨ra, false, steps⟩) →
        (∃ steps, Completes bp (cb ++ arriving outs ins ra (v ∘ Prod.fst)) u
          ⟨rb, false, steps⟩) →
        ∃ steps, Completes q (ca ++ cb ++ h.free.map (v ∘ NameGroup.key)) u
          ⟨rb ++ (if keepExtra then spare outs ins ra else []), false, steps⟩ := by
  intro outs ins
  have ha : a.Offers env.supply a.bindings a.keys (Gives ap) :=
    Handle.Carries.offers ⟨over_of_program? hap hva hba, habove⟩
  have hb : b.Offers env.supply b.bindings b.keys (Gives bp) :=
    Handle.Carries.offers ⟨over_of_program? hbp hvb hbb, habove'⟩
  obtain ⟨h, env₁, hrun, _, hbindings, hkeys, q, hq, hruns⟩ :=
    succeeds_namedConnectBoth (c := c) keepExtra ha hb
  obtain ⟨env', hobserve, _⟩ := yields_observe hrun (by rw [hq.holds.sketch]; rfl)
  have hfree : h.free.map NameGroup.key =
      (a.free.map NameGroup.key ++ (unfed outs ins).map Prod.fst).eraseDups :=
    congrArg Facade.free hkeys
  have houtputs : h.outputs.map NameGroup.key =
      b.outputs.map NameGroup.key ++ (if keepExtra then spare outs ins outs else []) :=
    congrArg Facade.outputs hkeys
  refine ⟨h, q, env', hobserve, by rw [hq.holds.sketch]; rfl, hbindings, ?_, hfree, houtputs, ?_⟩
  · rw [hfree]
    exact nodup_eraseDups _
  · intro u ca cb ra rb v hca hcb hruna hrunb
    have hca : ca.length = a.keys.curried.length := hca.trans ha.length_curried.symm
    have hcb : cb.length = b.keys.curried.length := hcb.trans hb.length_curried.symm
    refine hruns u _ _ ⟨ca ++ cb, v, ?_, ?_, ca, cb, a.free.map (v ∘ NameGroup.key), ra, rb,
      v ∘ Prod.fst, ?_, hca, hcb, hruna, hrunb, rfl⟩
    · rw [List.length_append, hca, hcb, matchedKeys, List.length_append]
    · rw [← List.map_map, hfree]
      rfl
    · rw [matchedKeys, List.map_append, List.map_map]
      congr 2
      exact List.map_map ..

theorem namedConnect_matches_names_crossing :
    let a : Handle := ⟨1, 1, crossing.sketch, [], []⟩
    ∃ h q env', (namedConnect {} (some a) (some a) true).run.run
        { Env.start with supply := ⟨4⟩ } = (.ok h, env') ∧ h.sketch.program? = some q ∧
      h.free.map NameGroup.key = [("x", 1), ("y", 1)] ∧
      h.outputs.map NameGroup.key = [("z", 1), ("x", 1), ("z", 1)] ∧
      ∃ steps, Completes q [[3], [5]] [] ⟨[[5], [3], [5]], false, steps⟩ := by
  intro a
  have habove : (⟨4⟩ : Supply).Above crossing.symbols := by decide
  obtain ⟨h, q, env', hrun, hq, _, _, hfree, houtputs, hruns⟩ := @namedConnect_matches_names {} true
    a a crossing crossing { Env.start with supply := ⟨4⟩ } rfl rfl rfl rfl (by decide) (by decide)
    habove habove
  have hfree : h.free.map NameGroup.key = [("x", 1), ("y", 1)] := hfree
  have hcompletes := hruns [] [] [] [[5], [3]] [[5], [3]]
    (fun k => if k = ("x", 1) then [3] else [5]) rfl rfl ⟨1, 1, rfl⟩ ⟨1, 1, rfl⟩
  rw [← List.map_map, hfree] at hcompletes
  exact ⟨h, q, env', hrun, hq, hfree, houtputs, hcompletes⟩

end Composer

end KernelAlgebra
