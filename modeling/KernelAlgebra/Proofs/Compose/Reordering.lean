import KernelAlgebra.Proofs.Compose.Conduits

/-!
# Permutations

A permutation of outputs gives the vectors at the places it names.  A permutation of inputs
takes its vectors in the order it names and leaves inputs that it does not name unfed; the
channels in front lead every vector back to its place.
-/

namespace KernelAlgebra

open Machine

/-! ## Channels that meet -/

theorem Facade.meets_of_append {α : Type} {size : α → Nat} {F G : Facade α} {rest : List α}
    (h : F.outputs = G.free ++ rest) : F.Meets size G := by
  unfold Meets
  rw [h, forall_mem_zip_append, List.drop_length]
  refine ⟨fun q hq => ?_, by simp⟩
  obtain ⟨k, hk, heq⟩ := List.getElem_of_mem hq
  rw [List.getElem_zip] at heq
  rw [← heq]

theorem Facade.meets_self {α : Type} {size : α → Nat} {F G : Facade α}
    (h : F.outputs = G.free) : F.Meets size G :=
  meets_of_append (h.trans (List.append_nil _).symm)

theorem zip_take_right {α β : Type} (xs : List α) (ys : List β) :
    xs.zip (ys.take xs.length) = xs.zip ys := by
  induction xs generalizing ys with
  | nil => simp
  | cons x xs ih => cases ys <;> simp [ih]

theorem Facade.meets_of_sizes {α : Type} {size : α → Nat} {F G : Facade α}
    (h : F.outputs.map size = (G.free.take F.outputs.length).map size) : F.Meets size G := by
  unfold Meets
  rw [← zip_take_right]
  exact (map_eq_map_iff_zip.mp h).2

namespace Handle.Carries

variable {g : Supply} {h : Handle} {p : Program}

theorem above_free (hh : h.Carries g p) : g.Above h.free ∧ ∀ s ∈ h.free, s.isHole = false := by
  unfold free
  rw [hh.holds.sketch]
  have hmem : ∀ s ∈ p.inputs.drop h.bindings.length, s ∈ p.inputs := fun s hs =>
    List.mem_of_mem_drop hs
  exact ⟨fun s hs => hh.above s (Interface.mem_symbols.mpr (.inl (hmem s hs))),
    fun s hs => hh.holds.valid.orderly.inputs.solid s (hmem s hs)⟩

theorem above_outputs (hh : h.Carries g p) :
    g.Above h.outputs ∧ ∀ s ∈ h.outputs, s.isHole = false := by
  unfold outputs
  rw [hh.holds.sketch]
  exact ⟨fun s hs => hh.above s (Interface.mem_symbols.mpr (.inr (.inl hs))),
    hh.holds.valid.orderly.outputs.solid⟩

theorem succeeds_freeInputs (hh : h.Carries g p) (env : Env) :
    Compose.Succeeds (Compose.ofFresh h.freeInputs) env fun free g' =>
      free = h.free ∧ g' = env.supply := by
  have hle : h.bindings.length ≤ h.sketch.inputs.length := by
    rw [hh.holds.sketch]
    exact hh.holds.bindings
  refine Compose.succeeds_ofFresh ?_ (Nat.le_refl _) ⟨rfl, rfl⟩
  unfold freeInputs
  rw [if_pos hle]
  exact yields_pure.mpr ⟨rfl, rfl⟩

theorem blank_of_mem_free (hh : h.Carries g p) (hplain : ∀ s ∈ p.inputs, s.value = [])
    {s : Symbol} (hs : s ∈ h.free) : s.blank = List.replicate s.size 0 := by
  rw [free, hh.holds.sketch] at hs
  exact Symbol.blank_of_plain (hplain s (List.mem_of_mem_drop hs))

end Handle.Carries

/-! ## Places of a permutation -/

section Places

variable {places : List Nat} {froms free tos : List Symbol} {src : List (Option Nat)}
  {values xs : List (List Float)}

theorem routes_atPlaces (hplaces : ∀ i ∈ places, i < froms.length) :
    Channels.Routes froms (atPlaces places froms) (places.map some) where
  length := by rw [List.length_map, length_atPlaces hplaces]
  sizes := by
    intro k i t ht hi
    rw [List.getElem?_map, Option.map_eq_some_iff] at hi
    obtain ⟨j, hj, heq⟩ := hi
    obtain rfl := Option.some.inj heq
    rw [getElem?_atPlaces hplaces, hj] at ht
    exact ⟨t, ht, rfl⟩

theorem routed_atPlaces (hlen : values.length = froms.length)
    (hplaces : ∀ i ∈ places, i < froms.length) :
    routed (places.map some) (atPlaces places froms) values = atPlaces places values := by
  induction places with
  | nil => rfl
  | cons i rest ih =>
      have hi : i < froms.length := hplaces i (by simp)
      have hrest := ih fun j hj => hplaces j (by simp [hj])
      rw [atPlaces_cons hi, atPlaces_cons (hlen ▸ hi), ← hrest]
      simp [routed, List.getElem?_eq_getElem (hlen ▸ hi)]

theorem getElem?_of_inverse {n k i : Nat}
    (h : (Composer.inverse n places)[k]? = some (some i)) : places[i]? = some k := by
  rw [Composer.inverse, List.getElem?_map, Option.map_eq_some_iff] at h
  obtain ⟨j, hj, hidx⟩ := h
  obtain ⟨hlt, heq, _⟩ := List.idxOf?_eq_some_iff.mp hidx
  obtain rfl : k = j := by simpa using (List.getElem?_eq_some_iff.mp hj).2
  exact List.getElem?_eq_some_iff.mpr ⟨hlt, heq⟩

theorem routes_inverse (hplaces : ∀ i ∈ places, i < free.length) :
    Channels.Routes (atPlaces places free) free (Composer.inverse free.length places) where
  length := by simp [Composer.inverse]
  sizes := by
    intro k i t ht hi
    refine ⟨t, ?_, rfl⟩
    rw [getElem?_atPlaces hplaces, getElem?_of_inverse hi]
    exact ht

theorem routed_face : routed src (tos.map Symbol.face) values = routed src tos values := by
  unfold routed
  rw [List.zip_map_left, List.map_map]
  rfl

theorem routed_inverse (hlen : xs.length = free.length)
    (hplaces : ∀ i ∈ places, i < free.length)
    (hrest : ∀ (i : Nat) (s : Symbol), free[i]? = some s → i ∉ places → xs[i]? = some s.blank) :
    routed (Composer.inverse free.length places) free (atPlaces places xs) = xs := by
  rw [← hlen] at hplaces
  refine List.ext_getElem (by simp [routed, Composer.inverse, hlen]) fun i hi hi' => ?_
  have hfree : i < free.length := hlen ▸ hi'
  have hsome : free[i]? = some free[i] := List.getElem?_eq_getElem hfree
  simp only [routed, Composer.inverse, List.getElem_map, List.getElem_zip, List.getElem_range]
  by_cases hmem : i ∈ places
  · obtain ⟨j, hj⟩ := Option.isSome_iff_exists.mp (List.isSome_idxOf?.mpr hmem)
    obtain ⟨hlt, heq, _⟩ := List.idxOf?_eq_some_iff.mp hj
    rw [hj, Option.bind_some, getElem?_atPlaces hplaces,
      List.getElem?_eq_some_iff.mpr ⟨hlt, heq⟩, Option.bind_some,
      List.getElem?_eq_getElem hi']
    rfl
  · have hx := hrest i free[i] hsome hmem
    rw [List.getElem?_eq_getElem hi'] at hx
    rw [List.idxOf?_eq_none_iff.mpr hmem, Option.bind_none, Option.getD_none,
      Option.some.inj hx]

end Places

/-! ## Permuting -/

namespace Composer

open Compose

variable {c : Composer} {env : Env} {h : Handle} {bs : List Binding} {R : Overrides → Behaviour}
  {places : List Nat}

theorem selectOutputs_eq {outs : List Symbol} (hplaces : ∀ i ∈ places, i < outs.length) :
    selectOutputs outs (places.map Int.ofNat) = .ok (atPlaces places outs) := by
  induction places with
  | nil => rfl
  | cons i rest ih =>
      have hlt : i < outs.length := hplaces i (by simp)
      have hrest := ih fun j hj => hplaces j (by simp [hj])
      have hfound : (if Int.ofNat i < 0 then none else outs[(Int.ofNat i).toNat]?) =
          some outs[i] := (if_neg (by simp)).trans (List.getElem?_eq_getElem hlt)
      rw [List.map_cons, selectOutputs, atPlaces_cons hlt]
      simp only [hfound, hrest]
      rfl

theorem succeeds_permuteOutputsCore {F : Facade (String × Nat)}
    (hh : h.Offers env.supply bs F R) (hplaces : ∀ i ∈ places, i < F.outputs.length) :
    Succeeds (permuteOutputsCore c (some h) (places.map Int.ofNat)) env fun h' g =>
      h'.Offers g bs ⟨F.curried, F.free, atPlaces places F.outputs⟩ fun u values outputs =>
        ∃ r, R u values r ∧ outputs = atPlaces places r := by
  obtain ⟨p, hp, _⟩ := hh.runs
  have hkeys := hh.keys_outputs
  have hplaces' : ∀ i ∈ places, i < h.outputs.length := by
    rw [← List.length_map (f := NameGroup.key), hkeys]
    exact hplaces
  have hsrc : (places.map Int.ofNat).map (fun i => some i.toNat) = places.map some := by
    rw [List.map_map]
    rfl
  obtain ⟨habove, hsolid⟩ := hp.above_outputs
  simp only [permuteOutputsCore, selectOutputs_eq hplaces', hsrc]
  refine (Channels.presents_permuter (routes_atPlaces hplaces') habove
    (fun s hs => habove s (mem_of_mem_atPlaces hs)) hsolid
    fun s hs => hsolid s (mem_of_mem_atPlaces hs)).bind fun back env₁ hle₁ hback => ?_
  have hback := hback.offers
  simp only [Facade.map, map_key_map_face, map_atPlaces, hkeys, List.map_nil] at hback
  refine (succeeds_connectBoth (hh.mono hle₁) hback (Facade.meets_self rfl)).imp
    fun h' g hh' => ?_
  simp only [Facade.joined, List.append_nil, List.drop_length] at hh'
  refine hh'.imp ?_
  rintro u values _ ⟨r, hR, rfl⟩
  obtain ⟨hvalues, hr⟩ := hh.suits hR
  have hlen : F.curried.length ≤ values.length := by
    rw [hvalues.length, Facade.inputs, List.length_append]
    exact Nat.le_add_right ..
  have hrlen : r.length = h.outputs.length := by
    rw [hr.length, ← hkeys, List.length_map]
  refine ⟨values.take F.curried.length, [], values.drop F.curried.length, [], r,
    atPlaces places r, by simp, List.length_take_of_le hlen, rfl, ?_, ?_, ?_⟩
  · rwa [List.take_append_drop]
  · have htake : r.take F.outputs.length = r := List.take_of_length_le (Nat.le_of_eq hr.length)
    simpa [htake, routed_atPlaces hrlen hplaces'] using hr
  · rw [List.drop_eq_nil_of_le (Nat.le_of_eq hr.length), List.append_nil]

theorem checkSelection_eq_ok_iff {free : List Symbol} {seen idx : List Int} :
    checkSelection free seen idx = .ok () ↔
      (∀ i ∈ idx, (0 ≤ i ∧ i < free.length) ∧ i ∉ seen) ∧ idx.Nodup := by
  induction idx generalizing seen with
  | nil => simp [checkSelection]
  | cons i rest ih =>
      rw [checkSelection]
      by_cases hi : 0 ≤ i ∧ i < free.length
      · have hlt : i.toNat < free.length := by omega
        have hfound : (if i < 0 then none else free[i.toNat]?) = some free[i.toNat] :=
          (if_neg (by omega)).trans (List.getElem?_eq_getElem hlt)
        simp only [hfound]
        by_cases hseen : i ∈ seen
        · simp [hseen]
        · rw [if_neg hseen, ih]
          simp only [List.mem_cons, not_or, List.nodup_cons, forall_eq_or_imp, hi, hseen]
          grind
      · have hnone : (if i < 0 then none else free[i.toNat]?) = none := by
          split
          · rfl
          · exact List.getElem?_eq_none (by omega)
        simp only [hnone]
        constructor
        · intro h
          cases h
        · rintro ⟨hall, _⟩
          exact absurd (hall i (by simp)).1 hi

theorem kind_of_checkSelection {free : List Symbol} {seen idx : List Int} {e : ComposeError}
    (h : checkSelection free seen idx = .error e) : e.kind = .range := by
  induction idx generalizing seen with
  | nil => cases h
  | cons i rest ih =>
      rw [checkSelection] at h
      split at h
      · cases h
        rfl
      · split at h
        · cases h
          rfl
        · exact ih h

theorem presents_permuteInputsCore {F : Facade Symbol} (hh : h.Presents env.supply bs F R)
    (hplaces : ∀ i ∈ places, i < F.free.length) (hnodup : places.Nodup) :
    Succeeds (permuteInputsCore c (some h) (places.map Int.ofNat)) env fun h' g =>
      h'.Presents g bs ⟨F.curried, atPlaces places F.free, F.outputs⟩ fun u values outputs =>
        ∃ cs xs, values = cs ++ atPlaces places xs ∧ cs.length = F.curried.length ∧
          (∀ (i : Nat) (s : Symbol), F.free[i]? = some s → i ∉ places → xs[i]? = some s.blank) ∧
          R u (cs ++ xs) outputs := by
  obtain ⟨p, hp, _⟩ := hh.runs
  obtain rfl := hh.faces
  have hlen : h.faces.free.length = h.free.length := List.length_map _
  rw [hlen] at hplaces
  have hcheck : checkSelection h.free [] (places.map Int.ofNat) = .ok () := by
    rw [checkSelection_eq_ok_iff]
    refine ⟨fun i hi => ?_, hnodup.map fun _ _ => Int.ofNat.inj⟩
    obtain ⟨k, hk, rfl⟩ := List.mem_map.mp hi
    have := hplaces k hk
    exact ⟨⟨Int.natCast_nonneg k, by simpa using this⟩, by simp⟩
  have hnat : (places.map Int.ofNat).map Int.toNat = places := by
    rw [List.map_map]
    exact List.map_id _
  obtain ⟨habove, hsolid⟩ := hp.above_free
  refine (hp.succeeds_freeInputs env).bind ?_
  rintro _ env₁ hle₁ ⟨rfl, hsupply⟩
  simp only [hcheck, hnat]
  rw [← hsupply] at habove
  -- the permuter in front leads every vector back to its place
  refine (Channels.presents_permuter (routes_inverse hplaces)
    (fun s hs => habove s (mem_of_mem_atPlaces hs)) habove
    (fun s hs => hsolid s (mem_of_mem_atPlaces hs)) hsolid).bind fun front env₂ hle₂ hfront => ?_
  have hfree : h.free.map Symbol.face = h.faces.free := rfl
  rw [map_atPlaces, hfree] at hfront
  refine (presents_connectBoth hfront (hh.mono (Nat.le_trans hle₁ hle₂))
    (Facade.meets_self rfl)).imp fun h' g hh' => ?_
  simp only [Facade.joined, List.nil_append, List.drop_length, List.append_nil] at hh'
  refine hh'.imp ?_
  rintro u _ outputs ⟨cs, xs, rfl, hcs, hrest, hR⟩
  have hkeys : h.faces.free.map NameGroup.key = h.free.map NameGroup.key :=
    map_key_map_face h.free
  have hsuits := (hh.suits hR).1
  rw [Facade.inputs, List.map_append, hkeys] at hsuits
  obtain ⟨hcs', hxs⟩ := (suits_append (by rw [hcs, List.length_map])).mp hsuits
  have hxslen : xs.length = h.free.length := by rw [hxs.length, List.length_map]
  refine ⟨[], cs, atPlaces places xs, [], xs, outputs, by simp, rfl, hcs, ⟨?_, ?_⟩, ?_, ?_⟩
  · unfold Suits at hxs ⊢
    rw [List.nil_append, map_atPlaces, map_atPlaces, map_atPlaces, hxs]
  · rw [← routed_face, hfree, ← hlen]
    exact (routed_inverse (hxslen.trans hlen.symm) (hlen.symm ▸ hplaces) hrest).symm
  · rw [List.append_nil, List.take_of_length_le (by omega)]
    exact hR
  · rw [List.drop_eq_nil_of_le (by omega), List.append_nil]

theorem succeeds_permuteInputsCore {F : Facade (String × Nat)} (hh : h.Offers env.supply bs F R)
    (hperm : places.Perm (List.range F.free.length)) :
    Succeeds (permuteInputsCore c (some h) (places.map Int.ofNat)) env fun h' g =>
      h'.Offers g bs ⟨F.curried, atPlaces places F.free, F.outputs⟩ fun u values outputs =>
        ∃ cs xs, values = cs ++ atPlaces places xs ∧ cs.length = F.curried.length ∧
          R u (cs ++ xs) outputs := by
  obtain rfl := hh.map_faces
  rw [Facade.length_free_map] at hperm
  have hmem : ∀ i, i ∈ places ↔ i < h.faces.free.length := fun i =>
    hperm.mem_iff.trans List.mem_range
  refine (presents_permuteInputsCore hh.presents (fun i hi => (hmem i).mp hi)
    (hperm.nodup_iff.mpr List.nodup_range)).imp fun h' g hh' => ?_
  have hh' := hh'.offers
  simp only [Facade.map, map_atPlaces] at hh'
  refine hh'.imp ?_
  rintro u _ outputs ⟨cs, xs, rfl, hcs, hR⟩
  refine ⟨cs, xs, rfl, by simpa [Facade.map] using hcs, ?_, hR⟩
  intro i s hs hnot
  exact absurd ((hmem i).mpr (List.getElem?_eq_some_iff.mp hs).1) hnot

theorem yields_permuteInputsCore_refused {p : Program} {idx : List Int} {g : Supply}
    (hh : h.Carries g p)
    (hidx : ¬ ((∀ i ∈ idx, 0 ≤ i ∧ i < h.free.length) ∧ idx.Nodup)) :
    ∃ e env', Yields (permuteInputsCore c (some h) idx) env (.error (.error e)) env' ∧
      e.kind = .range := by
  obtain ⟨_, env₁, hfree, _, rfl, _⟩ := hh.succeeds_freeInputs env
  cases hcheck : checkSelection h.free [] idx with
  | ok =>
      rw [checkSelection_eq_ok_iff] at hcheck
      exact absurd ⟨fun i hi => (hcheck.1 i hi).1, hcheck.2⟩ hidx
  | error e =>
      refine ⟨e, env₁, (yields_bind hfree).mpr ?_, kind_of_checkSelection hcheck⟩
      simp only [hcheck]
      exact yields_throw.mpr ⟨rfl, rfl⟩

theorem forall_map_toNat_lt {idx : List Int} {n : Nat} (hidx : ∀ i ∈ idx, 0 ≤ i ∧ i < n) :
    ∀ i ∈ idx.map Int.toNat, i < n := by
  intro i hi
  obtain ⟨j, hj, rfl⟩ := List.mem_map.mp hi
  have := hidx j hj
  omega

theorem getElem?_atPlaces_toNat {α : Type} {xs : List α} {idx : List Int}
    (hidx : ∀ i ∈ idx, 0 ≤ i ∧ i < xs.length) (k : Nat) :
    (atPlaces (idx.map Int.toNat) xs)[k]? = idx[k]?.bind fun i => xs[i.toNat]? := by
  rw [getElem?_atPlaces (forall_map_toNat_lt hidx), List.getElem?_map, Option.bind_map]
  rfl

/--
Permuting the inputs of a valid handle succeeds when the indices are those of different free
inputs, and is refused otherwise.  Free input `k` of the result then looks like free input
`idx[k]`, everything else looks as before, and the result computes what the handle computes
with zeros for the inputs that are left out.
-/
theorem permuteInputs_reorders (c : Composer) {h : Handle} {p : Program} {env : Env}
    {idx : List Int} (hp : h.sketch.program? = some p) (hvalid : p.issues = [])
    (hbindings : h.bindings.length ≤ p.inputs.length) (hplain : ∀ s ∈ p.inputs, s.value = [])
    (habove : env.supply.Above p.symbols) :
    ((∀ i ∈ idx, 0 ≤ i ∧ i < h.free.length) ∧ idx.Nodup →
      ∃ h' q env', (permuteInputs c (some h) idx).run.run env = (.ok h', env') ∧
        h'.sketch.program? = some q ∧ h'.bindings = h.bindings ∧
        h'.faces.curried = h.faces.curried ∧ h'.faces.outputs = h.faces.outputs ∧
        (∀ k : Nat, h'.faces.free[k]? = idx[k]?.bind fun i => h.faces.free[i.toNat]?) ∧
        ∀ (u : Overrides) (cs xs ys outputs : List (List Float)),
          cs.length = h.bindings.length → xs.length = h.free.length →
          (∀ k : Nat, ys[k]? = idx[k]?.bind fun i => xs[i.toNat]?) →
          (∀ (i : Nat) (s : Symbol), h.free[i]? = some s → Int.ofNat i ∉ idx →
            xs[i]? = some (List.replicate s.size 0)) →
          (∃ steps, Completes p (cs ++ xs) u ⟨outputs, false, steps⟩) →
          ∃ steps, Completes q (cs ++ ys) u ⟨outputs, false, steps⟩) ∧
    (¬ ((∀ i ∈ idx, 0 ≤ i ∧ i < h.free.length) ∧ idx.Nodup) → ∃ e env',
      (permuteInputs c (some h) idx).run.run env = (.error (.error e), env') ∧
        e.kind = .range) := by
  have hh : h.Carries env.supply p := ⟨over_of_program? hp hvalid hbindings, habove⟩
  constructor
  · rintro ⟨hrange, hnodup⟩
    have hnat : (idx.map Int.toNat).map Int.ofNat = idx := by
      rw [List.map_map]
      exact (List.map_congr_left fun i hi => Int.toNat_of_nonneg (hrange i hi).1).trans
        (List.map_id _)
    have hlen : h.faces.free.length = h.free.length := List.length_map _
    have hrange' : ∀ i ∈ idx, 0 ≤ i ∧ i < h.faces.free.length := hlen.symm ▸ hrange
    have hplacesNodup : (idx.map Int.toNat).Nodup := (hnat.symm ▸ hnodup).of_map _
    have hcore := presents_permuteInputsCore (c := c) hh.presents (forall_map_toNat_lt hrange')
      hplacesNodup
    rw [hnat] at hcore
    obtain ⟨h', env', hrun, _, hbs, hfaces, q, hq, hruns⟩ :
        Succeeds (permuteInputs c (some h) idx) env _ := hcore.observed
    have hprogram := Sketch.program?_of_eq hq.holds.sketch
    refine ⟨h', q, env', hrun, hprogram, hbs, by rw [hfaces], by rw [hfaces], fun k => ?_, ?_⟩
    · rw [hfaces]
      exact getElem?_atPlaces_toNat hrange' k
    · intro u cs xs ys outputs hcs hxs hys hrest hcompletes
      have hys : ys = atPlaces (idx.map Int.toNat) xs := by
        refine List.ext_getElem? fun k => ?_
        rw [getElem?_atPlaces_toNat (hxs.symm ▸ hrange), hys k]
      rw [hys]
      refine hruns u _ _ ⟨cs, xs, rfl, hcs.trans hh.holds.length_curried.symm, ?_, hcompletes⟩
      intro i s hs hnot
      obtain ⟨t, ht, rfl⟩ := Option.map_eq_some_iff.mp ((List.getElem?_map ..).symm.trans hs)
      rw [hrest i t ht fun hidx => hnot (List.mem_map.mpr ⟨_, hidx, rfl⟩)]
      exact congrArg some (hh.blank_of_mem_free hplain (List.mem_of_getElem? ht)).symm
  · intro hidx
    obtain ⟨e, env₁, hrun, hkind⟩ := yields_permuteInputsCore_refused (c := c) hh hidx
    obtain ⟨env', hobserve⟩ : ∃ env', Yields (permuteInputs c (some h) idx) env
        (.error (.error e)) env' := yields_observe_refused hrun
    exact ⟨e, env', hobserve, hkind⟩

/-- An input of size two, a channel of both directions and an input behind a bound one. -/
def selecting : Program :=
  let k : Symbol := ⟨1, .input, 1, .float32, .attrib, "k", []⟩
  let a : Symbol := ⟨2, .input, 2, .float32, .attrib, "a", []⟩
  let b : Symbol := ⟨3, .inout, 1, .float32, .attrib, "b", []⟩
  let d : Symbol := ⟨4, .input, 1, .float32, .attrib, "d", []⟩
  let y : Symbol := ⟨5, .output, 2, .float32, .attrib, "y", []⟩
  let z : Symbol := ⟨6, .output, 1, .float32, .attrib, "z", []⟩
  { Interface.empty "" with
    inputs := [k, a, b, d], outputs := [y, b, z],
    graph := ⟨[⟨[.copy y a, .copy z d], [], none⟩], 0, 0⟩ }

theorem permuteInputs_reorders_selecting :
    let u : Symbol := ⟨7, .uniform, 1, .float32, .attrib, "u", []⟩
    let h : Handle := ⟨1, 1, selecting.sketch, [⟨.uniform, u⟩], []⟩
    ∃ h' q env', (permuteInputs {} (some h) [2, 0]).run.run { Env.start with supply := ⟨8⟩ } =
        (.ok h', env') ∧ h'.sketch.program? = some q ∧
      h'.faces.free.map NameGroup.key = [("d", 1), ("a", 2)] ∧
      ∃ steps, Completes q [[9], [3], [1, 2]] [] ⟨[[1, 2], [0], [3]], false, steps⟩ := by
  intro u h
  obtain ⟨h', q, env', hrun, hq, _, _, _, hfree, hruns⟩ :=
    (@permuteInputs_reorders {} h selecting { Env.start with supply := ⟨8⟩ } [2, 0] rfl rfl
      (by decide) (by decide) (by decide)).1 (by decide)
  have hfree : h'.faces.free = [h.free[2].face, h.free[0].face] := by
    refine List.ext_getElem? fun k => ?_
    rw [hfree k]
    match k with
    | 0 => rfl
    | 1 => rfl
    | k + 2 => rfl
  refine ⟨h', q, env', hrun, hq, by rw [hfree]; rfl, ?_⟩
  refine hruns [] [[9]] [[1, 2], [0], [3]] [[3], [1, 2]] [[1, 2], [0], [3]] rfl rfl ?_ ?_ ?_
  · intro k
    match k with
    | 0 => simp
    | 1 => simp
    | k + 2 => simp
  · intro i s hs hnot
    match i with
    | 0 => exact absurd (by decide) hnot
    | 1 =>
        cases hs
        rfl
    | 2 => exact absurd (by decide) hnot
    | i + 3 => cases hs
  · exact ⟨1, 1, rfl⟩

end Composer

end KernelAlgebra
