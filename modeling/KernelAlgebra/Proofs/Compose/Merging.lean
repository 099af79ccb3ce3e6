import KernelAlgebra.Proofs.Compose.Reordering
import Mathlib.Data.List.Induction

/-!
# Merging inputs of one name and size

Inputs are grouped by name and size in the order of their first members.  A handle whose groups
have been merged has one free input for every group, and every member takes its vector.
-/

namespace KernelAlgebra

open Machine

/-! ## Groups -/

namespace NameGroup

def placesOf (k : String × Nat) (inputs : List Symbol) : List Nat :=
  (inputs.zipIdx.filter fun q => key q.1 = k).map Prod.snd

variable {k : String × Nat} {inputs : List Symbol} {i : Nat}

theorem mem_placesOf : i ∈ placesOf k inputs ↔ ∃ s, inputs[i]? = some s ∧ key s = k := by
  simp only [placesOf, List.mem_map, List.mem_filter, decide_eq_true_eq, Prod.exists,
    List.mk_mem_zipIdx_iff_getElem?]
  constructor
  · rintro ⟨s, j, ⟨hs, hk⟩, rfl⟩
    exact ⟨s, hs, hk⟩
  · rintro ⟨s, hs, hk⟩
    exact ⟨s, i, ⟨hs, hk⟩, rfl⟩

theorem nodup_placesOf (k : String × Nat) (inputs : List Symbol) :
    (placesOf k inputs).Nodup := by
  have hsublist : (placesOf k inputs).Sublist (inputs.zipIdx.map Prod.snd) :=
    List.filter_sublist.map _
  refine hsublist.nodup ?_
  rw [List.zipIdx_map_snd]
  exact List.nodup_range'

theorem placesOf_concat (s : Symbol) : placesOf k (inputs ++ [s]) =
    placesOf k inputs ++ if key s = k then [inputs.length] else [] := by
  unfold placesOf
  rw [List.zipIdx_append, List.filter_append, List.map_append]
  congr 1
  by_cases hk : key s = k <;> simp [hk]

section Add

variable {ks : List (String × Nat)} {f : String × Nat → List Nat}

theorem add_of_mem (hnodup : ks.Nodup) (hk : k ∈ ks) :
    add k i (ks.map fun k' => (k', f k')) =
      ks.map fun k' => (k', f k' ++ if k = k' then [i] else []) := by
  induction ks with
  | nil => simp at hk
  | cons k' rest ih =>
      obtain ⟨hk', hrest⟩ := List.nodup_cons.mp hnodup
      by_cases heq : k' = k
      · subst heq
        have hothers : ∀ k'' ∈ rest, k' ≠ k'' := fun k'' hk'' h => hk' (h ▸ hk'')
        simp only [List.map_cons, add, if_true]
        congr 1
        refine List.map_congr_left fun k'' hk'' => ?_
        rw [if_neg (hothers k'' hk''), List.append_nil]
      · have hmem : k ∈ rest := (List.mem_cons.mp hk).resolve_left (Ne.symm heq)
        simp only [List.map_cons, add, if_neg heq, if_neg (Ne.symm heq), List.append_nil,
          ih hrest hmem]

theorem add_of_not_mem (hk : k ∉ ks) :
    add k i (ks.map fun k' => (k', f k')) = (ks.map fun k' => (k', f k')) ++ [(k, [i])] := by
  induction ks with
  | nil => rfl
  | cons k' rest ih =>
      have heq : k' ≠ k := fun h => hk (h ▸ List.mem_cons_self)
      have hrest : k ∉ rest := fun h => hk (List.mem_cons_of_mem _ h)
      simp only [List.map_cons, add, if_neg heq, ih hrest, List.cons_append]

end Add

theorem ofList_eq (inputs : List Symbol) :
    ofList inputs = (inputs.map key).eraseDups.map fun k => (k, placesOf k inputs) := by
  induction inputs using List.reverseRecOn with
  | nil => rfl
  | append_singleton inputs s ih =>
      have hstep : ofList (inputs ++ [s]) = add (key s) inputs.length (ofList inputs) := by
        unfold ofList
        rw [List.zipIdx_append, List.foldl_append]
        simp
      rw [hstep, ih, List.map_append, List.map_singleton, eraseDups_concat]
      split
      · rename_i hmem
        rw [add_of_mem (nodup_eraseDups _) (List.mem_eraseDups.mpr hmem)]
        simp only [placesOf_concat]
      · rename_i hmem
        have hnone : placesOf (key s) inputs = [] := by
          rw [List.eq_nil_iff_forall_not_mem]
          intro i hi
          obtain ⟨t, ht, hkey⟩ := mem_placesOf.mp hi
          exact hmem (hkey ▸ List.mem_map_of_mem (List.mem_of_getElem? ht))
        have hsame : ∀ k ∈ (inputs.map key).eraseDups,
            placesOf k (inputs ++ [s]) = placesOf k inputs := by
          intro k hk
          have hne : key s ≠ k := fun h => hmem (h ▸ List.mem_eraseDups.mp hk)
          rw [placesOf_concat, if_neg hne, List.append_nil]
        rw [add_of_not_mem (mt List.mem_eraseDups.mp hmem), List.map_append, List.map_singleton,
          placesOf_concat, hnone, if_pos rfl]
        congr 1
        exact List.map_congr_left fun k hk => by rw [hsame k hk]

def order (inputs : List Symbol) : List Nat :=
  (inputs.map key).eraseDups.flatMap (placesOf · inputs)

theorem order_perm (inputs : List Symbol) :
    List.Perm (order inputs) (List.range inputs.length) := by
  have hnodup : (order inputs).Nodup := by
    rw [order, List.nodup_flatMap]
    refine ⟨fun k _ => nodup_placesOf k inputs, (nodup_eraseDups _).imp ?_⟩
    intro k k' hne i hi hi'
    obtain ⟨s, hs, rfl⟩ := mem_placesOf.mp hi
    obtain ⟨s', hs', rfl⟩ := mem_placesOf.mp hi'
    rw [hs] at hs'
    exact hne (congrArg key (Option.some.inj hs'))
  rw [List.perm_ext_iff_of_nodup hnodup List.nodup_range]
  intro i
  simp only [order, List.mem_flatMap, List.mem_eraseDups, List.mem_range, mem_placesOf]
  constructor
  · rintro ⟨k, _, s, hs, _⟩
    exact (List.getElem?_eq_some_iff.mp hs).1
  · intro hi
    exact ⟨key inputs[i], List.mem_map_of_mem (List.getElem_mem hi), inputs[i],
      List.getElem?_eq_getElem hi, rfl⟩

theorem atPlaces_placesOf {α : Type} (v : String × Nat → α) :
    atPlaces (placesOf k inputs) ((inputs.map key).map v) =
      List.replicate (placesOf k inputs).length (v k) := by
  have hlt : ∀ i ∈ placesOf k inputs, i < ((inputs.map key).map v).length := by
    intro i hi
    obtain ⟨s, hs, _⟩ := mem_placesOf.mp hi
    rw [List.length_map, List.length_map]
    exact (List.getElem?_eq_some_iff.mp hs).1
  rw [List.eq_replicate_iff]
  refine ⟨length_atPlaces hlt, fun x hx => ?_⟩
  obtain ⟨i, hi, hget⟩ := List.mem_filterMap.mp hx
  obtain ⟨s, hs, rfl⟩ := mem_placesOf.mp hi
  rw [List.getElem?_map, List.getElem?_map, hs] at hget
  exact (Option.some.inj hget).symm

theorem atPlaces_order {α : Type} (v : String × Nat → α) :
    atPlaces (order inputs) ((inputs.map key).map v) = (inputs.map key).eraseDups.flatMap
      fun k => List.replicate (placesOf k inputs).length (v k) := by
  unfold order
  generalize (inputs.map key).eraseDups = ks
  induction ks with
  | nil => rfl
  | cons k rest ih =>
      rw [List.flatMap_cons, atPlaces_append, atPlaces_placesOf, ih, List.flatMap_cons]

end NameGroup

/-! ## Feeding the groups -/

namespace Composer

open Compose

variable {c : Composer} {env : Env} {h : Handle} {bs : List Binding} {F : Facade (String × Nat)}
  {R : Overrides → Behaviour} {free : List Symbol}

def feederKeys (groups : List NameGroup) : Facade (String × Nat) :=
  ⟨[], groups.map Prod.fst, groups.flatMap fun g => List.replicate g.2.length g.1⟩

def Feeds (groups : List NameGroup) : Behaviour := fun values outputs =>
  ∃ v : String × Nat → List Float, (∀ g ∈ groups, (v g.1).length = g.1.2) ∧
    values = groups.map (fun g => v g.1) ∧
    outputs = groups.flatMap fun g => List.replicate g.2.length (v g.1)

/-- The members of the group exist, are at least one, and have its name and size. -/
structure Groups (free : List Symbol) (g : NameGroup) : Prop where
  nonempty : g.2 ≠ []
  members : ∀ i ∈ g.2, ∃ s, free[i]? = some s ∧ NameGroup.key s = g.1

theorem feederKeys_singleton (group : NameGroup) :
    feederKeys [group] = ⟨[], [group.1], List.replicate group.2.length group.1⟩ := by
  simp [feederKeys]

theorem feeds_singleton {group : NameGroup} {values outputs : List (List Float)}
    (h : Feeds [group] values outputs) : ∃ x : List Float, x.length = group.1.2 ∧
      values = [x] ∧ outputs = List.replicate group.2.length x := by
  obtain ⟨v, hlen, hvalues, houtputs⟩ := h
  exact ⟨v group.1, hlen group (by simp), hvalues, by simpa using houtputs⟩

theorem succeeds_groupPiece {group : NameGroup} (hgroup : Groups free group)
    (habove : env.supply.Above free) (hsolid : ∀ s ∈ free, s.isHole = false) :
    Succeeds (groupPiece free group) env fun h g =>
      h.Offers g [] (feederKeys [group]) fun _ => Feeds [group] := by
  have hplaces : ∀ i ∈ group.2, i < free.length := by
    intro i hi
    obtain ⟨s, hs, _⟩ := hgroup.members i hi
    exact (List.getElem?_eq_some_iff.mp hs).1
  have hlen : (atPlaces group.2 free).length = group.2.length := length_atPlaces hplaces
  have hkey : ∀ s ∈ atPlaces group.2 free, NameGroup.key s = group.1 := by
    intro s hs
    obtain ⟨i, hi, hget⟩ := List.mem_filterMap.mp hs
    obtain ⟨t, ht, htkey⟩ := hgroup.members i hi
    rw [ht] at hget
    rw [← Option.some.inj hget, htkey]
  have hmem : ∀ s ∈ atPlaces group.2 free, s ∈ free := fun s hs => mem_of_mem_atPlaces hs
  rw [feederKeys_singleton]
  unfold groupPiece
  split
  · rename_i hmembers
    rw [atPlaces, hmembers] at hlen
    exact absurd (List.length_eq_zero_iff.mp hlen.symm) hgroup.nonempty
  · rename_i s hmembers
    rw [atPlaces, hmembers] at hlen hkey hmem
    refine (Channels.succeeds_passThrough (fun t ht => habove t (hmem t ht))
      fun t ht => hsolid t (hmem t ht)).imp fun h g hh => ?_
    rw [List.map_singleton, hkey s (by simp)] at hh
    rw [← hlen]
    refine hh.imp fun u values outputs hfeeds => ?_
    obtain ⟨x, hx, rfl, rfl⟩ := feeds_singleton hfeeds
    rw [← hlen]
    exact ⟨by simp [Suits, hx], rfl⟩
  · rename_i s rest _ hmembers
    rw [atPlaces, hmembers] at hlen hkey hmem
    have hs : s ∈ free := hmem s List.mem_cons_self
    refine (Channels.succeeds_copies (habove s hs) (hsolid s hs)).imp fun h g hh => ?_
    rw [hkey s (by simp)] at hh
    rw [← hlen]
    refine hh.imp fun u values outputs hfeeds => ?_
    obtain ⟨x, hx, rfl, rfl⟩ := feeds_singleton hfeeds
    refine ⟨x, ?_, rfl, by rw [← hlen]; rfl⟩
    rw [hx, ← hkey s (by simp)]
    rfl

theorem offers_snoc {g : Supply} {done : List NameGroup} {group : NameGroup}
    (hh : h.Offers g [] ((feederKeys done).beside (feederKeys [group])) fun _ =>
      Behaviour.Paired (Feeds done) (Feeds [group]) 0 0) :
    h.Offers g [] (feederKeys (done ++ [group])) fun _ => Feeds (done ++ [group]) := by
  have hkeys : (feederKeys done).beside (feederKeys [group]) = feederKeys (done ++ [group]) := by
    simp [feederKeys, Facade.beside]
  rw [hkeys] at hh
  refine hh.imp ?_
  rintro u _ _ ⟨v, hv, rfl, rfl⟩
  obtain ⟨hdone, hlast⟩ := List.forall_mem_append.mp hv
  exact ⟨[], [], _, _, _, _, by rw [List.map_append]; rfl, rfl, rfl, ⟨v, hdone, rfl, rfl⟩,
    ⟨v, hlast, rfl, rfl⟩, List.flatMap_append⟩

theorem succeeds_groupFeeder {done groups : List NameGroup}
    (hh : h.Offers env.supply [] (feederKeys done) fun _ => Feeds done)
    (hgroups : ∀ g ∈ groups, Groups free g) (habove : env.supply.Above free)
    (hsolid : ∀ s ∈ free, s.isHole = false) :
    Succeeds (groupFeeder c free (some h) groups) env fun r g => ∃ h', r = some h' ∧
      h'.Offers g [] (feederKeys (done ++ groups)) fun _ => Feeds (done ++ groups) := by
  induction groups generalizing h env done with
  | nil =>
      rw [List.append_nil]
      exact succeeds_pure ⟨h, rfl, hh⟩
  | cons group rest ih =>
      obtain ⟨hgroup, hrest⟩ := List.forall_mem_cons.mp hgroups
      refine (succeeds_groupPiece hgroup habove hsolid).bind fun piece env₁ hle₁ hpiece => ?_
      refine (succeeds_combineBoth (hh.mono hle₁) hpiece).bind fun wider env₂ hle₂ hwider => ?_
      rw [show done ++ group :: rest = (done ++ [group]) ++ rest by simp]
      exact ih (offers_snoc hwider) hrest (habove.mono (Nat.le_trans hle₁ hle₂))

theorem succeeds_feeder {groups : List NameGroup} (hne : groups ≠ [])
    (hgroups : ∀ g ∈ groups, Groups free g) (habove : env.supply.Above free)
    (hsolid : ∀ s ∈ free, s.isHole = false) :
    Succeeds (groupFeeder c free none groups) env fun r g => ∃ h, r = some h ∧
      h.Offers g [] (feederKeys groups) fun _ => Feeds groups := by
  cases groups with
  | nil => exact absurd rfl hne
  | cons group rest =>
      obtain ⟨hgroup, hrest⟩ := List.forall_mem_cons.mp hgroups
      refine (succeeds_groupPiece hgroup habove hsolid).bind fun piece env₁ hle₁ hpiece => ?_
      refine (succeeds_pure (Q := fun h g => h.Offers g [] (feederKeys [group]) fun _ =>
        Feeds [group]) hpiece).bind fun h env₂ hle₂ hh => ?_
      exact succeeds_groupFeeder hh hrest (habove.mono (Nat.le_trans hle₁ hle₂)) hsolid

/-! ## Merging -/

theorem yields_optimized {p : Program} (hp : h.Over p) (env : Env) :
    ∃ q tag env', Yields (optimized c h) env (.ok ⟨tag, tag, q.sketch, h.bindings, []⟩) env' ∧
      Finished c p.copied q ∧ env'.supply = env.supply := by
  have hcopied : p.copied.Valid := (Program.copies_copied hp.valid).valid hp.valid
  have hvalid : p.copied.collect.Valid :=
    Program.valid_collect hcopied.orderly.collectable hcopied.sound hcopied.fits
  have hcopy : Yields (Fresh.copyOf h.sketch : Fresh ComposeError Program) env.supply
      (.ok p.copied) env.supply := by
    rw [hp.sketch]
    exact Fresh.yields_copyOf
  obtain ⟨r, env₁, hfinish⟩ := yields_self (finish c p.copied) env
  obtain ⟨q, rfl, hfinished, hsupply⟩ := finished_of_yields hvalid hfinish
  refine ⟨q, env₁.nextTag, { env₁ with nextTag := env₁.nextTag + 1 }, ?_, hfinished, hsupply⟩
  refine (yields_bind (yields_ofFresh_iff.mpr ⟨_, hcopy, rfl⟩)).mpr ?_
  exact (yields_bind hfinish).mpr (yields_newHandle_iff.mpr ⟨rfl, rfl⟩)

theorem succeeds_optimized (hh : h.Offers env.supply bs F R) :
    Succeeds (optimized c h) env fun h' g => h'.Offers g bs F R := by
  obtain ⟨rfl, rfl, p, hp, hruns⟩ := hh
  have hcopies := Program.copies_copied hp.holds.valid
  obtain ⟨q, tag, env', hyields, hfinished, hsupply⟩ := yields_optimized (c := c) hp.holds env
  have hinputs : q.inputs = p.inputs := hfinished.improves.inputs
  have houtputs : q.outputs = p.outputs := hfinished.improves.outputs
  have hover : Handle.Over ⟨tag, tag, q.sketch, h.bindings, []⟩ q :=
    ⟨rfl, hfinished.valid, hinputs ▸ hp.holds.bindings⟩
  refine ⟨_, env', hyields, Nat.le_of_eq (congrArg Supply.next hsupply.symm), rfl, ?_, q,
    ⟨hover, ?_⟩, ?_⟩
  · rw [hover.keys_eq, hp.holds.keys_eq, Program.facade, Program.facade, hinputs, houtputs]
  · rw [hsupply]
    exact hfinished.above hp.above (hcopies.valid hp.holds.valid).fits hp.above
  · intro u values outputs hR
    exact hfinished.improves.completes
      (hcopies.completes hp.holds.valid (hruns u values outputs hR))

theorem groups_ofList (free : List Symbol) : ∀ g ∈ NameGroup.ofList free, Groups free g := by
  intro g hg
  rw [NameGroup.ofList_eq] at hg
  obtain ⟨k, hk, rfl⟩ := List.mem_map.mp hg
  refine ⟨?_, fun i hi => NameGroup.mem_placesOf.mp hi⟩
  obtain ⟨s, hs, rfl⟩ := List.mem_map.mp (List.mem_eraseDups.mp hk)
  obtain ⟨i, hi⟩ := List.getElem?_of_mem hs
  exact List.ne_nil_of_mem (NameGroup.mem_placesOf.mpr ⟨s, hi, rfl⟩)

theorem feederKeys_ofList (free : List Symbol) :
    feederKeys (NameGroup.ofList free) = ⟨[], (free.map NameGroup.key).eraseDups,
      (free.map NameGroup.key).eraseDups.flatMap fun k =>
        List.replicate (NameGroup.placesOf k free).length k⟩ := by
  rw [NameGroup.ofList_eq, feederKeys, List.map_map, List.flatMap_map]
  simp [Function.comp_def]

def mergedKeys (F : Facade (String × Nat)) : Facade (String × Nat) :=
  ⟨F.curried, F.free.eraseDups, F.outputs⟩

/-- Every free input takes the vector of its name and size. -/
def Merged (F : Facade (String × Nat)) (G : Behaviour) : Behaviour := fun values outputs =>
  ∃ (cs : List (List Float)) (v : String × Nat → List Float),
    cs.length = F.curried.length ∧ values = cs ++ F.free.eraseDups.map v ∧
    G (cs ++ F.free.map v) outputs

theorem offers_merged_of_nodup {g : Supply} (hh : h.Offers g bs F R)
    (hsame : F.free.eraseDups = F.free) :
    h.Offers g bs (mergedKeys F) fun u => Merged F (R u) := by
  unfold mergedKeys
  rw [hsame]
  refine hh.imp ?_
  rintro u _ outputs ⟨cs, v, _, rfl, hR⟩
  rw [hsame]
  exact hR

theorem succeeds_connect_feeder {a b : Handle}
    (ha : a.Offers env.supply [] (feederKeys (NameGroup.ofList free)) fun _ =>
      Feeds (NameGroup.ofList free))
    (hb : b.Offers env.supply bs
      ⟨F.curried, atPlaces (NameGroup.order free) F.free, F.outputs⟩ fun u values outputs =>
        ∃ cs xs, values = cs ++ atPlaces (NameGroup.order free) xs ∧
          cs.length = F.curried.length ∧ R u (cs ++ xs) outputs)
    (hkeys : free.map NameGroup.key = F.free)
    (hsuits : ∀ {u values outputs}, R u values outputs → Suits F.inputs values) :
    Succeeds (connectBoth c a b) env fun h g =>
      h.Offers g bs (mergedKeys F) fun u => Merged F (R u) := by
  have horder : ∀ {α : Type} (v : String × Nat → α),
      atPlaces (NameGroup.order free) (F.free.map v) = F.free.eraseDups.flatMap fun k =>
        List.replicate (NameGroup.placesOf k free).length (v k) := by
    intro α v
    rw [← hkeys]
    exact NameGroup.atPlaces_order v
  have hnames := horder fun k => k
  rw [List.map_id'] at hnames
  rw [feederKeys_ofList, hkeys, ← hnames] at ha
  refine (succeeds_connectBoth ha hb (Facade.meets_self rfl)).imp fun h g hh => ?_
  simp only [Facade.joined, List.nil_append, List.drop_length, List.append_nil] at hh
  refine hh.imp ?_
  rintro u _ outputs ⟨cs, v, hcs, rfl, hR⟩
  obtain ⟨_, hfree⟩ := (suits_append hcs).mp (hsuits hR)
  have hsizes : ∀ k ∈ F.free, (v k).length = k.2 := by
    rw [Suits, List.map_map] at hfree
    exact List.map_eq_map_iff.mp hfree
  have hlen : (atPlaces (NameGroup.order free) (F.free.map v)).length =
      (atPlaces (NameGroup.order free) F.free).length := by
    rw [← map_atPlaces, List.length_map]
  refine ⟨[], cs, F.free.eraseDups.map v, [], atPlaces (NameGroup.order free) (F.free.map v),
    outputs, by simp, rfl, hcs, ⟨v, ?_, ?_, ?_⟩, ⟨cs, F.free.map v, ?_, hcs, hR⟩, ?_⟩
  · intro g hg
    rw [NameGroup.ofList_eq, hkeys] at hg
    obtain ⟨k, hk, rfl⟩ := List.mem_map.mp hg
    exact hsizes k (List.mem_eraseDups.mp hk)
  · rw [NameGroup.ofList_eq, hkeys, List.map_map]
    rfl
  · rw [NameGroup.ofList_eq, hkeys, List.flatMap_map, horder]
  · rw [List.take_of_length_le (Nat.le_of_eq hlen), List.append_nil]
  · rw [List.drop_eq_nil_of_le (Nat.le_of_eq hlen), List.append_nil]

theorem succeeds_mergeNamesOf (hh : h.Offers env.supply bs F R) :
    Succeeds (mergeNamesOf c h) env fun h' g =>
      h'.Offers g bs (mergedKeys F) fun u => Merged F (R u) := by
  obtain ⟨p, hp, _⟩ := hh.runs
  have hkeys := hh.keys_free
  obtain ⟨habove, hsolid⟩ := hp.above_free
  have hclear : h.free.any (·.isHole) = false := by
    rw [List.any_eq_false]
    exact fun s hs => by simp [hsolid s hs]
  refine (hp.succeeds_freeInputs env).bind ?_
  rintro _ env₁ _ ⟨rfl, hsupply⟩
  simp only [hclear, Bool.false_eq_true, if_false]
  have hh : h.Offers env₁.supply bs F R := hsupply ▸ hh
  rw [← hsupply] at habove
  have hlen : (NameGroup.ofList h.free).length = F.free.eraseDups.length := by
    rw [NameGroup.ofList_eq, List.length_map, hkeys]
  have hlen' : h.free.length = F.free.length := by rw [← hkeys, List.length_map]
  rw [hlen, hlen']
  split
  · rename_i heq
    -- as many groups as inputs: there is nothing to merge
    have hsame := (eraseDups_sublist F.free).eq_of_length heq
    split
    · exact (succeeds_optimized hh).imp fun _ _ hh' => offers_merged_of_nodup hh' hsame
    · exact succeeds_pure (offers_merged_of_nodup hh hsame)
  · rename_i heq
    have hne : NameGroup.ofList h.free ≠ [] := by
      intro hnil
      have hnone : F.free.eraseDups = [] := by
        rw [← List.length_eq_zero_iff, ← hlen, hnil, List.length_nil]
      have hfree : F.free = [] := List.eq_nil_iff_forall_not_mem.mpr fun k hk => by
        have hmem := List.mem_eraseDups.mpr hk
        rw [hnone] at hmem
        cases hmem
      exact heq (by rw [hfree]; rfl)
    have horder : ((NameGroup.ofList h.free).flatMap fun g => g.2.map Int.ofNat) =
        (NameGroup.order h.free).map Int.ofNat := by
      rw [NameGroup.ofList_eq, NameGroup.order, List.flatMap_map, List.map_flatMap]
    have hperm := NameGroup.order_perm h.free
    rw [hlen'] at hperm
    refine (succeeds_feeder hne (groups_ofList h.free) habove hsolid).bind ?_
    rintro _ env₂ hle₂ ⟨feeder, rfl, hfeeder⟩
    rw [horder]
    refine (succeeds_permuteInputsCore (hh.mono hle₂) hperm).bind
      fun grouped env₃ hle₃ hgrouped => ?_
    exact succeeds_connect_feeder (hfeeder.mono hle₃) hgrouped hkeys fun hR => (hh.suits hR).1

end Composer

end KernelAlgebra
