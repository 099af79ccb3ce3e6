import KernelAlgebra.Proofs.Compose.Offer
import KernelAlgebra.Proofs.Compose.Routing

/-!
# What channel programs and permutations do

A channel program gives each output the vector of the input that it copies.  So a permutation of
outputs gives the vectors at the places it names, and a permutation of inputs takes its vectors
in the order it names.
-/

namespace KernelAlgebra

open Machine

/-! ## Places -/

def atPlaces {α : Type} (places : List Nat) (xs : List α) : List α :=
  places.filterMap (xs[·]?)

section Places

variable {α β : Type} {places places' : List Nat} {xs : List α} {n : Nat}

theorem map_atPlaces (f : α → β) : (atPlaces places xs).map f = atPlaces places (xs.map f) := by
  simp [atPlaces, List.map_filterMap]

theorem atPlaces_append : atPlaces (places ++ places') xs =
    atPlaces places xs ++ atPlaces places' xs :=
  List.filterMap_append

theorem mem_of_mem_atPlaces {x : α} (h : x ∈ atPlaces places xs) : x ∈ xs := by
  obtain ⟨i, _, hi⟩ := List.mem_filterMap.mp h
  exact List.mem_of_getElem? hi

theorem getElem?_atPlaces (h : ∀ i ∈ places, i < xs.length) (k : Nat) :
    (atPlaces places xs)[k]? = places[k]?.bind (xs[·]?) :=
  Graph.getElem?_filterMap_of_isSome (fun i hi => by simpa using h i hi) k

theorem atPlaces_cons {i : Nat} (h : i < xs.length) :
    atPlaces (i :: places) xs = xs[i] :: atPlaces places xs :=
  List.filterMap_cons_some (List.getElem?_eq_getElem h)

theorem length_atPlaces (h : ∀ i ∈ places, i < xs.length) :
    (atPlaces places xs).length = places.length := by
  induction places with
  | nil => rfl
  | cons i rest ih =>
      rw [atPlaces_cons (h i (by simp)), List.length_cons, List.length_cons,
        ih fun j hj => h j (by simp [hj])]

end Places

/-! ## Runs of channel programs -/

theorem Machine.map_get_start {i : Interface} {values : List (List Float)} {st : Store}
    {u : Overrides} (hnodup : i.inputs.Nodup) (hst : start i values = .ok st) :
    i.inputs.map (st.get u) = values := by
  have hlen := (start_eq_ok_iff.mp ⟨st, hst⟩).1
  apply List.ext_getElem
  · rw [List.length_map, hlen]
  · intro k hk hk'
    rw [List.getElem_map]
    refine get_start_of_mem hnodup hst (List.mem_iff_getElem.mpr ⟨k, ?_, ?_⟩)
    · simp only [List.length_map, List.length_zip] at hk ⊢
      omega
    · exact List.getElem_zip

theorem computes_channelProgram (ins outs : List Symbol) {pairs : List (Symbol × Symbol)}
    {u : Overrides} {st : Store} (hindependent : Independent pairs) (hsized : st.Sized u) :
    ∃ fin, Computes (channelProgram ins outs (copyBlock pairs)).graph u st fin false ∧
      (∀ q ∈ pairs, fin.get u q.1 = st.get u q.2) ∧
      ∀ s, s ∉ pairs.map Prod.fst → fin.get u s = st.get u s := by
  obtain ⟨mid, hcomputes, _, hcopied, hkept⟩ := computes_copyBlock (u := u) hindependent hsized
  obtain ⟨fin, hcomputes', hfin⟩ := computes_sequel
    (Graph.sequel_epilogue (Graph.sound_single _) []) (Graph.sound_single _)
    (Graph.sound_single _) hcomputes (fun _ => rfl) (computes_single_nil mid)
  exact ⟨fin, hcomputes', fun q hq => (hfin q.1).trans (hcopied q hq),
    fun s hs => (hfin s).trans (hkept s hs)⟩

theorem gives_channelProgram {ins outs : List Symbol} {pairs : List (Symbol × Symbol)}
    {u : Overrides} {values : List (List Float)} {st : Store} (hindependent : Independent pairs)
    (hsolid : ∀ s ∈ outs, s.isHole = false)
    (hst : start (channelProgram ins outs (copyBlock pairs)).toInterface values = .ok st) :
    ∃ fin : Store, (∀ q ∈ pairs, fin.get u q.1 = st.get u q.2) ∧
      (∀ s, s ∉ pairs.map Prod.fst → fin.get u s = st.get u s) ∧
      Gives (channelProgram ins outs (copyBlock pairs)) u values (outs.map (fin.get u)) := by
  obtain ⟨fin, hcomputes, hcopied, hkept⟩ :=
    computes_channelProgram ins outs (u := u) hindependent (sized_start hst)
  exact ⟨fin, hcopied, hkept,
    gives_iff.mpr ⟨st, fin, hst, hcomputes, fun s hs => by simp [hsolid s hs], rfl⟩⟩

namespace Likenesses

variable {role : Role} {templates list : List Symbol} {g : Supply}

theorem keys (h : Likenesses role templates list g) :
    list.map NameGroup.key = templates.map NameGroup.key := by
  have hkeys := congrArg (List.map NameGroup.key) h.faces
  rw [List.map_map, List.map_map] at hkeys
  exact hkeys

theorem length_eq (h : Likenesses role templates list g) : list.length = templates.length := by
  simpa using congrArg List.length h.faces

/-- A program with these inputs starts on what suits the templates. -/
theorem exists_start (h : Likenesses role templates list g) (outs : List Symbol) (block : Block)
    {values : List (List Float)} (hsuits : Suits (templates.map NameGroup.key) values) :
    ∃ st, start (channelProgram list outs block).toInterface values = .ok st := by
  rw [← h.keys, suits_key] at hsuits
  exact (start_iff_sizes (i := (channelProgram list outs block).toInterface) h.solid).mpr hsuits

end Likenesses

/-! ## Routes -/

/-- What a channel holds that is never written. -/
def Symbol.blank (s : Symbol) : List Float := padded s.size s.value

theorem Symbol.blank_of_face {s t : Symbol} (h : s.face = t.face) : s.blank = t.blank := by
  have hblank := congrArg Symbol.blank h
  exact hblank

theorem Symbol.blank_of_plain {s : Symbol} (h : s.value = []) :
    s.blank = List.replicate s.size 0 := by
  rw [blank, h, padded, List.nil_append, List.take_of_length_le (by simp)]

def routed (src : List (Option Nat)) (tos : List Symbol) (values : List (List Float)) :
    List (List Float) :=
  (tos.zip src).map fun (t, place) => (place.bind (values[·]?)).getD t.blank

theorem map_key_map_face (list : List Symbol) :
    (list.map Symbol.face).map NameGroup.key = list.map NameGroup.key := by
  rw [List.map_map]
  rfl

namespace Channels

variable {g : Supply} {froms tos ins outs : List Symbol} {src : List (Option Nat)}

/-- Every place is that of a channel as wide as the one that copies it. -/
structure Routes (froms tos : List Symbol) (src : List (Option Nat)) : Prop where
  length : src.length = tos.length
  sizes : ∀ (k i : Nat) (t : Symbol), tos[k]? = some t → src[k]? = some (some i) →
    ∃ s : Symbol, froms[i]? = some s ∧ s.size = t.size

def links (ins outs : List Symbol) (src : List (Option Nat)) : List (Symbol × Symbol) :=
  (outs.zip src).filterMap fun (o, place) => (place.bind (ins[·]?)).map (o, ·)

theorem permuterBlock_eq : permuterBlock ins outs src = copyBlock (links ins outs src) := by
  unfold permuterBlock copyBlock links
  rw [List.map_filterMap]
  refine congrArg (List.filterMap · _) (funext fun (o, place) => ?_)
  rw [Option.map_map]
  rfl

theorem mem_links {q : Symbol × Symbol} : q ∈ links ins outs src ↔
    ∃ k i : Nat, outs[k]? = some q.1 ∧ src[k]? = some (some i) ∧ ins[i]? = some q.2 := by
  obtain ⟨o, s⟩ := q
  constructor
  · intro hq
    obtain ⟨⟨o', place⟩, hmem, hlink⟩ := List.mem_filterMap.mp hq
    obtain ⟨s', hs', heq⟩ := Option.map_eq_some_iff.mp hlink
    cases heq
    obtain ⟨i, rfl, hi⟩ := Option.bind_eq_some_iff.mp hs'
    obtain ⟨k, hk⟩ := List.getElem?_of_mem hmem
    obtain ⟨ho, hplace⟩ := List.getElem?_zip_eq_some.mp hk
    exact ⟨k, i, ho, hplace, hi⟩
  · rintro ⟨k, i, ho, hplace, hi⟩
    refine List.mem_filterMap.mpr ⟨(o, some i), ?_, by simp [hi]⟩
    exact List.mem_of_getElem? (List.getElem?_zip_eq_some.mpr ⟨ho, hplace⟩)

theorem nodup_links (hlen : src.length = outs.length) (hnodup : outs.Nodup) :
    ((links ins outs src).map Prod.fst).Nodup := by
  rw [← List.map_fst_zip (Nat.le_of_eq hlen.symm), List.Nodup, List.pairwise_map] at hnodup
  rw [List.Nodup, List.pairwise_map, links, List.pairwise_filterMap]
  refine hnodup.imp fun {x y} hne q hq r hr => ?_
  obtain ⟨_, _, rfl⟩ := Option.map_eq_some_iff.mp hq
  obtain ⟨_, _, rfl⟩ := Option.map_eq_some_iff.mp hr
  exact hne

theorem Routes.independent (h : Routes froms tos src) (hins : Likenesses .input froms ins g)
    (houts : Likenesses .output tos outs g) : Independent (links ins outs src) := by
  have hlen : src.length = outs.length := by rw [h.length, houts.length_eq]
  refine ⟨?_, ?_, nodup_links hlen houts.nodup, ?_⟩
  · intro q hq
    obtain ⟨k, i, ho, _, hs⟩ := mem_links.mp hq
    exact ⟨houts.solid _ (List.mem_of_getElem? ho), hins.solid _ (List.mem_of_getElem? hs)⟩
  · intro q hq
    obtain ⟨k, i, ho, hplace, hs⟩ := mem_links.mp hq
    obtain ⟨t, ht, houtSize⟩ := houts.exists_template ho
    obtain ⟨s, hfrom, hinSize⟩ := hins.exists_template hs
    obtain ⟨s', hs', hsize⟩ := h.sizes k i t ht hplace
    obtain rfl := Option.some.inj (hfrom.symm.trans hs')
    rw [← hinSize, ← houtSize, hsize]
  · intro q hq q' hq' heq
    obtain ⟨_, _, ho, _, _⟩ := mem_links.mp hq
    obtain ⟨_, _, _, _, hs⟩ := mem_links.mp hq'
    have hout := houts.role _ (List.mem_of_getElem? ho)
    have hin := hins.role _ (List.mem_of_getElem? hs)
    rw [heq, hin] at hout
    cases hout

theorem Routes.valid (h : Routes froms tos src) (hins : Likenesses .input froms ins g)
    (houts : Likenesses .output tos outs g) :
    (channelProgram ins outs (permuterBlock ins outs src)).Valid ∧
      g.Above (channelProgram ins outs (permuterBlock ins outs src)).symbols := by
  refine valid_routes hins houts fun i hi => ?_
  rw [permuterBlock_eq] at hi
  obtain ⟨q, hq, rfl⟩ := List.mem_map.mp hi
  obtain ⟨_, _, ho, _, hs⟩ := mem_links.mp hq
  exact ⟨q.1, List.mem_of_getElem? ho, q.2, List.mem_of_getElem? hs,
    (h.independent hins houts).sizes q hq, rfl⟩

theorem not_mem_links (hnodup : outs.Nodup) {k : Nat} {o : Symbol} (ho : outs[k]? = some o)
    (hsrc : src[k]? = some none) : o ∉ (links ins outs src).map Prod.fst := by
  intro hmem
  obtain ⟨q, hq, rfl⟩ := List.mem_map.mp hmem
  obtain ⟨j, i, hoj, hij, _⟩ := mem_links.mp hq
  obtain ⟨hk, hko⟩ := List.getElem?_eq_some_iff.mp ho
  obtain ⟨hj, hjo⟩ := List.getElem?_eq_some_iff.mp hoj
  obtain rfl := (hnodup.getElem_inj_iff (i := j) (j := k)).mp (hjo.trans hko.symm)
  cases hsrc.symm.trans hij

theorem Routes.gives (h : Routes froms tos src) (hins : Likenesses .input froms ins g)
    (houts : Likenesses .output tos outs g) {u : Overrides} {values : List (List Float)}
    (hsuits : Suits (froms.map NameGroup.key) values) :
    Gives (channelProgram ins outs (permuterBlock ins outs src)) u values
      (routed src tos values) := by
  have hlen : src.length = outs.length := by rw [h.length, houts.length_eq]
  rw [permuterBlock_eq]
  obtain ⟨st, hst⟩ := hins.exists_start outs (copyBlock (links ins outs src)) hsuits
  have hinputs : ins.map (st.get u) = values := map_get_start hins.nodup hst
  obtain ⟨fin, hlinked, hkept, hgives⟩ :=
    gives_channelProgram (u := u) (h.independent hins houts) houts.solid hst
  convert hgives using 1
  refine List.ext_getElem (by simp [routed, hlen, houts.length_eq]) fun k hk hk' => ?_
  rw [List.length_map] at hk'
  have ho : outs[k]? = some outs[k] := List.getElem?_eq_getElem hk'
  obtain ⟨t, ht, _⟩ := houts.exists_template ho
  obtain ⟨hkt, htk⟩ := List.getElem?_eq_some_iff.mp ht
  have hsrc : src[k]? = some src[k] := List.getElem?_eq_getElem (by omega)
  rw [List.getElem_map]
  simp only [routed, List.getElem_map, List.getElem_zip]
  cases hplace : src[k] with
  | some i =>
      rw [hplace] at hsrc
      obtain ⟨s, hs, _⟩ := h.sizes k i t ht hsrc
      have hi : i < ins.length := by
        rw [hins.length_eq]
        exact (List.getElem?_eq_some_iff.mp hs).1
      have hin : ins[i]? = some ins[i] := List.getElem?_eq_getElem hi
      have hvalue : values[i]? = some (st.get u ins[i]) := by
        rw [← hinputs, List.getElem?_map, hin]
        rfl
      rw [hlinked (outs[k], ins[i]) (mem_links.mpr ⟨k, i, ho, hsrc, hin⟩), Option.bind_some,
        hvalue]
      rfl
  | none =>
      have hnot : outs[k] ∉ (links ins outs src).map Prod.fst :=
        not_mem_links houts.nodup ho (hplace ▸ hsrc)
      have hfresh : outs[k] ∉ ins := by
        intro hmem
        have hrole := hins.role _ hmem
        rw [houts.role _ (List.getElem_mem hk')] at hrole
        cases hrole
      have hface : (tos[k]).face = (outs[k]).face := by
        have hfaces := congrArg (·[k]?) houts.faces
        simpa [ho, hkt] using hfaces.symm
      rw [hkept _ hnot, get_start_of_not_mem hst hfresh,
        startValue_of_isLocal (houts.isLocal rfl (List.getElem_mem hk'))]
      exact Symbol.blank_of_face hface

end Channels

/-! ## Channel programs -/

namespace Channels

open Compose

variable {env : Env} {templates froms tos ins outs : List Symbol} {src : List (Option Nat)}

theorem succeeds_like {role : Role} (habove : env.supply.Above templates)
    (hsolid : ∀ s ∈ templates, s.isHole = false) :
    Succeeds (like role templates) env fun list g => Likenesses role templates list g :=
  succeeds_ofFresh (Fresh.yields_copyAll hsolid) (by rw [Supply.next_copyAll]; omega)
    (likenesses_copyAll habove hsolid)

theorem presents_plain {block : Block} (hvalid : (channelProgram ins outs block).Valid)
    (habove : env.supply.Above (channelProgram ins outs block).symbols) :
    Succeeds (plain (channelProgram ins outs block)) env fun h g =>
      h.Presents g [] ⟨[], ins.map Symbol.face, outs.map Symbol.face⟩
        (Gives (channelProgram ins outs block)) := by
  refine ⟨_, _, yields_newHandle_iff.mpr ⟨rfl, rfl⟩, Nat.le_refl _, rfl, rfl,
    channelProgram ins outs block, ?_, ?_⟩
  · exact ⟨⟨rfl, hvalid, Nat.zero_le _⟩, habove⟩
  · exact fun _ _ _ hrun => hrun

theorem presents_passThrough (habove : env.supply.Above templates)
    (hsolid : ∀ s ∈ templates, s.isHole = false) :
    Succeeds (passThrough templates) env fun h g =>
      h.Presents g [] ⟨[], templates.map Symbol.face, templates.map Symbol.face⟩
        fun _ values outputs => Suits (templates.map NameGroup.key) values ∧ outputs = values := by
  refine (succeeds_like habove hsolid).bind fun list env' _ hlist => ?_
  obtain ⟨hvalid, habove'⟩ := valid_passing hlist
  refine (presents_plain hvalid habove').imp fun h g hh => ?_
  rw [hlist.faces] at hh
  refine hh.imp ?_
  rintro u values outputs ⟨hsuits, heq⟩
  obtain ⟨st, hst⟩ := hlist.exists_start list (copyBlock []) hsuits
  have hnone : Independent [] := ⟨by simp, by simp, by simp, by simp⟩
  obtain ⟨fin, _, hkept, hgives⟩ := gives_channelProgram (u := u) hnone hlist.solid hst
  have houtputs : list.map (fin.get u) = values := by
    rw [List.map_congr_left fun s _ => hkept s (by simp)]
    exact map_get_start hlist.nodup hst
  rw [heq]
  rwa [houtputs] at hgives

theorem succeeds_passThrough (habove : env.supply.Above templates)
    (hsolid : ∀ s ∈ templates, s.isHole = false) :
    Succeeds (passThrough templates) env fun h g =>
      h.Offers g [] ⟨[], templates.map NameGroup.key, templates.map NameGroup.key⟩
        fun _ values outputs =>
          Suits (templates.map NameGroup.key) values ∧ outputs = values := by
  refine (presents_passThrough habove hsolid).imp fun h g hh => ?_
  have hh := hh.offers
  simp only [Facade.map, map_key_map_face, List.map_nil] at hh
  exact hh

theorem presents_routes (hroutes : Routes froms tos src)
    (hins : Likenesses .input froms ins env.supply)
    (houts : Likenesses .output tos outs env.supply) :
    Succeeds (plain (channelProgram ins outs (permuterBlock ins outs src))) env fun h g =>
      h.Presents g [] ⟨[], froms.map Symbol.face, tos.map Symbol.face⟩ fun _ values outputs =>
        Suits (froms.map NameGroup.key) values ∧ outputs = routed src tos values := by
  obtain ⟨hvalid, habove⟩ := hroutes.valid hins houts
  refine (presents_plain hvalid habove).imp fun h g hh => ?_
  rw [hins.faces, houts.faces] at hh
  refine hh.imp ?_
  rintro u values _ ⟨hsuits, rfl⟩
  exact hroutes.gives hins houts hsuits

theorem presents_permuter (hroutes : Routes froms tos src) (hfroms : env.supply.Above froms)
    (htos : env.supply.Above tos) (hsolid : ∀ s ∈ froms, s.isHole = false)
    (hsolid' : ∀ s ∈ tos, s.isHole = false) :
    Succeeds (permuter froms tos src) env fun h g =>
      h.Presents g [] ⟨[], froms.map Symbol.face, tos.map Symbol.face⟩ fun _ values outputs =>
        Suits (froms.map NameGroup.key) values ∧ outputs = routed src tos values := by
  refine (succeeds_like hfroms hsolid).bind fun ins env₁ hle₁ hins => ?_
  refine (succeeds_like (htos.mono hle₁) hsolid').bind fun outs env₂ hle₂ houts => ?_
  exact presents_routes hroutes (hins.mono hle₂) houts

theorem presents_sink (habove : env.supply.Above templates)
    (hsolid : ∀ s ∈ templates, s.isHole = false) :
    Succeeds (sink templates) env fun h g => h.Presents g [] ⟨[], templates.map Symbol.face, []⟩
      fun _ values outputs => Suits (templates.map NameGroup.key) values ∧ outputs = [] := by
  refine (succeeds_like habove hsolid).bind fun ins env₁ _ hins => ?_
  have hroutes : Routes templates [] [] := ⟨rfl, by simp⟩
  exact presents_routes hroutes hins (likenesses_nil _ _)

theorem permuterBlock_unfed (outs : List Symbol) :
    permuterBlock [] outs (List.replicate outs.length none) = [] := by
  induction outs with
  | nil => rfl
  | cons o rest ih => exact ih

theorem routed_unfed (tos : List Symbol) (values : List (List Float)) :
    routed (List.replicate tos.length none) tos values = tos.map Symbol.blank := by
  induction tos with
  | nil => rfl
  | cons t rest ih => exact congrArg (t.blank :: ·) ih

theorem presents_source (habove : env.supply.Above templates)
    (hsolid : ∀ s ∈ templates, s.isHole = false) :
    Succeeds (source templates) env fun h g => h.Presents g [] ⟨[], [], templates.map Symbol.face⟩
      fun _ values outputs => values = [] ∧ outputs = templates.map Symbol.blank := by
  refine (succeeds_like habove hsolid).bind fun outs env₁ _ houts => ?_
  have hroutes : Routes [] templates (List.replicate outs.length none) := by
    refine ⟨by rw [List.length_replicate, houts.length_eq], fun k i t _ hi => ?_⟩
    cases (List.mem_replicate.mp (List.mem_of_getElem? hi)).2
  rw [← permuterBlock_unfed outs]
  refine (presents_routes hroutes (likenesses_nil _ _) houts).imp fun h g hh => ?_
  refine hh.imp ?_
  rintro u _ _ ⟨rfl, rfl⟩
  exact ⟨rfl, by rw [houts.length_eq, routed_unfed]⟩

/-! ### Copies -/

theorem permuterBlock_replicate (input : Symbol) (outs : List Symbol) :
    permuterBlock [input] outs (List.replicate outs.length (some 0)) =
      outs.map (Instruction.copy · input) := by
  induction outs with
  | nil => rfl
  | cons o rest ih =>
      rw [List.map_cons, ← ih]
      rfl

theorem routes_replicate (template : Symbol) (n : Nat) :
    Routes [template] (List.replicate n template) (List.replicate n (some 0)) where
  length := by simp
  sizes := by
    intro k i t ht hi
    obtain rfl := (List.mem_replicate.mp (List.mem_of_getElem? ht)).2
    obtain rfl := Option.some.inj (List.mem_replicate.mp (List.mem_of_getElem? hi)).2
    exact ⟨t, rfl, rfl⟩

theorem routed_replicate (template : Symbol) (n : Nat) (x : List Float) :
    routed (List.replicate n (some 0)) (List.replicate n template) [x] = List.replicate n x := by
  simp [routed, List.zip_replicate']

theorem presents_spread {input template : Symbol} {n : Nat}
    (hinput : Likenesses .input [template] [input] env.supply)
    (hid : template.id < env.supply.next) (hsolid : template.isHole = false) :
    Succeeds (spread input template n) env fun h g =>
      h.Presents g [] ⟨[], [template.face], List.replicate n template.face⟩
        fun _ values outputs => ∃ x : List Float, x.length = template.size ∧ values = [x] ∧
          outputs = List.replicate n x := by
  have hmany : env.supply.Above (List.replicate n template) := by
    intro s hs
    rw [(List.mem_replicate.mp hs).2]
    exact hid
  have hsolid' : ∀ s ∈ List.replicate n template, s.isHole = false := by
    intro s hs
    rw [(List.mem_replicate.mp hs).2]
    exact hsolid
  refine (succeeds_like hmany hsolid').bind fun outs env₁ hle₁ houts => ?_
  have hlen : outs.length = n := by rw [houts.length_eq, List.length_replicate]
  rw [← permuterBlock_replicate, hlen]
  refine (presents_routes (routes_replicate template n) (hinput.mono hle₁) houts).imp
    fun h g hh => ?_
  rw [List.map_singleton, List.map_replicate] at hh
  refine hh.imp ?_
  rintro u _ _ ⟨x, hx, rfl, rfl⟩
  exact ⟨by simp [Suits, hx, NameGroup.key], (routed_replicate template n x).symm⟩

theorem succeeds_copy {template : Symbol} {role : Role} (hid : template.id < env.supply.next)
    (hsolid : template.isHole = false) :
    Succeeds (ofFresh (Fresh.copy template role)) env fun input g =>
      Likenesses role [template] [input] g :=
  succeeds_ofFresh (Fresh.yields_copy hsolid) (Nat.le_succ _) (likenesses_copy hid)

theorem succeeds_copies {template : Symbol} {n : Nat} (hid : template.id < env.supply.next)
    (hsolid : template.isHole = false) :
    Succeeds (copies template n) env fun h g =>
      h.Offers g [] ⟨[], [NameGroup.key template], List.replicate n (NameGroup.key template)⟩
        fun _ values outputs => ∃ x : List Float, x.length = template.size ∧ values = [x] ∧
          outputs = List.replicate n x := by
  refine (succeeds_copy hid hsolid).bind fun input env₁ hle₁ hinput => ?_
  refine (presents_spread hinput (Nat.lt_of_lt_of_le hid hle₁) hsolid).imp fun h g hh => ?_
  have hh := hh.offers
  simp only [Facade.map, List.map_nil, List.map_cons, List.map_replicate] at hh
  exact hh

end Channels

end KernelAlgebra
