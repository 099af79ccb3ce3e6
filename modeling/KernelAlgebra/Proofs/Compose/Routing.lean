import KernelAlgebra.Compose.Channels
import KernelAlgebra.Proofs.Compose.InOrder

/-!
# Channel programs and permutations

A channel program is valid as soon as each of its copies has one size on both sides.  So the
permutations of inputs and outputs give handles that are in order.
-/

namespace KernelAlgebra

/-! ## Channel programs -/

section ChannelProgram

variable {ins outs : List Symbol} {block : Block}

theorem graph_channelProgram :
    (channelProgram ins outs block).graph = (Graph.single block).appendExit.setBlock 1 [] := rfl

theorem mem_symbols_channelProgram {s : Symbol} :
    s ∈ (channelProgram ins outs block).symbols ↔ s ∈ ins ∨ s ∈ outs := by
  simp [Interface.mem_symbols, channelProgram, Program.empty, Interface.withGraph, Interface.empty]

theorem valid_channelProgram (hin : RoleList [.input, .inout] ins)
    (hout : RoleList [.output, .inout] outs)
    (hinout : ∀ s, s.isInOut = true → (s ∈ ins ↔ s ∈ outs))
    (hblock : ∀ i ∈ block, i.Fits (channelProgram ins outs block).symbols) :
    (channelProgram ins outs block).Valid := by
  have hsequel := Graph.sequel_epilogue (Graph.sound_single block) []
  have hnone : ∀ roles, RoleList roles [] := fun roles => ⟨by simp, by simp, by simp⟩
  refine ⟨⟨hin, hout, hnone _, hnone _, hnone _, hnone _, ?_, ?_, ?_⟩, ?_, ?_⟩
  · exact fun s hs h => (hinout s h).mp hs
  · exact fun s hs h => (hinout s h).mpr hs
  · simp [channelProgram, Program.empty, Interface.withGraph, Interface.empty]
  · rw [graph_channelProgram]
    exact hsequel.sound (Graph.sound_single block) (Graph.sound_single [])
  · rw [graph_channelProgram]
    exact hsequel.fits (Graph.sound_single block) (Graph.sound_single []) (Graph.fits_single hblock)
      (Graph.fits_single (by simp))

end ChannelProgram

/-! ## Fresh channels -/

/-- Fresh symbols of one role that look like the templates. -/
structure Likenesses (role : Role) (templates list : List Symbol) (g : Supply) : Prop where
  nodup : list.Nodup
  role : ∀ s ∈ list, s.role = role
  solid : ∀ s ∈ list, s.isHole = false
  above : g.Above list
  faces : list.map Symbol.face = templates.map Symbol.face

namespace Likenesses

variable {role : Role} {templates list : List Symbol} {g : Supply}

theorem roleList (h : Likenesses role templates list g) {roles : List Role} (hrole : role ∈ roles) :
    RoleList roles list :=
  ⟨h.nodup, fun s hs => h.role s hs ▸ hrole, h.solid⟩

theorem isLocal (h : Likenesses role templates list g) (hrole : role.isLocal = true) {s : Symbol}
    (hs : s ∈ list) : s.isLocal = true := by
  rw [Symbol.isLocal, h.role s hs, hrole]

theorem mono (h : Likenesses role templates list g) {g' : Supply} (hle : g.next ≤ g'.next) :
    Likenesses role templates list g' :=
  ⟨h.nodup, h.role, h.solid, h.above.mono hle, h.faces⟩

theorem sizes (h : Likenesses role templates list g) :
    list.map Symbol.size = templates.map Symbol.size := by
  have hsizes := congrArg (List.map Symbol.size) h.faces
  rw [List.map_map, List.map_map] at hsizes
  exact hsizes

theorem exists_template (h : Likenesses role templates list g) {k : Nat} {t : Symbol}
    (ht : list[k]? = some t) : ∃ s, templates[k]? = some s ∧ s.size = t.size := by
  have hsize := congrArg (·[k]?) h.sizes
  simp only [List.getElem?_map, ht, Option.map_some] at hsize
  exact Option.map_eq_some_iff.mp hsize.symm

theorem exists_template_of_mem (h : Likenesses role templates list g) {t : Symbol}
    (ht : t ∈ list) : ∃ s ∈ templates, s.size = t.size := by
  obtain ⟨k, hk⟩ := List.getElem?_of_mem ht
  obtain ⟨s, hs, hsize⟩ := h.exists_template hk
  exact ⟨s, List.mem_of_getElem? hs, hsize⟩

end Likenesses

theorem likenesses_copyAll {role : Role} {templates : List Symbol} {g : Supply}
    (habove : g.Above templates) (hsolid : ∀ s ∈ templates, s.isHole = false) :
    Likenesses role templates (g.copyAll (fun _ => role) templates).1
      (g.copyAll (fun _ => role) templates).2 where
  nodup := Supply.nodup_copyAll g
  role := by
    intro t ht
    have hrole := List.mem_map_of_mem (f := Symbol.role) ht
    rw [Supply.map_role_copyAll] at hrole
    simp only [List.mem_map, exists_and_right] at hrole
    exact hrole.2.symm
  solid := by
    intro t ht
    have hfresh := (Supply.fresh_of_mem_copyAll ht).1
    cases templates with
    | nil => simp [Supply.copyAll] at ht
    | cons s rest =>
        have hs := habove s (by simp)
        simp only [Symbol.isHole, decide_eq_false_iff_not]
        omega
  above := fun t ht => (Supply.fresh_of_mem_copyAll ht).2
  faces := Supply.map_face_copyAll g

theorem likenesses_copy {role : Role} {s : Symbol} {g : Supply} (hid : s.id < g.next) :
    Likenesses role [s] [{ s with id := g.next, role := role }] ⟨g.next + 1⟩ := by
  refine ⟨by simp, by simp, ?_, by simp [Supply.Above], rfl⟩
  simp only [List.mem_singleton, forall_eq, Symbol.isHole, decide_eq_false_iff_not]
  omega

namespace Channels

open Compose

variable {P : Binding → Prop} {env : Env} {templates : List Symbol}

theorem ensures_like {role : Role} (habove : env.supply.Above templates) :
    Ensures (like role templates) env fun list g => Likenesses role templates list g := by
  apply ensures_ofFresh
  intro r g hrun
  cases hhole : templates.any (·.isHole) with
  | false =>
      have hsolid : ∀ s ∈ templates, s.isHole = false := by simpa using hhole
      obtain ⟨rfl, rfl⟩ := (Fresh.yields_copyAll hsolid).unique hrun
      refine ⟨by rw [Supply.next_copyAll]; omega, fun list hlist => ?_⟩
      cases hlist
      exact likenesses_copyAll habove hsolid
  | true =>
      obtain ⟨rfl, rfl⟩ := (Fresh.yields_copyAll_of_hole hhole).unique hrun
      exact ⟨by rw [Supply.next_copyAll]; omega, by simp⟩

theorem ensures_copy {role : Role} {s : Symbol} (hid : s.id < env.supply.next) :
    Ensures (ofFresh (Fresh.copy s role)) env fun t g => Likenesses role [s] [t] g := by
  apply ensures_ofFresh
  intro r g hrun
  cases hhole : s.isHole with
  | false =>
      obtain ⟨rfl, rfl⟩ := (Fresh.yields_copy hhole).unique hrun
      refine ⟨Nat.le_succ _, fun t ht => ?_⟩
      cases ht
      exact likenesses_copy hid
  | true =>
      have hcrash : Yields (Fresh.copy s role : Fresh ComposeError Symbol) env.supply
          (.error .outside) env.supply := by
        unfold Fresh.copy
        rw [hhole]
        rfl
      obtain ⟨rfl, rfl⟩ := hcrash.unique hrun
      exact ⟨Nat.le_refl _, by simp⟩

theorem ensures_plain {p : Program} (hvalid : p.Valid) (habove : env.supply.Above p.symbols) :
    Ensures (plain p) env fun h g => h.InOrder P g :=
  ensures_newHandle fun _ => ⟨p, rfl, hvalid, habove, rfl, by simp⟩

theorem valid_passing {list : List Symbol} {g : Supply}
    (hlist : Likenesses .inout templates list g) :
    (channelProgram list list []).Valid ∧ g.Above (channelProgram list list []).symbols := by
  constructor
  · exact valid_channelProgram (hlist.roleList (by simp)) (hlist.roleList (by simp)) (by simp)
      (by simp)
  · exact fun s hs => hlist.above s (by simpa using mem_symbols_channelProgram.mp hs)

theorem ensures_passThrough (habove : env.supply.Above templates) :
    Ensures (passThrough templates) env fun h g => h.InOrder P g := by
  refine (ensures_like habove).bind fun list env' _ hlist => ?_
  exact ensures_plain (valid_passing hlist).1 (valid_passing hlist).2

section Routes

variable {froms tos ins outs : List Symbol} {block : Block}

theorem likenesses_nil (role : Role) (g : Supply) : Likenesses role [] [] g :=
  ⟨by simp, by simp, by simp, by simp [Supply.Above], rfl⟩

theorem valid_routes {g : Supply} (hins : Likenesses .input froms ins g)
    (houts : Likenesses .output tos outs g)
    (hblock : ∀ i ∈ block, ∃ o ∈ outs, ∃ s ∈ ins, s.size = o.size ∧ i = .copy o s) :
    (channelProgram ins outs block).Valid ∧ g.Above (channelProgram ins outs block).symbols := by
  refine ⟨valid_channelProgram ?_ ?_ ?_ ?_, ?_⟩
  · exact hins.roleList (by simp)
  · exact houts.roleList (by simp)
  · intro s hinout
    have hnot : s ∉ ins ∧ s ∉ outs := by
      constructor
      · intro hs
        simp [Symbol.isInOut, hins.role s hs] at hinout
      · intro hs
        simp [Symbol.isInOut, houts.role s hs] at hinout
    simp [hnot]
  · intro i hi
    obtain ⟨o, ho, s, hs, hsize, rfl⟩ := hblock i hi
    exact Machine.fits_copy (houts.solid o ho) (hins.solid s hs) hsize
      ⟨mem_symbols_channelProgram.mpr (.inr ho), houts.isLocal rfl ho⟩
      (mem_symbols_channelProgram.mpr (.inl hs))
  · intro s hs
    rcases mem_symbols_channelProgram.mp hs with hs | hs
    · exact hins.above s hs
    · exact houts.above s hs

theorem ensures_routes (hins : Likenesses .input froms ins env.supply)
    (houts : Likenesses .output tos outs env.supply)
    (hblock : ∀ i ∈ block, ∃ o ∈ outs, ∃ s ∈ ins, s.size = o.size ∧ i = .copy o s) :
    Ensures (plain (channelProgram ins outs block)) env fun h g => h.InOrder P g :=
  ensures_plain (valid_routes hins houts hblock).1 (valid_routes hins houts hblock).2

theorem ensures_sink (habove : env.supply.Above templates) :
    Ensures (sink templates) env fun h g => h.InOrder P g :=
  (ensures_like habove).bind fun _ _ _ hins => ensures_routes hins (likenesses_nil _ _) (by simp)

theorem ensures_source (habove : env.supply.Above templates) :
    Ensures (source templates) env fun h g => h.InOrder P g :=
  (ensures_like habove).bind fun _ _ _ houts => ensures_routes (likenesses_nil _ _) houts (by simp)

theorem ensures_spread {input template : Symbol} {n : Nat} (hid : template.id < env.supply.next)
    (hinput : Likenesses .input [template] [input] env.supply) :
    Ensures (spread input template n) env fun h g => h.InOrder P g := by
  have hmany : env.supply.Above (List.replicate n template) := by
    intro s hs
    rw [(List.mem_replicate.mp hs).2]
    exact hid
  refine (ensures_like hmany).bind fun outs env₁ hle₁ houts => ?_
  refine ensures_routes (hinput.mono hle₁) houts ?_
  intro i hi
  obtain ⟨o, ho, rfl⟩ := List.mem_map.mp hi
  obtain ⟨s, hs, hsize⟩ := houts.exists_template_of_mem ho
  obtain rfl := (List.mem_replicate.mp hs).2
  have hinputSize : input.size = s.size := by simpa using hinput.sizes
  exact ⟨o, ho, input, by simp, hinputSize.trans hsize, rfl⟩

theorem ensures_copies {template : Symbol} {n : Nat} (hid : template.id < env.supply.next) :
    Ensures (copies template n) env fun h g => h.InOrder P g :=
  (ensures_copy hid).bind fun _ _ hle hinput => ensures_spread (Nat.lt_of_lt_of_le hid hle) hinput

theorem ensures_fanOut {template : Symbol} {n : Int} (hid : template.id < env.supply.next) :
    Ensures (fanOut template n) env fun h g => h.InOrder P g :=
  (ensures_copy hid).bind fun _ _ hle hinput =>
    ensures_unless (ensures_spread (Nat.lt_of_lt_of_le hid hle) hinput)

theorem ensures_permuter {src : List (Option Nat)} (hfroms : env.supply.Above froms)
    (htos : env.supply.Above tos)
    (hsizes : ∀ (k j : Nat) (o s : Symbol), src[k]? = some (some j) → tos[k]? = some o →
      froms[j]? = some s → s.size = o.size) : Ensures (permuter froms tos src) env fun h g => h.InOrder P g := by
  refine (ensures_like hfroms).bind fun ins env₁ hle₁ hins => ?_
  refine (ensures_like (htos.mono hle₁)).bind fun outs env₂ hle₂ houts => ?_
  refine ensures_routes (hins.mono hle₂) houts ?_
  intro i hi
  obtain ⟨⟨o, place⟩, hq, hcopy⟩ := List.mem_filterMap.mp hi
  obtain ⟨k, hk⟩ := List.getElem?_of_mem hq
  obtain ⟨ho, hplace⟩ := List.getElem?_zip_eq_some.mp hk
  obtain ⟨s, hs, rfl⟩ := Option.map_eq_some_iff.mp hcopy
  obtain ⟨j, rfl, hj⟩ := Option.bind_eq_some_iff.mp hs
  obtain ⟨o', ho', hsize⟩ := houts.exists_template ho
  obtain ⟨s', hs', hsize'⟩ := hins.exists_template hj
  refine ⟨o, List.mem_of_getElem? ho, s, List.mem_of_getElem? hj, ?_, rfl⟩
  rw [← hsize', ← hsize]
  exact hsizes k j o' s' hplace ho' hs'

end Routes

end Channels

/-! ## Permutations -/

namespace Handle

variable {P : Binding → Prop} {g : Supply} {h : Handle}

theorem InOrder.above_free (hh : h.InOrder P g) : g.Above h.free := by
  obtain ⟨p, hp⟩ := hh
  intro s hs
  have hmem := List.mem_of_mem_drop hs
  rw [hp.sketch] at hmem
  exact hp.above s (Interface.mem_symbols.mpr (.inl hmem))

theorem InOrder.above_outputs (hh : h.InOrder P g) : g.Above h.outputs := by
  obtain ⟨p, hp⟩ := hh
  intro s hs
  rw [outputs, hp.sketch] at hs
  exact hp.above s (Interface.mem_symbols.mpr (.inr (.inl hs)))

theorem ensures_freeInputs {env : Env} :
    Compose.Ensures (Compose.ofFresh h.freeInputs) env fun free _ => free = h.free := by
  apply Compose.ensures_ofFresh
  intro r g hrun
  unfold freeInputs at hrun
  split at hrun
  · obtain ⟨rfl, rfl⟩ := yields_pure.mp hrun
    exact ⟨Nat.le_refl _, fun free hfree => by cases hfree; rfl⟩
  · obtain ⟨rfl, rfl⟩ := yields_throw.mp hrun
    exact ⟨Nat.le_refl _, by simp⟩

end Handle

namespace Composer

open Compose

variable {P : Binding → Prop} {c : Composer} {env : Env} {h : Handle}

theorem lt_of_checkSelection {free : List Symbol} {seen idx : List Int}
    (hcheck : checkSelection free seen idx = .ok ()) : ∀ i ∈ idx, i.toNat < free.length := by
  induction idx generalizing seen with
  | nil => simp
  | cons i rest ih =>
      unfold checkSelection at hcheck
      split at hcheck
      · cases hcheck
      · rename_i s hs
        split at hs
        · cases hs
        · split at hcheck
          · cases hcheck
          · intro j hj
            rcases List.mem_cons.mp hj with rfl | hj
            · exact (List.getElem?_eq_some_iff.mp hs).1
            · exact ih hcheck j hj

theorem map_some_selectOutputs {outs selected : List Symbol} {idx : List Int}
    (hselect : selectOutputs outs idx = .ok selected) :
    selected.map some = idx.map fun i => outs[i.toNat]? := by
  induction idx generalizing selected with
  | nil =>
      cases hselect
      rfl
  | cons i rest ih =>
      unfold selectOutputs at hselect
      split at hselect
      · cases hselect
      · rename_i s hs
        split at hs
        · cases hs
        · cases hrest : selectOutputs outs rest with
          | error e =>
              rw [hrest] at hselect
              cases hselect
          | ok more =>
              rw [hrest] at hselect
              cases hselect
              simp [hs, ih hrest]

theorem ensures_permuteInputsCore {idx : List Int} (hh : h.InOrder P env.supply) :
    Ensures (permuteInputsCore c (some h) idx) env fun h' g => h'.InOrder P g := by
  refine Handle.ensures_freeInputs.bind ?_
  rintro free env₁ hle₁ rfl
  cases hcheck : checkSelection h.free [] idx with
  | error e => exact ensures_refuse
  | ok u =>
      have hfree : env₁.supply.Above h.free := (hh.mono hle₁).above_free
      have hplaces : ∀ i ∈ idx.map Int.toNat, (h.free[i]?).isSome := by
        intro i hi
        obtain ⟨j, hj, rfl⟩ := List.mem_map.mp hi
        simpa using lt_of_checkSelection hcheck j hj
      have hselected : env₁.supply.Above ((idx.map Int.toNat).filterMap (h.free[·]?)) := by
        intro s hs
        obtain ⟨i, _, hi⟩ := List.mem_filterMap.mp hs
        exact hfree s (List.mem_of_getElem? hi)
      refine (Channels.ensures_permuter (P := P) hselected hfree ?_).bind
        fun front env₂ hle₂ hfront => ?_
      · intro k j o s hsrc ho hs
        have hj : (idx.map Int.toNat)[j]? = some k := by
          simp only [inverse, List.getElem?_map, Option.map_eq_some_iff] at hsrc
          obtain ⟨k', hk', hidx⟩ := hsrc
          obtain rfl : k = k' := by
            have := List.getElem?_eq_some_iff.mp hk'
            simpa using this.2
          obtain ⟨hlt, heq, _⟩ := List.idxOf?_eq_some_iff.mp hidx
          exact List.getElem?_eq_some_iff.mpr ⟨hlt, heq⟩
        rw [Graph.getElem?_filterMap_of_isSome hplaces, hj, Option.bind_some, ho] at hs
        rw [Option.some.inj hs]
      · exact ensures_connectCore hfront.of_some (hh.mono (Nat.le_trans hle₁ hle₂)).of_some

theorem ensures_permuteOutputsCore {idx : List Int} (hh : h.InOrder P env.supply) :
    Ensures (permuteOutputsCore c (some h) idx) env fun h' g => h'.InOrder P g := by
  simp only [permuteOutputsCore]
  split
  · exact ensures_refuse
  · rename_i selected hselect
    have hchosen := map_some_selectOutputs hselect
    have hselected : env.supply.Above selected := by
      intro s hs
      have hmem := List.mem_map_of_mem (f := some) hs
      rw [hchosen] at hmem
      obtain ⟨i, _, hi⟩ := List.mem_map.mp hmem
      exact hh.above_outputs s (List.mem_of_getElem? hi)
    refine (Channels.ensures_permuter (P := P) hh.above_outputs hselected ?_).bind
      fun back env₁ hle₁ hback => ?_
    · intro k j o s hsrc ho hs
      simp only [List.getElem?_map, Option.map_eq_some_iff, Option.some.injEq] at hsrc
      obtain ⟨i, hi, rfl⟩ := hsrc
      have hplace := congrArg (·[k]?) hchosen
      simp only [List.getElem?_map, ho, hi, Option.map_some, hs, Option.some.injEq] at hplace
      rw [hplace]
    · exact ensures_connectCore (hh.mono hle₁).of_some hback.of_some

variable {oh : Option Handle}

theorem ensures_permuteInputs {idx : List Int} (hh : ∀ h ∈ oh, h.InOrder P env.supply) :
    Ensures (permuteInputs c oh idx) env fun h g => h.InOrder P g := by
  refine ensures_observe ?_ Handle.InOrder.mono
  cases oh with
  | none => exact ensures_refuse
  | some h => exact ensures_permuteInputsCore (hh h rfl)

theorem ensures_permuteOutputs {idx : List Int} (hh : ∀ h ∈ oh, h.InOrder P env.supply) :
    Ensures (permuteOutputs c oh idx) env fun h g => h.InOrder P g := by
  refine ensures_observe ?_ Handle.InOrder.mono
  cases oh with
  | none => exact ensures_refuse
  | some h => exact ensures_permuteOutputsCore (hh h rfl)

end Composer

end KernelAlgebra
