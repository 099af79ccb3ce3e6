import KernelAlgebra.Binding.Attribute
import KernelAlgebra.Proofs.Compose.Closure
import KernelAlgebra.Shader.Writer
import Mathlib.Data.List.TakeWhile

/-!
# The attributes of a handle and of the program that it resolves to

A handle lists the sources of its bindings behind all other resources.  Resolving turns the
bindings into assignments, so that a uniform source joins the uniforms, before the textures, and
a constant is no resource at all.  Slots count the resources of a class from the front, hence
the two lists agree only as far as their orders do.
-/

namespace KernelAlgebra

structure Attribute.Matches (a a' : Attribute) : Prop where
  direction : a.direction = a'.direction
  location : a.location = a'.location
  identifier : a.identifier = a'.identifier
  decoration : a.decoration = a'.decoration

/-- The attributes bind one symbol alike.  An unnamed one is called after its place in the list. -/
structure Attribute.BindsAlike (a a' : Attribute) : Prop where
  sym : a.sym = a'.sym
  direction : a.direction = a'.direction
  location : a.location = a'.location
  decoration : a.decoration = a'.decoration
  identifier : a.sym.name ≠ "" → a.identifier = a'.identifier

theorem Attribute.Matches.refl (a : Attribute) : a.Matches a :=
  ⟨rfl, rfl, rfl, rfl⟩

theorem Attribute.map_identifier_of_matches {list list' : List Attribute}
    (h : List.Forall₂ Matches list list') : list.map identifier = list'.map identifier := by
  induction h with
  | nil => rfl
  | cons hmatches _ ih => rw [List.map_cons, List.map_cons, hmatches.identifier, ih]

namespace Target

variable {t : Target}

/-! ## Stages -/

theorem forall₂_stageAttributes {dir : Direction} {builtin : Bool} {i n : Nat}
    {list list' : List Symbol} (h : list.map Symbol.face = list'.map Symbol.face) :
    List.Forall₂ Attribute.Matches (t.stageAttributes dir builtin i n list)
      (t.stageAttributes dir builtin i n list') := by
  induction list generalizing list' builtin i n with
  | nil =>
      rw [List.map_eq_nil_iff.mp h.symm]
      exact .nil
  | cons s rest ih =>
      cases list' with
      | nil => simp at h
      | cons s' rest' =>
          obtain ⟨hface, hrest⟩ := List.cons.inj h
          have hname : s.name = s'.name := Symbol.name_of_face hface
          have hsemantic : s.semantic = s'.semantic := Symbol.semantic_of_face hface
          have hidentifier : t.identifier dir i s = t.identifier dir i s' := by
            unfold identifier
            rw [hname]
          unfold stageAttributes
          rw [hsemantic, hidentifier]
          split
          · exact .cons ⟨rfl, rfl, rfl, rfl⟩ (ih hrest)
          · exact .cons ⟨rfl, rfl, rfl, rfl⟩ (ih hrest)

/-! ## Slots -/

def slotClasses (t : Target) (list : List Symbol) : List RegisterClass :=
  (list.filterMap fun s => t.registerClass? s.role).reverse

theorem registerClass?_value {role : Role} (h : role = .uniform ∨ role = .const) :
    t.registerClass? role = some .values := by
  unfold registerClass?
  rcases h with rfl | rfl <;> cases t.backend <;> rfl

theorem resourceAttributes_cons {used : List RegisterClass} {i : Nat} {s : Symbol}
    {rest : List Symbol} {c : RegisterClass} (hc : t.registerClass? s.role = some c) :
    t.resourceAttributes used i (s :: rest) = (t.resourceAttributes (c :: used) (i + 1) rest).map
      (⟨s, .resource, some (used.count c), t.identifier .resource i s,
        t.slotText s.role (used.count c)⟩ :: ·) := by
  simp only [resourceAttributes, hc]

theorem resourceAttributes_cons_eq_ok {used : List RegisterClass} {i : Nat} {s : Symbol}
    {rest : List Symbol} {res : List Attribute}
    (h : t.resourceAttributes used i (s :: rest) = .ok res) :
    ∃ c more, t.registerClass? s.role = some c ∧
      t.resourceAttributes (c :: used) (i + 1) rest = .ok more ∧
      res = ⟨s, .resource, some (used.count c), t.identifier .resource i s,
        t.slotText s.role (used.count c)⟩ :: more := by
  cases hc : t.registerClass? s.role with
  | none => simp [resourceAttributes, hc] at h
  | some c =>
      rw [resourceAttributes_cons hc] at h
      cases hmore : t.resourceAttributes (c :: used) (i + 1) rest with
      | error e => simp [hmore, Except.map] at h
      | ok more =>
          rw [hmore] at h
          exact ⟨c, more, rfl, hmore, (Except.ok.inj h).symm⟩

theorem resourceAttributes_cases (used : List RegisterClass) (i : Nat) (list : List Symbol) :
    (∃ s, list.find? (fun s => (t.registerClass? s.role).isNone) = some s ∧
        t.resourceAttributes used i list = .error (.streamResource t s)) ∨
      list.find? (fun s => (t.registerClass? s.role).isNone) = none ∧
        ∃ res, t.resourceAttributes used i list = .ok res := by
  induction list generalizing used i with
  | nil => exact .inr ⟨rfl, [], rfl⟩
  | cons s rest ih =>
      cases hc : t.registerClass? s.role with
      | none =>
          refine .inl ⟨s, by simp [hc], ?_⟩
          simp only [resourceAttributes, hc]
      | some c =>
          have hfind : (s :: rest).find? (fun s => (t.registerClass? s.role).isNone) =
              rest.find? fun s => (t.registerClass? s.role).isNone := by
            simp [hc]
          rw [resourceAttributes_cons hc, hfind]
          rcases ih (c :: used) (i + 1) with ⟨s', hs', herror⟩ | ⟨hnone, res, hres⟩
          · exact .inl ⟨s', hs', by rw [herror]; rfl⟩
          · exact .inr ⟨hnone, _, by rw [hres]; rfl⟩

theorem resourceAttributes_append {used : List RegisterClass} {i : Nat} {xs ys : List Symbol}
    {res : List Attribute} (h : t.resourceAttributes used i (xs ++ ys) = .ok res) :
    ∃ a b, t.resourceAttributes used i xs = .ok a ∧
      t.resourceAttributes (t.slotClasses xs ++ used) (i + xs.length) ys = .ok b ∧
      res = a ++ b := by
  induction xs generalizing used i res with
  | nil => exact ⟨[], res, rfl, h, rfl⟩
  | cons s xs ih =>
      obtain ⟨c, more, hc, hmore, rfl⟩ := resourceAttributes_cons_eq_ok h
      obtain ⟨a, b, ha, hb, rfl⟩ := ih hmore
      refine ⟨_, b, by rw [resourceAttributes_cons hc, ha]; rfl, ?_, rfl⟩
      have hclasses : t.slotClasses (s :: xs) ++ used = t.slotClasses xs ++ c :: used := by
        simp [slotClasses, hc]
      rw [hclasses, List.length_cons, Nat.add_comm xs.length, ← Nat.add_assoc]
      exact hb

theorem forall₂_bindsAlike {used used' : List RegisterClass} {i i' : Nat} {list : List Symbol}
    {a a' : List Attribute} (ha : t.resourceAttributes used i list = .ok a)
    (ha' : t.resourceAttributes used' i' list = .ok a')
    (hcount : ∀ s ∈ list, ∀ c, t.registerClass? s.role = some c → used.count c = used'.count c) :
    List.Forall₂ Attribute.BindsAlike a a' := by
  induction list generalizing used used' i i' a a' with
  | nil =>
      cases ha
      cases ha'
      exact .nil
  | cons s rest ih =>
      obtain ⟨c, b, hc, hb, rfl⟩ := resourceAttributes_cons_eq_ok ha
      obtain ⟨c', b', hc', hb', rfl⟩ := resourceAttributes_cons_eq_ok ha'
      cases hc.symm.trans hc'
      rw [hcount s (by simp) c hc]
      refine .cons ⟨rfl, rfl, rfl, rfl, ?_⟩ (ih hb hb' ?_)
      · intro hname
        have hname : s.name ≠ "" := hname
        simp [identifier, hname]
      · intro s' hs' d hd
        simp [List.count_cons, hcount s' (by simp [hs']) d hd]

/-- Textures and streams have registers of their own. -/
def Separates (t : Target) (textures : List Symbol) : Prop :=
  ∀ s ∈ textures, t.registerClass? s.role ≠ some .values

theorem separates_glsl {textures : List Symbol} (hglsl : t.backend = .glsl)
    (hroles : ∀ s ∈ textures, s.role ∈ [Role.texture, Role.stream]) : t.Separates textures := by
  intro s hs
  have hrole := hroles s hs
  simp only [List.mem_cons, List.not_mem_nil, or_false] at hrole
  rcases hrole with hrole | hrole <;> simp [registerClass?, hglsl, hrole]

theorem count_values_slotClasses {textures : List Symbol} (h : t.Separates textures) :
    (t.slotClasses textures).count .values = 0 := by
  rw [List.count_eq_zero, slotClasses, List.mem_reverse, List.mem_filterMap]
  rintro ⟨s, hs, hclass⟩
  exact h s hs hclass

theorem count_slotClasses_values {list : List Symbol} {c : RegisterClass}
    (hlist : ∀ s ∈ list, t.registerClass? s.role = some .values) (hc : c ≠ .values) :
    (t.slotClasses list).count c = 0 := by
  rw [List.count_eq_zero, slotClasses, List.mem_reverse, List.mem_filterMap]
  rintro ⟨s, hs, hclass⟩
  rw [hlist s hs] at hclass
  exact hc (Option.some.inj hclass).symm

theorem slotClasses_append (xs ys : List Symbol) :
    t.slotClasses (xs ++ ys) = t.slotClasses ys ++ t.slotClasses xs := by
  simp [slotClasses]

/-- Where textures have registers of their own, values may stand before or behind them. -/
theorem resourceAttributes_swap {uniforms textures values : List Symbol} {res res' : List Attribute}
    (hres : t.resourceAttributes [] 0 (uniforms ++ textures ++ values) = .ok res)
    (hres' : t.resourceAttributes [] 0 (uniforms ++ values ++ textures) = .ok res')
    (htextures : t.Separates textures)
    (hvalues : ∀ s ∈ values, t.registerClass? s.role = some .values) :
    ∃ own tex new tex' new', res = own ++ tex ++ new ∧ res' = own ++ new' ++ tex' ∧
      List.Forall₂ Attribute.BindsAlike tex tex' ∧
      List.Forall₂ Attribute.BindsAlike new new' := by
  obtain ⟨_, new, hfront, hnew, rfl⟩ := resourceAttributes_append hres
  obtain ⟨own, tex, hown, htex, rfl⟩ := resourceAttributes_append hfront
  obtain ⟨_, tex', hfront', htex', rfl⟩ := resourceAttributes_append hres'
  obtain ⟨own', new', hown', hnew', rfl⟩ := resourceAttributes_append hfront'
  rw [hown] at hown'
  cases hown'
  refine ⟨own, tex, new, tex', new', rfl, rfl, forall₂_bindsAlike htex htex' ?_,
    forall₂_bindsAlike hnew hnew' ?_⟩
  · intro s hs c hc
    have hother : c ≠ .values := by
      rintro rfl
      exact htextures s hs hc
    simp [slotClasses_append, count_slotClasses_values hvalues hother]
  · intro s hs c hc
    rw [hvalues s hs] at hc
    cases hc
    simp [slotClasses_append, count_values_slotClasses htextures]

theorem tryAttributes_of_solid {inputs outputs resources : List Symbol}
    (hinputs : ∀ s ∈ inputs, s.isHole = false) (houtputs : ∀ s ∈ outputs, s.isHole = false)
    (hresources : ∀ s ∈ resources, s.isHole = false) :
    t.tryAttributes inputs outputs resources =
      (t.attributes inputs outputs resources).mapError .error := by
  have htake : resources.takeWhile (!·.isHole) = resources :=
    List.takeWhile_eq_self_iff.mpr fun s hs => by simp [hresources s hs]
  have hany : (inputs ++ outputs).any (·.isHole) = false := by
    simp only [List.any_append, Bool.or_eq_false_iff, List.any_eq_false, Bool.not_eq_true]
    exact ⟨hinputs, houtputs⟩
  have hany' : resources.any (·.isHole) = false := by
    simpa only [List.any_eq_false, Bool.not_eq_true] using hresources
  unfold tryAttributes
  rw [htake, hany, hany']
  by_cases hcompute : (t.stage = .compute && inputs.length + outputs.length != 0) = true
  · simp only [attributes, if_pos hcompute]
    rfl
  · simp only [attributes, if_neg hcompute, resourceAttributes, Except.map, Bool.false_eq_true,
      if_false]
    cases t.resourceAttributes [] 0 resources <;> rfl

theorem attributes_agree {inputs inputs' outputs outputs' resources resources' : List Symbol}
    (hinputs : inputs.map Symbol.face = inputs'.map Symbol.face)
    (houtputs : outputs.map Symbol.face = outputs'.map Symbol.face)
    (hfind : resources.find? (fun s => (t.registerClass? s.role).isNone) =
      resources'.find? fun s => (t.registerClass? s.role).isNone) :
    (∃ e, t.attributes inputs outputs resources = .error e ∧
        t.attributes inputs' outputs' resources' = .error e) ∨
      ∃ stage stage' res res', t.attributes inputs outputs resources = .ok (stage ++ res) ∧
        t.attributes inputs' outputs' resources' = .ok (stage' ++ res') ∧
        List.Forall₂ Attribute.Matches stage stage' ∧
        t.resourceAttributes [] 0 resources = .ok res ∧
        t.resourceAttributes [] 0 resources' = .ok res' := by
  have hin : inputs.length = inputs'.length := by simpa using congrArg List.length hinputs
  have hout : outputs.length = outputs'.length := by simpa using congrArg List.length houtputs
  unfold attributes
  rw [← hin, ← hout]
  by_cases hcompute : (t.stage = .compute && inputs.length + outputs.length != 0) = true
  · rw [if_pos hcompute, if_pos hcompute]
    exact .inl ⟨_, rfl, rfl⟩
  · rw [if_neg hcompute, if_neg hcompute]
    rcases resourceAttributes_cases (t := t) [] 0 resources with
      ⟨s, hs, herror⟩ | ⟨hnone, res, hres⟩
    · rcases resourceAttributes_cases (t := t) [] 0 resources' with
        ⟨s', hs', herror'⟩ | ⟨hnone', _⟩
      · rw [hfind, hs'] at hs
        cases hs
        exact .inl ⟨_, by rw [herror]; rfl, by rw [herror']; rfl⟩
      · rw [hfind, hnone'] at hs
        cases hs
    · rcases resourceAttributes_cases (t := t) [] 0 resources' with
        ⟨s', hs', _⟩ | ⟨_, res', hres'⟩
      · rw [hfind, hs'] at hnone
        cases hnone
      · exact .inr ⟨_, _, res, res', by rw [hres]; rfl, by rw [hres']; rfl,
          List.rel_append (forall₂_stageAttributes hinputs) (forall₂_stageAttributes houtputs),
          hres, hres'⟩

end Target

/-! ## Resources -/

def Binding.newSources (bindings : List Binding) (uniforms : List Symbol) : List Symbol :=
  (dedup (bindings.map Binding.source)).filter (· ∉ uniforms)

theorem RoleList.dedup_append {roles roles' : List Role} {xs ys : List Symbol}
    (hxs : RoleList roles xs) (hys : RoleList roles' ys) (happart : ∀ r ∈ roles, r ∉ roles') :
    dedup (xs ++ ys) = xs ++ ys := by
  apply dedup_of_nodup
  rw [List.nodup_append]
  refine ⟨hxs.nodup, hys.nodup, ?_⟩
  rintro s hs t ht rfl
  exact happart _ (hxs.role s hs) (hys.role s ht)

theorem RoleList.not_mem {roles : List Role} {list : List Symbol} (h : RoleList roles list)
    {s : Symbol} (hrole : s.role ∉ roles) : s ∉ list :=
  mt (h.role s) hrole

theorem Interface.Orderly.mem_uniforms {l : Interface} (h : l.Orderly) {s : Symbol}
    (hs : s ∈ l.symbols) (hrole : s.role = .uniform) : s ∈ l.uniforms := by
  simpa [mem_symbols, h.inputs.not_mem, h.outputs.not_mem, h.temps.not_mem, h.constants.not_mem,
    h.textures.not_mem, hrole] using hs

theorem Interface.Orderly.mem_textures {l : Interface} (h : l.Orderly) {s : Symbol}
    (hs : s ∈ l.symbols) (hrole : s.role = .texture ∨ s.role = .stream) : s ∈ l.textures := by
  rcases hrole with hrole | hrole <;>
    simpa [mem_symbols, h.inputs.not_mem, h.outputs.not_mem, h.temps.not_mem,
      h.constants.not_mem, h.uniforms.not_mem, hrole] using hs

section Lists

variable {p : Program} {bindings : List Binding} {g g' : Supply} {m : Renaming} {block : Block}

theorem dedup_resources_sources (hp : p.toInterface.Orderly) (hproper : ∀ b ∈ bindings, b.Proper)
    (huniform : ∀ b ∈ bindings, b.kind = .uniform) :
    dedup (p.uniforms ++ p.textures ++ bindings.map Binding.source) =
      p.uniforms ++ p.textures ++ Binding.newSources bindings p.uniforms := by
  have hnot : ∀ s ∈ dedup (bindings.map Binding.source), s ∉ p.textures := by
    intro s hs htexture
    obtain ⟨b, hb, rfl⟩ := List.mem_map.mp (mem_dedup.mp hs)
    have hrole := hp.textures.role _ htexture
    rcases (hproper b hb).role (huniform b hb) with h | h <;> simp [h] at hrole
  rw [dedup_append, hp.uniforms.dedup_append hp.textures (by decide), Binding.newSources]
  congr 1
  apply List.filter_congr
  intro s hs
  simp [hnot s hs]

namespace Resolved

theorem filter_uniform (h : Resolved p.inputs bindings g g' m block)
    (habove : g.Above p.symbols) (hproper : ∀ b ∈ bindings, b.Proper) :
    (block.flatMap Program.instructionSymbols).filter (·.role = .uniform) =
      (bindings.map Binding.source).filter (·.role = .uniform) := by
  have hcopies : List.Forall₂ (fun b i => ∃ d : Symbol, d.isLocal = true ∧ d.isHole = false ∧
      i = Instruction.copy d b.source) bindings block := by
    refine h.copies.imp ?_
    rintro b i ⟨q, hq, _, rfl⟩
    exact ⟨q.2, h.isLocal_new hq, h.solid_new habove hq, rfl⟩
  clear h
  induction hcopies with
  | nil => rfl
  | cons hcopy _ ih =>
      rename_i b _ _ _ _
      obtain ⟨d, hlocal, hsolid, rfl⟩ := hcopy
      have hd : d.role ≠ .uniform := by
        intro hrole
        simp [Symbol.isLocal, hrole, Role.isLocal] at hlocal
      have hsymbols : Program.instructionSymbols (.copy d b.source) = [b.source, d] := by
        simp [Program.instructionSymbols, Instruction.uses, Instruction.sources,
          Instruction.defines, Instruction.copy, View.isAbsent, View.full, hsolid,
          (hproper b (by simp)).1]
      rw [List.flatMap_cons, hsymbols, List.map_cons, List.filter_append,
        ih fun b hb => hproper b (by simp [hb])]
      by_cases hb : b.source.role = .uniform <;> simp [hb, hd]

theorem mem_of_mentions (h : Resolved p.inputs bindings g g' m block) (hp : p.Valid)
    (habove : g.Above p.symbols) (hproper : ∀ b ∈ bindings, b.Proper) {s : Symbol}
    (hs : s ∈ (resolution p bindings.length m block).mentions) (hlocal : s.isLocal = false) :
    s ∈ p.symbols ∨ s ∈ bindings.map Binding.source := by
  obtain ⟨_, hfits⟩ := h.fits hp habove hproper
  have hdeclared := Program.mem_of_mem_mentions hfits hs
  rw [List.mem_append, List.mem_append] at hdeclared
  rcases hdeclared with hold | hnew | hsource
  · obtain ⟨t, ht, rfl⟩ := List.mem_map.mp hold
    cases htlocal : t.isLocal with
    | true =>
        rw [(h.relabels hp habove).stays t ht htlocal] at hlocal
        cases hlocal
    | false =>
        rw [h.apply_of_not_isLocal hp htlocal]
        exact .inl ht
  · obtain ⟨q, hq, rfl⟩ := List.mem_map.mp hnew
    rw [h.isLocal_new hq] at hlocal
    cases hlocal
  · exact .inr hsource

theorem uniforms_resolution (h : Resolved p.inputs bindings g g' m block) (hp : p.Valid)
    (habove : g.Above p.symbols) (hproper : ∀ b ∈ bindings, b.Proper) :
    (resolution p bindings.length m block).collect.uniforms = p.uniforms ++
      (Binding.newSources bindings p.uniforms).filter (·.role = .uniform) := by
  have hfixed : m.onList p.uniforms = p.uniforms :=
    Renaming.onList_of_fixed (fun s hs => h.apply_of_not_isLocal hp
      (hp.orderly.uniforms.isLocal (by decide) hs)) hp.orderly.uniforms.nodup
  have hsound : (m.onGraph p.graph).Sound := hp.sound.of_sameShape (renders_onGraph hp.fits m).shape
  have hentry := (Graph.sequel_prologue hsound block).link _ rfl
  obtain ⟨rest, hrest⟩ := Program.mentions_eq_append
    (p := resolution p bindings.length m block) hentry
  have hsub : ∀ s ∈ rest.filter (·.role = .uniform), s ∈ addNew p.uniforms
      ((bindings.map Binding.source).filter (·.role = .uniform)) := by
    intro s hs
    obtain ⟨hs, hrole⟩ := List.mem_filter.mp hs
    have hrole : s.role = .uniform := by simpa using hrole
    have hlocal : s.isLocal = false := by simp [Symbol.isLocal, hrole, Role.isLocal]
    have hmention : s ∈ (resolution p bindings.length m block).mentions := by simp [hrest, hs]
    rw [mem_addNew, List.mem_filter]
    rcases h.mem_of_mentions hp habove hproper hmention hlocal with hs | hs
    · exact .inl (hp.orderly.mem_uniforms hs hrole)
    · exact .inr ⟨hs, by simp [hrole]⟩
  have hused : (resolution p bindings.length m block).mentions.filter (·.role = .uniform) =
      (bindings.map Binding.source).filter (·.role = .uniform) ++
        rest.filter (·.role = .uniform) := by
    rw [hrest, List.filter_append, ← h.filter_uniform habove hproper]
    simp [Program.nodeSymbols]
  calc (resolution p bindings.length m block).collect.uniforms
      = dedup (m.onList p.uniforms ++
          (resolution p bindings.length m block).mentions.filter (·.role = .uniform)) := rfl
    _ = addNew (addNew (dedup p.uniforms)
          ((bindings.map Binding.source).filter (·.role = .uniform)))
          (rest.filter (·.role = .uniform)) := by
        rw [hfixed, hused, dedup, addNew_append, addNew_append]
        rfl
    _ = addNew p.uniforms ((bindings.map Binding.source).filter (·.role = .uniform)) := by
        rw [dedup_of_nodup hp.orderly.uniforms.nodup, addNew_of_subset hsub]
    _ = p.uniforms ++ (Binding.newSources bindings p.uniforms).filter (·.role = .uniform) := by
        rw [addNew_eq_append, dedup_filter, Binding.newSources, List.filter_comm]

theorem textures_resolution (h : Resolved p.inputs bindings g g' m block) (hp : p.Valid)
    (habove : g.Above p.symbols) (hproper : ∀ b ∈ bindings, b.Proper)
    (huniform : ∀ b ∈ bindings, b.kind = .uniform) :
    (resolution p bindings.length m block).collect.textures = p.textures := by
  have hfixed : m.onList p.textures = p.textures :=
    Renaming.onList_of_fixed (fun s hs => h.apply_of_not_isLocal hp
      (hp.orderly.textures.isLocal (by decide) hs)) hp.orderly.textures.nodup
  have hsub : ∀ s ∈ (resolution p bindings.length m block).mentions.filter (·.isResource),
      s ∈ p.textures := by
    intro s hs
    obtain ⟨hs, hresource⟩ := List.mem_filter.mp hs
    have hrole : s.role = .texture ∨ s.role = .stream := by
      simpa [Symbol.isResource] using hresource
    have hlocal : s.isLocal = false := by
      rcases hrole with hrole | hrole <;> simp [Symbol.isLocal, hrole, Role.isLocal]
    rcases h.mem_of_mentions hp habove hproper hs hlocal with hs | hs
    · exact hp.orderly.mem_textures hs hrole
    · obtain ⟨b, hb, rfl⟩ := List.mem_map.mp hs
      rcases (hproper b hb).role (huniform b hb) with h | h <;> simp [h] at hrole
  calc (resolution p bindings.length m block).collect.textures
      = dedup (m.onList p.textures ++
          (resolution p bindings.length m block).mentions.filter (·.isResource)) := rfl
    _ = addNew (dedup p.textures)
          ((resolution p bindings.length m block).mentions.filter (·.isResource)) := by
        rw [hfixed, dedup, addNew_append]
        rfl
    _ = p.textures := by
        rw [dedup_of_nodup hp.orderly.textures.nodup, addNew_of_subset hsub]

theorem resources_resolution (h : Resolved p.inputs bindings g g' m block) (hp : p.Valid)
    (habove : g.Above p.symbols) (hproper : ∀ b ∈ bindings, b.Proper)
    (huniform : ∀ b ∈ bindings, b.kind = .uniform) :
    (resolution p bindings.length m block).collect.resources = p.uniforms ++
      (Binding.newSources bindings p.uniforms).filter (·.role = .uniform) ++ p.textures := by
  have horderly := (h.valid hp habove hproper).orderly
  unfold Interface.resources
  rw [horderly.uniforms.dedup_append horderly.textures (by decide),
    h.uniforms_resolution hp habove hproper, h.textures_resolution hp habove hproper huniform]

theorem face_apply (h : Resolved p.inputs bindings g g' m block) (s : Symbol) :
    (m.apply s).face = s.face := by
  rcases h.apply_cases s with ⟨_, hnew⟩ | ⟨_, hsame⟩
  · rw [hnew]
    rfl
  · rw [hsame]

end Resolved

end Lists

/-! ## Agreement -/

theorem Handle.Holds.exists_resolved {g : Supply} {h : Handle} {p : Program}
    (hp : h.Holds Binding.Proper g p) (huniform : ∀ b ∈ h.bindings, b.kind = .uniform) :
    ∃ q g', Yields h.resolve g (.ok q) g' ∧ q.Valid ∧ q.target = p.target ∧
      q.inputs = p.inputs.drop h.bindings.length ∧
      q.outputs.map Symbol.face = p.outputs.map Symbol.face ∧
      q.resources = p.uniforms ++
        (Binding.newSources h.bindings p.uniforms).filter (·.role = .uniform) ++ p.textures := by
  have hvalid : p.copied.Valid := (Program.copies_copied hp.valid).valid hp.valid
  rcases hp.yields_resolve huniform with ⟨hyields, hnone⟩ | ⟨m, block, g', hresolved, hyields⟩
  · refine ⟨p.copied, g, hyields, hvalid, rfl, by simp [hnone, Program.copied], rfl, ?_⟩
    have horderly := hp.valid.orderly
    have hresources : p.copied.resources = dedup (p.uniforms ++ p.textures) := rfl
    rw [hresources, horderly.uniforms.dedup_append horderly.textures (by decide), hnone]
    simp [Binding.newSources, dedup, addNew]
  · refine ⟨_, g', hyields, hresolved.valid hvalid hp.above hp.all, rfl,
      hresolved.inputs_resolution hvalid, ?_,
      hresolved.resources_resolution hvalid hp.above hp.all huniform⟩
    rw [Program.outputs_collect, hresolved.outputs_resolution hvalid hp.above, List.map_map]
    exact List.map_congr_left fun s _ => hresolved.face_apply s

theorem exists_of_bind_eq_ok {ε α β : Type} {x : Except ε α} {f : α → Except ε β} {r : β}
    (h : x >>= f = .ok r) : ∃ a, x = .ok a ∧ f a = .ok r := by
  cases x with
  | error e => cases h
  | ok a => exact ⟨a, rfl, h⟩

theorem Shader.attributes_of_emit {p : Program} {t : Target} {o : Options} {out : Output}
    (h : emit p t o = .ok out) : p.attributes = .ok out.attributes := by
  obtain ⟨m, _, h⟩ := exists_of_bind_eq_ok h
  obtain ⟨attrs, hattrs, h⟩ := exists_of_bind_eq_ok h
  obtain ⟨layout, _, h⟩ := exists_of_bind_eq_ok h
  obtain ⟨main, _, h⟩ := exists_of_bind_eq_ok h
  cases h
  cases hattributes : p.attributes with
  | error f =>
      rw [hattributes] at hattrs
      cases hattrs
  | ok list =>
      rw [hattributes] at hattrs
      cases hattrs
      rfl

theorem Shader.attributes_of_compile {s : Sketch} {o : Options} {out : Output}
    (h : compile s o = .ok out) :
    ∃ t, Target.parse s.target = .ok t ∧ t.backend = .glsl ∧
      s.toInterface.attributes = .ok out.attributes := by
  unfold compile at h
  split at h
  · cases h
  rename_i t ht
  split at h
  · cases h
  rename_i hglsl
  refine ⟨t, ht, by simpa using hglsl, ?_⟩
  split at h
  · cases h
  · cases h
  rename_i p _ hp
  rw [Sketch.eq_of_program? hp]
  exact attributes_of_emit h

/--
How the attributes `stage ++ res` of a handle and the attributes `stage' ++ res'` of the program
that it resolves to fit together.
-/
structure Handle.Agreement (h : Handle) (t : Target) (stage res stage' res' : List Attribute) :
    Prop where
  stages : List.Forall₂ Attribute.Matches stage stage'
  listed : t.resourceAttributes [] 0 (h.sketch.uniforms ++ h.sketch.textures ++
    Binding.newSources h.bindings h.sketch.uniforms) = .ok res
  resolved : t.resourceAttributes [] 0 (h.sketch.uniforms ++
    (Binding.newSources h.bindings h.sketch.uniforms).filter (·.role = .uniform) ++
    h.sketch.textures) = .ok res'
  /-- No new resource comes to stand behind a texture. -/
  entrywise : (∀ b ∈ h.bindings, b.source.role = .uniform) →
    h.sketch.textures = [] ∨ (∀ b ∈ h.bindings, b.source ∈ h.sketch.uniforms) →
    List.Forall₂ Attribute.Matches (stage ++ res) (stage' ++ res')
  /-- Every resource keeps its slot where textures have registers of their own. -/
  rearranged : (∀ b ∈ h.bindings, b.source.role = .uniform) → t.Separates h.sketch.textures →
    ∃ own tex new tex' new', res = own ++ tex ++ new ∧ res' = own ++ new' ++ tex' ∧
      List.Forall₂ Attribute.BindsAlike tex tex' ∧ List.Forall₂ Attribute.BindsAlike new new'

theorem Binding.mem_newSources {bindings : List Binding} {uniforms : List Symbol} {s : Symbol}
    (h : s ∈ newSources bindings uniforms) : (∃ b ∈ bindings, b.source = s) ∧ s ∉ uniforms := by
  obtain ⟨hs, hnot⟩ := List.mem_filter.mp h
  exact ⟨List.mem_map.mp (mem_dedup.mp hs), by simpa using hnot⟩

theorem Handle.agreement {h : Handle} {t : Target} {stage res stage' res' : List Attribute}
    (hstages : List.Forall₂ Attribute.Matches stage stage')
    (hlisted : t.resourceAttributes [] 0 (h.sketch.uniforms ++ h.sketch.textures ++
      Binding.newSources h.bindings h.sketch.uniforms) = .ok res)
    (hresolved : t.resourceAttributes [] 0 (h.sketch.uniforms ++
      (Binding.newSources h.bindings h.sketch.uniforms).filter (·.role = .uniform) ++
      h.sketch.textures) = .ok res') : h.Agreement t stage res stage' res' := by
  have hfilter : (∀ b ∈ h.bindings, b.source.role = .uniform) →
      ∀ s ∈ Binding.newSources h.bindings h.sketch.uniforms, s.role = .uniform := by
    intro hall s hs
    obtain ⟨⟨b, hb, rfl⟩, _⟩ := Binding.mem_newSources hs
    exact hall b hb
  refine ⟨hstages, hlisted, hresolved, ?_, ?_⟩
  · intro hall hplace
    rw [List.filter_eq_self.mpr fun s hs => by simp [hfilter hall s hs]] at hresolved
    have hlists : h.sketch.uniforms ++ h.sketch.textures ++
        Binding.newSources h.bindings h.sketch.uniforms = h.sketch.uniforms ++
          Binding.newSources h.bindings h.sketch.uniforms ++ h.sketch.textures := by
      rcases hplace with hnone | hold
      · simp [hnone]
      · have hempty : Binding.newSources h.bindings h.sketch.uniforms = [] := by
          rw [List.eq_nil_iff_forall_not_mem]
          intro s hs
          obtain ⟨⟨b, hb, rfl⟩, hnot⟩ := Binding.mem_newSources hs
          exact hnot (hold b hb)
        simp [hempty]
    rw [hlists, hresolved] at hlisted
    cases hlisted
    exact List.rel_append hstages (List.forall₂_same.mpr fun a _ => .refl a)
  · intro hall hseparates
    rw [List.filter_eq_self.mpr fun s hs => by simp [hfilter hall s hs]] at hresolved
    exact Target.resourceAttributes_swap hlisted hresolved hseparates fun s hs =>
      Target.registerClass?_value (.inl (hfilter hall s hs))

theorem Target.find?_values {t : Target} {list : List Symbol}
    (h : ∀ s ∈ list, s.role = .uniform ∨ s.role = .const) :
    list.find? (fun s => (t.registerClass? s.role).isNone) = none := by
  rw [List.find?_eq_none]
  intro s hs
  simp [registerClass?_value (h s hs)]

theorem Program.Valid.attributes_eq {q : Program} {t : Target} (hq : q.Valid)
    (ht : Target.parse q.target = .ok t) :
    q.attributes = (t.attributes q.inputs q.outputs q.resources).mapError .error := by
  unfold Interface.attributes
  rw [ht]
  apply Target.tryAttributes_of_solid hq.orderly.inputs.solid hq.orderly.outputs.solid
  intro s hs
  rcases List.mem_append.mp (mem_dedup.mp hs) with hs | hs
  · exact hq.orderly.uniforms.solid s hs
  · exact hq.orderly.textures.solid s hs

namespace Handle

theorem Holds.attributes_eq {g : Supply} {h : Handle} {p : Program} {t : Target}
    (hp : h.Holds Binding.Proper g p) (huniform : ∀ b ∈ h.bindings, b.kind = .uniform)
    (ht : Target.parse p.target = .ok t) :
    h.attributes = (t.attributes (p.inputs.drop h.bindings.length) p.outputs
      (p.uniforms ++ p.textures ++ Binding.newSources h.bindings p.uniforms)).mapError .error := by
  have horderly := hp.valid.orderly
  have hfits : ¬p.sketch.inputs.length < h.bindings.length := Nat.not_lt.mpr hp.fed.length_le
  unfold attributes outputs free
  rw [hp.sketch, show Target.parse p.sketch.target = .ok t from ht]
  simp only [if_neg hfits]
  rw [← dedup_resources_sources horderly hp.all huniform]
  refine Target.tryAttributes_of_solid (fun s hs => ?_) horderly.outputs.solid fun s hs => ?_
  · exact horderly.inputs.solid s (List.mem_of_mem_drop hs)
  · simp only [mem_dedup, List.mem_append, List.mem_map] at hs
    rcases hs with (hs | hs) | ⟨b, hb, rfl⟩
    · exact horderly.uniforms.solid s hs
    · exact horderly.textures.solid s hs
    · exact (hp.all b hb).1

theorem Holds.find?_resources {g : Supply} {h : Handle} {p : Program} {t : Target}
    (hp : h.Holds Binding.Proper g p) (huniform : ∀ b ∈ h.bindings, b.kind = .uniform) :
    (p.uniforms ++ p.textures ++ Binding.newSources h.bindings p.uniforms).find?
        (fun s => (t.registerClass? s.role).isNone) =
      (p.uniforms ++ (Binding.newSources h.bindings p.uniforms).filter (·.role = .uniform) ++
        p.textures).find? fun s => (t.registerClass? s.role).isNone := by
  have hown : ∀ s ∈ p.uniforms, s.role = .uniform ∨ s.role = .const :=
    fun s hs => .inl (by simpa using hp.valid.orderly.uniforms.role s hs)
  have hnew : ∀ s ∈ Binding.newSources h.bindings p.uniforms,
      s.role = .uniform ∨ s.role = .const := by
    intro s hs
    obtain ⟨⟨b, hb, rfl⟩, _⟩ := Binding.mem_newSources hs
    exact (hp.all b hb).role (huniform b hb)
  have hkept := fun s hs => hnew s (List.mem_of_mem_filter (p := (·.role = .uniform)) hs)
  simp only [List.find?_append, Target.find?_values hown, Target.find?_values hnew,
    Target.find?_values hkept, Option.none_or, Option.or_none]

/--
A handle whose bindings all take uniforms or constants resolves.  Its attributes and those of
the program that it resolves to fail alike or agree as far as the orders of the resources do, and
the shader of the program has the latter.
-/
theorem attributes_of_resolve {h : Handle} {g : Supply} (hh : h.WellFormed)
    (habove : g.Above h.sketch.symbols) (hproper : ∀ b ∈ h.bindings, b.Proper)
    (huniform : ∀ b ∈ h.bindings, b.kind = .uniform) :
    ∃ q g', h.resolve.run.run g = (.ok q, g') ∧
      ((∃ f, h.attributes = .error f ∧ q.attributes = .error f) ∨
        ∃ t stage res stage' res', Target.parse h.sketch.target = .ok t ∧
          h.attributes = .ok (stage ++ res) ∧ q.attributes = .ok (stage' ++ res') ∧
          h.Agreement t stage res stage' res') ∧
      ∀ o out, Shader.compile q.sketch o = .ok out → q.attributes = .ok out.attributes ∧
        ∃ t, Target.parse h.sketch.target = .ok t ∧ t.Separates h.sketch.textures := by
  obtain ⟨p, hp⟩ := hh.inOrder habove hproper
  obtain ⟨q, g', hyields, hq, htarget, hinputs, houtputs, hresources⟩ :=
    hp.exists_resolved huniform
  have hparse : Target.parse h.sketch.target = Target.parse q.target := by
    rw [hp.sketch, htarget]
    rfl
  refine ⟨q, g', hyields, ?_, ?_⟩
  · cases ht : Target.parse q.target with
    | error e =>
        left
        refine ⟨.error (.target e), ?_, ?_⟩
        · unfold attributes
          rw [hparse, ht]
        · unfold Interface.attributes
          rw [ht]
    | ok t =>
        rw [hp.attributes_eq huniform (htarget ▸ ht), hq.attributes_eq ht, hparse, ht, hinputs,
          hresources]
        rcases Target.attributes_agree (t := t) rfl houtputs.symm
            (hp.find?_resources huniform) with
          ⟨e, he, he'⟩ | ⟨stage, stage', res, res', hok, hok', hstages, hres, hres'⟩
        · exact .inl ⟨.error e, by rw [he]; rfl, by rw [he']; rfl⟩
        · refine .inr ⟨t, stage, res, stage', res', rfl, by rw [hok]; rfl, by rw [hok']; rfl, ?_⟩
          refine agreement hstages ?_ ?_
          · rw [hp.sketch]
            exact hres
          · rw [hp.sketch]
            exact hres'
  · intro o out hcompile
    obtain ⟨t, ht, hglsl, hattributes⟩ := Shader.attributes_of_compile hcompile
    refine ⟨hattributes, t, hparse.trans ht, Target.separates_glsl hglsl ?_⟩
    rw [hp.sketch]
    exact hp.valid.orderly.textures.role

/-- The copying program with its input bound to a source. -/
def copyingBound (target : String) (textures : List Symbol) (source : Symbol) : Handle :=
  ⟨1, 1, { Program.copying with target := target, textures := textures }.sketch,
    [⟨.uniform, source⟩], []⟩

def image : Symbol := ⟨4, .texture, 4, .float32, .attrib, "img", []⟩

def gain : Symbol := ⟨5, .uniform, 1, .float32, .attrib, "gain", []⟩

def two : Symbol := ⟨6, .const, 1, .float32, .attrib, "two", [2]⟩

theorem attributes_of_resolve_glsl : ∃ q g' reported resolved res res',
    (copyingBound "glsl:fragment" [image] gain).resolve.run.run ⟨7⟩ = (.ok q, g') ∧
    (copyingBound "glsl:fragment" [image] gain).attributes = .ok (reported ++ res) ∧
    q.attributes = .ok (resolved ++ res') ∧ List.Forall₂ Attribute.Matches reported resolved ∧
    ∃ own tex new tex' new', res = own ++ tex ++ new ∧ res' = own ++ new' ++ tex' ∧
      List.Forall₂ Attribute.BindsAlike tex tex' ∧
      List.Forall₂ Attribute.BindsAlike new new' := by
  have hwell : (copyingBound "glsl:fragment" [image] gain).WellFormed :=
    ⟨⟨_, rfl, rfl⟩, by decide, by decide⟩
  obtain ⟨q, g', hresolve, hcases, _⟩ := attributes_of_resolve hwell (g := ⟨7⟩) (by decide)
    (by simp [copyingBound, Binding.Proper, gain, Symbol.isHole, BindingKind.takes])
    (by simp [copyingBound])
  rcases hcases with ⟨f, hf, _⟩ | ⟨t, stage, res, stage', res', ht, hok, hok', hagree⟩
  · have hnone : (copyingBound "glsl:fragment" [image] gain).attributes.isOk = true := by
      decide +kernel
    rw [hf] at hnone
    cases hnone
  · have hglsl : Target.parse "glsl:fragment" = .ok ⟨.glsl, .fragment⟩ := by decide +kernel
    obtain rfl : t = ⟨.glsl, .fragment⟩ := by
      have ht : Target.parse "glsl:fragment" = .ok t := ht
      rw [hglsl] at ht
      cases ht
      rfl
    refine ⟨q, g', stage, stage', res, res', hresolve, hok, hok', hagree.stages,
      hagree.rearranged (by simp [copyingBound, gain]) ?_⟩
    exact Target.separates_glsl rfl (by decide)

def bothAttributes (h : Handle) (g : Supply) : Option (List Attribute × List Attribute) :=
  match (h.resolve.run.run g).1, h.attributes with
  | .ok q, .ok a => q.attributes.toOption.map fun a' => (a, a')
  | _, _ => none

theorem exists_of_bothAttributes {h : Handle} {g : Supply} {a a' : List Attribute}
    (hboth : h.bothAttributes g = some (a, a')) :
    ∃ q g', h.resolve.run.run g = (.ok q, g') ∧ h.attributes = .ok a ∧ q.attributes = .ok a' := by
  unfold bothAttributes at hboth
  split at hboth
  · rename_i q b hq hb
    cases hattributes : q.attributes with
    | error f => simp [hattributes, Except.toOption] at hboth
    | ok b' =>
        simp only [hattributes, Except.toOption, Option.map_some, Option.some.injEq,
          Prod.mk.injEq] at hboth
        obtain ⟨rfl, rfl⟩ := hboth
        exact ⟨q, (h.resolve.run.run g).2, Prod.ext hq rfl, hb, hattributes⟩
  · cases hboth

theorem exists_mismatch {h : Handle} {g : Supply}
    (hdiff : (h.bothAttributes g).any (fun q =>
      q.1.map Attribute.identifier ≠ q.2.map Attribute.identifier) = true) :
    ∃ q g' a a', h.resolve.run.run g = (.ok q, g') ∧ h.attributes = .ok a ∧
      q.attributes = .ok a' ∧ ¬List.Forall₂ Attribute.Matches a a' := by
  cases hboth : h.bothAttributes g with
  | none => simp [hboth] at hdiff
  | some q =>
      obtain ⟨p, g', hrun, ha, ha'⟩ := exists_of_bothAttributes hboth
      refine ⟨p, g', q.1, q.2, hrun, ha, ha', fun hmatches => ?_⟩
      have hsame : q.1.map Attribute.identifier = q.2.map Attribute.identifier :=
        Attribute.map_identifier_of_matches hmatches
      simp [hboth, hsame] at hdiff

structure Disagrees (h : Handle) (g : Supply) : Prop where
  wellFormed : h.WellFormed
  above : g.Above h.sketch.symbols
  proper : ∀ b ∈ h.bindings, b.Proper
  uniform : ∀ b ∈ h.bindings, b.kind = .uniform
  mismatch : ∃ q g' a a', h.resolve.run.run g = (.ok q, g') ∧ h.attributes = .ok a ∧
    q.attributes = .ok a' ∧ ¬List.Forall₂ Attribute.Matches a a'

/-- A constant is a resource of the handle only, and a uniform may change places with a texture. -/
theorem attributes_of_resolve_mismatch :
    (copyingBound "glsl:fragment" [] two).Disagrees ⟨7⟩ ∧
      (copyingBound "spirv:fragment" [image] gain).Disagrees ⟨7⟩ := by
  refine ⟨⟨⟨⟨_, rfl, rfl⟩, by decide, by decide⟩, by decide, ?_, by simp [copyingBound],
      exists_mismatch (by decide +kernel)⟩,
    ⟨⟨⟨_, rfl, rfl⟩, by decide, by decide⟩, by decide, ?_, by simp [copyingBound],
      exists_mismatch (by decide +kernel)⟩⟩
  · simp [copyingBound, Binding.Proper, two, Symbol.isHole, BindingKind.takes]
  · simp [copyingBound, Binding.Proper, gain, Symbol.isHole, BindingKind.takes]

end Handle

end KernelAlgebra
