import KernelAlgebra.Proofs.Binding.Attributes
import KernelAlgebra.Proofs.Text.Frames

/-!
# Attributes never collide

Stage locations count the symbols that are no builtin, and slots count the resources of a register
class.  A backend writes the number behind a text that no other number of the same direction can
stand behind, so that no two attributes of a direction are decorated alike.
-/

namespace KernelAlgebra

/-- The attributes bind these symbols in this direction, one each and in order. -/
structure Direction.Binds (dir : Direction) (list : List Symbol) (part : List Attribute) :
    Prop where
  listed : part.map Attribute.sym = list
  direction : ∀ a ∈ part, a.direction = dir

/-- The first position is a builtin if there is one, and the others are numbered from zero. -/
structure Stage.Numbers (builtin : Bool) (list : List Symbol) (part : List Attribute) : Prop where
  locations : part.filterMap Attribute.location =
    List.range (part.countP (!Attribute.isBuiltin ·))
  position : ∀ i a, part[i]? = some a → (a.isBuiltin = true ↔
    builtin = true ∧ list.findIdx? (·.semantic = .position) = some i)

/-- The resources of each register class take the slots from zero on, in order. -/
def Target.NumbersSlots (t : Target) (part : List Attribute) : Prop :=
  ∀ c, ∃ count, (part.filter fun a => t.registerClass? a.sym.role = some c).map
    Attribute.location = (List.range count).map some

namespace Target

open Text

variable {t : Target}

/-! ## Stages -/

theorem frames_locationText (t : Target) (isInput : Bool) :
    ∃ front back, Frames front back (t.locationText isInput) ∧
      ¬front.toList <+: t.position.toList := by
  obtain ⟨backend, stage⟩ := t
  cases backend with
  | hlsl | spirv =>
      cases isInput <;> cases stage <;>
        exact ⟨_, _, .of_no_back fun _ => rfl, by decide⟩
  | _ => cases isInput <;> cases stage <;> exact ⟨_, _, fun _ => rfl, by decide⟩

def stageText (t : Target) (isInput : Bool) : Option Nat → String
  | none => t.position
  | some n => t.locationText isInput n

theorem stageText_injective {isInput : Bool} {l l' : Option Nat}
    (h : t.stageText isInput l = t.stageText isInput l') : l = l' := by
  obtain ⟨front, back, hframes, hapart⟩ := t.frames_locationText isInput
  have hne : ∀ n, t.locationText isInput n ≠ t.position :=
    fun n heq => hapart (heq ▸ hframes.front_prefix n)
  cases l with
  | none =>
      cases l' with
      | none => rfl
      | some m => exact absurd h.symm (hne m)
  | some n =>
      cases l' with
      | none => exact absurd h (hne n)
      | some m => exact congrArg some (hframes.injective h)

variable {dir : Direction} {builtin : Bool} {i n : Nat} {list : List Symbol} {a : Attribute}

theorem map_sym_stageAttributes :
    (t.stageAttributes dir builtin i n list).map Attribute.sym = list := by
  induction list generalizing builtin i n with
  | nil => rfl
  | cons s rest ih =>
      simp only [stageAttributes]
      split <;> simp [ih]

theorem sym_mem_of_mem_stageAttributes (ha : a ∈ t.stageAttributes dir builtin i n list) :
    a.sym ∈ list := by
  have hsym := List.mem_map_of_mem (f := Attribute.sym) ha
  rwa [map_sym_stageAttributes] at hsym

theorem of_mem_stageAttributes (ha : a ∈ t.stageAttributes dir builtin i n list) :
    a.direction = dir ∧ a.decoration = t.stageText (dir = .input) a.location := by
  induction list generalizing builtin i n with
  | nil => cases ha
  | cons s rest ih =>
      simp only [stageAttributes] at ha
      split at ha <;> rcases List.mem_cons.mp ha with rfl | ha
      · exact ⟨rfl, rfl⟩
      · exact ih ha
      · exact ⟨rfl, rfl⟩
      · exact ih ha

theorem locations_stageAttributes :
    (t.stageAttributes dir builtin i n list).filterMap Attribute.location =
      List.range' n ((t.stageAttributes dir builtin i n list).countP (!Attribute.isBuiltin ·)) := by
  induction list generalizing builtin i n with
  | nil => rfl
  | cons s rest ih =>
      simp only [stageAttributes]
      split
      · simp [Attribute.isBuiltin, ih]
      · simp [Attribute.isBuiltin, ih, List.range'_succ]

theorem position_stageAttributes {k : Nat}
    (ha : (t.stageAttributes dir builtin i n list)[k]? = some a) :
    a.isBuiltin = true ↔
      builtin = true ∧ list.findIdx? (·.semantic = .position) = some k := by
  induction list generalizing builtin i n k with
  | nil => cases ha
  | cons s rest ih =>
      simp only [stageAttributes] at ha
      rw [List.findIdx?_cons]
      split at ha
      · rename_i hhere
        simp only [Bool.and_eq_true, decide_eq_true_eq] at hhere
        cases k with
        | zero =>
            cases ha
            simp [Attribute.isBuiltin, hhere]
        | succ k => simp [ih ha, hhere]
      · rename_i hhere
        cases k with
        | zero =>
            cases ha
            simp only [Attribute.isBuiltin, Option.isNone_some, Bool.false_eq_true, false_iff]
            rintro ⟨rfl, hfind⟩
            have hsemantic : s.semantic ≠ .position := by simpa using hhere
            simp [hsemantic] at hfind
        | succ k =>
            rw [ih ha]
            refine and_congr_right fun hbuiltin => ?_
            have hsemantic : s.semantic ≠ .position := by simpa [hbuiltin] using hhere
            simp [hsemantic]

theorem numbers_stageAttributes (t : Target) (dir : Direction) (builtin : Bool)
    (list : List Symbol) : Stage.Numbers builtin list (t.stageAttributes dir builtin 0 0 list) where
  locations := by rw [locations_stageAttributes, List.range_eq_range']
  position := fun _ _ => position_stageAttributes

theorem nodup_location_stageAttributes :
    ((t.stageAttributes dir builtin i n list).map Attribute.location).Nodup := by
  induction list generalizing builtin i n with
  | nil => exact List.nodup_nil
  | cons s rest ih =>
      simp only [stageAttributes]
      split <;> refine List.nodup_cons.mpr ⟨fun hmem => ?_, ih⟩ <;>
        obtain ⟨a, ha, hlocation⟩ := List.mem_map.mp hmem
      · -- the builtin is used up
        obtain ⟨k, hk⟩ := List.mem_iff_getElem?.mp ha
        simpa [Attribute.isBuiltin, hlocation] using position_stageAttributes hk
      · -- all later locations are greater
        have hlater := List.mem_filterMap.mpr ⟨a, ha, hlocation⟩
        rw [locations_stageAttributes, List.mem_range'_1] at hlater
        omega

theorem binds_stageAttributes (t : Target) (dir : Direction) (builtin : Bool)
    (list : List Symbol) : dir.Binds list (t.stageAttributes dir builtin 0 0 list) where
  listed := map_sym_stageAttributes
  direction := fun _ ha => (of_mem_stageAttributes ha).1

theorem nodup_decoration_stageAttributes :
    ((t.stageAttributes dir builtin i n list).map Attribute.decoration).Nodup := by
  have hdecoration : (t.stageAttributes dir builtin i n list).map Attribute.decoration =
      ((t.stageAttributes dir builtin i n list).map Attribute.location).map
        (t.stageText (dir = .input)) := by
    rw [List.map_map]
    exact List.map_congr_left fun a ha => (of_mem_stageAttributes ha).2
  rw [hdecoration]
  exact nodup_location_stageAttributes.map fun _ _ => stageText_injective

theorem countP_isBuiltin_stageAttributes (t : Target) (dir : Direction) (builtin : Bool)
    (i n : Nat) (list : List Symbol) :
    (t.stageAttributes dir builtin i n list).countP Attribute.isBuiltin ≤ builtin.toNat := by
  induction list generalizing builtin i n with
  | nil => exact Nat.zero_le _
  | cons s rest ih =>
      simp only [stageAttributes]
      split
      · rename_i hhere
        obtain ⟨rfl, _⟩ : builtin = true ∧ _ := Bool.and_eq_true_iff.mp hhere
        rw [List.countP_cons_of_pos rfl]
        exact Nat.succ_le_succ (ih false (i + 1) n)
      · rw [List.countP_cons_of_neg (by simp [Attribute.isBuiltin])]
        exact ih builtin (i + 1) (n + 1)

/-! ## Slots -/

/-- What stands around the number of a slot, for each kind of resource and its register class. -/
def slotForms : Backend → List (String × String × RegisterClass)
  | .glsl =>
      [("layout(binding = ", ") uniform", .textures),
       ("layout(std430, binding = ", ") buffer", .textures),
       ("layout(location = ", ") uniform", .values)]
  | .hlsl =>
      [("register(t", ")", .textures), ("register(u", ")", .streams), ("register(c", ")", .values)]
  | .msl => [("[[texture(", ")]]", .textures), ("[[buffer(", ")]]", .values)]
  | .spirv => [("DescriptorSet 0 Binding ", "", .values)]
  | .arb => [("texture[", "]", .textures), ("program.local[", "]", .values)]

theorem exists_slotForm {role : Role} {c : RegisterClass} (hc : t.registerClass? role = some c) :
    ∃ front back, (front, back, c) ∈ slotForms t.backend ∧ Frames front back (t.slotText role) := by
  obtain ⟨backend, stage⟩ := t
  cases backend with
  | spirv =>
      cases role <;> cases hc <;>
        exact ⟨_, _, List.mem_singleton.mpr rfl, .of_no_back fun _ => rfl⟩
  | _ =>
      cases role <;> cases hc <;> exact ⟨_, _, by simp [slotForms, toString], fun _ => rfl⟩

theorem slotForms_apart (b : Backend) : ∀ f ∈ slotForms b, ∀ f' ∈ slotForms b,
    f.1.toList <+: f'.1.toList → f = f' := by
  cases b <;> decide

theorem slotText_injective {role role' : Role} {c c' : RegisterClass} {n n' : Nat}
    (hc : t.registerClass? role = some c) (hc' : t.registerClass? role' = some c')
    (h : t.slotText role n = t.slotText role' n') : c = c' ∧ n = n' := by
  obtain ⟨front, back, hform, hframes⟩ := exists_slotForm hc
  obtain ⟨front', back', hform', hframes'⟩ := exists_slotForm hc'
  have hsame : (front, back, c) = (front', back', c') := by
    rcases hframes.comparable hframes' h with hprefix | hprefix
    · exact slotForms_apart _ _ hform _ hform' hprefix
    · exact (slotForms_apart _ _ hform' _ hform hprefix).symm
  cases hsame
  exact ⟨rfl, hframes.injective (h.trans ((hframes' n').trans (hframes n').symm))⟩

variable {used : List RegisterClass} {res : List Attribute}

theorem map_sym_resourceAttributes (h : t.resourceAttributes used i list = .ok res) :
    res.map Attribute.sym = list := by
  induction list generalizing used i res with
  | nil =>
      cases h
      rfl
  | cons s rest ih =>
      obtain ⟨c, more, _, hmore, rfl⟩ := resourceAttributes_cons_eq_ok h
      rw [List.map_cons, ih hmore]

theorem sym_mem_of_mem_resourceAttributes (h : t.resourceAttributes used i list = .ok res)
    (ha : a ∈ res) : a.sym ∈ list := by
  have hsym := List.mem_map_of_mem (f := Attribute.sym) ha
  rwa [map_sym_resourceAttributes h] at hsym

theorem of_mem_resourceAttributes (h : t.resourceAttributes used i list = .ok res)
    (ha : a ∈ res) : a.direction = .resource ∧ ∃ c n, t.registerClass? a.sym.role = some c ∧
      a.location = some n ∧ used.count c ≤ n ∧ a.decoration = t.slotText a.sym.role n := by
  induction list generalizing used i res with
  | nil =>
      cases h
      cases ha
  | cons s rest ih =>
      obtain ⟨c, more, hc, hmore, rfl⟩ := resourceAttributes_cons_eq_ok h
      rcases List.mem_cons.mp ha with rfl | ha
      · exact ⟨rfl, c, used.count c, hc, rfl, Nat.le_refl _, rfl⟩
      · obtain ⟨hdirection, c', n, hc', hn, hle, htext⟩ := ih hmore ha
        have hcount := (List.sublist_cons_self c used).count_le c'
        exact ⟨hdirection, c', n, hc', hn, hcount.trans hle, htext⟩

theorem slots_resourceAttributes (h : t.resourceAttributes used i list = .ok res)
    (c : RegisterClass) : ∃ count,
      (res.filter fun a => t.registerClass? a.sym.role = some c).map Attribute.location =
        (List.range' (used.count c) count).map some := by
  induction list generalizing used i res with
  | nil =>
      cases h
      exact ⟨0, rfl⟩
  | cons s rest ih =>
      obtain ⟨c', more, hc', hmore, rfl⟩ := resourceAttributes_cons_eq_ok h
      obtain ⟨count, hslots⟩ := ih hmore
      by_cases hsame : c' = c
      · subst hsame
        exact ⟨count + 1, by simp [hc', hslots, List.range'_succ]⟩
      · exact ⟨count, by simp [hc', hsame, hslots]⟩

theorem nodup_decoration_resourceAttributes (h : t.resourceAttributes used i list = .ok res) :
    (res.map Attribute.decoration).Nodup := by
  induction list generalizing used i res with
  | nil =>
      cases h
      exact List.nodup_nil
  | cons s rest ih =>
      obtain ⟨c, more, hc, hmore, rfl⟩ := resourceAttributes_cons_eq_ok h
      refine List.nodup_cons.mpr ⟨fun hmem => ?_, ih hmore⟩
      obtain ⟨a, ha, htext⟩ := List.mem_map.mp hmem
      obtain ⟨_, c', n, hc', _, hle, htext'⟩ := of_mem_resourceAttributes hmore ha
      obtain ⟨rfl, rfl⟩ := slotText_injective hc' hc (htext'.symm.trans htext)
      rw [List.count_cons_self] at hle
      omega

theorem binds_resourceAttributes (h : t.resourceAttributes [] 0 list = .ok res) :
    Direction.resource.Binds list res where
  listed := map_sym_resourceAttributes h
  direction := fun _ ha => (of_mem_resourceAttributes h ha).1

theorem countP_isBuiltin_resourceAttributes (h : t.resourceAttributes used i list = .ok res) :
    res.countP Attribute.isBuiltin = 0 := by
  refine List.countP_eq_zero.mpr fun a ha => ?_
  obtain ⟨_, _, n, _, hn, _⟩ := of_mem_resourceAttributes h ha
  simp [Attribute.isBuiltin, hn]

theorem numbersSlots_resourceAttributes (h : t.resourceAttributes [] 0 list = .ok res) :
    t.NumbersSlots res := by
  intro c
  obtain ⟨count, hslots⟩ := slots_resourceAttributes h c
  exact ⟨count, by simpa [List.range_eq_range'] using hslots⟩

/-! ## Interfaces -/

variable {inputs outputs resources : List Symbol} {attrs : List Attribute}

theorem attributes_eq_ok (h : t.attributes inputs outputs resources = .ok attrs) :
    ∃ res, t.resourceAttributes [] 0 resources = .ok res ∧
      attrs = t.stageAttributes .input (t.stage = .fragment) 0 0 inputs ++
        t.stageAttributes .output (t.stage = .vertex) 0 0 outputs ++ res := by
  unfold attributes at h
  split at h
  · cases h
  · cases hres : t.resourceAttributes [] 0 resources with
    | error e => simp [hres, Except.map] at h
    | ok res =>
        rw [hres] at h
        exact ⟨res, rfl, (Except.ok.inj h).symm⟩

theorem attributes_of_tryAttributes (h : t.tryAttributes inputs outputs resources = .ok attrs) :
    t.attributes inputs outputs resources = .ok attrs := by
  unfold tryAttributes at h
  split at h
  · cases h
  split at h
  · cases h
  split at h
  · cases h
  rename_i hattrs
  split at h
  · cases h
  rename_i hsolid
  have htake : resources.takeWhile (!·.isHole) = resources := by
    simpa [List.takeWhile_eq_self_iff] using hsolid
  rw [htake] at hattrs
  rw [hattrs]
  exact congrArg Except.ok (Except.ok.inj h)

theorem pairwise_append_of_binds {R : Attribute → Attribute → Prop}
    {ins outs res : List Attribute} (hins : Direction.input.Binds inputs ins)
    (houts : Direction.output.Binds outputs outs) (hres : Direction.resource.Binds resources res)
    (h : ∀ part ∈ [ins, outs, res], part.Pairwise R) :
    (ins ++ outs ++ res).Pairwise fun a b => a.direction = b.direction → R a b := by
  have within : ∀ part ∈ [ins, outs, res],
      part.Pairwise fun a b => a.direction = b.direction → R a b := by
    intro part hpart
    refine (h part hpart).imp ?_
    intro a b hR _
    exact hR
  refine List.pairwise_append.mpr
    ⟨List.pairwise_append.mpr ⟨within ins (by simp), within outs (by simp), ?_⟩,
      within res (by simp), ?_⟩
  · intro a ha b hb hdirection
    simp [hins.direction a ha, houts.direction b hb] at hdirection
  · intro a ha b hb hdirection
    rcases List.mem_append.mp ha with ha | ha
    · simp [hins.direction a ha, hres.direction b hb] at hdirection
    · simp [houts.direction a ha, hres.direction b hb] at hdirection

/--
The attributes of an interface stand for its inputs, outputs and resources, in this order.  Inputs
and outputs are numbered from zero each, but for the first position on the side where the stage has
a builtin for it, and so are the resources of each register class.  No two attributes of a direction
have the same decoration.
-/
theorem attributes_never_collide (h : t.tryAttributes inputs outputs resources = .ok attrs) :
    (∃ ins outs res, attrs = ins ++ outs ++ res ∧
      (Direction.input.Binds inputs ins ∧ Direction.output.Binds outputs outs ∧
        Direction.resource.Binds resources res) ∧
      Stage.Numbers (t.stage = .fragment) inputs ins ∧
      Stage.Numbers (t.stage = .vertex) outputs outs ∧ t.NumbersSlots res) ∧
    attrs.countP Attribute.isBuiltin ≤ 1 ∧
    attrs.Pairwise fun a b => a.direction = b.direction → a.decoration ≠ b.decoration := by
  obtain ⟨res, hres, rfl⟩ := attributes_eq_ok (attributes_of_tryAttributes h)
  have hins := binds_stageAttributes t .input (t.stage = .fragment) inputs
  have houts := binds_stageAttributes t .output (t.stage = .vertex) outputs
  refine ⟨⟨_, _, res, rfl, ⟨hins, houts, binds_resourceAttributes hres⟩,
    numbers_stageAttributes t .input _ inputs, numbers_stageAttributes t .output _ outputs,
    numbersSlots_resourceAttributes hres⟩, ?_, ?_⟩
  · -- a stage has a builtin on one side at most
    have hinput := countP_isBuiltin_stageAttributes t .input (t.stage = .fragment) 0 0 inputs
    have houtput := countP_isBuiltin_stageAttributes t .output (t.stage = .vertex) 0 0 outputs
    have hsides :
        (decide (t.stage = .fragment)).toNat + (decide (t.stage = .vertex)).toNat ≤ 1 := by
      cases t.stage <;> decide
    rw [List.countP_append, List.countP_append, countP_isBuiltin_resourceAttributes hres]
    omega
  · refine pairwise_append_of_binds hins houts (binds_resourceAttributes hres) ?_
    simp only [List.forall_mem_cons, List.not_mem_nil, false_imp_iff, implies_true, and_true]
    exact ⟨List.pairwise_map.mp nodup_decoration_stageAttributes,
      List.pairwise_map.mp nodup_decoration_stageAttributes,
      List.pairwise_map.mp (nodup_decoration_resourceAttributes hres)⟩

theorem attributes_never_collide_fragment :
    let color : Symbol := ⟨1, .input, 4, .float32, .color, "tint", []⟩
    let place : Symbol := ⟨2, .input, 4, .float32, .position, "place", []⟩
    let shade : Symbol := ⟨3, .input, 4, .float32, .color, "shade", []⟩
    let out : Symbol := ⟨4, .output, 4, .float32, .color, "result", []⟩
    let scale : Symbol := ⟨5, .uniform, 1, .float32, .attrib, "scale", []⟩
    let image : Symbol := ⟨6, .texture, 4, .float32, .attrib, "image", []⟩
    let data : Symbol := ⟨7, .stream, 4, .float32, .attrib, "data", []⟩
    ∃ attrs, (⟨.glsl, .fragment⟩ : Target).tryAttributes [color, place, shade] [out]
        [scale, image, data] = .ok attrs ∧
      attrs.map Attribute.location =
        [some 0, none, some 1, some 0, some 0, some 0, some 1] ∧
      attrs.countP Attribute.isBuiltin ≤ 1 ∧
      attrs.Pairwise fun a b => a.direction = b.direction → a.decoration ≠ b.decoration := by
  intro color place shade out scale image data
  have hbound : (⟨.glsl, .fragment⟩ : Target).tryAttributes [color, place, shade] [out]
      [scale, image, data] = .ok _ := rfl
  exact ⟨_, hbound, rfl, (attributes_never_collide hbound).2⟩

end Target

end KernelAlgebra
