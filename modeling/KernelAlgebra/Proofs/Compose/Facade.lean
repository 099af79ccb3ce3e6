import KernelAlgebra.Proofs.Compose.InOrder

/-!
# What a composition shows to the outside

The facade of a program with bindings consists of its curried inputs, its free inputs and its
outputs.  Connecting joins two facades, and joining is associative.  A program shows a facade
of labels when every label stands for one symbol; a symbol with a label on both sides is then a
channel of both directions.
-/

namespace KernelAlgebra

structure Facade (α : Type) where
  curried : List α
  free : List α
  outputs : List α

namespace Facade

variable {α β : Type}

/-- The outputs of the first facade feed the free inputs of the second one; what is left over
on either side stays. -/
def joined (A B : Facade α) : Facade α :=
  ⟨A.curried ++ B.curried, A.free ++ B.free.drop A.outputs.length,
    B.outputs ++ A.outputs.drop B.free.length⟩

def beside (A B : Facade α) : Facade α :=
  ⟨A.curried ++ B.curried, A.free ++ B.free, A.outputs ++ B.outputs⟩

def map (f : α → β) (A : Facade α) : Facade β :=
  ⟨A.curried.map f, A.free.map f, A.outputs.map f⟩

def inputs (A : Facade α) : List α := A.curried ++ A.free

def all (A : Facade α) : List α := A.inputs ++ A.outputs

theorem map_joined (f : α → β) (A B : Facade α) :
    (A.joined B).map f = (A.map f).joined (B.map f) := by
  simp [joined, map]

theorem map_beside (f : α → β) (A B : Facade α) :
    (A.beside B).map f = (A.map f).beside (B.map f) := by
  simp [beside, map]

theorem map_map {γ : Type} (f : α → β) (f' : β → γ) (A : Facade α) :
    (A.map f).map f' = A.map (f' ∘ f) := by
  simp [map]

theorem length_curried_map (f : α → β) (A : Facade α) :
    (A.map f).curried.length = A.curried.length := by
  simp [map]

theorem length_free_map (f : α → β) (A : Facade α) : (A.map f).free.length = A.free.length := by
  simp [map]

theorem joined_assoc (A B C : Facade α) :
    (A.joined B).joined C = A.joined (B.joined C) := by
  simp only [joined, List.append_assoc, List.length_append, List.length_drop, List.drop_append,
    List.drop_drop]

theorem mem_all_joined {A B : Facade α} {x : α} (h : x ∈ (A.joined B).all) :
    x ∈ A.all ∨ x ∈ B.all := by
  simp only [all, inputs, joined, List.mem_append] at h ⊢
  rcases h with ((h | h) | h | h) | h | h
  · exact .inl (.inl (.inl h))
  · exact .inr (.inl (.inl h))
  · exact .inl (.inl (.inr h))
  · exact .inr (.inl (.inr (List.mem_of_mem_drop h)))
  · exact .inr (.inr h)
  · exact .inl (.inr (List.mem_of_mem_drop h))

/-! ## Sizes -/

/-- Every output of the first facade has the size of the free input that it meets. -/
def Meets (size : α → Nat) (A B : Facade α) : Prop :=
  ∀ q ∈ A.outputs.zip B.free, size q.1 = size q.2

variable {size : α → Nat}

theorem forall_mem_zip_append {P : α × α → Prop} {xs ys zs : List α} :
    (∀ q ∈ (xs ++ ys).zip zs, P q) ↔
      (∀ q ∈ xs.zip zs, P q) ∧ ∀ q ∈ ys.zip (zs.drop xs.length), P q := by
  induction xs generalizing zs with
  | nil => simp
  | cons x xs ih =>
      cases zs with
      | nil => simp
      | cons z zs =>
          simp only [List.cons_append, List.zip_cons_cons, List.forall_mem_cons, ih,
            List.length_cons, List.drop_succ_cons]
          exact and_assoc.symm

theorem forall_mem_zip_swap {P : α → α → Prop} {xs ys : List α} :
    (∀ q ∈ xs.zip ys, P q.1 q.2) ↔ ∀ q ∈ ys.zip xs, P q.2 q.1 := by
  induction xs generalizing ys with
  | nil => simp
  | cons x xs ih => cases ys <;> simp_all

theorem meets_map {f : β → α} {A B : Facade β} :
    (A.map f).Meets size (B.map f) ↔ A.Meets (fun x => size (f x)) B := by
  unfold Meets map
  rw [List.zip_map, List.forall_mem_map]
  rfl

theorem meets_assoc (A B C : Facade α) :
    A.Meets size B ∧ (A.joined B).Meets size C ↔ B.Meets size C ∧ A.Meets size (B.joined C) := by
  have hleft : (A.joined B).Meets size C ↔ B.Meets size C ∧
      ∀ q ∈ (A.outputs.drop B.free.length).zip (C.free.drop B.outputs.length),
        size q.1 = size q.2 := forall_mem_zip_append
  have hright : A.Meets size (B.joined C) ↔ A.Meets size B ∧
      ∀ q ∈ (A.outputs.drop B.free.length).zip (C.free.drop B.outputs.length),
        size q.1 = size q.2 := by
    have hswap : ∀ xs ys : List α, (∀ q ∈ xs.zip ys, size q.1 = size q.2) ↔
        ∀ q ∈ ys.zip xs, size q.2 = size q.1 := fun xs ys =>
      @forall_mem_zip_swap α (fun x y => size x = size y) xs ys
    unfold Meets
    rw [hswap, hswap A.outputs B.free, hswap (A.outputs.drop B.free.length)]
    exact forall_mem_zip_append
  rw [hleft, hright]
  constructor
  · rintro ⟨hab, hbc, hrest⟩
    exact ⟨hbc, hab, hrest⟩
  · rintro ⟨hbc, hab, hrest⟩
    exact ⟨hab, hbc, hrest⟩

end Facade

/-- Symbols that differ in nothing but the id. -/
def Symbol.Twin (s t : Symbol) : Prop := t = { s with id := t.id }

theorem Symbol.twin_of_face {s t : Symbol} (hface : s.face = t.face) (hrole : s.role = t.role) :
    s.Twin t := by
  obtain ⟨id, role, size, scalar, semantic, name, value⟩ := s
  obtain ⟨id', role', size', scalar', semantic', name', value'⟩ := t
  simp only [face, Symbol.mk.injEq, true_and] at hface hrole
  obtain ⟨rfl, rfl, rfl, rfl, rfl⟩ := hface
  subst hrole
  rfl

def Program.facade (p : Program) (bound : Nat) : Facade Symbol :=
  ⟨p.inputs.take bound, p.inputs.drop bound, p.outputs⟩

/-! ## Labels -/

variable {Λ : Type} {π : Λ → Symbol} {A B : Facade Λ} {ℓ ℓ' ℓa ℓb : Λ → Symbol} {p q a b : Program}

/-- The channels of the program in terms of labels.  Every label stands for one symbol that
looks like the given one. -/
structure Program.Shows (π : Λ → Symbol) (A : Facade Λ) (ℓ : Λ → Symbol) (p : Program) :
    Prop where
  inputs : p.inputs = A.inputs.map ℓ
  outputs : p.outputs = A.outputs.map ℓ
  injective : ∀ x ∈ A.all, ∀ y ∈ A.all, ℓ x = ℓ y → x = y
  face : ∀ x ∈ A.all, (ℓ x).face = (π x).face

namespace Program.Shows

theorem mem_locals (h : p.Shows π A ℓ) {x : Λ} (hx : x ∈ A.all) : ℓ x ∈ p.locals := by
  rw [Interface.mem_locals, h.inputs, h.outputs]
  rcases List.mem_append.mp hx with hx | hx
  · exact .inl (List.mem_map_of_mem hx)
  · exact .inr (.inl (List.mem_map_of_mem hx))

theorem map_face (h : p.Shows π A ℓ) :
    p.inputs.map Symbol.face = A.inputs.map (fun x => (π x).face) ∧
      p.outputs.map Symbol.face = A.outputs.map fun x => (π x).face := by
  rw [h.inputs, h.outputs, List.map_map, List.map_map]
  exact ⟨List.map_congr_left fun x hx => h.face x (List.mem_append.mpr (.inl hx)),
    List.map_congr_left fun x hx => h.face x (List.mem_append.mpr (.inr hx))⟩

theorem map_face_facade (h : p.Shows π A ℓ) :
    (p.facade A.curried.length).map Symbol.face = A.map fun x => (π x).face := by
  obtain ⟨hinputs, houtputs⟩ := h.map_face
  rw [Facade.inputs, List.map_append] at hinputs
  simp only [facade, Facade.map, List.map_take, List.map_drop, hinputs, houtputs]
  rw [List.take_left' (List.length_map ..), List.drop_left' (List.length_map ..)]

theorem of_eq (h : p.Shows π A ℓ) (hinputs : q.inputs = p.inputs)
    (houtputs : q.outputs = p.outputs) : q.Shows π A ℓ :=
  ⟨hinputs.trans h.inputs, houtputs.trans h.outputs, h.injective, h.face⟩

theorem role_eq [DecidableEq Λ] (h : p.Shows π A ℓ) (hvalid : p.Valid) {x : Λ} (hx : x ∈ A.all) :
    (ℓ x).role = if x ∈ A.inputs then (if x ∈ A.outputs then .inout else .input) else .output := by
  have hin : ℓ x ∈ p.inputs ↔ x ∈ A.inputs := by
    rw [h.inputs, List.mem_map]
    constructor
    · rintro ⟨y, hy, heq⟩
      exact h.injective y (List.mem_append.mpr (.inl hy)) x hx heq ▸ hy
    · exact fun hmem => ⟨x, hmem, rfl⟩
  have hout : ℓ x ∈ p.outputs ↔ x ∈ A.outputs := by
    rw [h.outputs, List.mem_map]
    constructor
    · rintro ⟨y, hy, heq⟩
      exact h.injective y (List.mem_append.mpr (.inr hy)) x hx heq ▸ hy
    · exact fun hmem => ⟨x, hmem, rfl⟩
  have heither : x ∈ A.inputs ∨ x ∈ A.outputs := List.mem_append.mp hx
  have hinrole := hvalid.orderly.inputs.role (ℓ x)
  have houtrole := hvalid.orderly.outputs.role (ℓ x)
  have hinout := hvalid.orderly.inout_output (ℓ x)
  have hinout' := hvalid.orderly.inout_input (ℓ x)
  simp only [hin, hout, List.mem_cons, List.not_mem_nil, or_false, Symbol.isInOut,
    decide_eq_true_eq] at hinrole houtrole hinout hinout'
  grind

theorem twins [DecidableEq Λ] (h : p.Shows π A ℓ) (h' : q.Shows π A ℓ') (hp : p.Valid)
    (hq : q.Valid) :
    List.Forall₂ Symbol.Twin p.inputs q.inputs ∧
      List.Forall₂ Symbol.Twin p.outputs q.outputs := by
  have htwin : ∀ x ∈ A.all, (ℓ x).Twin (ℓ' x) := fun x hx =>
    Symbol.twin_of_face ((h.face x hx).trans (h'.face x hx).symm)
      ((h.role_eq hp hx).trans (h'.role_eq hq hx).symm)
  rw [h.inputs, h'.inputs, h.outputs, h'.outputs, List.forall₂_map_left_iff,
    List.forall₂_map_right_iff, List.forall₂_same, List.forall₂_map_left_iff,
    List.forall₂_map_right_iff, List.forall₂_same]
  exact ⟨fun x hx => htwin x (List.mem_append.mpr (.inl hx)),
    fun x hx => htwin x (List.mem_append.mpr (.inr hx))⟩

theorem copied {ρ : Symbol → Symbol} (h : p.Shows π A ℓ) (hcopies : Copies ρ p q)
    (hname : ∀ s ∈ p.symbols, (ρ s).name = s.name) : q.Shows π A (fun x => ρ (ℓ x)) := by
  have hmem : ∀ x ∈ A.all, ℓ x ∈ p.symbols := by
    intro x hx
    rw [Interface.mem_symbols, h.inputs, h.outputs]
    rcases List.mem_append.mp hx with hx | hx
    · exact .inl (List.mem_map_of_mem hx)
    · exact .inr (.inl (List.mem_map_of_mem hx))
  refine ⟨?_, ?_, ?_, ?_⟩
  · rw [hcopies.inputs, h.inputs, List.map_map]
    rfl
  · rw [hcopies.outputs, h.outputs, List.map_map]
    rfl
  · intro x hx y hy heq
    exact h.injective x hx y hy (hcopies.injective _ (hmem x hx) _ (hmem y hy) heq)
  · intro x hx
    rw [← h.face x hx, hcopies.twin _ (hmem x hx), hname _ (hmem x hx)]
    rfl

end Program.Shows

def Facade.marked (k : Nat) (A : Facade Symbol) : Facade (Nat × Symbol) := A.map fun s => (k, s)

theorem Facade.fst_of_mem_marked {k : Nat} {A : Facade Symbol} {x : Nat × Symbol}
    (h : x ∈ (A.marked k).all) : x.1 = k := by
  simp only [all, inputs, marked, map, List.mem_append, List.mem_map] at h
  rcases h with (⟨s, _, rfl⟩ | ⟨s, _, rfl⟩) | ⟨s, _, rfl⟩ <;> rfl

theorem Program.shows_marked (p : Program) (bound k : Nat) :
    p.Shows Prod.snd ((p.facade bound).marked k) Prod.snd where
  inputs := by simp [facade, Facade.marked, Facade.map, Facade.inputs, Function.comp_def]
  outputs := by simp [facade, Facade.marked, Facade.map, Function.comp_def]
  injective := by
    intro x hx y hy heq
    exact Prod.ext ((Facade.fst_of_mem_marked hx).trans (Facade.fst_of_mem_marked hy).symm) heq
  face := fun _ _ => rfl

/-! ## Connections -/

namespace Connection

variable {taken bound : Nat} {ws : List Wire} {g g' : Supply}

theorem face_entering (h : Connection a b bound ws g g') (s : Symbol) :
    (Wire.entering ws s).face = s.face := by
  rcases h.entering_cases s with ⟨w, hw, rfl, he⟩ | ⟨hsame, _⟩
  · rw [(h.drawn.shaped w hw).entrance _ he]
    rfl
  · rw [hsame]

theorem face_leaving (h : Connection a b bound ws g g') (s : Symbol) :
    (Wire.leavingFor ws s).face = s.face := by
  rcases h.leaving_cases s with ⟨w, hw, rfl, hl⟩ | ⟨hsame, _⟩
  · rw [(h.drawn.shaped w hw).leaving _ hl]
    rfl
  · rw [hsame]

/-- The symbol of a label of either program after the connection. -/
def joinedLabel [DecidableEq Λ] (ws : List Wire) (A : Facade Λ) (ℓa ℓb : Λ → Symbol) (x : Λ) :
    Symbol :=
  if x ∈ A.all then Wire.entering ws (ℓa x) else Wire.leavingFor ws (ℓb x)

section Labels

variable [DecidableEq Λ]

theorem map_joinedLabel_first {list : List Λ} (hlist : ∀ x ∈ list, x ∈ A.all) :
    list.map (joinedLabel ws A ℓa ℓb) = (list.map ℓa).map (Wire.entering ws) := by
  rw [List.map_map]
  exact List.map_congr_left fun x hx => if_pos (hlist x hx)

theorem map_joinedLabel_second (hapart : ∀ x ∈ A.all, x ∉ B.all) {list : List Λ}
    (hlist : ∀ x ∈ list, x ∈ B.all) :
    list.map (joinedLabel ws A ℓa ℓb) = (list.map ℓb).map (Wire.leavingFor ws) := by
  rw [List.map_map]
  exact List.map_congr_left fun x hx => if_neg fun hmem => hapart x hmem (hlist x hx)

theorem joinedLabel_of_inout (h : Connection a b bound ws g g') {x : Λ}
    (hrole : (joinedLabel ws A ℓa ℓb x).role = .inout) :
    joinedLabel ws A ℓa ℓb x = if x ∈ A.all then ℓa x else ℓb x := by
  unfold joinedLabel at hrole ⊢
  split
  · rename_i hx
    rw [if_pos hx] at hrole
    rcases h.entering_cases (ℓa x) with ⟨w, hw, _, he⟩ | ⟨hsame, _⟩
    · rw [(h.drawn.shaped w hw).entrance _ he] at hrole
      cases hrole
    · exact hsame
  · rename_i hx
    rw [if_neg hx] at hrole
    rcases h.leaving_cases (ℓb x) with ⟨w, hw, _, hl⟩ | ⟨hsame, _⟩
    · rw [(h.drawn.shaped w hw).leaving _ hl] at hrole
      cases hrole
    · exact hsame

theorem inputs_joinedLabel (h : Connection a b bound ws g g') (ha : a.Shows π A ℓa)
    (hb : b.Shows π B ℓb) (hcurrieda : A.curried.length = taken)
    (hcurriedb : B.curried.length = bound) (hapart : ∀ x ∈ A.all, x ∉ B.all) :
    (program a b taken bound ws).inputs =
      (A.joined B).inputs.map (joinedLabel ws A ℓa ℓb) := by
  have hlena : (A.curried.map ℓa).length = taken := by rw [List.length_map, hcurrieda]
  have hlenb : (B.curried.map ℓb).length = bound := by rw [List.length_map, hcurriedb]
  have hina : a.inputs = A.curried.map ℓa ++ A.free.map ℓa :=
    ha.inputs.trans (List.map_append ..)
  have hinb : b.inputs = B.curried.map ℓb ++ B.free.map ℓb :=
    hb.inputs.trans (List.map_append ..)
  have hunfed : ∀ list : List Λ, (∀ x ∈ list, x ∈ B.curried ++ B.free.drop A.outputs.length) →
      list.map (joinedLabel ws A ℓa ℓb) = (list.map ℓb).map (Wire.entering ws) := by
    intro list hlist
    have hmem : ∀ x ∈ list, x ∈ B.all := by
      intro x hx
      rcases List.mem_append.mp (hlist x hx) with hx | hx
      · exact List.mem_append.mpr (.inl (List.mem_append.mpr (.inl hx)))
      · exact List.mem_append.mpr (.inl (List.mem_append.mpr (.inr (List.mem_of_mem_drop hx))))
    rw [map_joinedLabel_second hapart hmem]
    apply List.map_congr_left
    intro s hs
    obtain ⟨x, hx, rfl⟩ := List.mem_map.mp hs
    have hs : ℓb x ∈ unfed a b bound := by
      unfold unfed
      rw [hinb, List.take_left' hlenb, List.drop_left' hlenb, ha.outputs, List.length_map,
        ← List.map_drop, ← List.map_append]
      exact List.mem_map_of_mem (hlist x hx)
    rw [h.entering_second (mem_locals_of_mem_unfed hs),
      Wire.leavingFor_of_ne fun w hw heq => absurd heq (h.not_wired_of_mem_unfed hs w hw)]
  rw [h.inputs_program, inputs, hina, hinb, List.take_left' hlena, List.drop_left' hlena,
    List.take_left' hlenb, List.drop_left' hlenb, ha.outputs, List.length_map, ← List.map_drop]
  simp only [Facade.joined, Facade.inputs, List.map_append, List.append_assoc]
  have hcurried : ∀ x ∈ A.curried, x ∈ A.all := fun x hx =>
    List.mem_append.mpr (.inl (List.mem_append.mpr (.inl hx)))
  have hfree : ∀ x ∈ A.free, x ∈ A.all := fun x hx =>
    List.mem_append.mpr (.inl (List.mem_append.mpr (.inr hx)))
  rw [map_joinedLabel_first hcurried, map_joinedLabel_first hfree,
    hunfed B.curried fun x hx => List.mem_append.mpr (.inl hx),
    hunfed (B.free.drop _) fun x hx => List.mem_append.mpr (.inr hx)]

theorem outputs_joinedLabel (h : Connection a b bound ws g g') (ha : a.Shows π A ℓa)
    (hb : b.Shows π B ℓb) (hcurriedb : B.curried.length = bound)
    (hapart : ∀ x ∈ A.all, x ∉ B.all) :
    (program a b taken bound ws).outputs =
      (A.joined B).outputs.map (joinedLabel ws A ℓa ℓb) := by
  have hlenb : (B.curried.map ℓb).length = bound := by rw [List.length_map, hcurriedb]
  have hfree : (b.inputs.drop bound).length = B.free.length := by
    rw [hb.inputs, Facade.inputs, List.map_append, List.drop_left' hlenb, List.length_map]
  have hleft : (A.outputs.drop B.free.length).map (joinedLabel ws A ℓa ℓb) =
      ((A.outputs.drop B.free.length).map ℓa).map (Wire.leavingFor ws) := by
    rw [map_joinedLabel_first fun x hx =>
      List.mem_append.mpr (.inr (List.mem_of_mem_drop hx))]
    apply List.map_congr_left
    intro s hs
    have hs : s ∈ a.outputs.drop (b.inputs.drop bound).length := by
      rw [hfree, ha.outputs, ← List.map_drop]
      exact hs
    rw [h.leaving_first (mem_locals_of_mem_drop hs),
      Wire.entering_of_ne fun w hw heq => absurd heq (h.not_wired_of_mem_drop hs w hw)]
  rw [h.outputs_program, outputs, hfree, ha.outputs, hb.outputs, ← List.map_drop]
  simp only [Facade.joined, List.map_append]
  rw [hleft, map_joinedLabel_second hapart fun x hx => List.mem_append.mpr (.inr hx)]

/-- A symbol of both directions is an old one, and the programs have none in common. -/
theorem eq_of_joinedLabel_inout (h : Connection a b bound ws g g') (ha : a.Shows π A ℓa)
    (hb : b.Shows π B ℓb) {x y : Λ} (hx : x ∈ (A.joined B).all) (hy : y ∈ (A.joined B).all)
    (hrole : (joinedLabel ws A ℓa ℓb x).role = .inout)
    (heq : joinedLabel ws A ℓa ℓb x = joinedLabel ws A ℓa ℓb y) : x = y := by
  have hold := h.joinedLabel_of_inout hrole
  have hold' := h.joinedLabel_of_inout (heq ▸ hrole)
  rw [hold, hold'] at heq
  have hx := Facade.mem_all_joined hx
  have hy := Facade.mem_all_joined hy
  by_cases hxa : x ∈ A.all <;> by_cases hya : y ∈ A.all <;>
    simp only [hxa, hya, if_true, if_false, false_or, true_or] at heq hx hy
  · exact ha.injective x hxa y hya heq
  · exact absurd (ha.mem_locals hxa) (heq ▸ h.apart _ (hb.mem_locals hy))
  · exact absurd (ha.mem_locals hya) (heq ▸ h.apart _ (hb.mem_locals hx))
  · exact hb.injective x hx y hy heq

theorem shows (h : Connection a b bound ws g g') (ha : a.Shows π A ℓa) (hb : b.Shows π B ℓb)
    (hcurrieda : A.curried.length = taken) (hcurriedb : B.curried.length = bound)
    (hapart : ∀ x ∈ A.all, x ∉ B.all) :
    (program a b taken bound ws).Shows π (A.joined B) (joinedLabel ws A ℓa ℓb) := by
  have hinputs := h.inputs_joinedLabel ha hb hcurrieda hcurriedb hapart
  have houtputs : (program a b taken bound ws).outputs =
      (A.joined B).outputs.map (joinedLabel ws A ℓa ℓb) :=
    h.outputs_joinedLabel ha hb hcurriedb hapart
  -- a symbol in both lists is one of both directions
  have hmixed : ∀ x ∈ (A.joined B).inputs, ∀ y ∈ (A.joined B).outputs,
      joinedLabel ws A ℓa ℓb x = joinedLabel ws A ℓa ℓb y → x = y := by
    intro x hx y hy heq
    have hin : joinedLabel ws A ℓa ℓb x ∈ (program a b taken bound ws).inputs :=
      hinputs ▸ List.mem_map_of_mem hx
    have hout : joinedLabel ws A ℓa ℓb x ∈ (program a b taken bound ws).outputs :=
      houtputs ▸ heq ▸ List.mem_map_of_mem hy
    have hrole : (joinedLabel ws A ℓa ℓb x).role = .inout := by
      have h₁ := h.roleList_inputs.role _ hin
      have h₂ := h.roleList_outputs.role _ hout
      simp only [List.mem_cons, List.not_mem_nil, or_false] at h₁ h₂
      rcases h₁ with h₁ | h₁
      · simp [h₁] at h₂
      · exact h₁
    exact h.eq_of_joinedLabel_inout ha hb (List.mem_append.mpr (.inl hx))
      (List.mem_append.mpr (.inr hy)) hrole heq
  refine ⟨hinputs, houtputs, ?_, ?_⟩
  · intro x hx y hy heq
    have hnodup : ((A.joined B).inputs.map (joinedLabel ws A ℓa ℓb)).Nodup :=
      hinputs ▸ h.roleList_inputs.nodup
    have hnodup' : ((A.joined B).outputs.map (joinedLabel ws A ℓa ℓb)).Nodup :=
      houtputs ▸ h.roleList_outputs.nodup
    rcases List.mem_append.mp hx with hx | hx <;> rcases List.mem_append.mp hy with hy | hy
    · exact List.inj_on_of_nodup_map hnodup hx hy heq
    · exact hmixed x hx y hy heq
    · exact (hmixed y hy x hx heq.symm).symm
    · exact List.inj_on_of_nodup_map hnodup' hx hy heq
  · intro x hx
    unfold joinedLabel
    split
    · rename_i hxa
      rw [h.face_entering, ha.face x hxa]
    · rename_i hxa
      rw [h.face_leaving, hb.face x ((Facade.mem_all_joined hx).resolve_left hxa)]

end Labels

end Connection

theorem Joins.shows [DecidableEq Λ] {c : Composer} {ap bp : Program} {g g' : Supply}
    (h : Joins c ap bp A.curried.length B.curried.length g q g') (hvalid : ap.Valid)
    (ha : ap.Shows π A ℓa) (hb : bp.Shows π B ℓb) (hapart : ∀ x ∈ A.all, x ∉ B.all) :
    ∃ ℓ, q.Shows π (A.joined B) ℓ := by
  obtain ⟨operand, connection, finished⟩ := h
  have hfirst := ha.copied (Program.copies_copied hvalid) fun _ _ => rfl
  have hsecond := hb.copied operand.copies operand.named
  exact ⟨_, (connection.shows hfirst hsecond rfl rfl hapart).of_eq finished.improves.inputs
    finished.improves.outputs⟩

section Faces

variable {c : Composer} {ap bp : Program} {taken bound : Nat} {g g' : Supply}

theorem Facade.length_curried_marked {k : Nat} (hbound : bound ≤ bp.inputs.length) :
    ((bp.facade bound).marked k).curried.length = bound := by
  rw [Facade.marked, Facade.map, List.length_map]
  exact List.length_take_of_le hbound

theorem apart_of_marked {k l : Nat} (hne : k ≠ l) (A B : Facade Symbol) :
    ∀ x ∈ (A.marked k).all, x ∉ (B.marked l).all := fun _ hx hx' =>
  hne ((Facade.fst_of_mem_marked hx).symm.trans (Facade.fst_of_mem_marked hx'))

theorem Joins.map_face_facade (h : Joins c ap bp taken bound g q g') (hvalid : ap.Valid)
    (htaken : taken ≤ ap.inputs.length) (hbound : bound ≤ bp.inputs.length) :
    (q.facade (taken + bound)).map Symbol.face =
      ((ap.facade taken).map Symbol.face).joined ((bp.facade bound).map Symbol.face) := by
  have hlena := Facade.length_curried_marked (k := 0) htaken
  have hlenb := Facade.length_curried_marked (k := 1) hbound
  rw [← hlena, ← hlenb] at h
  obtain ⟨ℓ, hℓ⟩ := h.shows hvalid (ap.shows_marked taken 0) (bp.shows_marked bound 1)
    (apart_of_marked (by decide) _ _)
  have hlen : (((ap.facade taken).marked 0).joined ((bp.facade bound).marked 1)).curried.length =
      taken + bound := by
    rw [Facade.joined, List.length_append, hlena, hlenb]
  have hfaces := hℓ.map_face_facade
  rw [hlen, Facade.map_joined, Facade.marked, Facade.marked, Facade.map_map, Facade.map_map]
    at hfaces
  exact hfaces

theorem Combines.map_face_facade (h : Combines c ap bp taken bound g q g')
    (htaken : taken ≤ ap.inputs.length) (hbound : bound ≤ bp.inputs.length) :
    (q.facade (taken + bound)).map Symbol.face =
      ((ap.facade taken).map Symbol.face).beside ((bp.facade bound).map Symbol.face) := by
  obtain ⟨operand, finished⟩ := h
  rename_i bq ρ
  have hface : ∀ s ∈ bp.symbols, (ρ s).face = s.face := by
    intro s hs
    rw [operand.copies.twin s hs, operand.named s hs]
    rfl
  have hin : bq.inputs.map Symbol.face = bp.inputs.map Symbol.face := by
    rw [operand.copies.inputs, List.map_map]
    exact List.map_congr_left fun s hs => hface s (Interface.mem_symbols.mpr (.inl hs))
  have hout : bq.outputs.map Symbol.face = bp.outputs.map Symbol.face := by
    rw [operand.copies.outputs, List.map_map]
    exact List.map_congr_left fun s hs => hface s (Interface.mem_symbols.mpr (.inr (.inl hs)))
  have hinputs : q.inputs = (ap.inputs.take taken ++ bq.inputs.take bound) ++
      (ap.inputs.drop taken ++ bq.inputs.drop bound) := by
    rw [finished.improves.inputs, ← List.append_assoc]
    rfl
  have houtputs : q.outputs = ap.outputs ++ bq.outputs := finished.improves.outputs
  have hlen : (ap.inputs.take taken ++ bq.inputs.take bound).length = taken + bound := by
    rw [List.length_append, List.length_take_of_le htaken, List.length_take_of_le]
    rw [operand.copies.inputs, List.length_map]
    exact hbound
  simp only [Program.facade, Facade.map, Facade.beside, hinputs, houtputs, List.take_left' hlen,
    List.drop_left' hlen, List.map_append, hout]
  simp only [List.map_take, List.map_drop, hin]

end Faces

end KernelAlgebra
