import KernelAlgebra.Instruction

/-!
# Operands that fit

The check of an instruction succeeds exactly when each of its parts does.  It looks at symbols
only through their sizes and, for a texture, through the role of one source.
-/

namespace KernelAlgebra

/-! ## Views -/

namespace View

theorem checkIndices_eq_ok_congr {dst : Bool} {s t : Symbol} (hsize : s.size = t.size)
    {seen idx : List Int} :
    checkIndices dst s seen idx = .ok () ↔ checkIndices dst t seen idx = .ok () := by
  induction idx generalizing seen with
  | nil => simp [checkIndices]
  | cons k rest ih =>
      simp only [checkIndices, hsize]
      split
      · simp
      · split
        · simp
        · exact ih

theorem check_eq_ok_iff {dst : Bool} {v : View} :
    v.check dst = .ok () ↔
      v.selector ≠ some [] ∧ checkIndices dst v.sym [] (v.selector.getD []) = .ok () ∧
        ¬ (dst = true ∧ v.neg = true) := by
  unfold check
  split
  · rename_i h
    simp [h]
  · rename_i h
    cases hidx : checkIndices dst v.sym [] (v.selector.getD []) with
    | error e => simp
    | ok u =>
        cases dst <;> cases v.neg <;> simp <;> exact h

/-- A view shows the same elements of a symbol of the same size. -/
structure Alike (v w : View) : Prop where
  selector : w.selector = v.selector
  neg : w.neg = v.neg
  size : w.sym.size = v.sym.size
  absent : w.isAbsent = v.isAbsent

theorem Alike.check {v w : View} (h : Alike v w) {dst : Bool} (hv : v.check dst = .ok ()) :
    w.check dst = .ok () := by
  obtain ⟨hselector, hindices, hneg⟩ := check_eq_ok_iff.mp hv
  refine check_eq_ok_iff.mpr ⟨h.selector ▸ hselector, ?_, h.neg ▸ hneg⟩
  rw [h.selector]
  exact (checkIndices_eq_ok_congr h.size).mpr hindices

theorem Alike.size_eq {v w : View} (h : Alike v w) : w.size = v.size := by
  simp [View.size, h.absent, h.selector, h.size]

theorem Alike.elements_eq {v w : View} (h : Alike v w) : w.elements = v.elements := by
  simp [View.elements, h.absent, h.selector, h.size]

theorem check_full {s : Symbol} {dst : Bool} : (full s).check dst = .ok () := by
  cases dst <;> rfl

theorem size_full {s : Symbol} (h : s.isHole = false) : (full s).size = s.size := by
  simp [View.size, isAbsent, full, h]

end View

/-! ## Instructions -/

namespace Instruction

theorem checkSources_eq_ok_iff {op : Op} {index : Nat} {srcs : List View} :
    checkSources op index srcs = .ok () ↔
      ∀ v ∈ srcs, v.isAbsent = false ∧ v.check false = .ok () := by
  induction srcs generalizing index with
  | nil => simp [checkSources]
  | cons v rest ih =>
      simp only [checkSources, List.forall_mem_cons]
      split
      · rename_i h
        simp [h]
      · rename_i h
        cases hcheck : v.check false with
        | error e => simp
        | ok u =>
            simp only [ih]
            simp [h]

theorem checkWidths_eq_ok_iff {op : Op} {dst : View} {index : Nat} {srcs : List View} :
    checkWidths op dst index srcs = .ok () ↔ ∀ v ∈ srcs, v.size = 1 ∨ v.size = dst.size := by
  induction srcs generalizing index with
  | nil => simp [checkWidths]
  | cons v rest ih =>
      simp only [checkWidths, List.forall_mem_cons]
      split
      · rename_i h
        simp only [Bool.and_eq_true, bne_iff_ne, ne_eq] at h
        simp [h]
      · rename_i h
        simp only [Bool.and_eq_true, bne_iff_ne, ne_eq, not_and, Decidable.not_not] at h
        rw [ih]
        constructor
        · intro hrest
          exact ⟨by omega, hrest⟩
        · exact fun hall => hall.2

theorem checkRule_dot {op : Op} {dst a b : View} (h : op.rule = .dot) :
    checkRule op dst [a, b] = .ok () ↔ dst.size = 1 ∧ a.size = b.size := by
  by_cases hdst : dst.size = 1 <;> by_cases hsame : a.size = b.size <;>
    simp [checkRule, h, hdst, hsame]

theorem checkRule_cross {op : Op} {dst a b : View} (h : op.rule = .cross) :
    checkRule op dst [a, b] = .ok () ↔ dst.size = 3 ∧ a.size = 3 ∧ b.size = 3 := by
  by_cases hdst : dst.size = 3 <;> by_cases ha : a.size = 3 <;> by_cases hb : b.size = 3 <;>
    simp [checkRule, h, hdst, ha, hb]

theorem check_eq_ok_iff {i : Instruction} :
    i.check = .ok () ↔
      i.op.isKnown = true ∧ i.src.length = i.op.arity ∧ checkDst i.op i.dst = .ok () ∧
        checkSources i.op 0 i.src = .ok () ∧ checkRule i.op i.dst i.src = .ok () := by
  unfold check checkOperands
  split
  · rename_i hop
    simp [hop, Op.isKnown]
  · rename_i hop
    have hknown : i.op.isKnown = true := by
      cases h : i.op with
      | unknown code => exact absurd h (hop code)
      | _ => rfl
    simp only [hknown, true_and]
    split
    · rename_i hlen
      have hne : i.src.length ≠ i.op.arity := by simpa using hlen
      simp [hne]
    · rename_i hlen
      have heq : i.src.length = i.op.arity := by simpa using hlen
      simp only [heq, true_and]
      cases checkDst i.op i.dst with
      | error e => simp
      | ok u =>
          cases checkSources i.op 0 i.src with
          | error e => simp
          | ok u => simp

theorem isAbsent_dst_of_check {i : Instruction} (h : i.check = .ok ()) :
    i.dst.isAbsent = !i.op.hasDst := by
  obtain ⟨_, _, hdst, _⟩ := check_eq_ok_iff.mp h
  unfold checkDst at hdst
  cases hhas : i.op.hasDst <;> cases habsent : i.dst.isAbsent <;> simp_all

theorem check_dst_of_check {i : Instruction} (h : i.check = .ok ())
    (hdst : i.dst.isAbsent = false) : i.dst.check true = .ok () := by
  obtain ⟨_, _, hcheck, _⟩ := check_eq_ok_iff.mp h
  unfold checkDst at hcheck
  cases hhas : i.op.hasDst <;> simp_all

theorem check_src_of_check {i : Instruction} (h : i.check = .ok ()) {v : View}
    (hv : v ∈ i.src) : v.isAbsent = false ∧ v.check false = .ok () := by
  obtain ⟨_, _, _, hsources, _⟩ := check_eq_ok_iff.mp h
  exact checkSources_eq_ok_iff.mp hsources v hv

theorem checkRule_map {op : Op} {dst dst' : View} {srcs : List View} {image : View → View}
    (hdst : dst'.size = dst.size) (hsrc : ∀ v ∈ srcs, (image v).size = v.size)
    (hrole : ∀ v ∈ srcs, v.sym.role = .texture → (image v).sym.role = .texture)
    (h : checkRule op dst srcs = .ok ()) : checkRule op dst' (srcs.map image) = .ok () := by
  unfold checkRule at h ⊢
  cases hrule : op.rule with
  | elementwise =>
      simp only [hrule] at h ⊢
      refine checkWidths_eq_ok_iff.mpr ?_
      intro w hw
      obtain ⟨v, hv, rfl⟩ := List.mem_map.mp hw
      rw [hsrc v hv, hdst]
      exact checkWidths_eq_ok_iff.mp h v hv
  | dot => rcases srcs with _ | ⟨a, _ | ⟨b, _ | ⟨c, rest⟩⟩⟩ <;> grind
  | cross => rcases srcs with _ | ⟨a, _ | ⟨b, _ | ⟨c, rest⟩⟩⟩ <;> grind
  | norm => rcases srcs with _ | ⟨a, _ | ⟨b, rest⟩⟩ <;> grind
  | tex => rcases srcs with _ | ⟨a, rest⟩ <;> grind
  | kill => rfl
  | none => rfl

theorem check_map {i i' : Instruction} {image : View → View} (hop : i'.op = i.op)
    (habsent : i.dst.isAbsent = true → i'.dst.isAbsent = true)
    (hdst : i.dst.isAbsent = false → View.Alike i.dst i'.dst)
    (hmap : i'.src = i.src.map image) (hsrc : ∀ v ∈ i.src, View.Alike v (image v))
    (hrole : ∀ v ∈ i.src, v.sym.role = .texture → (image v).sym.role = .texture)
    (h : i.check = .ok ()) : i'.check = .ok () := by
  obtain ⟨hknown, hlen, hcheckDst, hsources, hrule⟩ := check_eq_ok_iff.mp h
  have hsize : i'.dst.size = i.dst.size := by
    cases hpresent : i.dst.isAbsent with
    | true => simp [View.size, hpresent, habsent hpresent]
    | false => exact (hdst hpresent).size_eq
  refine check_eq_ok_iff.mpr ⟨hop ▸ hknown, by simp [hmap, hop, hlen], ?_, ?_, ?_⟩
  · have hhas := isAbsent_dst_of_check h
    rw [hop]
    unfold checkDst
    cases hpresent : i.dst.isAbsent with
    | true =>
        rw [hpresent] at hhas
        simp [habsent hpresent, Bool.not_eq_eq_eq_not.mp hhas.symm]
    | false =>
        rw [hpresent] at hhas
        rw [(hdst hpresent).absent, hpresent, Bool.not_eq_eq_eq_not.mp hhas.symm]
        exact (hdst hpresent).check (check_dst_of_check h hpresent)
  · rw [hop, hmap]
    refine checkSources_eq_ok_iff.mpr ?_
    intro w hw
    obtain ⟨v, hv, rfl⟩ := List.mem_map.mp hw
    obtain ⟨hpresent, hcheck⟩ := check_src_of_check h hv
    exact ⟨(hsrc v hv).absent.trans hpresent, (hsrc v hv).check hcheck⟩
  · rw [hop, hmap]
    exact checkRule_map hsize (fun v hv => (hsrc v hv).size_eq) hrole hrule

def move (dst src : View) : Instruction := ⟨.asn, dst, [src]⟩

theorem check_move {dst src : View} (hdst : dst.isAbsent = false)
    (hcheckDst : dst.check true = .ok ()) (hsrc : src.isAbsent = false)
    (hcheckSrc : src.check false = .ok ()) (hsize : src.size = dst.size) :
    (move dst src).check = .ok () := by
  refine check_eq_ok_iff.mpr ⟨rfl, rfl, ?_, ?_, ?_⟩
  · simp only [move, checkDst, Op.hasDst, hdst]
    exact hcheckDst
  · refine checkSources_eq_ok_iff.mpr ?_
    intro v hv
    rw [List.mem_singleton.mp hv]
    exact ⟨hsrc, hcheckSrc⟩
  · simp only [move, checkRule, Op.rule]
    refine checkWidths_eq_ok_iff.mpr ?_
    intro v hv
    rw [List.mem_singleton.mp hv]
    exact .inr hsize

theorem check_copy {dst src : Symbol} (hdst : dst.isHole = false) (hsrc : src.isHole = false)
    (hsize : src.size = dst.size) : (copy dst src).check = .ok () := by
  refine check_move hdst View.check_full hsrc View.check_full ?_
  rw [View.size_full hsrc, View.size_full hdst, hsize]

theorem assign_of_check {dst src : View} (h : (move dst src).check = .ok ()) :
    assign dst src = .ok (move dst src) := by
  unfold check move at h
  unfold assign make
  rw [h]
  rfl

end Instruction

end KernelAlgebra
