import KernelAlgebra.Proofs.Instruction

/-!
# The operands that an opcode admits

An instruction can be made exactly when its opcode is known, its operands are there, their
selections lie inside their symbols, their sizes fit and the destination is a write mask.  A write
mask names no element twice; the check of that looks at the first elements of a symbol only.
-/

namespace KernelAlgebra

namespace View

/-- The view shows something, and only elements that its symbol has. -/
structure Inside (v : View) : Prop where
  nonempty : v.selector ≠ some []
  bounds : ∀ k ∈ v.selector.getD [], 0 ≤ k ∧ k < v.sym.size

def Distinct (v : View) : Prop := (v.selector.getD []).Nodup

/-- No element in front of `limit` is selected twice. -/
def DistinctBelow (limit : Int) (v : View) : Prop :=
  ((v.selector.getD []).filter (· < limit)).Nodup

instance : DecidablePred Inside := fun v =>
  decidable_of_iff (v.selector ≠ some [] ∧ ∀ k ∈ v.selector.getD [], 0 ≤ k ∧ k < v.sym.size)
    ⟨fun h => ⟨h.1, h.2⟩, fun h => ⟨h.nonempty, h.bounds⟩⟩

instance : DecidablePred Distinct := fun v =>
  inferInstanceAs (Decidable (v.selector.getD []).Nodup)

instance (limit : Int) : DecidablePred (DistinctBelow limit) := fun v =>
  inferInstanceAs (Decidable ((v.selector.getD []).filter (· < limit)).Nodup)

theorem Inside.distinctBelow_iff {v : View} (h : v.Inside) {limit : Int}
    (hsize : v.sym.size ≤ limit) : v.DistinctBelow limit ↔ v.Distinct := by
  have hall : (v.selector.getD []).filter (· < limit) = v.selector.getD [] := by
    refine List.filter_eq_self.mpr fun k hk => ?_
    have hlt := (h.bounds k hk).2
    simp
    omega
  rw [DistinctBelow, hall, Distinct]

/-! ## The check of a view -/

theorem checkIndices_eq_ok_iff {dst : Bool} {s : Symbol} {seen idx : List Int} :
    checkIndices dst s seen idx = .ok () ↔
      (∀ k ∈ idx, 0 ≤ k ∧ k < s.size) ∧
        (dst = true → (idx.filter (· < maskLimit)).Nodup ∧
          ∀ k ∈ idx, k < maskLimit → k ∉ seen) := by
  induction idx generalizing seen with
  | nil => simp [checkIndices]
  | cons k rest ih =>
      simp only [checkIndices]
      split
      · rename_i hout
        simp only [reduceCtorEq, List.forall_mem_cons, false_iff, not_and]
        simp only [Bool.or_eq_true, decide_eq_true_eq] at hout
        omega
      · rename_i hin
        have hk : 0 ≤ k ∧ k < s.size := by simpa using hin
        split
        · rename_i hrepeat
          simp only [Bool.and_eq_true, decide_eq_true_eq, List.contains_eq_mem] at hrepeat
          obtain ⟨⟨hdst, hseen⟩, hlimit⟩ := hrepeat
          simp only [reduceCtorEq, List.forall_mem_cons, false_iff]
          exact fun h => (h.2 hdst).2.1 hlimit hseen
        · rename_i hfresh
          rw [ih]
          cases dst with
          | false => simp [hk]
          | true =>
              have hfresh : k < maskLimit → k ∉ seen := by
                intro hlimit hseen
                exact hfresh (by simp [hlimit, hseen])
              by_cases hlimit : k < maskLimit
              · simp [hk, hlimit, hfresh hlimit]
                grind
              · simp [hk, hlimit]
                grind

theorem check_source_iff {v : View} : v.check false = .ok () ↔ v.Inside := by
  rw [check_eq_ok_iff, checkIndices_eq_ok_iff]
  constructor
  · rintro ⟨hnonempty, ⟨hbounds, _⟩, _⟩
    exact ⟨hnonempty, hbounds⟩
  · rintro ⟨hnonempty, hbounds⟩
    exact ⟨hnonempty, ⟨hbounds, by simp⟩, by simp⟩

theorem check_destination_iff {v : View} :
    v.check true = .ok () ↔ v.Inside ∧ v.neg = false ∧ v.DistinctBelow maskLimit := by
  rw [check_eq_ok_iff, checkIndices_eq_ok_iff]
  constructor
  · rintro ⟨hnonempty, ⟨hbounds, hdistinct⟩, hneg⟩
    exact ⟨⟨hnonempty, hbounds⟩, by simpa using hneg, (hdistinct rfl).1⟩
  · rintro ⟨⟨hnonempty, hbounds⟩, hneg, hdistinct⟩
    exact ⟨hnonempty, ⟨hbounds, fun _ => ⟨hdistinct, by simp⟩⟩, by simp [hneg]⟩

end View

/-! ## Opcodes -/

def Op.Sized (op : Op) (dst : View) (srcs : List View) : Prop :=
  match op.rule, srcs with
  | .elementwise, srcs => ∀ v ∈ srcs, v.size = 1 ∨ v.size = dst.size
  | .dot, [a, b] => dst.size = 1 ∧ a.size = b.size
  | .cross, [a, b] => dst.size = 3 ∧ a.size = 3 ∧ b.size = 3
  | .norm, [a] => dst.size = a.size
  | .tex, texture :: _ => texture.sym.role = .texture
  | _, _ => True

/-- What an opcode asks of its operands, apart from the repeats in a write mask. -/
structure Op.Admits (op : Op) (dst : View) (srcs : List View) : Prop where
  known : op.isKnown = true
  count : srcs.length = op.arity
  present : ∀ v ∈ srcs, v.isAbsent = false
  sources : ∀ v ∈ srcs, v.Inside
  destination : dst.isAbsent = !op.hasDst
  inside : dst.isAbsent = false → dst.Inside
  positive : dst.isAbsent = false → dst.neg = false
  sized : op.Sized dst srcs

namespace Instruction

theorem checkRule_eq_ok_iff {op : Op} {dst : View} {srcs : List View} :
    checkRule op dst srcs = .ok () ↔ op.Sized dst srcs := by
  unfold checkRule Op.Sized
  cases op.rule with
  | elementwise => exact checkWidths_eq_ok_iff
  | none => simp
  | dot => grind
  | cross => grind
  | norm => grind
  | tex => grind
  | kill => simp

theorem checkDst_eq_ok_iff {op : Op} {dst : View} :
    checkDst op dst = .ok () ↔
      dst.isAbsent = !op.hasDst ∧ (dst.isAbsent = false → dst.check true = .ok ()) := by
  unfold checkDst
  cases op.hasDst <;> cases dst.isAbsent <;> simp

theorem check_iff_admits {op : Op} {dst : View} {srcs : List View} :
    (⟨op, dst, srcs⟩ : Instruction).check = .ok () ↔
      op.Admits dst srcs ∧ (dst.isAbsent = false → dst.DistinctBelow View.maskLimit) := by
  rw [check_eq_ok_iff, checkDst_eq_ok_iff, checkSources_eq_ok_iff, checkRule_eq_ok_iff]
  simp only [View.check_source_iff, View.check_destination_iff]
  constructor
  · rintro ⟨hknown, hcount, ⟨hdst, hmask⟩, hsources, hsized⟩
    exact ⟨⟨hknown, hcount, fun v hv => (hsources v hv).1, fun v hv => (hsources v hv).2, hdst,
      fun h => (hmask h).1, fun h => (hmask h).2.1, hsized⟩, fun h => (hmask h).2.2⟩
  · rintro ⟨h, hdistinct⟩
    exact ⟨h.known, h.count, ⟨h.destination, fun hdst =>
      ⟨h.inside hdst, h.positive hdst, hdistinct hdst⟩⟩,
      fun v hv => ⟨h.present v hv, h.sources v hv⟩, h.sized⟩

theorem slots_of_length {op : Op} {srcs : List View} (h : srcs.length = op.arity) :
    slots op srcs = srcs := by
  simp [slots, ← h]

theorem make_eq_ok_iff {op : Op} {dst : View} {srcs : List View} {i : Instruction} :
    make op dst srcs = .ok i ↔ i = ⟨op, dst, srcs⟩ ∧ i.check = .ok () := by
  have hcheck : checkOperands op dst srcs = (⟨op, dst, srcs⟩ : Instruction).check := rfl
  unfold make
  rw [hcheck]
  cases h : (⟨op, dst, srcs⟩ : Instruction).check with
  | error e =>
      simp only [Except.map, reduceCtorEq, false_iff, not_and]
      rintro rfl
      simp [h]
  | ok u =>
      have hlength : srcs.length = op.arity := (check_eq_ok_iff.mp h).2.1
      simp only [Except.map, raw, slots_of_length hlength, Except.ok.injEq]
      constructor
      · rintro rfl
        exact ⟨rfl, h⟩
      · exact fun hi => hi.1.symm

/--
An instruction can be made exactly when the opcode admits the operands and the destination repeats
none of the first 64 elements; up to that size a write mask names no element twice.  What was made
consists of the given parts and passes the check again.
-/
theorem make_succeeds_iff (op : Op) (dst : View) (srcs : List View) :
    ((∃ i, make op dst srcs = .ok i) ↔
        op.Admits dst srcs ∧ (dst.isAbsent = false → dst.DistinctBelow 64)) ∧
      (dst.sym.size ≤ 64 → ((∃ i, make op dst srcs = .ok i) ↔
        op.Admits dst srcs ∧ (dst.isAbsent = false → dst.Distinct))) ∧
      ∀ i, make op dst srcs = .ok i → i = ⟨op, dst, srcs⟩ ∧ i.check = .ok () := by
  have hsucceeds : (∃ i, make op dst srcs = .ok i) ↔
      op.Admits dst srcs ∧ (dst.isAbsent = false → dst.DistinctBelow 64) := by
    simp only [make_eq_ok_iff, exists_eq_left]
    exact check_iff_admits
  refine ⟨hsucceeds, ?_, fun i hi => make_eq_ok_iff.mp hi⟩
  intro hsize
  rw [hsucceeds]
  refine and_congr_right fun h => forall_congr' fun hdst => ?_
  exact (h.inside hdst).distinctBelow_iff (by exact_mod_cast hsize)

theorem make_succeeds_iff_repeating :
    let wide : Symbol := ⟨1, .temp, 65, .float32, .attrib, "wide", []⟩
    let x : Symbol := ⟨2, .input, 1, .float32, .attrib, "x", []⟩
    let mask : View := ⟨wide, some [64, 64], false⟩
    ¬ mask.Distinct ∧ ∃ i, make .asn mask [.full x] = .ok i ∧ i.check = .ok () := by
  intro wide x mask
  have hadmits : Op.Admits .asn mask [.full x] :=
    ⟨rfl, rfl, by decide, by decide, rfl, fun _ => by decide, fun _ => rfl, by
      simp [Op.Sized, Op.rule, x, View.full, View.size, View.isAbsent, Symbol.isHole]⟩
  have hsucceeds := make_succeeds_iff .asn mask [.full x]
  obtain ⟨i, hi⟩ := hsucceeds.1.mpr ⟨hadmits, fun _ => by decide⟩
  exact ⟨by decide, i, hi, (hsucceeds.2.2 i hi).2⟩

end Instruction

end KernelAlgebra
