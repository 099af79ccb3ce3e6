import KernelAlgebra.ConstantPool
import Mathlib

/-!
# Keys of constants

The fields of a key have no colon in them, so the key can be cut into its fields again, and a field
tells its number.  Requests with one key are one request.

That a number is read back from its pattern is a lemma of the library that no part of Mathlib
brings along, so this module imports the whole.
-/

namespace KernelAlgebra

/-! ## Digits -/

theorem digitChar_injective : ∀ n < 16, ∀ m < 16, Nat.digitChar n = Nat.digitChar m → n = m := by
  decide

theorem toDigits_injective {base : Nat} (hbase : 1 < base) (hbase' : base ≤ 16) {n m : Nat}
    (h : Nat.toDigits base n = Nat.toDigits base m) : n = m := by
  induction n using Nat.strongRecOn generalizing m with
  | _ n ih =>
      rw [Nat.toDigits_eq_if hbase, Nat.toDigits_eq_if (n := m) hbase] at h
      have hlast : ∀ k, k % base < 16 := fun k =>
        Nat.lt_of_lt_of_le (Nat.mod_lt k (by omega)) hbase'
      by_cases hn : n < base <;> by_cases hm : m < base
      · rw [if_pos hn, if_pos hm, List.singleton_inj] at h
        exact digitChar_injective n (by omega) m (by omega) h
      · rw [if_pos hn, if_neg hm] at h
        have hlength := congrArg List.length h
        have hpos := Nat.length_toDigits_pos (b := base) (n := m / base)
        simp only [List.length_append, List.length_singleton] at hlength
        omega
      · rw [if_neg hn, if_pos hm] at h
        have hlength := congrArg List.length h
        have hpos := Nat.length_toDigits_pos (b := base) (n := n / base)
        simp only [List.length_append, List.length_singleton] at hlength
        omega
      · rw [if_neg hn, if_neg hm] at h
        obtain ⟨hfront, hback⟩ := List.append_inj' h rfl
        have hquotient := ih (n / base) (Nat.div_lt_self (by omega) hbase) hfront
        have hremainder := digitChar_injective _ (hlast n) _ (hlast m) (List.singleton_inj.mp hback)
        rw [← Nat.div_add_mod n base, ← Nat.div_add_mod m base, hquotient, hremainder]

theorem colon_not_mem_toDigits {base : Nat} (hbase : 1 < base) (n : Nat) :
    ':' ∉ Nat.toDigits base n := by
  induction n using Nat.strongRecOn with
  | _ n ih =>
      rw [Nat.toDigits_eq_if hbase]
      split
      · simp
      · simpa using ih (n / base) (Nat.div_lt_self (by omega) hbase)

/-! ## Keys -/

namespace ConstantRequest

def fields (r : ConstantRequest) : List (List Char) :=
  Nat.toDigits 10 r.scalar.code.toNat :: r.patterns.map fun x => Nat.toDigits 16 x.toNat

theorem splitOn_key (r : ConstantRequest) : r.key.toList.splitOn ':' = r.fields := by
  have hcode : (toString r.scalar.code).toList = Nat.toDigits 10 r.scalar.code.toNat :=
    Nat.toList_repr
  have hkey : r.key.toList = [':'].intercalate r.fields := by
    simp [key, fields, hcode, Function.comp_def]
  rw [hkey]
  refine List.splitOn_intercalate ':' ?_ (List.cons_ne_nil _ _)
  intro field hfield
  rcases List.mem_cons.mp hfield with rfl | hfield
  · exact colon_not_mem_toDigits (by decide) _
  · obtain ⟨x, _, rfl⟩ := List.mem_map.mp hfield
    exact colon_not_mem_toDigits (by decide) _

theorem key_injective {r r' : ConstantRequest} (h : r.key = r'.key) : r = r' := by
  have hfields : r.fields = r'.fields := by rw [← splitOn_key, ← splitOn_key, h]
  obtain ⟨hcode, hpatterns⟩ := List.cons.inj hfields
  have hscalar : r.scalar = r'.scalar := by
    have hcode := toDigits_injective (by decide) (by decide) hcode
    exact Scalar.ext (UInt8.toNat_inj.mp hcode)
  have hequal : r.patterns = r'.patterns := by
    refine (List.map_inj_right fun x y hxy => ?_).mp hpatterns
    exact UInt64.toNat_inj.mp (toDigits_injective (by decide) (by decide) hxy)
  exact ConstantRequest.ext hscalar hequal

theorem values_ofValues (scalar : Scalar) (values : List Float) :
    (ofValues scalar values).values = values := by
  simp [ConstantRequest.values, ofValues, Function.comp_def]

end ConstantRequest

namespace ConstantPool

variable {pool pool' : ConstantPool} {g g' : Supply} {r : ConstantRequest} {s : Symbol}

theorem isAnswer_of_find? (h : pool.find? r = some s) : s ∈ pool.constants ∧ r.IsAnswer s := by
  obtain ⟨before, behind, htable, _⟩ := List.lookup_eq_some_iff.mp h
  obtain ⟨hmem, r', hkey, hanswer⟩ := pool.sound (r.key, s) (by simp [htable])
  exact ⟨hmem, ConstantRequest.key_injective hkey ▸ hanswer⟩

def fresh (g : Supply) (r : ConstantRequest) : Symbol :=
  ⟨g.next, .const, r.patterns.length, r.scalar, .attrib, "", r.values⟩

theorem fresh_ofValues (g : Supply) (scalar : Scalar) (values : List Float) :
    fresh g (.ofValues scalar values) =
      ⟨g.next, .const, values.length, scalar, .attrib, "", values⟩ := by
  rw [fresh, ConstantRequest.values_ofValues]
  simp [ConstantRequest.ofValues]

theorem request_cases (h : pool.request g r = .ok (s, pool', g')) :
    (pool.find? r = some s ∧ pool' = pool ∧ g' = g) ∨
      (pool.find? r = none ∧ s = fresh g r ∧ pool'.constants = pool.constants ++ [s] ∧
        pool'.table = (r.key, s) :: pool.table ∧ g' = ⟨g.next + 1⟩) := by
  unfold request at h
  split at h
  · rename_i t hfind
    cases h
    exact .inl ⟨hfind, rfl, rfl⟩
  · rename_i hfind
    split at h
    · cases h
    · rename_i t g₁ hdeclare
      cases h
      obtain ⟨hs, hg⟩ := Supply.declare_eq_ok hdeclare
      exact .inr ⟨hfind, by simpa [fresh, ConstantRequest.declaration] using hs, rfl, rfl, hg⟩

end ConstantPool

end KernelAlgebra
