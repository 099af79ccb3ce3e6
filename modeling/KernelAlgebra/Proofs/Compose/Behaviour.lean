import KernelAlgebra.Proofs.Machine.Retracing

/-!
# What programs compute

The behaviour of a program relates the vectors of its inputs to those of its outputs.  Connecting
composes behaviours: curried inputs come first, outputs of the first one feed free inputs of the
second one, and what is left over on either side stays.  Composing in this way is associative.
-/

namespace KernelAlgebra.Machine

abbrev Behaviour := List (List Float) → List (List Float) → Prop

/-- The run completes with these outputs and is not discarded. -/
def Gives (p : Program) (u : Overrides) : Behaviour := fun values outputs =>
  ∃ steps, Completes p values u ⟨outputs, false, steps⟩

namespace Behaviour

def Sized (G : Behaviour) (inputs outputs : Nat) : Prop :=
  ∀ values results, G values results → values.length = inputs ∧ results.length = outputs

/-- The first behaviour with `taken` curried inputs feeds the `free` inputs of the second one
behind its `bound` curried inputs. -/
def Composed (G H : Behaviour) (taken bound free : Nat) : Behaviour := fun values outputs =>
  ∃ ca cb xa xb ra rb, values = ca ++ cb ++ xa ++ xb ∧ ca.length = taken ∧ cb.length = bound ∧
    G (ca ++ xa) ra ∧ H (cb ++ ra.take free ++ xb) rb ∧ outputs = rb ++ ra.drop free

/-- Both behaviours, each on its own curried and free inputs. -/
def Paired (G H : Behaviour) (taken bound : Nat) : Behaviour := fun values outputs =>
  ∃ ca cb xa xb ra rb, values = ca ++ cb ++ xa ++ xb ∧ ca.length = taken ∧ cb.length = bound ∧
    G (ca ++ xa) ra ∧ H (cb ++ xb) rb ∧ outputs = ra ++ rb

variable {G H K : Behaviour} {na nb nc fa fb fc A B : Nat} {values outputs : List (List Float)}

/-- Three behaviours in a row: what the first one gives feeds the second one and then, where it
skips over the second one, the third one. -/
def Row (G H K : Behaviour) (na nb nc fb fc B : Nat) : Behaviour := fun values outputs =>
  ∃ ca cb cc xa xb xc ra rb rc, values = ca ++ cb ++ cc ++ xa ++ xb ++ xc ∧ ca.length = na ∧
    cb.length = nb ∧ cc.length = nc ∧ G (ca ++ xa) ra ∧ H (cb ++ ra.take fb ++ xb) rb ∧
    K (cc ++ (rb.take fc ++ (ra.drop fb).take (fc - B)) ++ xc) rc ∧
    outputs = rc ++ (rb.drop fc ++ ra.drop (fb + (fc - B)))

theorem composed_left_iff (hH : H.Sized (nb + fb) B) :
    Composed (Composed G H na nb fb) K (na + nb) nc fc values outputs ↔
      Row G H K na nb nc fb fc B values outputs := by
  have hleft : ∀ {ra rb : List (List Float)}, rb.length = B →
      (rb ++ ra.drop fb).take fc = rb.take fc ++ (ra.drop fb).take (fc - B) ∧
      (rb ++ ra.drop fb).drop fc = rb.drop fc ++ ra.drop (fb + (fc - B)) := by
    rintro ra rb rfl
    exact ⟨List.take_append .., by rw [List.drop_append, List.drop_drop]⟩
  constructor
  · rintro ⟨cab, cc, xab, xc, rab, rc, rfl, hcab, hcc,
      ⟨ca, cb, xa, xb, ra, rb, hsplit, hca, hcb, hG, hH', rfl⟩, hK, rfl⟩
    have hlen : cab.length = (ca ++ cb).length := by rw [hcab, List.length_append, hca, hcb]
    obtain ⟨rfl, rfl⟩ := List.append_inj (hsplit.trans (List.append_assoc ..)) hlen
    obtain ⟨htake, hdrop⟩ := @hleft ra rb (hH _ _ hH').2
    rw [htake] at hK
    exact ⟨ca, cb, cc, xa, xb, xc, ra, rb, rc, by simp, hca, hcb, hcc, hG, hH', hK, by rw [hdrop]⟩
  · rintro ⟨ca, cb, cc, xa, xb, xc, ra, rb, rc, rfl, hca, hcb, hcc, hG, hH', hK, rfl⟩
    obtain ⟨htake, hdrop⟩ := @hleft ra rb (hH _ _ hH').2
    refine ⟨ca ++ cb, cc, xa ++ xb, xc, rb ++ ra.drop fb, rc, by simp, by simp [hca, hcb], hcc,
      ⟨ca, cb, xa, xb, ra, rb, by simp, hca, hcb, hG, hH', rfl⟩, ?_, by rw [hdrop]⟩
    rw [htake]
    exact hK

theorem composed_right_iff (hG : G.Sized (na + fa) A) (hH : H.Sized (nb + fb) B) :
    Composed G (Composed H K nb nc fc) na (nb + nc) (fb + (fc - B)) values outputs ↔
      Row G H K na nb nc fb fc B values outputs := by
  constructor
  · rintro ⟨ca, cbc, xa, xbc, ra, rbc, rfl, hca, hcbc, hG',
      ⟨cb, cc, yb, yc, rb, rc, hsplit, hcb, hcc, hH', hK, rfl⟩, rfl⟩
    have hA := (hG _ _ hG').2
    have hyb : yb.length = fb := by
      have := (hH _ _ hH').1
      rw [List.length_append] at this
      omega
    have hlen : cbc.length = (cb ++ cc).length := by rw [hcbc, List.length_append, hcb, hcc]
    rw [List.append_assoc, List.append_assoc] at hsplit
    obtain ⟨rfl, hrest⟩ := List.append_inj hsplit hlen
    -- the free inputs of the second behaviour, and those of the third
    have hyb' : yb = ra.take fb ++ xbc.take (fb - A) := by
      have := congrArg (List.take fb) hrest
      rw [List.take_append, List.take_take, List.length_take, List.take_left' hyb] at this
      rw [← this, show min fb (fb + (fc - B)) = fb by omega,
        show fb - min (fb + (fc - B)) ra.length = fb - A by omega]
    have hyc' : yc = (ra.drop fb).take (fc - B) ++ xbc.drop (fb - A) := by
      have := congrArg (List.drop fb) hrest
      rw [List.drop_append, List.drop_take, List.length_take, List.drop_left' hyb] at this
      rw [← this, show fb + (fc - B) - fb = fc - B by omega,
        show fb - min (fb + (fc - B)) ra.length = fb - A by omega]
    refine ⟨ca, cb, cc, xa, xbc.take (fb - A), xbc.drop (fb - A), ra, rb, rc, by simp, hca, hcb,
      hcc, hG', ?_, ?_, by simp⟩
    · rw [List.append_assoc, ← hyb']
      exact hH'
    · rw [hyc'] at hK
      simpa using hK
  · rintro ⟨ca, cb, cc, xa, xb, xc, ra, rb, rc, rfl, hca, hcb, hcc, hG', hH', hK, rfl⟩
    have hA := (hG _ _ hG').2
    have hxb : xb.length = fb - A := by
      have := (hH _ _ hH').1
      simp only [List.length_append, List.length_take] at this
      omega
    -- what the first behaviour gives covers the free inputs of the second, or leaves some open
    have hmiddle : ra.take (fb + (fc - B)) ++ (xb ++ xc) =
        (ra.take fb ++ xb) ++ ((ra.drop fb).take (fc - B) ++ xc) := by
      rw [List.take_add, List.append_assoc, List.append_assoc]
      congr 1
      by_cases hle : A ≤ fb
      · rw [List.drop_eq_nil_of_le (by omega)]
        simp
      · rw [List.eq_nil_of_length_eq_zero (show xb.length = 0 by omega)]
        simp
    refine ⟨ca, cb ++ cc, xa, xb ++ xc, ra, rc ++ rb.drop fc, by simp, hca, by simp [hcb, hcc],
      hG', ?_, by simp⟩
    refine ⟨cb, cc, ra.take fb ++ xb, (ra.drop fb).take (fc - B) ++ xc, rb, rc, ?_, hcb, hcc, ?_,
      ?_, rfl⟩
    · rw [List.append_assoc, hmiddle]
      simp
    · simpa using hH'
    · simpa using hK

end Behaviour

end KernelAlgebra.Machine
