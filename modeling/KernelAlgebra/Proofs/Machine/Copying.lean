import KernelAlgebra.Proofs.Machine.Sequence
import KernelAlgebra.Proofs.Machine.Views

/-!
# Blocks of copies

A full-width copy gives one symbol the numbers of another.  A block of copies whose
destinations are no sources does this for all pairs at once.
-/

namespace KernelAlgebra.Machine

variable {u : Overrides}

/-! ## One copy -/

theorem read_full {st : Store} {s : Symbol} (hsized : st.Sized u) (hs : s.isHole = false) :
    read u st (View.full s) = some (st.get u s) := by
  rw [read_plain (v := View.full s) hsized hs rfl, map_signed]
  rfl

theorem compute_asn (xs : List Float) : compute .asn xs.length [xs] = some xs := by
  apply mapM_range_eq_some
  intro i x hx
  have hbroadcast : broadcast i xs = some x := by
    unfold broadcast
    split
    · cases i with
      | zero => simpa using hx
      | succ i => simp at hx
    · exact hx
  simp [hbroadcast, elementwise]

theorem exec_move {st st' : Store} {dst src : View} {xs : List Float}
    (hread : read u st src = some xs) (hsize : src.size = dst.size)
    (hwrite : write u st dst xs = some st') :
    exec u st (.move dst src) = .ok ⟨st', false⟩ := by
  obtain ⟨hdst, ys, hplace, rfl⟩ := write_eq_some_iff.mp hwrite
  have hreads : readAll u st (Instruction.move dst src).src = some [xs] := by
    simp [Instruction.move, readAll, hread]
  have hcompute : compute .asn dst.size [xs] = some xs := by
    rw [← hsize, ← length_read hread]
    exact compute_asn xs
  exact exec_eq_ok_iff.mpr (.assignment hreads hcompute hdst hplace)

theorem write_full {st : Store} {d : Symbol} {xs : List Float} (hsized : st.Sized u)
    (hd : d.isHole = false) (hxs : xs.length = d.size) :
    write u st (View.full d) xs = some (st.set d xs) := by
  have hlen : (st.get u d).length = xs.length := by
    rw [hsized, hxs]
  have hplace : place (View.full d) ([] ++ st.get u d) 0 xs = some ([] ++ xs) :=
    place_plain rfl hlen
  exact write_eq_some_iff.mpr ⟨hd, xs, hplace, rfl⟩

/-! ## Many assignments -/

def feedBlock (pairs : List (Symbol × View)) : Block :=
  pairs.map fun q => .move (View.full q.1) q.2

/-- Assignments that can be made in any order. -/
structure Feeds (pairs : List (Symbol × View)) : Prop where
  solid : ∀ q ∈ pairs, q.1.isHole = false
  sizes : ∀ q ∈ pairs, q.2.size = q.1.size
  nodup : (pairs.map Prod.fst).Nodup
  apart : ∀ q ∈ pairs, ∀ q' ∈ pairs, q.1 ≠ q'.2.sym

theorem Feeds.tail {q : Symbol × View} {rest : List (Symbol × View)} (h : Feeds (q :: rest)) :
    Feeds rest where
  solid := fun r hr => h.solid r (by simp [hr])
  sizes := fun r hr => h.sizes r (by simp [hr])
  nodup := (List.nodup_cons.mp h.nodup).2
  apart := fun r hr r' hr' => h.apart r (by simp [hr]) r' (by simp [hr'])

theorem path_feedBlock {g : Graph} {id : Nat} {pairs : List (Symbol × View)} {st : Store}
    (h : Feeds pairs) (hsized : st.Sized u) (hread : ∀ q ∈ pairs, ∃ xs, read u st q.2 = some xs) :
    ∃ mid, Path g u 0 ⟨id, feedBlock pairs, st⟩ ⟨id, [], mid⟩ ∧ mid.Sized u ∧
      (∀ q ∈ pairs, read u st q.2 = some (mid.get u q.1)) ∧
      ∀ s, s ∉ pairs.map Prod.fst → mid.get u s = st.get u s := by
  induction pairs generalizing st with
  | nil => exact ⟨st, .done _, hsized, by simp, fun _ _ => rfl⟩
  | cons q rest ih =>
      obtain ⟨xs, hxs⟩ := hread q (by simp)
      have hd := h.solid q (by simp)
      have hsize := h.sizes q (by simp)
      have hexec := exec_move hxs (hsize.trans (View.size_full hd).symm)
        (write_full hsized hd ((length_read hxs).trans hsize))
      have hsame : ∀ r ∈ rest, read u (st.set q.1 xs) r.2 = read u st r.2 := by
        intro r hr
        refine read_congr fun _ => ?_
        rw [Store.get_set, if_neg fun heq => h.apart q (by simp) r (by simp [hr]) heq.symm]
      obtain ⟨mid, hpath, hmid, hfed, hkept⟩ := ih h.tail (sized_exec hsized hexec)
        fun r hr => (hsame r hr).symm ▸ hread r (by simp [hr])
      refine ⟨mid, .instruction hexec hpath, hmid, ?_, ?_⟩
      · intro r hr
        rcases List.mem_cons.mp hr with rfl | hr'
        · rw [hkept _ (List.nodup_cons.mp h.nodup).1, Store.get_set, if_pos rfl, hxs]
        · rw [← hsame r hr', hfed r hr']
      · intro s hs
        simp only [List.map_cons, List.mem_cons, not_or] at hs
        rw [hkept s hs.2, Store.get_set, if_neg hs.1]

/-! ## Many copies -/

def copyBlock (pairs : List (Symbol × Symbol)) : Block :=
  pairs.map fun q => .copy q.1 q.2

/-- Copies that can be made in any order. -/
structure Independent (pairs : List (Symbol × Symbol)) : Prop where
  solid : ∀ q ∈ pairs, q.1.isHole = false ∧ q.2.isHole = false
  sizes : ∀ q ∈ pairs, q.2.size = q.1.size
  nodup : (pairs.map Prod.fst).Nodup
  apart : ∀ q ∈ pairs, ∀ q' ∈ pairs, q.1 ≠ q'.2

def whole (q : Symbol × Symbol) : Symbol × View := (q.1, View.full q.2)

theorem copyBlock_eq (pairs : List (Symbol × Symbol)) :
    copyBlock pairs = feedBlock (pairs.map whole) := by
  rw [feedBlock, List.map_map]
  rfl

theorem Independent.feeds {pairs : List (Symbol × Symbol)} (h : Independent pairs) :
    Feeds (pairs.map whole) where
  solid := List.forall_mem_map.mpr fun q hq => (h.solid q hq).1
  sizes := List.forall_mem_map.mpr fun q hq =>
    (View.size_full (h.solid q hq).2).trans (h.sizes q hq)
  nodup := by
    rw [List.map_map]
    exact h.nodup
  apart := by
    simp only [List.forall_mem_map]
    exact h.apart

theorem path_copyBlock {g : Graph} {id : Nat} {pairs : List (Symbol × Symbol)} {st : Store}
    (h : Independent pairs) (hsized : st.Sized u) :
    ∃ mid, Path g u 0 ⟨id, copyBlock pairs, st⟩ ⟨id, [], mid⟩ ∧ mid.Sized u ∧
      (∀ q ∈ pairs, mid.get u q.1 = st.get u q.2) ∧
      ∀ s, s ∉ pairs.map Prod.fst → mid.get u s = st.get u s := by
  have hread : ∀ q ∈ pairs, read u st (whole q).2 = some (st.get u q.2) :=
    fun q hq => read_full hsized (h.solid q hq).2
  obtain ⟨mid, hpath, hmid, hfed, hkept⟩ := @path_feedBlock u g id _ st h.feeds hsized
    (List.forall_mem_map.mpr fun q hq => ⟨_, hread q hq⟩)
  rw [copyBlock_eq]
  refine ⟨mid, hpath, hmid, ?_, ?_⟩
  · intro q hq
    have hnew := hfed (whole q) (List.mem_map_of_mem hq)
    rw [hread q hq] at hnew
    exact (Option.some.inj hnew).symm
  · rw [List.map_map] at hkept
    exact hkept

theorem computes_copyBlock {pairs : List (Symbol × Symbol)} {st : Store}
    (h : Independent pairs) (hsized : st.Sized u) :
    ∃ mid, Computes (Graph.single (copyBlock pairs)) u st mid false ∧ mid.Sized u ∧
      (∀ q ∈ pairs, mid.get u q.1 = st.get u q.2) ∧
      ∀ s, s ∉ pairs.map Prod.fst → mid.get u s = st.get u s := by
  obtain ⟨mid, hpath, hmid, hcopied, hkept⟩ :=
    path_copyBlock (g := Graph.single (copyBlock pairs)) h hsized
  exact ⟨mid, ⟨0, _, rfl, _, hpath, .at_exit rfl mid⟩, hmid, hcopied, hkept⟩

theorem fits_move {dst src : View} {declared : List Symbol}
    (hcheck : (Instruction.move dst src).check = .ok ())
    (hdst : dst.sym ∈ declared ∧ dst.sym.isLocal = true) (hsrc : src.sym ∈ declared) :
    (Instruction.move dst src).Fits declared := by
  refine ⟨hcheck, ?_, ?_⟩
  · intro t ht
    obtain ⟨v, hv, _, rfl⟩ := mem_uses.mp ht
    rw [List.mem_singleton.mp hv]
    exact hsrc
  · intro t ht
    unfold Instruction.defines at ht
    split at ht
    · cases ht
    · cases ht
      exact hdst

theorem fits_copy {d s : Symbol} {declared : List Symbol} (hd : d.isHole = false)
    (hs : s.isHole = false) (hsize : s.size = d.size) (hdst : d ∈ declared ∧ d.isLocal = true)
    (hsrc : s ∈ declared) : (Instruction.copy d s).Fits declared :=
  fits_move (Instruction.check_copy hd hs hsize) hdst hsrc

theorem fits_copyBlock {pairs : List (Symbol × Symbol)} {declared : List Symbol}
    (h : Independent pairs) (hdst : ∀ q ∈ pairs, q.1 ∈ declared ∧ q.1.isLocal = true)
    (hsrc : ∀ q ∈ pairs, q.2 ∈ declared) : ∀ i ∈ copyBlock pairs, i.Fits declared := by
  intro i hi
  obtain ⟨q, hq, rfl⟩ := List.mem_map.mp hi
  obtain ⟨hd, hs⟩ := h.solid q hq
  exact fits_copy hd hs (h.sizes q hq) (hdst q hq) (hsrc q hq)

end KernelAlgebra.Machine
