import KernelAlgebra.Machine

/-!
# What one instruction does to the store

An instruction that can be executed does nothing, tests whether the run is discarded, or puts
computed numbers into one symbol.  From this follows what it leaves alone, that vectors keep
their length, and that the result depends only on the symbols that the instruction reads.
-/

namespace KernelAlgebra.Machine

variable {u : Overrides}

/-- The three things that an instruction can do. -/
inductive Effect (u : Overrides) (st : Store) (i : Instruction) : Outcome → Prop
  | nothing : i.op = .nop → Effect u st i ⟨st, false⟩
  | test {xs : List Float} :
      i.op = .kil → readAll u st i.src = some [xs] → Effect u st i ⟨st, xs.any (· < 0)⟩
  | assignment {srcs : List (List Float)} {r ys : List Float} :
      readAll u st i.src = some srcs → compute i.op i.dst.size srcs = some r →
      i.dst.isAbsent = false → place i.dst (st.get u i.dst.sym) 0 r = some ys →
      Effect u st i ⟨st.set i.dst.sym ys, false⟩

theorem write_eq_some_iff {st st' : Store} {v : View} {r : List Float} :
    write u st v r = some st' ↔
      v.isAbsent = false ∧ ∃ ys, place v (st.get u v.sym) 0 r = some ys ∧
        st' = st.set v.sym ys := by
  unfold write
  cases v.isAbsent with
  | true => simp
  | false =>
      simp only [Bool.false_eq_true, if_false, Option.map_eq_some_iff, true_and]
      constructor
      · rintro ⟨ys, hys, rfl⟩
        exact ⟨ys, hys, rfl⟩
      · rintro ⟨ys, hys, rfl⟩
        exact ⟨ys, hys, rfl⟩

theorem exec_eq_ok_iff {st : Store} {i : Instruction} {o : Outcome} :
    exec u st i = .ok o ↔ Effect u st i o := by
  constructor
  · intro h
    unfold exec at h
    split at h
    · rename_i hop
      cases h
      exact .nothing hop
    · rename_i hop
      split at h
      · rename_i hread
        cases h
        exact .test hop hread
      · cases h
    · cases h
    · cases h
    · split at h
      · cases h
      · rename_i srcs hread
        split at h
        · rename_i st' hwrite
          cases h
          obtain ⟨r, hr, hwrite⟩ := Option.bind_eq_some_iff.mp hwrite
          obtain ⟨hdst, ys, hplace, rfl⟩ := write_eq_some_iff.mp hwrite
          exact .assignment hread hr hdst hplace
        · cases h
  · intro h
    cases h with
    | nothing hop => simp [exec, hop]
    | test hop hread => simp [exec, hop, hread]
    | assignment hread hr hdst hplace =>
        have hwrite := write_eq_some_iff.mpr ⟨hdst, _, hplace, rfl⟩
        unfold exec
        split
        · rename_i hop
          simp [compute, hop, Op.rule] at hr
        · rename_i hop
          simp [compute, hop, Op.rule] at hr
        · rename_i hop
          simp [compute, hop, Op.rule] at hr
        · rename_i hop
          simp [compute, hop, Op.rule] at hr
        · simp [hread, hr, hwrite]

/-! ## Lengths -/

namespace Store

def Sized (u : Overrides) (st : Store) : Prop :=
  ∀ s : Symbol, (st.get u s).length = s.size

theorem sized_empty (u : Overrides) : Sized u [] := by
  intro s
  simp only [get, List.lookup_nil, Option.getD_none, startValue]
  split <;> simp

theorem Sized.set {st : Store} (h : Sized u st) {s : Symbol} {xs : List Float}
    (hlen : xs.length = s.size) : Sized u (st.set s xs) := by
  intro t
  rw [get_set]
  split
  · rename_i ht
    rw [ht, hlen]
  · exact h t

end Store

theorem length_place {v : View} {xs ys r : List Float} {i : Nat}
    (h : place v xs i r = some ys) : ys.length = xs.length := by
  induction r generalizing xs i with
  | nil =>
      simp only [place, Option.some.injEq] at h
      rw [h]
  | cons x r ih =>
      simp only [place] at h
      split at h
      · split at h
        · cases h
        · simpa using ih h
      · cases h

theorem sized_exec {st st' : Store} {i : Instruction} {killed : Bool}
    (hsized : st.Sized u) (h : exec u st i = .ok ⟨st', killed⟩) : st'.Sized u := by
  cases exec_eq_ok_iff.mp h with
  | nothing => exact hsized
  | test => exact hsized
  | assignment _ _ _ hplace => exact hsized.set ((length_place hplace).trans (hsized _))

theorem sized_load {inputs : List Symbol} {values : List (List Float)} {st st' : Store}
    (hsized : st.Sized u) (h : load inputs values st = .ok st') : st'.Sized u := by
  induction inputs generalizing values st with
  | nil =>
      simp only [load, Except.ok.injEq] at h
      exact h ▸ hsized
  | cons s rest ih =>
      cases values with
      | nil =>
          simp only [load, Except.ok.injEq] at h
          exact h ▸ hsized
      | cons xs more =>
          simp only [load] at h
          split at h
          · cases h
          · split at h
            · cases h
            · rename_i hlen
              exact ih (hsized.set (by simpa using hlen)) h

theorem sized_start {i : Interface} {inputs : List (List Float)} {st : Store}
    (h : start i inputs = .ok st) : st.Sized u := by
  unfold start at h
  split at h
  · cases h
  · exact sized_load (Store.sized_empty u) h

theorem length_of_mapM_eq_some {α β : Type} {f : α → Option β} {xs : List α} {ys : List β}
    (h : xs.mapM f = some ys) : ys.length = xs.length := by
  induction xs generalizing ys with
  | nil =>
      simp only [List.mapM_nil, Option.pure_def, Option.some.injEq] at h
      simp [← h]
  | cons x xs ih =>
      simp only [List.mapM_cons, Option.bind_eq_bind, Option.bind_eq_some_iff, Option.pure_def,
        Option.some.injEq] at h
      obtain ⟨y, _, ys', hys, rfl⟩ := h
      simp [ih hys]

theorem length_read {st : Store} {v : View} {xs : List Float}
    (h : read u st v = some xs) : xs.length = v.size := by
  unfold read at h
  split at h
  · cases h
  · rw [length_of_mapM_eq_some h, View.length_elements]

/-! ## What an instruction leaves alone -/

theorem get_exec_of_ne {st st' : Store} {i : Instruction} {killed : Bool} {s : Symbol}
    (h : exec u st i = .ok ⟨st', killed⟩) (hs : i.defines ≠ some s) :
    st'.get u s = st.get u s := by
  cases exec_eq_ok_iff.mp h with
  | nothing => rfl
  | test => rfl
  | assignment _ _ hdst _ =>
      rw [Store.get_set, if_neg]
      intro heq
      exact hs (by simp [Instruction.defines, hdst, heq])

/-! ## What an instruction depends on -/

theorem read_congr {st st' : Store} {v : View}
    (h : v.isAbsent = false → st.get u v.sym = st'.get u v.sym) :
    read u st v = read u st' v := by
  unfold read
  cases hv : v.isAbsent with
  | true => rfl
  | false => rw [h hv]

theorem readAll_congr {st st' : Store} {srcs : List View}
    (h : ∀ v ∈ srcs, v.isAbsent = false → st.get u v.sym = st'.get u v.sym) :
    readAll u st srcs = readAll u st' srcs := by
  induction srcs with
  | nil => rfl
  | cons v rest ih =>
      have htail := ih fun w hw => h w (by simp [hw])
      unfold readAll at htail ⊢
      rw [List.mapM_cons, List.mapM_cons, htail, read_congr (h v (by simp))]

theorem mem_uses {i : Instruction} {s : Symbol} :
    s ∈ i.uses ↔ ∃ v ∈ i.src, v.isAbsent = false ∧ v.sym = s := by
  simp [Instruction.uses, Instruction.sources, and_assoc]

theorem readAll_src_congr {st st' : Store} {i : Instruction}
    (h : ∀ s ∈ i.uses, st.get u s = st'.get u s) :
    readAll u st i.src = readAll u st' i.src :=
  readAll_congr fun v hv habsent => h v.sym (mem_uses.mpr ⟨v, hv, habsent, rfl⟩)

theorem place_agree {v : View} {xs xs' ys r : List Float} {i : Nat}
    (hlen : xs.length = xs'.length) (h : place v xs i r = some ys) :
    ∃ ys', place v xs' i r = some ys' ∧
      ∀ k : Nat, xs[k]? = xs'[k]? ∨ (∃ j < r.length, v.index? (i + j : Nat) = some (k : Int)) →
        ys[k]? = ys'[k]? := by
  induction r generalizing xs xs' i with
  | nil =>
      simp only [place, Option.some.injEq] at h
      subst h
      exact ⟨xs', rfl, by simp⟩
  | cons x r ih =>
      simp only [place] at h ⊢
      split at h
      · rename_i k₀ hk₀
        split at h
        · cases h
        · rename_i hbounds
          have hlen' : (xs.set k₀.toNat x).length = (xs'.set k₀.toNat x).length := by
            simpa using hlen
          obtain ⟨ys', hys', hagree⟩ := ih hlen' h
          simp only [← hlen, hbounds]
          refine ⟨ys', hys', ?_⟩
          intro k hk
          apply hagree
          rcases hk with hk | ⟨j, hj, hjk⟩
          · left
            simp only [List.getElem?_set, hlen, hk]
          · cases j with
            | zero =>
                left
                have hk₀k : k₀ = (k : Int) := by
                  rw [Nat.add_zero] at hjk
                  exact Option.some.inj (hk₀.symm.trans hjk)
                subst hk₀k
                simp [List.getElem?_set, hlen]
            | succ j =>
                right
                refine ⟨j, by simpa using hj, ?_⟩
                rw [← hjk]
                congr 2
                omega
      · cases h

theorem exists_index_of_covers {v : View} (hv : v.isAbsent = false) (hcovers : v.covers = true)
    {k : Nat} (hk : k < v.sym.size) : ∃ j < v.size, v.index? (j : Nat) = some (k : Int) := by
  unfold View.covers at hcovers
  cases hsel : v.selector with
  | none => exact ⟨k, by simpa [View.size, hv, hsel] using hk, by simp [View.index?, hsel]⟩
  | some idx =>
      simp only [hsel, List.all_eq_true, List.mem_range, List.contains_iff_mem] at hcovers
      obtain ⟨j, hj, hjk⟩ := List.getElem_of_mem (hcovers k hk)
      refine ⟨j, by simpa [View.size, hv, hsel] using hj, ?_⟩
      simp only [View.index?, hsel, Int.not_ofNat_neg, if_false, Int.toNat_natCast]
      rw [List.getElem?_eq_getElem hj, hjk]

theorem place_eq_of_covers {v : View} {xs xs' ys r : List Float} (hv : v.isAbsent = false)
    (hcovers : v.covers = true) (hr : r.length = v.size) (hxs : xs.length = v.sym.size)
    (hxs' : xs'.length = v.sym.size) (h : place v xs 0 r = some ys) :
    place v xs' 0 r = some ys := by
  obtain ⟨ys', hys', hagree⟩ := place_agree (hxs.trans hxs'.symm) h
  have hsame : ys = ys' := by
    apply List.ext_getElem?
    intro k
    by_cases hk : k < v.sym.size
    · obtain ⟨j, hj, hjk⟩ := exists_index_of_covers hv hcovers hk
      exact hagree k (.inr ⟨j, hr ▸ hj, by simpa using hjk⟩)
    · have hlen := length_place h
      have hlen' := length_place hys'
      rw [List.getElem?_eq_none (by omega), List.getElem?_eq_none (by omega)]
  rw [hys', hsame]

end KernelAlgebra.Machine
