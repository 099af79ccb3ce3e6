import KernelAlgebra.Proofs.Compose.Conduits
import KernelAlgebra.Proofs.Selection.Spans

/-!
# Moving a channel

Moving the channel at a place to the front, moving the first channel back to that place, and
leaving it out: each is a list of spans around the place, of which the ones at the ends of the
list may be empty.  For a place of the list they do what they say.  For a place outside, the spans
around it do not always reach out of the list themselves.
-/

namespace KernelAlgebra.Selection

/-! ## Places around a place -/

section Places

variable {α : Type} {n p : Nat} {x : α} {xs front middle back : List α}

theorem atPlaces_range' {lo : Nat} (h : front.length = lo) :
    atPlaces (List.range' lo middle.length) (front ++ middle ++ back) = middle := by
  induction middle generalizing front lo with
  | nil => rfl
  | cons y rest ih =>
      have hlt : lo < (front ++ y :: rest ++ back).length := by simp; omega
      have hrest : front ++ y :: rest ++ back = (front ++ [y]) ++ rest ++ back := by simp
      rw [List.length_cons, List.range'_succ, atPlaces_cons hlt]
      congr 1
      · simp [h]
      · rw [hrest, ih (by simp [h])]

theorem range_split (front back : Nat) :
    List.range (front + 1 + back) =
      List.range' 0 front ++ front :: List.range' (front + 1) back := by
  have happend := List.range'_append_1 (s := 0) (m := front) (n := back + 1)
  rw [Nat.zero_add, List.range'_succ] at happend
  rw [happend, List.range_eq_range', Nat.add_assoc, Nat.add_comm 1]

theorem filter_range (front back : Nat) :
    (List.range (front + 1 + back)).filter (· ≠ front) =
      List.range' 0 front ++ List.range' (front + 1) back := by
  have hfront : (List.range' 0 front).filter (· ≠ front) = List.range' 0 front :=
    List.filter_eq_self.mpr fun i hi => by simp at hi ⊢; omega
  have hback : (List.range' (front + 1) back).filter (· ≠ front) = List.range' (front + 1) back :=
    List.filter_eq_self.mpr fun i hi => by simp at hi ⊢; omega
  rw [range_split, List.filter_append, List.filter_cons_of_neg (by simp), hfront, hback]

def fronted (front back : Nat) : List Nat :=
  front :: (List.range' 0 front ++ List.range' (front + 1) back)

def settled (front back : Nat) : List Nat :=
  List.range' 1 front ++ 0 :: List.range' (front + 1) back

theorem fronted_perm (front back : Nat) :
    (fronted front back).Perm (List.range (front + 1 + back)) := by
  rw [range_split]
  exact List.perm_middle.symm

theorem settled_perm (front back : Nat) :
    (settled front back).Perm (List.range (front + 1 + back)) := by
  have hall := range_split 0 (front + back)
  rw [Nat.zero_add, ← List.range'_append_1, Nat.add_comm 1 front] at hall
  rw [Nat.add_right_comm, Nat.add_comm _ 1, hall]
  exact List.perm_middle

theorem atPlaces_fronted :
    atPlaces (fronted front.length back.length) (front ++ x :: back) = x :: (front ++ back) := by
  have hfront : atPlaces (List.range' 0 front.length) ([] ++ front ++ x :: back) = front :=
    atPlaces_range' rfl
  have hback : atPlaces (List.range' (front.length + 1) back.length)
      ((front ++ [x]) ++ back ++ []) = back := atPlaces_range' (by simp)
  rw [List.nil_append] at hfront
  rw [List.append_nil, List.append_assoc] at hback
  have hlt : front.length < (front ++ x :: back).length := by simp
  rw [fronted, atPlaces_cons hlt, atPlaces_append, hfront, List.getElem_append_right (by omega)]
  simpa using hback

theorem atPlaces_settled :
    atPlaces (settled front.length back.length) (x :: (front ++ back)) = front ++ x :: back := by
  have hfront : atPlaces (List.range' 1 front.length) ([x] ++ front ++ back) = front :=
    atPlaces_range' rfl
  have hback : atPlaces (List.range' (front.length + 1) back.length)
      ((x :: front) ++ back ++ []) = back := atPlaces_range' (by simp)
  rw [List.append_nil] at hback
  rw [settled, atPlaces_append, atPlaces_cons (by simp)]
  exact congr (congrArg _ hfront) (congrArg _ hback)

theorem settled_fronted {lo hi : Nat} (h : xs.length = lo + 1 + hi) :
    atPlaces (settled lo hi) (atPlaces (fronted lo hi) xs) = xs := by
  obtain ⟨front, x, back, rfl, rfl, rfl⟩ :
      ∃ front x back, front ++ x :: back = xs ∧ front.length = lo ∧ back.length = hi :=
    ⟨xs.take lo, xs[lo], xs.drop (lo + 1), by simp, by simp; omega, by simp; omega⟩
  rw [atPlaces_fronted, atPlaces_settled]

theorem fronted_settled {lo hi : Nat} (h : xs.length = lo + 1 + hi) :
    atPlaces (fronted lo hi) (atPlaces (settled lo hi) xs) = xs := by
  obtain ⟨x, rest, rfl⟩ := List.exists_cons_of_length_pos (l := xs) (by omega)
  obtain ⟨front, back, rfl, rfl, rfl⟩ :
      ∃ front back, front ++ back = rest ∧ front.length = lo ∧ back.length = hi := by
    rw [List.length_cons] at h
    exact ⟨rest.take lo, rest.drop lo, by simp, by simp; omega, by simp; omega⟩
  rw [atPlaces_settled, atPlaces_fronted]

end Places

/-! ## Spans around an index -/

section Around

variable {vars : List Symbol} {k : Index} {front back : Nat} {p : Int}

/-- The index names the place between `front` places and `back` others. -/
structure Index.Splits (k : Index) (vars : List Symbol) (front back : Nat) : Prop where
  position : k.position vars = .ok front
  length : vars.length = front + 1 + back
  word : vars.length < 2 ^ 63

theorem Index.Splits.own (h : k.Splits vars front back) :
    k.position vars = .ok (((front + 1 : Nat) : Int) - 1) := by
  rw [show ((front + 1 : Nat) : Int) - 1 = front by omega]
  exact h.position

theorem Index.Splits.before (h : k.Splits vars front back) :
    (k.add (-1)).position vars = .ok (front - 1 : Int) := by
  have hlen := h.length
  have hword := h.word
  rw [position_add h.position, word_of_isWord ⟨by omega, by omega⟩]
  rfl

theorem Index.Splits.behind (h : k.Splits vars front back) :
    (k.add 1).position vars = .ok ((front + 1 : Nat) : Int) := by
  have hlen := h.length
  have hword := h.word
  rw [position_add h.position, word_of_isWord ⟨by omega, by omega⟩]
  rfl

theorem Index.position_last (h : vars.length < 2 ^ 63) :
    (fromEnd 0).position vars = .ok (vars.length - 1 : Int) := by
  rw [position_fromEnd ⟨by omega, by omega⟩, Int.add_zero]

namespace Span

theorem positions_front (h : k.Splits vars front back) :
    (Span.mk (Index.fromStart 0) (k.add (-1))).positions vars = .ok (List.range' 0 front) :=
  positions_of_le (i := 0) rfl h.before (Nat.zero_le _) (by have := h.length; omega)

theorem positions_back (h : k.Splits vars front back) :
    (Span.mk (k.add 1) (Index.fromEnd 0)).positions vars =
      .ok (List.range' (front + 1) back) := by
  have hlen := h.length
  rw [positions_of_le h.behind (Index.position_last h.word) (by omega) (Nat.le_refl _)]
  congr 2
  omega

theorem positions_single (h : k.Splits vars front back) :
    (Span.single k).positions vars = .ok [front] := by
  have hlen := h.length
  rw [positions_of_le (i := front) (j := front + 1) h.position h.own (by omega) (by omega),
    Nat.add_sub_cancel_left]
  rfl

end Span

namespace Manipulator

theorem positions_drop (h : k.Splits vars front back) :
    (drop k).positions vars = .ok (List.range' 0 front ++ List.range' (front + 1) back) := by
  have hback := positions_cons (Span.positions_back h) positions_nil
  rw [List.append_nil] at hback
  exact positions_cons (Span.positions_front h) hback

theorem positions_extract (h : k.Splits vars front back) :
    (extract k).positions vars = .ok (fronted front back) :=
  positions_cons (Span.positions_single h) (positions_drop h)

theorem positions_insert (h : k.Splits vars front back) :
    (insert k).positions vars = .ok (settled front back) := by
  have hlen := h.length
  have hmiddle : (Span.mk (Index.fromStart 1) k).positions vars = .ok (List.range' 1 front) :=
    Span.positions_of_le (i := 1) (j := front + 1) rfl h.own (by omega) (by omega)
  have hfirst : (Span.single (Index.fromStart 0)).positions vars = .ok [0] :=
    Span.positions_of_le (i := 0) (j := 1) rfl rfl (by omega) (by omega)
  have hback := positions_cons (Span.positions_back h) positions_nil
  rw [List.append_nil] at hback
  exact positions_cons hmiddle (positions_cons hfirst hback)

/--
An index that looks at nothing but the length of the list, and names a place in it, can be used
to move the channel there to the front, to move the first channel there, and to leave the
channel there out.  Moving it to the front keeps the others in order, and the two moves undo
each other.
-/
theorem insert_undoes_extract (hword : vars.length < 2 ^ 63) (hk : k.isPositional = true)
    (hp : k.position vars = .ok p) (hlow : 0 ≤ p) (hhigh : p < vars.length) :
    ∃ out back,
      (∀ moved : List Symbol, moved.length = vars.length →
        (extract k).positions moved = .ok out ∧ (insert k).positions moved = .ok back ∧
        (drop k).positions moved = .ok ((List.range vars.length).filter (· ≠ p.toNat))) ∧
      out = p.toNat :: (List.range vars.length).filter (· ≠ p.toNat) ∧
      out.Perm (List.range vars.length) ∧ back.Perm (List.range vars.length) ∧
      ∀ (α : Type) (xs : List α), xs.length = vars.length →
        atPlaces back (atPlaces out xs) = xs ∧ atPlaces out (atPlaces back xs) = xs := by
  obtain ⟨front, rfl⟩ := Int.eq_ofNat_of_zero_le hlow
  obtain ⟨back, hlen⟩ : ∃ back, vars.length = front + 1 + back :=
    ⟨vars.length - (front + 1), by omega⟩
  have hsplits : ∀ moved : List Symbol, moved.length = vars.length → k.Splits moved front back :=
    fun moved hmoved =>
      ⟨(Index.position_congr hk hmoved).trans hp, hmoved.trans hlen, hmoved ▸ hword⟩
  have hothers : (List.range vars.length).filter (· ≠ front) =
      List.range' 0 front ++ List.range' (front + 1) back := hlen ▸ filter_range front back
  refine ⟨fronted front back, settled front back, fun moved hmoved => ?_, ?_,
    hlen ▸ fronted_perm front back, hlen ▸ settled_perm front back, fun α xs hxs => ?_⟩
  · have h := hsplits moved hmoved
    refine ⟨positions_extract h, positions_insert h, ?_⟩
    rw [Int.toNat_natCast, hothers]
    exact positions_drop h
  · rw [Int.toNat_natCast, hothers]
    rfl
  · exact ⟨settled_fronted (hxs.trans hlen), fronted_settled (hxs.trans hlen)⟩

theorem insert_undoes_extract_third :
    let vars := List.replicate 4 (Symbol.mk 1 .input 1 .float32 .attrib "x" [])
    let k := (Index.fromEnd 0).add (-1)
    k.position vars = .ok 2 ∧
      ∃ out back, (extract k).positions vars = .ok out ∧ (insert k).positions vars = .ok back ∧
        out = [2, 0, 1, 3] ∧
        ∀ (α : Type) (xs : List α), xs.length = 4 → atPlaces back (atPlaces out xs) = xs := by
  intro vars k
  have hlen : vars.length = 4 := rfl
  have hp : k.position vars = .ok 2 :=
    (Index.position_add (Index.position_last (by omega))).trans
      (congrArg Except.ok (word_of_isWord (by decide)))
  obtain ⟨out, back, hall, hout, -, -, hundo⟩ :=
    insert_undoes_extract (by omega) rfl hp (by omega) (by omega)
  obtain ⟨hextract, hinsert, -⟩ := hall vars rfl
  exact ⟨hp, out, back, hextract, hinsert, hout, fun α xs hxs => (hundo α xs hxs).1⟩

/-! ## Places outside -/

theorem refused_single (hp : k.position vars = .ok p) (hout : p < 0 ∨ vars.length ≤ p) :
    Refused ((Span.single k).positions vars) :=
  Span.refused_of_outside hp hp (Int.le_refl p) hout

theorem positions_behind_last (hword : vars.length + 1 < 2 ^ 63)
    (hp : k.position vars = .ok vars.length) :
    (Span.mk (k.add 1) (Index.fromEnd 0)).positions vars = .ok [] := by
  have hbehind := Index.position_add (d := 1) hp
  rw [word_of_isWord ⟨by omega, by omega⟩] at hbehind
  exact Span.positions_of_lt hbehind (Index.position_last (by omega)) (by omega)

theorem positions_behind_first (hword : vars.length < 2 ^ 63) (hp : k.position vars = .ok (-1)) :
    (Span.mk (k.add 1) (Index.fromEnd 0)).positions vars = .ok (List.range vars.length) := by
  have hbehind : (k.add 1).position vars = .ok ((0 : Nat) : Int) := Index.position_add hp
  rw [Span.positions_of_le hbehind (Index.position_last hword) (Nat.zero_le _) (Nat.le_refl _),
    Nat.sub_zero, List.range_eq_range']

theorem refused_behind (hword : vars.length < 2 ^ 63) (hp : k.position vars = .ok p)
    (hlow : IsWord p) (hlt : p < -1) :
    Refused ((Span.mk (k.add 1) (Index.fromEnd 0)).positions vars) := by
  have hbehind := Index.position_add (d := 1) hp
  have hmin := hlow.1
  rw [word_of_isWord ⟨by omega, by omega⟩] at hbehind
  exact Span.refused_of_outside hbehind (Index.position_last hword) (by omega) (by omega)

theorem insert_outside (hword : vars.length < 2 ^ 63) (hp : k.position vars = .ok p)
    (hisWord : IsWord p) (hout : p < 0 ∨ vars.length ≤ p) :
    if p = -1 ∧ 0 < vars.length then
      (insert k).positions vars = .ok (0 :: List.range vars.length)
    else Refused ((insert k).positions vars) := by
  by_cases hone : 1 ≤ p
  · rw [if_neg (by omega)]
    exact refused_cons (Span.refused_of_outside Index.position_fromStart hp hone (by omega))
  have hahead : (Span.mk (Index.fromStart 1) k).positions vars = .ok [] :=
    Span.positions_of_lt Index.position_fromStart hp (by omega)
  rcases Nat.eq_zero_or_pos vars.length with hzero | hpos
  · rw [if_neg (by omega)]
    exact refused_of_rest hahead
      (refused_cons (refused_single Index.position_fromStart (by omega)))
  have hfirst : (Span.single (Index.fromStart 0)).positions vars = .ok [0] :=
    Span.positions_of_le (i := 0) (j := 1) rfl rfl (by omega) (by omega)
  split
  · rename_i hbefore
    have hrest := positions_cons (positions_behind_first hword (hbefore.1 ▸ hp)) positions_nil
    rw [List.append_nil] at hrest
    exact positions_cons hahead (positions_cons hfirst hrest)
  · rename_i hbefore
    exact refused_of_rest hahead (refused_of_rest hfirst
      (refused_cons (refused_behind hword hp hisWord (by omega))))

theorem drop_outside (hword : vars.length + 1 < 2 ^ 63) (hp : k.position vars = .ok p)
    (hisWord : IsWord p) (hout : p < 0 ∨ vars.length ≤ p) :
    if p = -1 ∨ p = vars.length then (drop k).positions vars = .ok (List.range vars.length)
    else Refused ((drop k).positions vars) := by
  have hbefore := Index.position_add (d := -1) hp
  have hmin := hisWord.1
  have hmax := hisWord.2
  rcases eq_or_ne p (-2 ^ 63) with rfl | hne
  · -- the place before the least word is the greatest one
    have hword' : word (-2 ^ 63 + -1) = 2 ^ 63 - 1 := by decide +kernel
    rw [hword'] at hbefore
    rw [if_neg (by omega)]
    exact refused_cons
      (Span.refused_of_outside Index.position_fromStart hbefore (by omega) (by omega))
  rw [word_of_isWord ⟨by omega, by omega⟩] at hbefore
  rcases hout with hneg | hhigh
  · have hahead : (Span.mk (Index.fromStart 0) (k.add (-1))).positions vars = .ok [] :=
      Span.positions_of_lt Index.position_fromStart hbefore (by omega)
    split
    · have hfirst : p = -1 := by omega
      have hrest := positions_cons (positions_behind_first (by omega) (hfirst ▸ hp)) positions_nil
      rw [List.append_nil] at hrest
      exact positions_cons hahead hrest
    · exact refused_of_rest hahead
        (refused_cons (refused_behind (by omega) hp hisWord (by omega)))
  · split
    · obtain rfl : p = vars.length := by omega
      have hall : (Span.mk (Index.fromStart 0) (k.add (-1))).positions vars =
          .ok (List.range vars.length) := by
        rw [List.range_eq_range']
        exact Span.positions_of_le (i := 0) rfl hbefore (Nat.zero_le _) (Nat.le_refl _)
      have hrest := positions_cons (positions_behind_last hword hp) positions_nil
      have hboth := positions_cons hall hrest
      rwa [List.append_nil, List.append_nil] at hboth
    · exact refused_cons
        (Span.refused_of_outside Index.position_fromStart hbefore (by omega) (by omega))

/--
A place outside the list is refused by all four, apart from the places next to its ends.  Moving
the first channel to the place before it has that channel twice, and leaving out the place before
the first one or behind the last one leaves nothing out.
-/
theorem outside_refused_except_next_to_ends (hword : vars.length + 1 < 2 ^ 63)
    (hp : k.position vars = .ok p) (hisWord : IsWord p) (hout : p < 0 ∨ vars.length ≤ p) :
    Refused (positions vars [Span.single k]) ∧ Refused ((extract k).positions vars) ∧
    (if p = -1 ∧ 0 < vars.length then
      (insert k).positions vars = .ok (0 :: List.range vars.length)
    else Refused ((insert k).positions vars)) ∧
    (if p = -1 ∨ p = vars.length then (drop k).positions vars = .ok (List.range vars.length)
    else Refused ((drop k).positions vars)) :=
  ⟨refused_cons (refused_single hp hout), refused_cons (refused_single hp hout),
    insert_outside (by omega) hp hisWord hout, drop_outside hword hp hisWord hout⟩

theorem outside_refused_except_next_to_ends_three :
    let vars := List.replicate 3 (Symbol.mk 1 .input 1 .float32 .attrib "x" [])
    (insert (Index.fromStart (-1))).positions vars = .ok [0, 0, 1, 2] ∧
      (drop (Index.fromStart (-1))).positions vars = .ok [0, 1, 2] ∧
      (drop (Index.fromStart 3)).positions vars = .ok [0, 1, 2] ∧
      Refused ((insert (Index.fromStart 3)).positions vars) := by
  intro vars
  have hlen : vars.length = 3 := rfl
  have hbefore : (Index.fromStart (-1)).position vars = .ok (-1) := rfl
  have hbehind : (Index.fromStart 3).position vars = .ok 3 := rfl
  obtain ⟨-, -, hinsert, hdrop⟩ :=
    outside_refused_except_next_to_ends (by omega) hbefore (by decide) (by omega)
  obtain ⟨-, -, hinsert', hdrop'⟩ :=
    outside_refused_except_next_to_ends (by omega) hbehind (by decide) (by omega)
  exact ⟨hinsert, hdrop, hdrop', hinsert'⟩

end Manipulator

end Around

end KernelAlgebra.Selection
