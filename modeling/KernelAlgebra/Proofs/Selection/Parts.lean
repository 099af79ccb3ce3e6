import KernelAlgebra.Selection.Fixed
import Mathlib.Algebra.BigOperators.Group.List.Basic
import Mathlib.Algebra.Order.Ring.Int

/-!
# The parts of a manipulator

A tree of manipulators that wraps no program comes down to a list of parts.  The parts take
their channels one after the other.  What they ask for instead, what arrives at the channels
they took and what they pass on is said here on lists, and so is the first part that does not
fit.
-/

namespace KernelAlgebra.Selection

/-- A manipulator that stands for no other. -/
inductive Part where
  | keep (n : Int)
  | lose (n : Int)
  | dup (n : Int)
  deriving DecidableEq, Repr

namespace Fixed

mutual

/-- The parts of a manipulator that wraps no program. -/
def parts? : Fixed → Option (List Part)
  | keep n => some [.keep n]
  | lose n => some [.lose n]
  | dup n => some [.dup n]
  | wrap _ => none
  | tree children => partsOf? children

def partsOf? : List Fixed → Option (List Part)
  | [] => some []
  | f :: rest => do return (← f.parts?) ++ (← partsOf? rest)

end

theorem partsOf?_cons {f : Fixed} {rest : List Fixed} {ps : List Part}
    (h : partsOf? (f :: rest) = some ps) :
    ∃ qs rs, f.parts? = some qs ∧ partsOf? rest = some rs ∧ ps = qs ++ rs := by
  simp only [partsOf?, Option.pure_def, Option.bind_eq_bind, Option.bind_eq_some_iff,
    Option.some.injEq] at h
  obtain ⟨qs, hqs, rs, hrs, rfl⟩ := h
  exact ⟨qs, rs, hqs, hrs, rfl⟩

end Fixed

namespace Part

variable {α β : Type}

def count : Part → Int
  | keep n | lose n | dup n => n

/-- How many channels the part takes; behind a program, copies need one. -/
def consumed (side : Side) : Part → Nat
  | keep n | lose n => n.toNat
  | dup n =>
      match side with
      | .inputs => n.toNat
      | .outputs => 1

/-- The inputs that the part has instead of the channels it takes. -/
def asked (chunk : List α) : Part → List α
  | keep _ => chunk
  | lose _ => []
  | dup _ => chunk.take 1

/-- What arrives at the channels, given what they hold when nothing does. -/
def supplied (blanks given : List α) : Part → List α
  | keep _ => given
  | lose _ => blanks
  | dup _ => given.flatMap (List.replicate blanks.length)

def outgoing (chunk : List α) : Part → List α
  | keep _ => chunk
  | lose _ => []
  | dup n => chunk.flatMap (List.replicate n.toNat)

/-- Copies are for channels of one size. -/
def Even (chunk : List Symbol) : Part → Prop
  | dup _ => ∀ s ∈ chunk, ∀ t ∈ chunk, s.size = t.size
  | _ => True

instance (chunk : List Symbol) (p : Part) : Decidable (p.Even chunk) := by
  cases p <;> unfold Even <;> infer_instance

end Part

/-! ## Lists of parts -/

section Lists

variable {α β : Type} {side : Side} {p : Part} {ps qs : List Part} {chunk xs blanks given : List α}

def demand (side : Side) (ps : List Part) : Nat := (ps.map (Part.consumed side)).sum

theorem demand_cons : demand side (p :: ps) = p.consumed side + demand side ps := rfl

theorem demand_append : demand side (ps ++ qs) = demand side ps + demand side qs := by
  simp [demand]

def asked : List Part → List α → List α
  | [], _ => []
  | p :: ps, xs =>
      p.asked (xs.take (p.consumed .inputs)) ++ asked ps (xs.drop (p.consumed .inputs))

def supplied : List Part → List α → List α → List α
  | [], _, _ => []
  | p :: ps, blanks, given =>
      let chunk := blanks.take (p.consumed .inputs)
      let own := (p.asked chunk).length
      p.supplied chunk (given.take own) ++
        supplied ps (blanks.drop (p.consumed .inputs)) (given.drop own)

def outgoing : List Part → List α → List α
  | [], _ => []
  | p :: ps, xs =>
      p.outgoing (xs.take (p.consumed .outputs)) ++ outgoing ps (xs.drop (p.consumed .outputs))

def Even : List Part → List Symbol → Prop
  | [], _ => True
  | p :: ps, xs => p.Even (xs.take (p.consumed .inputs)) ∧ Even ps (xs.drop (p.consumed .inputs))

instance decidableEven : (ps : List Part) → (xs : List Symbol) → Decidable (Even ps xs)
  | [], _ => inferInstanceAs (Decidable True)
  | p :: ps, xs =>
      have := decidableEven ps (xs.drop (p.consumed .inputs))
      inferInstanceAs (Decidable (_ ∧ _))

/-! ### Parts after parts -/

theorem asked_append :
    asked (ps ++ qs) xs = asked ps xs ++ asked qs (xs.drop (demand .inputs ps)) := by
  induction ps generalizing xs with
  | nil => rfl
  | cons p ps ih =>
      simp only [List.cons_append, asked, ih, List.drop_drop, demand_cons, List.append_assoc]

theorem outgoing_append :
    outgoing (ps ++ qs) xs = outgoing ps xs ++ outgoing qs (xs.drop (demand .outputs ps)) := by
  induction ps generalizing xs with
  | nil => rfl
  | cons p ps ih =>
      simp only [List.cons_append, outgoing, ih, List.drop_drop, demand_cons, List.append_assoc]

theorem supplied_append {more : List α} (hlen : given.length = (asked ps blanks).length) :
    supplied (ps ++ qs) blanks (given ++ more) =
      supplied ps blanks given ++ supplied qs (blanks.drop (demand .inputs ps)) more := by
  induction ps generalizing blanks given with
  | nil =>
      rw [List.eq_nil_of_length_eq_zero hlen]
      rfl
  | cons p ps ih =>
      rw [asked, List.length_append] at hlen
      have hrest : (given.drop (p.asked (blanks.take (p.consumed .inputs))).length).length =
          (asked ps (blanks.drop (p.consumed .inputs))).length := by
        rw [List.length_drop]
        omega
      simp only [List.cons_append, supplied, demand_cons, List.append_assoc]
      rw [List.take_append_of_le_length (by omega), List.drop_append_of_le_length (by omega),
        ih hrest, List.drop_drop]

/-! ### One part -/

theorem demand_singleton : demand side [p] = p.consumed side := by
  simp [demand]

theorem asked_singleton : asked [p] xs = p.asked (xs.take (p.consumed .inputs)) := by
  simp [asked]

theorem supplied_singleton
    (hlen : given.length = (p.asked (blanks.take (p.consumed .inputs))).length) :
    supplied [p] blanks given = p.supplied (blanks.take (p.consumed .inputs)) given := by
  simp [supplied, ← hlen]

theorem outgoing_singleton : outgoing [p] xs = p.outgoing (xs.take (p.consumed .outputs)) := by
  simp [outgoing]

/-! ### Other channels -/

theorem Part.map_asked {f : α → β} : (p.asked chunk).map f = p.asked (chunk.map f) := by
  cases p <;> simp [Part.asked, List.map_take]

theorem map_asked {f : α → β} : (asked ps xs).map f = asked ps (xs.map f) := by
  induction ps generalizing xs with
  | nil => rfl
  | cons p ps ih =>
      simp only [asked, List.map_append, Part.map_asked, ih, List.map_take, List.map_drop]

theorem length_asked_map {f : α → β} : (asked ps (xs.map f)).length = (asked ps xs).length := by
  rw [← map_asked, List.length_map]

theorem Part.map_supplied {f : α → β} :
    (p.supplied blanks given).map f = p.supplied (blanks.map f) (given.map f) := by
  cases p <;> simp [Part.supplied, List.map_flatMap, List.flatMap_map]

theorem map_supplied {f : α → β} :
    (supplied ps blanks given).map f = supplied ps (blanks.map f) (given.map f) := by
  induction ps generalizing blanks given with
  | nil => rfl
  | cons p ps ih =>
      have hown : (p.asked ((blanks.map f).take (p.consumed .inputs))).length =
          (p.asked (blanks.take (p.consumed .inputs))).length := by
        rw [← List.map_take, ← Part.map_asked, List.length_map]
      simp only [supplied, List.map_append, Part.map_supplied, ih, List.map_take, List.map_drop,
        hown]

theorem Part.map_outgoing {f : α → β} : (p.outgoing chunk).map f = p.outgoing (chunk.map f) := by
  cases p <;> simp [Part.outgoing, List.map_flatMap, List.flatMap_map]

theorem map_outgoing {f : α → β} : (outgoing ps xs).map f = outgoing ps (xs.map f) := by
  induction ps generalizing xs with
  | nil => rfl
  | cons p ps ih =>
      simp only [outgoing, List.map_append, Part.map_outgoing, ih, List.map_take, List.map_drop]

theorem outgoing_take : outgoing ps (xs.take (demand .outputs ps)) = outgoing ps xs := by
  induction ps generalizing xs with
  | nil => rfl
  | cons p ps ih =>
      simp only [outgoing, demand_cons, List.take_take, List.drop_take]
      rw [Nat.min_eq_left (Nat.le_add_right ..), Nat.add_sub_cancel_left, ih]

end Lists

/-! ### Sizes -/

section Sizes

variable {p : Part} {ps : List Part} {chunk xs : List Symbol}

theorem Part.sizes_supplied (heven : p.Even chunk) :
    (p.supplied chunk (p.asked chunk)).map Symbol.size = chunk.map Symbol.size := by
  cases p with
  | keep n => rfl
  | lose n => rfl
  | dup n =>
      cases chunk with
      | nil => rfl
      | cons s rest =>
          have hall : (s :: rest).map Symbol.size = List.replicate (s :: rest).length s.size := by
            refine List.eq_replicate_iff.mpr ⟨List.length_map _, fun k hk => ?_⟩
            obtain ⟨t, ht, rfl⟩ := List.mem_map.mp hk
            exact heven t ht s (by simp)
          rw [hall]
          simp [Part.supplied, Part.asked]

theorem sizes_supplied (heven : Even ps xs) :
    (supplied ps xs (asked ps xs)).map Symbol.size =
      (xs.take (demand .inputs ps)).map Symbol.size := by
  induction ps generalizing xs with
  | nil => rfl
  | cons p ps ih =>
      simp only [supplied, asked, List.take_left, List.drop_left, List.map_append,
        Part.sizes_supplied heven.1, ih heven.2, demand_cons, List.take_add]

theorem length_supplied_asked (heven : Even ps xs) (hle : demand .inputs ps ≤ xs.length) :
    (supplied ps xs (asked ps xs)).length = demand .inputs ps := by
  have hlen := congrArg List.length (sizes_supplied heven)
  rwa [List.length_map, List.length_map, List.length_take_of_le hle] at hlen

end Sizes

/-! ## Parts that do not fit -/

inductive Misfit where
  /-- A count below zero. -/
  | negative
  /-- More channels than there are. -/
  | overrun
  /-- Copies for channels of different sizes. -/
  | unequal
  /-- More than a word can count, or copies that no block has room for. -/
  | unbounded
  deriving DecidableEq, Repr

namespace Misfit

def kind? : Misfit → Option ErrorKind
  | negative => some .range
  | overrun => some .cursorOverrun
  | unequal => some .sizeMismatch
  | unbounded => none

def Ends (m : Misfit) (f : Fault ComposeError) : Prop :=
  match m.kind? with
  | some k => ∃ e, f = .error e ∧ e.kind = k
  | none => f = .outside

end Misfit

def takeMisfit? (available cursor : Nat) (n : Int) : Option Misfit :=
  if n < 0 then some .negative
  else if 2 ^ 63 ≤ cursor + n.toNat then some .unbounded
  else if available < cursor + n.toNat then some .overrun
  else none

def copiesMisfit? (n : Int) : Option Misfit :=
  if n < 0 || Channels.maxCopies < n then some .unbounded else none

def Part.misfit? (side : Side) (vars : List Symbol) (cursor : Nat) : Part → Option Misfit
  | keep n | lose n => takeMisfit? vars.length cursor n
  | dup n =>
      match side with
      | .inputs =>
          (takeMisfit? vars.length cursor n).or
            (if (dup n).Even ((vars.drop cursor).take n.toNat) then copiesMisfit? n
            else some .unequal)
      | .outputs => (takeMisfit? vars.length cursor 1).or (copiesMisfit? n)

def firstMisfit? (side : Side) (vars : List Symbol) : Nat → List Part → Option Misfit
  | _, [] => none
  | cursor, p :: ps =>
      (p.misfit? side vars cursor).or (firstMisfit? side vars (cursor + p.consumed side) ps)

section Misfits

variable {side : Side} {vars : List Symbol} {cursor : Nat} {p : Part} {ps qs : List Part}

theorem firstMisfit?_append : firstMisfit? side vars cursor (ps ++ qs) =
    (firstMisfit? side vars cursor ps).or
      (firstMisfit? side vars (cursor + demand side ps) qs) := by
  induction ps generalizing cursor with
  | nil => rfl
  | cons p ps ih =>
      rw [List.cons_append, firstMisfit?, firstMisfit?, ih, demand_cons, Option.or_assoc,
        Nat.add_assoc]

theorem takeMisfit?_eq_none_iff {available : Nat} {n : Int} :
    takeMisfit? available cursor n = none ↔
      0 ≤ n ∧ cursor + n.toNat < 2 ^ 63 ∧ cursor + n.toNat ≤ available := by
  unfold takeMisfit?
  repeat' split
  all_goals simp only [reduceCtorEq, false_iff, true_iff]
  all_goals omega

theorem copiesMisfit?_eq_none_iff {n : Int} :
    copiesMisfit? n = none ↔ 0 ≤ n ∧ n ≤ Channels.maxCopies := by
  simp [copiesMisfit?]

theorem Part.bounds_of_misfit? (h : p.misfit? side vars cursor = none) :
    cursor + p.consumed side < 2 ^ 63 ∧ cursor + p.consumed side ≤ vars.length := by
  cases p with
  | keep n => exact (takeMisfit?_eq_none_iff.mp h).2
  | lose n => exact (takeMisfit?_eq_none_iff.mp h).2
  | dup n =>
      cases side with
      | inputs => exact (takeMisfit?_eq_none_iff.mp (Option.or_eq_none_iff.mp h).1).2
      | outputs => exact (takeMisfit?_eq_none_iff.mp (Option.or_eq_none_iff.mp h).1).2

theorem bounds_of_firstMisfit? (hcursor : cursor < 2 ^ 63) (hle : cursor ≤ vars.length)
    (h : firstMisfit? side vars cursor ps = none) :
    cursor + demand side ps < 2 ^ 63 ∧ cursor + demand side ps ≤ vars.length := by
  induction ps generalizing cursor with
  | nil => exact ⟨hcursor, hle⟩
  | cons p ps ih =>
      obtain ⟨hp, hps⟩ := Option.or_eq_none_iff.mp h
      obtain ⟨hword, havailable⟩ := Part.bounds_of_misfit? hp
      rw [demand_cons, ← Nat.add_assoc]
      exact ih hword havailable hps

theorem even_of_firstMisfit? (h : firstMisfit? .inputs vars cursor ps = none) :
    Even ps (vars.drop cursor) := by
  induction ps generalizing cursor with
  | nil => trivial
  | cons p ps ih =>
      obtain ⟨hp, hps⟩ := Option.or_eq_none_iff.mp h
      refine ⟨?_, by rw [List.drop_drop]; exact ih hps⟩
      cases p with
      | keep n => trivial
      | lose n => trivial
      | dup n =>
          have hcopies := (Option.or_eq_none_iff.mp hp).2
          by_contra hodd
          change ¬ (Part.dup n).Even ((vars.drop cursor).take n.toNat) at hodd
          rw [if_neg hodd] at hcopies
          cases hcopies

/-! ### Counts that a run has room for -/

/-- Nothing is counted below zero, and a block has room for the copies.  In front of a program a
part takes as many channels as it makes copies, and more copies than channels are an overrun. -/
def Part.Moderate (side : Side) (available : Nat) : Part → Prop
  | keep n | lose n => 0 ≤ n
  | dup n => 0 ≤ n ∧ (n ≤ Channels.maxCopies ∨ side = .inputs ∧ available < n)

instance (available : Nat) (p : Part) : Decidable (p.Moderate side available) := by
  cases p <;> unfold Part.Moderate <;> infer_instance

/-- Every part is moderate, and the cursor stays a machine word. -/
structure Moderate (side : Side) (available : Nat) (ps : List Part) : Prop where
  part : ∀ p ∈ ps, p.Moderate side available
  word : demand side ps < 2 ^ 63

theorem Part.Moderate.count_lt {available : Nat} (h : p.Moderate side available)
    (hconsumed : p.consumed side < 2 ^ 63) : p.count < 2 ^ 63 := by
  cases p with
  | keep n =>
      simp only [Part.consumed, Part.count] at hconsumed ⊢
      omega
  | lose n =>
      simp only [Part.consumed, Part.count] at hconsumed ⊢
      omega
  | dup n =>
      rcases h.2 with hroom | ⟨rfl, _⟩
      · exact Int.lt_of_le_of_lt hroom (by decide)
      · simp only [Part.consumed, Part.count] at hconsumed ⊢
        omega

theorem consumed_le_demand (hp : p ∈ ps) : p.consumed side ≤ demand side ps := by
  induction ps with
  | nil => cases hp
  | cons q qs ih =>
      rw [demand_cons]
      rcases List.mem_cons.mp hp with rfl | hp
      · exact Nat.le_add_right ..
      · exact Nat.le_trans (ih hp) (Nat.le_add_left ..)

theorem takeMisfit?_cases {available : Nat} {n : Int} {m : Misfit} (hn : 0 ≤ n)
    (hword : cursor + n.toNat < 2 ^ 63) (h : takeMisfit? available cursor n = some m) :
    m = .overrun ∧ available < cursor + n.toNat := by
  rw [takeMisfit?, if_neg (by omega), if_neg (by omega)] at h
  split at h
  · rename_i hlt
    exact ⟨(Option.some.inj h).symm, hlt⟩
  · cases h

theorem Part.misfit?_cases {m : Misfit} (hp : p.Moderate side vars.length)
    (hword : cursor + p.consumed side < 2 ^ 63) (h : p.misfit? side vars cursor = some m) :
    (m = .overrun ∧ vars.length < cursor + p.consumed side) ∨
      (m = .unequal ∧ side = .inputs ∧
        ¬ p.Even ((vars.drop cursor).take (p.consumed .inputs))) := by
  cases p with
  | keep n => exact .inl (takeMisfit?_cases hp hword h)
  | lose n => exact .inl (takeMisfit?_cases hp hword h)
  | dup n =>
      cases side with
      | inputs =>
          rw [Part.misfit?] at h
          cases htake : takeMisfit? vars.length cursor n with
          | some m' =>
              rw [htake, Option.some_or] at h
              obtain rfl := Option.some.inj h
              exact .inl (takeMisfit?_cases hp.1 hword htake)
          | none =>
              -- the channels are there, so that the copies are not more than they are
              have htaken := (takeMisfit?_eq_none_iff.mp htake).2.2
              have hroom : n ≤ Channels.maxCopies := hp.2.resolve_right fun hmany => by omega
              rw [htake, Option.none_or, copiesMisfit?_eq_none_iff.mpr ⟨hp.1, hroom⟩] at h
              split at h
              · cases h
              · rename_i hodd
                exact .inr ⟨(Option.some.inj h).symm, rfl, hodd⟩
      | outputs =>
          have hroom : n ≤ Channels.maxCopies := hp.2.resolve_right (by simp)
          rw [Part.misfit?, copiesMisfit?_eq_none_iff.mpr ⟨hp.1, hroom⟩, Option.or_none] at h
          exact .inl (takeMisfit?_cases (by decide) hword h)

theorem firstMisfit?_cases {m : Misfit} (hps : ∀ p ∈ ps, p.Moderate side vars.length)
    (hword : cursor + demand side ps < 2 ^ 63) (h : firstMisfit? side vars cursor ps = some m) :
    (m = .overrun ∧ vars.length < cursor + demand side ps) ∨
      (m = .unequal ∧ side = .inputs ∧ ¬ Even ps (vars.drop cursor)) := by
  induction ps generalizing cursor with
  | nil => cases h
  | cons p ps ih =>
      rw [demand_cons] at hword ⊢
      cases hp : p.misfit? side vars cursor with
      | some m' =>
          rw [firstMisfit?, hp, Option.some_or] at h
          obtain rfl := Option.some.inj h
          rcases Part.misfit?_cases (hps p (by simp)) (by omega) hp with
            ⟨rfl, hlt⟩ | ⟨rfl, hside, hodd⟩
          · exact .inl ⟨rfl, by omega⟩
          · exact .inr ⟨rfl, hside, fun heven => hodd heven.1⟩
      | none =>
          rw [firstMisfit?, hp, Option.none_or] at h
          rcases ih (fun q hq => hps q (by simp [hq])) (by omega) h with
            ⟨rfl, hlt⟩ | ⟨rfl, hside, hodd⟩
          · exact .inl ⟨rfl, by omega⟩
          · refine .inr ⟨rfl, hside, fun heven => hodd ?_⟩
            subst hside
            rw [← List.drop_drop]
            exact heven.2

theorem firstMisfit?_eq_none_iff (hps : Moderate side vars.length ps) :
    firstMisfit? side vars 0 ps = none ↔
      demand side ps ≤ vars.length ∧ (side = .inputs → Even ps vars) := by
  constructor
  · intro h
    have hle := (bounds_of_firstMisfit? (by decide) (Nat.zero_le _) h).2
    rw [Nat.zero_add] at hle
    refine ⟨hle, ?_⟩
    rintro rfl
    exact even_of_firstMisfit? h
  · rintro ⟨hle, heven⟩
    cases hm : firstMisfit? side vars 0 ps with
    | none => rfl
    | some m =>
        have hword := hps.word
        rw [← Nat.zero_add (demand side ps)] at hword hle
        rcases firstMisfit?_cases hps.part hword hm with ⟨_, hlt⟩ | ⟨_, hside, hodd⟩
        · exact absurd hle (Nat.not_le_of_lt hlt)
        · exact absurd (heven hside) hodd

end Misfits

end KernelAlgebra.Selection
