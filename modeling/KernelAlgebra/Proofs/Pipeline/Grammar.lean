import KernelAlgebra.Pipeline.Parser
import Mathlib.Data.Nat.Digits.Defs

/-!
# The grammar of composition expressions

The parser takes exactly the sequences of tokens that the grammar derives, and the tree that it
returns is the one of the derivation.  Every other sequence is refused with a complaint about one
of its tokens or about its end.
-/

namespace KernelAlgebra.Pipeline

open Assembly

/-! ## Derivations -/

/-- What a phrase of the grammar is. -/
inductive Nonterminal where
  | expression
  | combination
  | primary
  | argument
  | arguments
  deriving DecidableEq, Repr

abbrev Nonterminal.Tree : Nonterminal → Type
  | .arguments => List Expr
  | _ => Expr

/-- The token writes an integer that fits 64 bits in decimal digits. -/
structure WritesInteger (t : Token) (n : Nat) : Prop where
  kind : t.kind = .number
  nonempty : t.text.toList ≠ []
  digits : ∀ c ∈ t.text.toList, '0' ≤ c ∧ c ≤ '9'
  value : Nat.ofDigits 10 (t.text.toList.reverse.map fun c => c.toNat - '0'.toNat) = n
  fits : n < 2 ^ 63

/--
The tokens of a phrase and its tree.  An expression is a combination or an expression joined to a
combination, and a combination a primary or a combination joined to a primary: both levels
associate to the left, and the joints of combinations bind tighter.
-/
inductive Derives : (x : Nonterminal) → List Token → x.Tree → Prop
  | combination {ts : List Token} {e : Expr} :
      Derives .combination ts e → Derives .expression ts e
  | connected {t : Token} {ts us : List Token} {joint : Joint} {left right : Expr} :
      Derives .expression ts left → outerJoint? t.kind = some joint →
        Derives .combination us right →
        Derives .expression (ts ++ t :: us) (Expr.binary joint left right)
  | primary {ts : List Token} {e : Expr} : Derives .primary ts e → Derives .combination ts e
  | combined {t : Token} {ts us : List Token} {joint : Joint} {left right : Expr} :
      Derives .combination ts left → innerJoint? t.kind = some joint → Derives .primary us right →
        Derives .combination (ts ++ t :: us) (Expr.binary joint left right)
  | name {t : Token} : t.kind = .ident → Derives .primary [t] (Expr.ref t.text)
  | callOfNothing {t opening closing : Token} :
      t.kind = .ident → opening.kind = .leftParen → closing.kind = .rightParen →
        Derives .primary [t, opening, closing] (Expr.call t.text [])
  | call {t opening closing : Token} {ts : List Token} {args : List Expr} :
      t.kind = .ident → opening.kind = .leftParen → Derives .arguments ts args →
        closing.kind = .rightParen →
        Derives .primary (t :: opening :: (ts ++ [closing])) (Expr.call t.text args)
  | parentheses {opening closing : Token} {ts : List Token} {e : Expr} :
      opening.kind = .leftParen → Derives .expression ts e → closing.kind = .rightParen →
        Derives .primary (opening :: (ts ++ [closing])) e
  | expression {ts : List Token} {e : Expr} : Derives .expression ts e → Derives .argument ts e
  | number {t : Token} {n : Nat} :
      WritesInteger t n → Derives .argument [t] (Expr.number n)
  | negative {minus t : Token} {n : Nat} :
      minus.kind = .minus → WritesInteger t n → Derives .argument [minus, t] (Expr.number (-n))
  | string {t : Token} : t.kind = .string → Derives .argument [t] (Expr.quoted (unquoted t.lexeme))
  | last {ts : List Token} {e : Expr} : Derives .argument ts e → Derives .arguments ts [e]
  | more {comma : Token} {ts us : List Token} {e : Expr} {args : List Expr} :
      Derives .argument ts e → comma.kind = .comma → Derives .arguments us args →
        Derives .arguments (ts ++ comma :: us) (e :: args)

/-! ## Single tokens -/

theorem isDecimal_iff {c : Char} : Number.isDecimal c = true ↔ '0' ≤ c ∧ c ≤ '9' := by
  simp [Number.isDecimal]

theorem foldl_digits (cs : List Char) (n : Nat) :
    cs.foldl (fun n c => n * 10 + (c.toNat - 48)) n =
      n * 10 ^ cs.length + Nat.ofDigits 10 (cs.reverse.map fun c => c.toNat - '0'.toNat) := by
  induction cs generalizing n with
  | nil => simp
  | cons c cs ih =>
      have hzero : '0'.toNat = 48 := rfl
      rw [List.foldl_cons, ih, List.reverse_cons, List.map_append, Nat.ofDigits_append,
        List.length_map, List.length_reverse, List.length_cons, pow_succ, hzero]
      simp only [List.map_cons, List.map_nil, Nat.ofDigits_singleton]
      ring

theorem indexOf?_eq_some_iff {t : Token} {n : Nat} (ht : t.kind = .number) :
    indexOf? t = some n ↔ WritesInteger t n := by
  have hvalue := foldl_digits t.text.toList 0
  rw [zero_mul, zero_add] at hvalue
  have hmax : ∀ m, m ≤ Number.maxInteger ↔ m < 2 ^ 63 := by
    intro m
    rw [Number.maxInteger, show Nat.pow 2 63 = 2 ^ 63 from rfl]
    omega
  unfold indexOf? Number.natural?
  rw [hvalue, Option.filter_eq_some_iff]
  constructor
  · rintro ⟨hsome, hfits⟩
    split at hsome
    · rename_i hdigits
      simp only [Bool.and_eq_true, decide_eq_true_eq, List.all_eq_true] at hdigits
      cases hsome
      refine ⟨ht, ?_, fun c hc => isDecimal_iff.mp (hdigits.2 c hc), rfl,
        (hmax _).mp (of_decide_eq_true hfits)⟩
      exact fun h => hdigits.1 (String.toList_eq_nil_iff.mp h)
    · cases hsome
  · intro h
    refine ⟨?_, decide_eq_true ((hmax n).mpr h.fits)⟩
    rw [if_pos, h.value]
    simp only [Bool.and_eq_true, decide_eq_true_eq, List.all_eq_true]
    exact ⟨fun hempty => h.nonempty (String.toList_eq_nil_iff.mpr hempty),
      fun c hc => isDecimal_iff.mpr (h.digits c hc)⟩

theorem of_outerJoint? {k : TokenKind} {joint : Joint} (h : outerJoint? k = some joint) :
    k ≠ .leftParen ∧ innerJoint? k = none := by
  revert h
  cases k <;> simp [outerJoint?, innerJoint?]

theorem of_innerJoint? {k : TokenKind} {joint : Joint} (h : innerJoint? k = some joint) :
    k ≠ .leftParen := by
  rintro rfl
  cases h

/-! ## What the parser reads -/

section Takes

variable {stop : Token} {α β : Type}

/--
A result with what is left of the tokens, where the tokens in front of it are as they should be, or
a complaint about one of the tokens or about their end.
-/
def Takes (stop : Token) (ts : List Token) (good : α → List Token → Prop) :
    Except ExprFault (α × List Token) → Prop
  | .ok (a, rest) => ∃ us, ts = us ++ rest ∧ good a us
  | .error f => f.token = stop ∨ f.token ∈ ts

theorem Takes.fail_head {ts : List Token} {good : α → List Token → Prop}
    {complaint : ExprComplaint} : Takes stop ts good (.error ⟨ts.headD stop, complaint⟩) := by
  cases ts with
  | nil => exact .inl rfl
  | cons t ts => exact .inr List.mem_cons_self

theorem Takes.imp {ts : List Token} {good good' : α → List Token → Prop}
    {r : Except ExprFault (α × List Token)} (h : Takes stop ts good r)
    (himp : ∀ a us, good a us → good' a us) : Takes stop ts good' r := by
  cases r with
  | error f => exact h
  | ok q =>
      obtain ⟨us, hus, hgood⟩ := h
      exact ⟨us, hus, himp _ _ hgood⟩

theorem Takes.cons {t : Token} {ts : List Token} {good : α → List Token → Prop}
    {r : Except ExprFault (α × List Token)} (h : Takes stop ts (fun a us => good a (t :: us)) r) :
    Takes stop (t :: ts) good r := by
  cases r with
  | error f => exact h.imp_right (List.mem_cons_of_mem t)
  | ok q =>
      obtain ⟨us, rfl, hgood⟩ := h
      exact ⟨t :: us, rfl, hgood⟩

theorem Takes.bind {ts : List Token} {good : α → List Token → Prop}
    {good' : β → List Token → Prop} {r : Except ExprFault (α × List Token)}
    {f : α × List Token → Except ExprFault (β × List Token)} (h : Takes stop ts good r)
    (hf : ∀ a us rest, good a us →
      Takes stop rest (fun b vs => good' b (us ++ vs)) (f (a, rest))) :
    Takes stop ts good' (r >>= f) := by
  cases r with
  | error e => exact h
  | ok q =>
      obtain ⟨a, rest⟩ := q
      obtain ⟨us, rfl, hgood⟩ := h
      have hrest := hf a us rest hgood
      change Takes stop (us ++ rest) good' (f (a, rest))
      generalize f (a, rest) = r at hrest ⊢
      cases r with
      | error e => exact hrest.imp_right (List.mem_append_right us)
      | ok q =>
          obtain ⟨vs, rfl, hgood'⟩ := hrest
          exact ⟨us ++ vs, (List.append_assoc ..).symm, hgood'⟩

end Takes

def Prolongs (x : Nonterminal) (left e : x.Tree) (us : List Token) : Prop :=
  ∀ before, Derives x before left → Derives x (before ++ us) e

def Enclosed (good : List Expr → List Token → Prop) (args : List Expr) (us : List Token) : Prop :=
  ∃ (vs : List Token) (closing : Token),
    closing.kind = .rightParen ∧ us = vs ++ [closing] ∧ good args vs

/-- Every function of the parser takes the tokens of a derivation. -/
structure Reads (stop : Token) (fuel : Nat) : Prop where
  expr (ts : List Token) : Takes stop ts (fun e us => Derives .expression us e) (expr stop fuel ts)
  connections (left : Expr) (ts : List Token) :
    Takes stop ts (Prolongs .expression left) (connections stop fuel left ts)
  combination (ts : List Token) :
    Takes stop ts (fun e us => Derives .combination us e) (combination stop fuel ts)
  combinations (left : Expr) (ts : List Token) :
    Takes stop ts (Prolongs .combination left) (combinations stop fuel left ts)
  primary (ts : List Token) :
    Takes stop ts (fun e us => Derives .primary us e) (primary stop fuel ts)
  arguments (name : String) (ts : List Token) :
    Takes stop ts (Enclosed fun args vs => vs = [] ∧ args = [] ∨ Derives .arguments vs args)
      (arguments stop fuel name ts)
  someArguments (name : String) (ts : List Token) :
    Takes stop ts (Enclosed fun args vs => Derives .arguments vs args)
      (someArguments stop fuel name ts)
  argument (ts : List Token) :
    Takes stop ts (fun e us => Derives .argument us e) (argument stop fuel ts)

section Steps

variable {stop : Token} {fuel : Nat}

theorem Reads.zero : Reads stop 0 where
  expr _ := Takes.fail_head
  connections _ _ := Takes.fail_head
  combination _ := Takes.fail_head
  combinations _ _ := Takes.fail_head
  primary _ := Takes.fail_head
  arguments _ _ := Takes.fail_head
  someArguments _ _ := Takes.fail_head
  argument _ := Takes.fail_head

theorem Reads.connections_succ (h : Reads stop fuel) (left : Expr) (ts : List Token) :
    Takes stop ts (Prolongs .expression left) (Pipeline.connections stop (fuel + 1) left ts) := by
  have hnothing : Takes stop ts (Prolongs .expression left) (.ok (left, ts)) :=
    ⟨[], rfl, fun before hleft => by rwa [List.append_nil]⟩
  cases ts with
  | nil => exact hnothing
  | cons t ts =>
      simp only [Pipeline.connections]
      cases hjoint : outerJoint? t.kind with
      | none => exact hnothing
      | some joint =>
          refine Takes.cons ((h.combination ts).bind fun right us rest hright => ?_)
          refine (h.connections (.binary joint left right) rest).imp ?_
          intro e vs hrest before hleft
          have hjoined := hrest _ (.connected hleft hjoint hright)
          rwa [List.append_assoc] at hjoined

theorem Reads.combinations_succ (h : Reads stop fuel) (left : Expr) (ts : List Token) :
    Takes stop ts (Prolongs .combination left) (Pipeline.combinations stop (fuel + 1) left ts) := by
  have hnothing : Takes stop ts (Prolongs .combination left) (.ok (left, ts)) :=
    ⟨[], rfl, fun before hleft => by rwa [List.append_nil]⟩
  cases ts with
  | nil => exact hnothing
  | cons t ts =>
      simp only [Pipeline.combinations]
      cases hjoint : innerJoint? t.kind with
      | none => exact hnothing
      | some joint =>
          refine Takes.cons ((h.primary ts).bind fun right us rest hright => ?_)
          refine (h.combinations (.binary joint left right) rest).imp ?_
          intro e vs hrest before hleft
          have hjoined := hrest _ (.combined hleft hjoint hright)
          rwa [List.append_assoc] at hjoined

theorem Reads.expr_succ (h : Reads stop fuel) (ts : List Token) :
    Takes stop ts (fun e us => Derives .expression us e) (Pipeline.expr stop (fuel + 1) ts) :=
  (h.combination ts).bind fun left us rest hleft =>
    (h.connections left rest).imp fun _ _ hrest => hrest us (.combination hleft)

theorem Reads.combination_succ (h : Reads stop fuel) (ts : List Token) :
    Takes stop ts (fun e us => Derives .combination us e)
      (Pipeline.combination stop (fuel + 1) ts) :=
  (h.primary ts).bind fun left us rest hleft =>
    (h.combinations left rest).imp fun _ _ hrest => hrest us (.primary hleft)

theorem Reads.primary_succ (h : Reads stop fuel) (ts : List Token) :
    Takes stop ts (fun e us => Derives .primary us e) (Pipeline.primary stop (fuel + 1) ts) := by
  cases ts with
  | nil => exact .inl rfl
  | cons t ts =>
      simp only [Pipeline.primary]
      split
      case h_1 hname =>
        cases ts with
        | nil => exact ⟨[t], rfl, .name hname⟩
        | cons next ts =>
            simp only
            split
            · rename_i hopening
              refine Takes.cons (Takes.cons ((h.arguments t.text ts).bind ?_))
              rintro args us rest ⟨vs, closing, hclosing, rfl, ⟨rfl, rfl⟩ | hvs⟩
              · exact ⟨[], rfl, .callOfNothing hname hopening hclosing⟩
              · have hcall := Derives.call hname hopening hvs hclosing
                exact ⟨[], rfl, by simpa using hcall⟩
            · exact ⟨[t], rfl, .name hname⟩
      case h_2 hopening =>
        refine Takes.cons ((h.expr ts).bind fun e us rest he => ?_)
        cases rest with
        | nil => exact .inl rfl
        | cons next rest =>
            simp only
            split
            · rename_i hclosing
              exact ⟨[next], rfl, .parentheses hopening he hclosing⟩
            · exact .inr List.mem_cons_self
      case h_3 => exact .inr List.mem_cons_self

theorem Reads.someArguments_succ (h : Reads stop fuel) (name : String) (ts : List Token) :
    Takes stop ts (Enclosed fun args vs => Derives .arguments vs args)
      (Pipeline.someArguments stop (fuel + 1) name ts) := by
  simp only [Pipeline.someArguments]
  refine (h.argument ts).bind fun e us rest he => ?_
  cases rest with
  | nil => exact .inl rfl
  | cons t rest =>
      simp only
      split
      case h_1 hcomma =>
        refine Takes.cons ((h.someArguments name rest).bind ?_)
        rintro args vs rest ⟨ws, closing, hclosing, rfl, hargs⟩
        exact ⟨[], rfl, us ++ t :: ws, closing, hclosing, by simp, .more he hcomma hargs⟩
      case h_2 hclosing => exact ⟨[t], rfl, us, t, hclosing, rfl, .last he⟩
      case h_3 => exact .inr List.mem_cons_self

theorem Reads.arguments_succ (h : Reads stop fuel) (name : String) (ts : List Token) :
    Takes stop ts (Enclosed fun args vs => vs = [] ∧ args = [] ∨ Derives .arguments vs args)
      (Pipeline.arguments stop (fuel + 1) name ts) := by
  have hsome : Takes stop ts
      (Enclosed fun args vs => vs = [] ∧ args = [] ∨ Derives .arguments vs args)
      (Pipeline.someArguments stop fuel name ts) := by
    refine (h.someArguments name ts).imp ?_
    rintro args us ⟨vs, closing, hclosing, hus, hvs⟩
    exact ⟨vs, closing, hclosing, hus, .inr hvs⟩
  cases ts with
  | nil => exact hsome
  | cons t rest =>
      simp only [Pipeline.arguments]
      split
      · rename_i hclosing
        exact ⟨[t], rfl, [], t, hclosing, rfl, .inl ⟨rfl, rfl⟩⟩
      · exact hsome

theorem takes_numberAfter {t : Token} (negative : Bool) (rest : List Token)
    (ht : t.kind = .number) :
    Takes stop (t :: rest) (fun e us => us = [t] ∧ ∃ n : Nat, WritesInteger t n ∧
      e = .number (if negative then -(n : Int) else n)) (numberAfter negative t rest) := by
  unfold numberAfter
  cases hn : indexOf? t with
  | none => exact .inr List.mem_cons_self
  | some n => exact ⟨[t], rfl, rfl, n, (indexOf?_eq_some_iff ht).mp hn, rfl⟩

theorem takes_negatedNumber {minus : Token} (ts : List Token) (hminus : minus.kind = .minus) :
    Takes stop (minus :: ts) (fun e us => Derives .argument us e) (negatedNumber stop ts) := by
  refine Takes.cons ?_
  cases ts with
  | nil => exact .inl rfl
  | cons t rest =>
      simp only [negatedNumber]
      split
      · rename_i hnumber
        refine (takes_numberAfter true rest hnumber).imp ?_
        rintro _ _ ⟨rfl, n, hn, rfl⟩
        exact .negative hminus hn
      · exact .inr List.mem_cons_self

theorem Reads.argument_succ (h : Reads stop fuel) (ts : List Token) :
    Takes stop ts (fun e us => Derives .argument us e) (Pipeline.argument stop (fuel + 1) ts) := by
  have hexpr : ∀ ts, Takes stop ts (fun e us => Derives .argument us e)
      (Pipeline.expr stop fuel ts) := fun ts => (h.expr ts).imp fun _ _ he => .expression he
  cases ts with
  | nil => exact hexpr []
  | cons t rest =>
      simp only [Pipeline.argument]
      split
      case h_1 hstring => exact ⟨[t], rfl, .string hstring⟩
      case h_2 hminus => exact takes_negatedNumber rest hminus
      case h_3 hnumber =>
        refine (takes_numberAfter false rest hnumber).imp ?_
        rintro _ _ ⟨rfl, n, hn, rfl⟩
        exact .number hn
      case h_4 => exact hexpr (t :: rest)

end Steps

theorem reads (stop : Token) (fuel : Nat) : Reads stop fuel := by
  induction fuel with
  | zero => exact .zero
  | succ fuel ih =>
      exact ⟨ih.expr_succ, ih.connections_succ, ih.combination_succ, ih.combinations_succ,
        ih.primary_succ, ih.arguments_succ, ih.someArguments_succ, ih.argument_succ⟩

/-! ## How deep the parser goes -/

theorem Derives.length_pos {x : Nonterminal} {ts : List Token} {tree : x.Tree}
    (h : Derives x ts tree) : 0 < ts.length := by
  induction h <;> simp_all

theorem Takes.length_lt {x : Nonterminal} {stop : Token} {ts rest : List Token} {tree : x.Tree}
    (h : Takes stop ts (fun tree us => Derives x us tree) (.ok (tree, rest))) :
    rest.length < ts.length := by
  obtain ⟨us, rfl, hus⟩ := h
  have hpos := hus.length_pos
  rw [List.length_append]
  omega

/--
From a depth on that the number of tokens bounds, more depth makes no difference.  Six functions at
most call one another before a token is taken.
-/
structure Deep (stop : Token) (fuel : Nat) : Prop where
  expr (ts : List Token) : 6 * ts.length + 3 ≤ fuel → expr stop (fuel + 1) ts = expr stop fuel ts
  connections (left : Expr) (ts : List Token) : 6 * ts.length + 1 ≤ fuel →
    connections stop (fuel + 1) left ts = connections stop fuel left ts
  combination (ts : List Token) : 6 * ts.length + 2 ≤ fuel →
    combination stop (fuel + 1) ts = combination stop fuel ts
  combinations (left : Expr) (ts : List Token) : 6 * ts.length + 1 ≤ fuel →
    combinations stop (fuel + 1) left ts = combinations stop fuel left ts
  primary (ts : List Token) : 6 * ts.length + 1 ≤ fuel →
    primary stop (fuel + 1) ts = primary stop fuel ts
  arguments (name : String) (ts : List Token) : 6 * ts.length + 6 ≤ fuel →
    arguments stop (fuel + 1) name ts = arguments stop fuel name ts
  someArguments (name : String) (ts : List Token) : 6 * ts.length + 5 ≤ fuel →
    someArguments stop (fuel + 1) name ts = someArguments stop fuel name ts
  argument (ts : List Token) : 6 * ts.length + 4 ≤ fuel →
    argument stop (fuel + 1) ts = argument stop fuel ts

section Depth

variable {stop : Token} {fuel : Nat}

theorem bind_congr_of_ok {ε α β : Type} {x y : Except ε α} {f g : α → Except ε β} (h : x = y)
    (hfg : ∀ a, y = .ok a → f a = g a) : x >>= f = y >>= g := by
  subst h
  cases x with
  | error e => rfl
  | ok a => exact hfg a rfl

theorem Deep.zero : Deep stop 0 where
  expr _ h := absurd h (by omega)
  connections _ _ h := absurd h (by omega)
  combination _ h := absurd h (by omega)
  combinations _ _ h := absurd h (by omega)
  primary _ h := absurd h (by omega)
  arguments _ _ h := absurd h (by omega)
  someArguments _ _ h := absurd h (by omega)
  argument _ h := absurd h (by omega)

theorem Deep.expr_succ (h : Deep stop fuel) (ts : List Token)
    (hfuel : 6 * ts.length + 3 ≤ fuel + 1) :
    Pipeline.expr stop (fuel + 2) ts = Pipeline.expr stop (fuel + 1) ts := by
  refine bind_congr_of_ok (h.combination ts (by omega)) fun q hq => ?_
  have hlt := Takes.length_lt (hq ▸ (reads stop fuel).combination ts)
  exact h.connections q.1 q.2 (by omega)

theorem Deep.connections_succ (h : Deep stop fuel) (left : Expr) (ts : List Token)
    (hfuel : 6 * ts.length + 1 ≤ fuel + 1) :
    Pipeline.connections stop (fuel + 2) left ts =
      Pipeline.connections stop (fuel + 1) left ts := by
  cases ts with
  | nil => rfl
  | cons t ts =>
      rw [List.length_cons] at hfuel
      simp only [Pipeline.connections]
      split
      · rfl
      · refine bind_congr_of_ok (h.combination ts (by omega)) fun q hq => ?_
        have hlt := Takes.length_lt (hq ▸ (reads stop fuel).combination ts)
        exact h.connections _ q.2 (by omega)

theorem Deep.combination_succ (h : Deep stop fuel) (ts : List Token)
    (hfuel : 6 * ts.length + 2 ≤ fuel + 1) :
    Pipeline.combination stop (fuel + 2) ts = Pipeline.combination stop (fuel + 1) ts := by
  refine bind_congr_of_ok (h.primary ts (by omega)) fun q hq => ?_
  have hlt := Takes.length_lt (hq ▸ (reads stop fuel).primary ts)
  exact h.combinations q.1 q.2 (by omega)

theorem Deep.combinations_succ (h : Deep stop fuel) (left : Expr) (ts : List Token)
    (hfuel : 6 * ts.length + 1 ≤ fuel + 1) :
    Pipeline.combinations stop (fuel + 2) left ts =
      Pipeline.combinations stop (fuel + 1) left ts := by
  cases ts with
  | nil => rfl
  | cons t ts =>
      rw [List.length_cons] at hfuel
      simp only [Pipeline.combinations]
      split
      · rfl
      · refine bind_congr_of_ok (h.primary ts (by omega)) fun q hq => ?_
        have hlt := Takes.length_lt (hq ▸ (reads stop fuel).primary ts)
        exact h.combinations _ q.2 (by omega)

theorem Deep.primary_succ (h : Deep stop fuel) (ts : List Token)
    (hfuel : 6 * ts.length + 1 ≤ fuel + 1) :
    Pipeline.primary stop (fuel + 2) ts = Pipeline.primary stop (fuel + 1) ts := by
  cases ts with
  | nil => rfl
  | cons t ts =>
      rw [List.length_cons] at hfuel
      simp only [Pipeline.primary]
      split
      · cases ts with
        | nil => rfl
        | cons next rest =>
            rw [List.length_cons] at hfuel
            simp only [h.arguments t.text rest (by omega)]
      · rw [h.expr ts (by omega)]
      · rfl

theorem Deep.arguments_succ (h : Deep stop fuel) (name : String) (ts : List Token)
    (hfuel : 6 * ts.length + 6 ≤ fuel + 1) :
    Pipeline.arguments stop (fuel + 2) name ts = Pipeline.arguments stop (fuel + 1) name ts := by
  simp only [Pipeline.arguments, h.someArguments name ts (by omega)]

theorem Deep.someArguments_succ (h : Deep stop fuel) (name : String) (ts : List Token)
    (hfuel : 6 * ts.length + 5 ≤ fuel + 1) :
    Pipeline.someArguments stop (fuel + 2) name ts =
      Pipeline.someArguments stop (fuel + 1) name ts := by
  refine bind_congr_of_ok (h.argument ts (by omega)) fun q hq => ?_
  have hlt := Takes.length_lt (hq ▸ (reads stop fuel).argument ts)
  obtain ⟨e, rest⟩ := q
  cases rest with
  | nil => rfl
  | cons t rest =>
      rw [List.length_cons] at hlt
      simp only [h.someArguments name rest (by omega)]

theorem Deep.argument_succ (h : Deep stop fuel) (ts : List Token)
    (hfuel : 6 * ts.length + 4 ≤ fuel + 1) :
    Pipeline.argument stop (fuel + 2) ts = Pipeline.argument stop (fuel + 1) ts := by
  cases ts with
  | nil => exact h.expr [] (by simp at hfuel ⊢; omega)
  | cons t rest => simp only [Pipeline.argument, h.expr (t :: rest) (by omega)]

end Depth

theorem deep (stop : Token) (fuel : Nat) : Deep stop fuel := by
  induction fuel with
  | zero => exact .zero
  | succ fuel ih =>
      exact ⟨ih.expr_succ, ih.connections_succ, ih.combination_succ, ih.combinations_succ,
        ih.primary_succ, ih.arguments_succ, ih.someArguments_succ, ih.argument_succ⟩

theorem expr_eq_of_depthFor_le {stop : Token} {fuel : Nat} {ts : List Token}
    (h : depthFor ts ≤ fuel) : expr stop fuel ts = expr stop (depthFor ts) ts := by
  induction fuel, h using Nat.le_induction with
  | base => rfl
  | succ fuel hle ih =>
      rw [(deep stop fuel).expr ts (by unfold depthFor at hle; omega), ih]

/-! ## What the grammar derives is read -/

/-- From some depth on, the result is `r`. -/
def Settles {α : Type} (f : Nat → α) (r : α) : Prop := ∃ enough, ∀ n, enough ≤ n → f n = r

section Settles

variable {α β γ : Type} {f : Nat → α} {g : Nat → β} {k : Nat → γ} {a : α} {b : β} {r : γ}

theorem Settles.of_eq (h : ∀ n, k (n + 1) = r) : Settles k r := by
  refine ⟨1, fun n hn => ?_⟩
  obtain ⟨n, rfl⟩ := Nat.exists_eq_add_of_le' hn
  exact h n

theorem Settles.step₂ (hf : Settles f a) (hg : Settles g b)
    (hk : ∀ n, f n = a → g n = b → k (n + 1) = r) : Settles k r := by
  obtain ⟨enough, hf⟩ := hf
  obtain ⟨enough', hg⟩ := hg
  refine ⟨max enough enough' + 1, fun n hn => ?_⟩
  obtain ⟨n, rfl⟩ := Nat.exists_eq_add_of_le' (Nat.le_trans (Nat.le_add_left 1 _) hn)
  exact hk n (hf n (by omega)) (hg n (by omega))

theorem Settles.step (hf : Settles f a) (hk : ∀ n, f n = a → k (n + 1) = r) : Settles k r :=
  hf.step₂ hf fun n hn _ => hk n hn

end Settles

def Nonterminal.first : Nonterminal → List TokenKind
  | .expression | .combination | .primary => [.ident, .leftParen]
  | .argument | .arguments => [.ident, .leftParen, .number, .minus, .string]

theorem Derives.starts {x : Nonterminal} {ts : List Token} {tree : x.Tree} (h : Derives x ts tree) :
    ∃ t us, ts = t :: us ∧ t.kind ∈ x.first := by
  induction h with
  | combination _ ih | primary _ ih | last _ ih => exact ih
  | connected _ _ _ ih _ | combined _ _ _ ih _ | more _ _ _ ih _ =>
      obtain ⟨t, us, rfl, ht⟩ := ih
      exact ⟨t, _, rfl, ht⟩
  | name h | callOfNothing h _ _ | call h _ _ _ _ | parentheses h _ _ _ | negative h _ | string h =>
      exact ⟨_, _, rfl, by simp [h, Nonterminal.first]⟩
  | number h => exact ⟨_, _, rfl, by simp [h.kind, Nonterminal.first]⟩
  | expression _ ih =>
      obtain ⟨t, us, rfl, ht⟩ := ih
      exact ⟨t, us, rfl, List.mem_of_mem_take (i := 2) ht⟩

section Completes

variable {stop : Token}

theorem settles_connections {left : Expr} {rest : List Token}
    (h : ∀ t ∈ rest.head?, outerJoint? t.kind = none) :
    Settles (fun n => connections stop n left rest) (.ok (left, rest)) := by
  refine .of_eq fun n => ?_
  cases rest with
  | nil => rfl
  | cons t rest => simp only [connections, h t rfl]

theorem settles_combinations {left : Expr} {rest : List Token}
    (h : ∀ t ∈ rest.head?, innerJoint? t.kind = none) :
    Settles (fun n => combinations stop n left rest) (.ok (left, rest)) := by
  refine .of_eq fun n => ?_
  cases rest with
  | nil => rfl
  | cons t rest => simp only [combinations, h t rfl]

theorem numberAfter_of_writesInteger {t : Token} {n : Nat} (h : WritesInteger t n) (negative : Bool)
    (rest : List Token) :
    numberAfter negative t rest = .ok (.number (if negative then -(n : Int) else n), rest) := by
  simp only [numberAfter, (indexOf?_eq_some_iff h.kind).mpr h]

/--
The parser takes the phrase and goes on behind it, unless the next token would have made the phrase
longer.  Behind an expression the parser looks for further joints, so what it makes of the phrase
is what it makes of the rest with the expression on its left.
-/
def Completes (stop : Token) : (x : Nonterminal) → List Token → x.Tree → Prop
  | .expression, us, e => ∀ (rest : List Token) (r : Except ExprFault (Expr × List Token)),
      (∀ t ∈ rest.head?, t.kind ≠ .leftParen ∧ innerJoint? t.kind = none) →
      Settles (fun n => connections stop n e rest) r →
      Settles (fun n => expr stop n (us ++ rest)) r
  | .combination, us, e => ∀ (rest : List Token) (r : Except ExprFault (Expr × List Token)),
      (∀ t ∈ rest.head?, t.kind ≠ .leftParen) →
      Settles (fun n => combinations stop n e rest) r →
      Settles (fun n => combination stop n (us ++ rest)) r
  | .primary, us, e => ∀ rest : List Token, (∀ t ∈ rest.head?, t.kind ≠ .leftParen) →
      Settles (fun n => primary stop n (us ++ rest)) (.ok (e, rest))
  | .argument, us, e => ∀ (t : Token) (rest : List Token), t.kind = .comma ∨ t.kind = .rightParen →
      Settles (fun n => argument stop n (us ++ t :: rest)) (.ok (e, t :: rest))
  | .arguments, us, args => ∀ (name : String) (closing : Token) (rest : List Token),
      closing.kind = .rightParen →
      Settles (fun n => someArguments stop n name (us ++ closing :: rest)) (.ok (args, rest))

theorem Completes.of_combination {us : List Token} {e : Expr}
    (h : Completes stop .combination us e) : Completes stop .expression us e := by
  intro rest r hrest hr
  have hleft := h rest _ (fun t ht => (hrest t ht).1)
    (settles_combinations fun t ht => (hrest t ht).2)
  refine hleft.step₂ hr fun n hleft hr => ?_
  rw [expr, hleft]
  exact hr

theorem Completes.connected {t : Token} {ts us : List Token} {joint : Joint} {left right : Expr}
    (hleft : Completes stop .expression ts left) (hjoint : outerJoint? t.kind = some joint)
    (hright : Completes stop .combination us right) :
    Completes stop .expression (ts ++ t :: us) (.binary joint left right) := by
  intro rest r hrest hr
  have hcombination := hright rest _ (fun t ht => (hrest t ht).1)
    (settles_combinations fun t ht => (hrest t ht).2)
  rw [List.append_assoc]
  refine hleft (t :: us ++ rest) r (fun t' ht' => ?_) (hcombination.step₂ hr fun n hn hr => ?_)
  · cases ht'
    exact of_outerJoint? hjoint
  · simp only [List.cons_append, connections, hjoint, hn]
    exact hr

theorem Completes.of_primary {us : List Token} {e : Expr} (h : Completes stop .primary us e) :
    Completes stop .combination us e := by
  intro rest r hrest hr
  refine (h rest hrest).step₂ hr fun n hleft hr => ?_
  rw [combination, hleft]
  exact hr

theorem Completes.combined {t : Token} {ts us : List Token} {joint : Joint} {left right : Expr}
    (hleft : Completes stop .combination ts left) (hjoint : innerJoint? t.kind = some joint)
    (hright : Completes stop .primary us right) :
    Completes stop .combination (ts ++ t :: us) (.binary joint left right) := by
  intro rest r hrest hr
  rw [List.append_assoc]
  refine hleft (t :: us ++ rest) r (fun t' ht' => ?_)
    ((hright rest hrest).step₂ hr fun n hn hr => ?_)
  · cases ht'
    exact of_innerJoint? hjoint
  · simp only [List.cons_append, combinations, hjoint, hn]
    exact hr

theorem Completes.name {t : Token} (ht : t.kind = .ident) :
    Completes stop .primary [t] (.ref t.text) := by
  intro rest hrest
  refine .of_eq fun n => ?_
  cases rest with
  | nil => simp only [List.cons_append, List.nil_append, primary, ht]
  | cons next rest =>
      simp only [List.cons_append, List.nil_append, primary, ht, if_neg (hrest next rfl)]

theorem settles_call {t opening : Token} {ts rest : List Token} {args : List Expr}
    (ht : t.kind = .ident) (hopening : opening.kind = .leftParen)
    (h : Settles (fun n => arguments stop n t.text ts) (.ok (args, rest))) :
    Settles (fun n => primary stop n (t :: opening :: ts)) (.ok (.call t.text args, rest)) := by
  refine h.step fun n hargs => ?_
  simp only [primary, ht, if_pos hopening, hargs]
  rfl

theorem Completes.callOfNothing {t opening closing : Token} (ht : t.kind = .ident)
    (hopening : opening.kind = .leftParen) (hclosing : closing.kind = .rightParen) :
    Completes stop .primary [t, opening, closing] (.call t.text []) := by
  intro rest _
  exact settles_call ht hopening (.of_eq fun n => if_pos hclosing)

theorem Completes.call {t opening closing : Token} {ts : List Token} {args : List Expr}
    (ht : t.kind = .ident) (hopening : opening.kind = .leftParen)
    (hargs : Derives .arguments ts args) (ih : Completes stop .arguments ts args)
    (hclosing : closing.kind = .rightParen) :
    Completes stop .primary (t :: opening :: (ts ++ [closing])) (.call t.text args) := by
  intro rest _
  rw [List.cons_append, List.cons_append, List.append_assoc]
  refine settles_call ht hopening ((ih t.text closing rest hclosing).step fun n hn => ?_)
  obtain ⟨first, us, rfl, hfirst⟩ := hargs.starts
  have hne : first.kind ≠ .rightParen := by
    intro h
    rw [h] at hfirst
    exact absurd hfirst (by decide)
  exact (if_neg hne).trans hn

theorem Completes.parentheses {opening closing : Token} {ts : List Token} {e : Expr}
    (hopening : opening.kind = .leftParen) (ih : Completes stop .expression ts e)
    (hclosing : closing.kind = .rightParen) :
    Completes stop .primary (opening :: (ts ++ [closing])) e := by
  intro rest _
  have hexpr :
      Settles (fun n => expr stop n (ts ++ closing :: rest)) (.ok (e, closing :: rest)) := by
    refine ih _ _ ?_ (settles_connections ?_) <;>
    · rintro _ ⟨⟩
      simp [hclosing, innerJoint?, outerJoint?]
  rw [List.cons_append, List.append_assoc]
  refine hexpr.step fun n hexpr => ?_
  simp only [primary, hopening, List.cons_append, List.nil_append, hexpr]
  exact if_pos hclosing

theorem Completes.of_expression {us : List Token} {e : Expr} (he : Derives .expression us e)
    (ih : Completes stop .expression us e) : Completes stop .argument us e := by
  intro t rest ht
  have hexpr : Settles (fun n => expr stop n (us ++ t :: rest)) (.ok (e, t :: rest)) := by
    refine ih _ _ ?_ (settles_connections ?_) <;>
    · rintro _ ⟨⟩
      obtain ht | ht := ht <;> simp [ht, innerJoint?, outerJoint?]
  refine hexpr.step fun n hexpr => ?_
  obtain ⟨first, us, rfl, hfirst⟩ := he.starts
  simp only [Nonterminal.first, List.mem_cons, List.not_mem_nil, or_false] at hfirst
  obtain hfirst | hfirst := hfirst <;> simpa only [List.cons_append, argument, hfirst] using hexpr

theorem Completes.number {t : Token} {n : Nat} (h : WritesInteger t n) :
    Completes stop .argument [t] (.number n) := by
  intro next rest _
  refine .of_eq fun fuel => ?_
  simp only [List.cons_append, List.nil_append, argument, h.kind, numberAfter_of_writesInteger h]
  rfl

theorem Completes.negative {minus t : Token} {n : Nat} (hminus : minus.kind = .minus)
    (h : WritesInteger t n) : Completes stop .argument [minus, t] (.number (-n)) := by
  intro next rest _
  refine .of_eq fun fuel => ?_
  simp only [List.cons_append, List.nil_append, argument, hminus, negatedNumber, if_pos h.kind,
    numberAfter_of_writesInteger h]
  rfl

theorem Completes.string {t : Token} (ht : t.kind = .string) :
    Completes stop .argument [t] (.quoted (unquoted t.lexeme)) := by
  intro next rest _
  refine .of_eq fun fuel => ?_
  simp only [List.cons_append, List.nil_append, argument, ht]

theorem Completes.last {us : List Token} {e : Expr} (ih : Completes stop .argument us e) :
    Completes stop .arguments us [e] := by
  intro name closing rest hclosing
  refine (ih closing rest (.inr hclosing)).step fun n harg => ?_
  rw [someArguments, harg]
  simp only [bind, Except.bind, hclosing]

theorem Completes.more {comma : Token} {ts us : List Token} {e : Expr} {args : List Expr}
    (harg : Completes stop .argument ts e) (hcomma : comma.kind = .comma)
    (hargs : Completes stop .arguments us args) :
    Completes stop .arguments (ts ++ comma :: us) (e :: args) := by
  intro name closing rest hclosing
  rw [List.append_assoc]
  refine (harg comma (us ++ closing :: rest) (.inl hcomma)).step₂ (hargs name closing rest hclosing)
    fun n harg hargs => ?_
  rw [List.cons_append, someArguments, harg]
  simp only [bind, Except.bind, hcomma, hargs]
  rfl

theorem Derives.completes {x : Nonterminal} {ts : List Token} {tree : x.Tree}
    (h : Derives x ts tree) : Completes stop x ts tree := by
  induction h with
  | combination _ ih => exact ih.of_combination
  | connected _ hjoint _ ihleft ihright => exact ihleft.connected hjoint ihright
  | primary _ ih => exact ih.of_primary
  | combined _ hjoint _ ihleft ihright => exact ihleft.combined hjoint ihright
  | name ht => exact .name ht
  | callOfNothing ht hopening hclosing => exact .callOfNothing ht hopening hclosing
  | call ht hopening hargs hclosing ih => exact .call ht hopening hargs ih hclosing
  | parentheses hopening _ hclosing ih => exact .parentheses hopening ih hclosing
  | expression he ih => exact .of_expression he ih
  | number h => exact .number h
  | negative hminus h => exact .negative hminus h
  | string ht => exact .string ht
  | last _ ih => exact ih.last
  | more _ hcomma _ iharg ihargs => exact iharg.more hcomma ihargs

theorem expr_of_derives {ts : List Token} {e : Expr} (h : Derives .expression ts e) :
    expr stop (depthFor ts) ts = .ok (e, []) := by
  have hcompletes : Completes stop .expression ts e := h.completes
  have hsettles := hcompletes [] (.ok (e, [])) (by simp) (settles_connections (by simp))
  rw [List.append_nil] at hsettles
  obtain ⟨enough, hsettles⟩ := hsettles
  rw [← expr_eq_of_depthFor_le (Nat.le_max_left (depthFor ts) enough)]
  exact hsettles _ (Nat.le_max_right ..)

end Completes

/-! ## Whole expressions -/

theorem wholeExpr_eq_ok_iff {stop : Token} {ts : List Token} {e : Expr} :
    wholeExpr stop ts = .ok e ↔ Derives .expression ts e := by
  constructor
  · intro h
    have hread := (reads stop (depthFor ts)).expr ts
    unfold wholeExpr at h
    generalize expr stop (depthFor ts) ts = r at h hread
    match r, h, hread with
    | .ok (e', []), h, ⟨us, hus, hderives⟩ =>
        cases h
        rwa [hus, List.append_nil]
  · intro h
    rw [wholeExpr, expr_of_derives h]
    rfl

theorem token_of_wholeExpr_eq_error {stop : Token} {ts : List Token} {f : ExprFault}
    (h : wholeExpr stop ts = .error f) : f.token = stop ∨ f.token ∈ ts := by
  have hread := (reads stop (depthFor ts)).expr ts
  unfold wholeExpr at h
  generalize expr stop (depthFor ts) ts = r at h hread
  match r, h, hread with
  | .error f', h, hread =>
      cases h
      exact hread
  | .ok (e, t :: rest), h, ⟨us, hus, _⟩ =>
      cases h
      rw [hus]
      exact .inr (List.mem_append_right us List.mem_cons_self)

theorem parseExpr_of_tokenize {source : Text} {ts : List Token} {stop : Token}
    (h : tokenize source = .ok (ts, stop)) :
    parseExpr source = (wholeExpr stop (significant ts)).mapError
      fun f => ⟨f.message, f.token.span, source, none⟩ := by
  rw [parseExpr, h]
  rfl

/--
Of the tokens of a source, without its line ends, the parser accepts what the grammar derives and
returns the derived tree.  A refusal points at one of these tokens or at the end of the source, and
the depth that the parser allows itself is never what makes it refuse: any greater depth gives the
same result.
-/
theorem parseExpr_follows_grammar {source : Text} {ts : List Token} {stop : Token}
    (hlexed : tokenize source = .ok (ts, stop)) :
    (∀ e, parseExpr source = .ok e ↔ Derives .expression (significant ts) e) ∧
      (∀ fault, parseExpr source = .error fault →
        ∃ f : ExprFault, (f.token = stop ∨ f.token ∈ significant ts) ∧
          fault = ⟨f.message, f.token.span, source, none⟩) ∧
      ∀ depth, depthFor (significant ts) ≤ depth →
        expr stop depth (significant ts) =
          expr stop (depthFor (significant ts)) (significant ts) := by
  rw [parseExpr_of_tokenize hlexed]
  refine ⟨fun e => ?_, fun fault h => ?_, fun depth => expr_eq_of_depthFor_le⟩
  · rw [← @wholeExpr_eq_ok_iff stop]
    cases wholeExpr stop (significant ts) with
    | error f => simp [Except.mapError]
    | ok e' => simp [Except.mapError]
  · cases hwhole : wholeExpr stop (significant ts) with
    | error f =>
        rw [hwhole] at h
        cases h
        exact ⟨f, token_of_wholeExpr_eq_error hwhole, rfl⟩
    | ok e =>
        rw [hwhole] at h
        cases h

/-- Both levels, with a call over a line end. -/
def mixedSource : Text := Text.ofString "a & b(-2, \"x\",\nc) << (d ~> e)"

theorem parseExpr_follows_grammar_mixed : ∃ ts stop e,
    tokenize mixedSource = .ok (ts, stop) ∧ parseExpr mixedSource = .ok e ∧
      Derives .expression (significant ts) e ∧
      e.text = "((a & b(-2, \"x\", c)) << (d ~> e))" := by
  have htext : (parseExpr mixedSource).toOption.map Expr.text =
      some "((a & b(-2, \"x\", c)) << (d ~> e))" := by decide +kernel
  have hlexes : (tokenize mixedSource).isOk = true := by decide +kernel
  cases hlexed : tokenize mixedSource with
  | error fault =>
      rw [hlexed] at hlexes
      cases hlexes
  | ok q =>
      cases hparsed : parseExpr mixedSource with
      | error fault =>
          rw [hparsed] at htext
          cases htext
      | ok e =>
          rw [hparsed] at htext
          exact ⟨q.1, q.2, e, rfl, rfl, ((parseExpr_follows_grammar hlexed).1 e).mp hparsed,
            Option.some.inj htext⟩

end KernelAlgebra.Pipeline
