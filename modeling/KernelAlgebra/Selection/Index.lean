import KernelAlgebra.Error
import KernelAlgebra.Symbol

/-!
# Indices

An index is a position in a list of variables whose length is not known yet: an anchor and an
offset from it.  Positions are 64-bit numbers, and arithmetic on them wraps around.
-/

namespace KernelAlgebra

namespace Selection

/-- A number as a signed 64-bit word. -/
def word (n : Int) : Int := n.bmod (Nat.pow 2 64)

inductive Anchor where
  /-- A position; a negative one counts from the end. -/
  | absolute (position : Int)
  | first
  | last
  | named (name : String)
  | unknown (code : Nat)
  deriving DecidableEq, Repr

structure Index where
  anchor : Anchor
  offset : Int := 0
  deriving DecidableEq, Repr

inductive IndexError where
  | noSuchName (name : String)
  | unknownKind (code : Nat)
  | outside (index : Index) (position : Int) (count : Nat)
  deriving DecidableEq, Repr

namespace Index

def absolute (position : Int) : Index := ⟨.absolute position, 0⟩

def fromStart (offset : Int) : Index := ⟨.first, offset⟩

def fromEnd (offset : Int) : Index := ⟨.last, offset⟩

def named (name : String) (offset : Int) : Index := ⟨.named name, offset⟩

def add (x : Index) (d : Int) : Index := { x with offset := word (x.offset + d) }

/-- The place of the first variable with a name; a hole before it ends the search. -/
def find (name : String) : List Symbol → Except (Fault IndexError) Nat
  | [] => .error (.error (.noSuchName name))
  | s :: rest =>
      if s.isHole then .error .outside
      else if s.name = name then .ok 0
      else (find name rest).map (· + 1)

/-- The position that the index names; it may lie outside the list. -/
def position (vars : List Symbol) (x : Index) : Except (Fault IndexError) Int :=
  match x.anchor with
  | .absolute p =>
      if p < 0 then .ok (word (vars.length + p + x.offset)) else .ok (word (p + x.offset))
  | .first => .ok x.offset
  | .last => .ok (word (vars.length - 1 + x.offset))
  | .named name =>
      match find name vars with
      | .ok i => .ok (word (i + x.offset))
      | .error f => .error f
  | .unknown code => .error (.error (.unknownKind code))

def anchorText : Anchor → String
  | .absolute p => toString p
  | .first => "first"
  | .last => "last"
  | .named name => Text.quoted name
  | .unknown _ => ""

def offsetText (d : Int) : String :=
  if d = 0 then "" else if 0 < d then s!"+{d}" else toString d

def text (x : Index) : String := anchorText x.anchor ++ offsetText x.offset

end Index

def IndexError.toError : IndexError → Error
  | .noSuchName name => ⟨.range, s!"no variable named {Text.quoted name}"⟩
  | .unknownKind code => ⟨.range, s!"unknown index kind {code}"⟩
  | .outside x p n => ⟨.range, s!"index {x.text} resolves to {p}, outside [0, {n})"⟩

/-- An inclusive range; it is empty when its end comes before its start. -/
structure Span where
  first : Index
  last : Index
  deriving DecidableEq, Repr

namespace Span

def single (x : Index) : Span := ⟨x, x⟩

def between (first last : Nat) : List Nat :=
  (List.range (last + 1 - first)).map (first + ·)

def positions (vars : List Symbol) (s : Span) : Except (Fault IndexError) (List Nat) := do
  let first ← s.first.position vars
  let last ← s.last.position vars
  if last < first then return []
  else if first < 0 || (vars.length : Int) ≤ first then
    throw (.error (.outside s.first first vars.length))
  else if (vars.length : Int) ≤ last then
    throw (.error (.outside s.last last vars.length))
  else
    return between first.toNat last.toNat

def text (s : Span) : String :=
  if s.first = s.last then s.first.text else s!"{s.first.text}..{s.last.text}"

end Span

end Selection

end KernelAlgebra
