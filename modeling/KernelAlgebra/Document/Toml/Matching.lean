/-!
# Matching a text against a grammar

A match takes characters from the front of a text, or fails and takes none.  Alternatives are
tried in order.  Whatever becomes of it, a part of the grammar that has matched leaves a trace:
how far into the text any of them has come.  That is where a text that does not match is said
to be wrong.
-/

namespace KernelAlgebra.Document.Toml

structure Cursor where
  rest : List Char
  index : Nat := 0
  /-- Every line feed and every carriage return ends a line. -/
  line : Nat := 1
  deriving DecidableEq, Repr

def isBreak (c : Char) : Bool := c = '\n' || c = '\r'

def Cursor.behind (cursor : Cursor) (c : Char) (rest : List Char) : Cursor :=
  ⟨rest, cursor.index + 1, if isBreak c then cursor.line + 1 else cursor.line⟩

/-- The state is how far any part has matched. -/
abbrev Matching := StateT Cursor (OptionT (StateM Nat))

namespace Matching

def one (p : Char → Bool) : Matching Char := do
  let cursor ← get
  match cursor.rest with
  | c :: rest =>
      if p c then
        set (cursor.behind c rest)
        return c
      else failure
  | [] => failure

def char (c : Char) : Matching Char := one (· = c)

def word : List Char → Matching Unit
  | [] => pure ()
  | c :: cs => do
      let _ ← char c
      word cs

/-- A part of the grammar: if it matches something, the match leaves its trace. -/
def part {α : Type} (m : Matching α) : Matching α := do
  let before ← get
  let a ← m
  let after ← get
  if before.index < after.index then
    StateT.lift (OptionT.lift (modify (max after.index)))
  return a

def manyBy {α : Type} (m : Matching α) : Nat → Matching (List α)
  | 0 => return []
  | fuel + 1 =>
      (do
        let a ← m
        let more ← manyBy m fuel
        return a :: more) <|> return []

def many {α : Type} (m : Matching α) : Matching (List α) := do
  manyBy m (← get).rest.length

def several {α : Type} (m : Matching α) : Matching (List α) := do
  let a ← m
  return a :: (← many m)

def opt {α : Type} (m : Matching α) : Matching (Option α) :=
  (do return some (← m)) <|> return none

def butNot {α : Type} (m : Matching α) : Matching Unit := do
  let here ← get
  match ← opt m with
  | none => pure ()
  | some _ =>
      set here
      failure

def line : Matching Nat := return (← get).line

end Matching

end KernelAlgebra.Document.Toml
