/-!
# Widths and padding

Padding counts characters; a fill counts the room that a text takes on a terminal.
-/

namespace KernelAlgebra.Text

/-!
## The width of a text on a terminal

Control characters take no room, and neither does an escape sequence: the escape character, an
opening bracket, numbers of one to three digits with semicolons between them, and one of the
closing characters `m`, `|` and `K`.
-/

/-- What stands behind one number of a sequence. -/
def afterNumber? (cs : List Char) : Option (List Char) :=
  let digits := (cs.take 3).takeWhile Char.isDigit
  if digits.isEmpty then none else some (cs.drop digits.length)

def afterNumbers : Nat → List Char → List Char
  | 0, cs => cs
  | fuel + 1, cs =>
      match cs with
      | ';' :: rest =>
          match afterNumber? rest with
          | some more => afterNumbers fuel more
          | none => cs
      | _ => cs

def afterEscape? : List Char → Option (List Char)
  | '[' :: rest =>
      let tail :=
        match afterNumber? rest with
        | some more => afterNumbers more.length more
        | none => rest
      match tail with
      | c :: more => if c = 'm' || c = '|' || c = 'K' then some more else none
      | [] => none
  | _ => none

def isControl (c : Char) : Bool :=
  c.toNat < 32 || (127 ≤ c.toNat && c.toNat < 160)

def widthBehind : Nat → List Char → Nat
  | _, [] => 0
  | skip + 1, _ :: rest => widthBehind skip rest
  | 0, c :: rest =>
      if c = '\x1b' then
        match afterEscape? rest with
        | some more => widthBehind (rest.length - more.length) rest
        | none => widthBehind 0 rest
      else if isControl c then widthBehind 0 rest
      else 1 + widthBehind 0 rest

def displayWidth (s : String) : Nat :=
  widthBehind 0 s.toList

example : displayWidth "a\tb\x7f" = 2 := by decide +kernel

example : displayWidth "\x1b[1;31mred\x1b[m\x1b[1234m" = 9 := by decide +kernel

/-! ## Padding to a width -/

def blanks (n : Nat) : String :=
  String.ofList (List.replicate n ' ')

def padLeft (width : Nat) (s : String) : String :=
  blanks (width - s.length) ++ s

def padRight (width : Nat) (s : String) : String :=
  s ++ blanks (width - s.length)

def fillRight (width : Nat) (s : String) : String :=
  s ++ blanks (width - displayWidth s)

/-- Centred text on a terminal; the odd blank goes to the right. -/
def fillCentred (width : Nat) (s : String) : String :=
  let gap := width - displayWidth s
  blanks (gap / 2) ++ s ++ blanks (gap - gap / 2)

end KernelAlgebra.Text
