import KernelAlgebra.Document.Toml.Matching
import KernelAlgebra.Number.Read

/-!
# The grammar of TOML documents

A document is a list of items: headers, which open tables, and settings.
-/

namespace KernelAlgebra.Document.Toml

/-! ## Escapes -/

/-- The character that a backslash and a letter stand for; a slash has none. -/
def escapeLetter? : Char → Option Char
  | 'b' => some (Char.ofNat 8)
  | 't' => some '\t'
  | 'n' => some '\n'
  | 'f' => some (Char.ofNat 12)
  | 'r' => some '\r'
  | '"' => some '"'
  | '\\' => some '\\'
  | _ => none

def escapeDigits? : Char → Option Nat
  | 'u' => some 4
  | 'U' => some 8
  | _ => none

def escape? : List Char → Option (Char × Nat)
  | [] => none
  | c :: rest =>
      match escapeDigits? c with
      | none => (escapeLetter? c).map fun m => (m, 1)
      | some n => do
          let k ← Number.hexadecimal? (rest.take n)
          if k.isValidChar then some (Char.ofNat k, n + 1) else none

def unescaped? : List Char → Option (List Char)
  | [] => some []
  | c :: rest =>
      if c ≠ '\\' then (unescaped? rest).map (c :: ·)
      else
        match escape? rest with
        | none => none
        | some (m, n) => (unescaped? (rest.drop n)).map (m :: ·)
termination_by cs => cs.length
decreasing_by all_goals simp only [List.length_drop, List.length_cons]; omega

/-! ## Items -/

/-- A text with its escapes replaced; one of them may stand for nothing. -/
abbrev Unquoted := Option String

mutual

inductive Value where
  | text (s : Unquoted)
  | flag (b : Bool)
  | integer
  | float
  | datetime
  | array (items : List Value)
  | table (line : Nat) (entries : List Setting)

inductive Setting where
  /-- A key, the line on which it stands, a value and the line on which that ends. -/
  | mk (key : Unquoted) (keyLine : Nat) (value : Value) (line : Nat)

end

inductive Item where
  /-- Opens the table at a path; the name is the path as it is written. -/
  | header (line : Nat) (name : String) (path : List Unquoted)
  | arrayHeader (line : Nat) (name : String) (path : List Unquoted)
  | setting (s : Setting)

namespace Matching

/-! ## Characters -/

def blanks : Matching Unit := part do
  let _ ← many (one fun c => c = ' ' || c = '\t')

def breaks : Matching (List Char) := part (several (one isBreak))

def gap : Matching Unit := part do
  let _ ← many (one fun c => c = ' ' || c = '\t' || isBreak c)

def isPrintable (c : Char) : Bool := c = '\t' || ' ' ≤ c

def comment : Matching Unit := part do
  let _ ← char '#'
  let _ ← part (many (one isPrintable))

def digit : Matching Char := part (one Char.isDigit)

def hexDigit : Matching Char := part (one fun c => (Number.hexValue? c).isSome)

def hexDigits : Nat → Matching (List Char)
  | 0 => return []
  | n + 1 => do
      let c ← hexDigit
      return c :: (← hexDigits n)

/-! ## Texts -/

def backslash : Matching Char := part (char '\\')

def escape : Matching (List Char) := part do
  let b ← backslash
  let letter := do return [← one ['b', 't', 'n', 'f', 'r', '"', '/', '\\'].contains]
  let four := do return (← char 'u') :: (← part (hexDigits 4))
  let eight := do
    return (← char 'U') :: ((← part (hexDigits 4)) ++ (← part (hexDigits 4)))
  return b :: (← letter <|> four <|> eight)

def quotedChar : Matching (List Char) :=
  part ((do return [← part (one fun c => ' ' ≤ c && c ≠ '"' && c ≠ '\\')]) <|> escape)

def unquoted (written : List (List Char)) : Unquoted :=
  (unescaped? written.flatten).map String.ofList

def quotedText : Matching Unquoted := part <| part do
  let _ ← char '"'
  let cs ← many quotedChar
  let _ ← char '"'
  return unquoted cs

def withoutBreaks (cs : List Char) : List Char := cs.dropWhile isBreak

/-- A piece of a text of several lines; a backslash before a line end joins lines. -/
def longPiece : Matching (List Char) :=
  part (quotedChar <|> breaks) <|> do
    let _ ← backslash
    let _ ← breaks
    gap
    return []

def threeOf (c : Char) : Matching Unit := word [c, c, c]

def longText : Matching Unquoted := part do
  threeOf '"'
  let cs ← part (many longPiece)
  threeOf '"'
  return unquoted [withoutBreaks cs.flatten]

def literalText : Matching Unquoted := part do
  let _ ← char '\''
  let cs ← part (many (part (one fun c => isPrintable c && c ≠ '\'')))
  let _ ← char '\''
  return String.ofList cs

def longLiteralText : Matching Unquoted := part do
  threeOf '\''
  let piece := do
    butNot (threeOf '\'')
    (do return [← part (one isPrintable)]) <|> breaks
  let cs ← part (part (many piece))
  threeOf '\''
  return String.ofList (withoutBreaks cs.flatten)

def text : Matching Unquoted :=
  part (longLiteralText <|> literalText <|> longText <|> quotedText)

/-! ## Numbers and dates -/

def sign : Matching Unit := do
  let _ ← opt (one fun c => c = '-' || c = '+')

def moreDigit : Matching Char := digit <|> (do let _ ← char '_'; digit)

def moreDigits : Matching Unit := do
  let _ ← many moreDigit

def whole : Matching Unit := part <|
  (do
    let _ ← one fun c => '1' ≤ c && c ≤ '9'
    let _ ← several moreDigit) <|> do
  let _ ← digit

def integer : Matching Unit := part do
  sign
  whole

def fraction : Matching Unit := part do
  let _ ← char '.'
  let _ ← digit
  moreDigits

def exponent : Matching Unit := part do
  let _ ← one fun c => c = 'e' || c = 'E'
  sign
  let _ ← digit
  moreDigits

def float : Matching Unit := part do
  integer
  (do fraction
      let _ ← opt exponent) <|> exponent

def twoDigits : Matching Unit := part do
  let _ ← digit
  let _ ← digit

def fourDigits : Matching Unit := part do
  twoDigits
  twoDigits

def colon : Matching Unit := do
  let _ ← char ':'

def timeOfDay : Matching Unit := part do
  twoDigits
  colon
  twoDigits
  colon
  twoDigits
  let _ ← opt (part do
    let _ ← char '.'
    let _ ← several digit)

def timeZone : Matching Unit := part <|
  (do let _ ← char 'Z') <|> part do
    let _ ← one fun c => c = '-' || c = '+'
    twoDigits
    colon
    twoDigits

def date : Matching Unit := part do
  fourDigits
  let _ ← char '-'
  twoDigits
  let _ ← char '-'
  twoDigits

def datetime : Matching Unit := part <|
  (do
    date
    let _ ← opt (do
      let _ ← char 'T'
      part do
        timeOfDay
        let _ ← opt timeZone)) <|> timeOfDay

def flag : Matching Bool := part <|
  (do word "true".toList; return true) <|> do word "false".toList; return false

/-! ## Settings -/

def isBare (c : Char) : Bool := c.isAlphanum || c = '-' || c = '_'

def bareKey : Matching Unquoted := part do
  return String.ofList (← part (several (one isBare)))

def quotedKey : Matching Unquoted := part do
  let _ ← char '"'
  let cs ← part (several quotedChar)
  let _ ← char '"'
  return unquoted cs

def key : Matching Unquoted := part (bareKey <|> quotedKey)

mutual

def value : Nat → Matching Value
  | 0 => failure
  | fuel + 1 => part <|
      (do datetime; return .datetime) <|>
      (do float; return .float) <|>
      (do integer; return .integer) <|>
      (do return .text (← text)) <|>
      (do return .flag (← flag)) <|>
      (do return .array (← array fuel)) <|>
      inlineTable fuel

def array : Nat → Matching (List Value)
  | 0 => failure
  | fuel + 1 => part do
      let _ ← char '['
      gap
      let items ← opt (arrayValues fuel)
      gap
      let _ ← char ']'
      return items.getD []

def arrayValues : Nat → Matching (List Value)
  | 0 => failure
  | fuel + 1 => part do
      let remark := do
        gap
        let _ ← opt comment
      let comma := do
        let _ ← part (char ',')
      let first ← value fuel
      let more ← many do
        remark
        gap
        comma
        remark
        gap
        value fuel
      gap
      let _ ← opt comma
      gap
      let _ ← opt comment
      return first :: more

def inlineTable : Nat → Matching Value
  | 0 => failure
  | fuel + 1 => part do
      let opened ← line
      let _ ← char '\x7b'
      blanks
      let comma := do
        blanks
        let _ ← char ','
        blanks
      let entries ← part (many do
        let s ← setting fuel
        let _ ← opt (part comma)
        return s)
      blanks
      let _ ← char '\x7d'
      return .table opened entries

def setting : Nat → Matching Setting
  | 0 => failure
  | fuel + 1 => part do
      let keyLine ← line
      let k ← key
      blanks
      let _ ← char '='
      blanks
      let v ← value fuel
      return .mk k keyLine v (← line)

end

/-! ## Documents -/

def path : Matching (String × List Unquoted) := part do
  let before ← get
  let first ← key
  let more ← many do
    part do
      blanks
      let _ ← char '.'
      blanks
    key
  let after ← get
  return (String.ofList (before.rest.take (after.index - before.index)), first :: more)

def header : Matching Item :=
  part <| part (do
    let _ ← char '['
    blanks
    let (name, path) ← part path
    blanks
    let _ ← char ']'
    return .header (← line) name path) <|> part (do
    word ['[', '[']
    blanks
    let (name, path) ← part path
    blanks
    word [']', ']']
    return .arrayHeader (← line) name path)

/-- Settings nest no deeper than there are characters. -/
def anySetting : Matching Item := do
  return .setting (← setting (← get).rest.length)

def lineRest : Matching Unit := do
  blanks
  let _ ← opt comment

def expression : Matching (List Item) := part <|
  (part do
    blanks
    let h ← header
    lineRest
    let settings ← many do
      gap
      let s ← anySetting
      lineRest
      return s
    return h :: settings) <|>
  (do
    blanks
    let s ← anySetting
    lineRest
    return [s]) <|>
  (do
    lineRest
    return [])

def document : Matching (List Item) := do
  let first ← expression
  let more ← many do
    let _ ← breaks
    expression
  let _ ← opt breaks
  butNot (one fun _ => true)
  return first ++ more.flatten

end Matching

/-- The line on which a text stops matching: the one of the character behind the longest match. -/
def faultLine (source : String) (furthest : Nat) : Nat :=
  1 + (source.toList.take (furthest + 1)).count '\n'

def items (source : String) : Except Nat (List Item) :=
  match (Matching.document.run { rest := source.toList }).run.run 0 with
  | (some (found, _), _) => .ok found
  | (none, furthest) => .error (faultLine source furthest)

example : unescaped? "a\\u0041".toList = some ['a', 'A'] := by decide +kernel

/-! A line feed behind the longest match belongs to the next line already. -/

example : faultLine "a = \nb" 4 = 2 := by decide +kernel

end KernelAlgebra.Document.Toml
