import KernelAlgebra.Document.Yaml.Node
import KernelAlgebra.Number.Integer
import KernelAlgebra.Text.Glyph

/-!
# What scalars and mappings mean

The look of a plain scalar decides whether it is null, a truth value, a number, a timestamp or
a text.  A tag of one of these types has to agree with the look; any other tag makes a text.
-/

namespace KernelAlgebra.Document

/-!
## Bytes in base sixty-four

Four characters of sixty-four stand for three bytes; equals signs fill up the last four.  Line
ends among them do not count.
-/

namespace Base64

def digit? (c : Char) : Option Nat :=
  if 'A' ≤ c && c ≤ 'Z' then some (c.toNat - 65)
  else if 'a' ≤ c && c ≤ 'z' then some (c.toNat - 71)
  else if '0' ≤ c && c ≤ '9' then some (c.toNat + 4)
  else if c = '+' then some 62
  else if c = '/' then some 63
  else none

def bytesOf (count : Nat) (a b c d : Nat) : List UInt8 :=
  let n := ((a * 64 + b) * 64 + c) * 64 + d
  [UInt8.ofNat (n / 65536), UInt8.ofNat (n / 256), UInt8.ofNat n].take count

def quartets? : List Char → Option (List UInt8)
  | [] => some []
  | [a, b, '=', '='] => do return bytesOf 1 (← digit? a) (← digit? b) 0 0
  | [a, b, c, '='] => do return bytesOf 2 (← digit? a) (← digit? b) (← digit? c) 0
  | a :: b :: c :: d :: rest => do
      let bytes := bytesOf 3 (← digit? a) (← digit? b) (← digit? c) (← digit? d)
      return bytes ++ (← quartets? rest)
  | _ => none

def decode? (s : String) : Option (List UInt8) :=
  quartets? (s.toList.filter fun c => c ≠ '\n' && c ≠ '\r')

example : decode? "aGk=\n" = some [104, 105] := by decide +kernel

end Base64

end KernelAlgebra.Document

namespace KernelAlgebra.Document.Yaml

/-!
## Timestamps

A date has a year of four digits and a month and day of one or two.  A time of day may follow:
behind a letter `T` it needs a time zone, and behind blanks it has none.
-/

namespace Timestamp

def isLeap (year : Nat) : Bool :=
  year % 4 = 0 && (year % 100 ≠ 0 || year % 400 = 0)

def daysIn (year month : Nat) : Nat :=
  match month with
  | 2 => if isLeap year then 29 else 28
  | 4 | 6 | 9 | 11 => 30
  | _ => 31

def number? : List Char → Option (Nat × List Char)
  | c :: d :: rest =>
      if !c.isDigit then none
      else if d.isDigit then some ((c.toNat - 48) * 10 + (d.toNat - 48), rest)
      else some (c.toNat - 48, d :: rest)
  | [c] => if c.isDigit then some (c.toNat - 48, []) else none
  | [] => none

def behind? (c : Char) : List Char → Option (List Char)
  | d :: rest => if c = d then some rest else none
  | [] => none

def afterDate? (cs : List Char) : Option (List Char) := do
  let year := cs.takeWhile Char.isDigit
  if year.length ≠ 4 then none
  else
    let y := year.foldl (fun n c => n * 10 + (c.toNat - 48)) 0
    let (m, cs) ← number? (← behind? '-' (cs.drop 4))
    let (d, cs) ← number? (← behind? '-' cs)
    if 1 ≤ m ∧ m ≤ 12 ∧ 1 ≤ d ∧ d ≤ daysIn y m then some cs else none

def afterFraction : List Char → List Char
  | c :: d :: rest =>
      if (c = '.' || c = ',') && d.isDigit then (d :: rest).dropWhile Char.isDigit
      else c :: d :: rest
  | cs => cs

def afterTime? (cs : List Char) : Option (List Char) := do
  let (h, cs) ← number? cs
  let (m, cs) ← number? (← behind? ':' cs)
  let (s, cs) ← number? (← behind? ':' cs)
  if h < 24 ∧ m < 60 ∧ s < 60 then some (afterFraction cs) else none

def isZone : List Char → Bool
  | ['Z'] => true
  | [sign, h, h', ':', m, m'] =>
      (sign = '+' || sign = '-') && [h, h', m, m'].all Char.isDigit &&
        (h.toNat - 48) * 10 + (h'.toNat - 48) ≤ 24 && (m.toNat - 48) * 10 + (m'.toNat - 48) ≤ 60
  | _ => false

def isTail : List Char → Bool
  | [] => true
  | c :: rest =>
      if c = 'T' || c = 't' then (afterTime? rest).any isZone
      else if c = ' ' then (afterTime? (rest.dropWhile (· = ' '))).any List.isEmpty
      else false

end Timestamp

def isTimestamp (s : String) : Bool := (Timestamp.afterDate? s.toList).any Timestamp.isTail

example : isTimestamp "2000-2-29t1:2:3.5+01:00" = true := by decide +kernel

example : isTimestamp "1900-02-29" = false := by decide +kernel

example : isTimestamp "2001-01-01 00:00:00Z" = false := by decide +kernel

/-! ## Tags -/

def standardTag (name : String) : String := "tag:yaml.org,2002:" ++ name

def shortTag (tag : String) : String :=
  let start := standardTag ""
  if tag.startsWith start then "!!" ++ String.ofList (tag.toList.drop start.length) else tag

namespace Tag

def null : String := standardTag "null"

def bool : String := standardTag "bool"

def text : String := standardTag "str"

def int : String := standardTag "int"

def float : String := standardTag "float"

def timestamp : String := standardTag "timestamp"

def binary : String := standardTag "binary"

def merge : String := standardTag "merge"

def sequence : String := standardTag "seq"

def mapping : String := standardTag "map"

end Tag

/-! ## Looks -/

inductive Look where
  | null
  | bool (b : Bool)
  | int
  /-- An integer that takes 64 bits without a sign. -/
  | largeInt
  | float
  | timestamp
  | text
  deriving DecidableEq, Repr

def Look.tag : Look → String
  | null => Tag.null
  | bool _ => Tag.bool
  | int | largeInt => Tag.int
  | float => Tag.float
  | timestamp => Tag.timestamp
  | text => Tag.text

def nullWords : List String := ["", "~", "null", "Null", "NULL"]

def trueWords : List String :=
  ["y", "Y", "yes", "Yes", "YES", "on", "On", "ON", "true", "True", "TRUE"]

def falseWords : List String :=
  ["n", "N", "no", "No", "NO", "off", "Off", "OFF", "false", "False", "FALSE"]

def floatWords : List String :=
  [".nan", ".NaN", ".NAN"] ++ ["", "+", "-"].flatMap fun sign =>
    [".inf", ".Inf", ".INF"].map (sign ++ ·)

def wordLook? (s : String) : Option Look :=
  if nullWords.contains s then some .null
  else if trueWords.contains s then some (.bool true)
  else if falseWords.contains s then some (.bool false)
  else if floatWords.contains s then some .float
  else none

def behindSign : List Char → List Char
  | c :: rest => if c = '+' || c = '-' then rest else c :: rest
  | [] => []

def isExponent : List Char → Bool
  | [] => true
  | c :: rest =>
      let digits := behindSign rest
      (c = 'e' || c = 'E') && !digits.isEmpty && digits.all Char.isDigit

def isDecimalFraction (cs : List Char) : Bool :=
  let cs := behindSign cs
  let whole := cs.takeWhile Char.isDigit
  match cs.dropWhile Char.isDigit with
  | '.' :: rest =>
      let places := rest.takeWhile Char.isDigit
      !(whole.isEmpty && places.isEmpty) && isExponent (rest.dropWhile Char.isDigit)
  | rest => !whole.isEmpty && isExponent rest

/-- A mark of base two with a sign behind it, and digits that fit into 64 bits. -/
def isSignedBinary : List Char → Bool
  | '0' :: 'b' :: sign :: digits =>
      let bound := Number.maxInteger + (if sign = '-' then 1 else 0)
      (sign = '+' || sign = '-') && !digits.isEmpty && digits.all (fun c => c = '0' || c = '1') &&
        digits.foldl (fun n c => n * 2 + (c.toNat - 48)) 0 ≤ bound
  | _ => false

/-- The look of a scalar that starts with a digit or a sign; underscores do not count. -/
def numberLook (s : String) : Look :=
  let bare := s.toList.filter (· != '_')
  let written := String.ofList bare
  if (Number.readInteger written).toOption.isSome then .int
  else if (Number.readMagnitude bare).toOption.isSome then .largeInt
  else if isDecimalFraction bare && (Number.read written).toOption.isSome then .float
  else if isSignedBinary bare then .int
  else .text

/-- The look of a plain scalar; only one without a tag or with that tag can be a timestamp. -/
def lookOf (tag s : String) : Look :=
  match wordLook? s with
  | some look => look
  | none =>
      match s.toList with
      | c :: _ =>
          if c = '.' then
            if (Number.read s).toOption.isSome then .float else .text
          else if c.isDigit || c = '+' || c = '-' then
            if (tag = "" || tag = Tag.timestamp) && isTimestamp s then .timestamp
            else numberLook s
          else .text
      | [] => .null

/-! ## Meanings -/

inductive Meaning where
  | null
  | bool (b : Bool)
  | text (tag s : String)
  deriving DecidableEq, Repr

def Look.meaning (look : Look) (tag s : String) : Meaning :=
  match look with
  | .null => .null
  | .bool b => .bool b
  | _ => .text tag s

def lookTags : List String := [Tag.bool, Tag.int, Tag.float, Tag.null, Tag.timestamp]

def Scalar.meaning (s : Scalar) : Except Fault Meaning :=
  if s.tag = "" then
    if s.plain then
      let look := lookOf "" s.text
      .ok (look.meaning look.tag s.text)
    else .ok (.text Tag.text s.text)
  else if s.tag = Tag.binary then
    match Base64.decode? s.text with
    | some bytes => .ok (.text s.tag (Text.decode bytes).shown)
    | none => .error { complaint := .badBase64 }
  else if lookTags.contains s.tag then
    let look := lookOf s.tag s.text
    if look.tag = s.tag || (s.tag = Tag.float && look = .int) then
      .ok (look.meaning s.tag s.text)
    else .error { complaint := .wrongTag (shortTag look.tag) s.text (shortTag s.tag) }
  else .ok (.text s.tag s.text)

/-!
## Mappings with others merged into them

The key `<<` of a mapping stands for the entries of other mappings: of one, or of several in a
sequence, in which the first ones win because they are merged last.
-/

inductive Content where
  | scalar (s : Scalar)
  | sequence (line : Nat)
  | mapping (line : Nat) (entries : List (Node × Node))

def Node.content : Node → Except Fault Content
  | scalar s => .ok (.scalar s)
  | sequence line _ => .ok (.sequence line)
  | mapping line entries => .ok (.mapping line entries)
  | reference _ target => target.content
  | loop _ name => .error { complaint := .endlessAnchor name }

inductive Part where
  | entry (key value : Node)
  | opens
  | closes
  | fault (c : Complaint)

def Node.isMerge : Node → Bool
  | scalar s => s.text = "<<" && (s.plain || s.tag = Tag.merge)
  | _ => false

mutual

def partsOf : List (Node × Node) → List Part
  | [] => []
  | (k, v) :: rest => (if k.isMerge then mergedParts v else [.entry k v]) ++ partsOf rest

def mergedParts : Node → List Part
  | .sequence _ items => itemParts items
  | n => mappingParts n

def mappingParts : Node → List Part
  | .mapping _ entries => .opens :: partsOf entries ++ [.closes]
  | .reference _ (.mapping _ entries) => .opens :: partsOf entries ++ [.closes]
  | .loop _ name => [.fault (.endlessAnchor name)]
  | _ => [.fault .badMerge]

/-- The steps for a sequence of mappings, the last one first. -/
def itemParts : List Node → List Part
  | [] => []
  | n :: rest => itemParts rest ++ mappingParts n

end

end KernelAlgebra.Document.Yaml
