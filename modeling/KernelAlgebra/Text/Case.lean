import KernelAlgebra.Text.Cut

/-!
# Identifier case

There is camel case with a small or a large first letter, and snake case, with the rules of
`strcase` in version 0.3.0.  Only ASCII letters and digits take part in them.  Camel case drops
every other character; snake case keeps it.  Other versions treat digits and runs of capitals in
another way.  The general theorems about names do not look into these rules.
-/

namespace KernelAlgebra.Text

def isUpperAscii (c : Char) : Bool := 'A' ≤ c && c ≤ 'Z'

def isLowerAscii (c : Char) : Bool := 'a' ≤ c && c ≤ 'z'

def isDigitAscii (c : Char) : Bool := '0' ≤ c && c ≤ '9'

def isWordBreak (c : Char) : Bool :=
  c = '_' || c = ' ' || c = '-' || c = '.'

def camelChar (capital first afterUpper : Bool) (c : Char) : Char :=
  if capital then (if isLowerAscii c then c.toUpper else c)
  else if first then (if isUpperAscii c then c.toLower else c)
  else if afterUpper && isUpperAscii c then c.toLower
  else c

/--
`capital` asks for a capital at the next letter, `first` marks the first character of the
text and `afterUpper` says that the character before is a capital.
-/
def camelChars (capital first afterUpper : Bool) : List Char → List Char
  | [] => []
  | c :: rest =>
      if isUpperAscii c || isLowerAscii c then
        camelChar capital first afterUpper c :: camelChars false false (isUpperAscii c) rest
      else if isDigitAscii c then
        c :: camelChars true false false rest
      else camelChars (isWordBreak c) false false rest

def camelCase (s : String) : String :=
  String.ofList (camelChars true true false (trimmedChars s.toList))

def lowerCamelCase (s : String) : String :=
  String.ofList (camelChars false true false (trimmedChars s.toList))

def wordBoundary (c next : Char) : Bool :=
  (isUpperAscii c && (isLowerAscii next || isDigitAscii next)) ||
  (isLowerAscii c && (isUpperAscii next || isDigitAscii next)) ||
  (isDigitAscii c && (isUpperAscii next || isLowerAscii next))

def snakeBoundary (afterUpper : Bool) (c next : Char) : List Char :=
  (if isUpperAscii c && isLowerAscii next && afterUpper then ['_'] else []) ++
  c.toLower ::
    (if isLowerAscii c || isDigitAscii c || isDigitAscii next then ['_'] else [])

def snakeChars (afterUpper : Bool) : List Char → List Char
  | [] => []
  | [c] => [if isWordBreak c then '_' else c.toLower]
  | c :: next :: rest =>
      (if wordBoundary c next then snakeBoundary afterUpper c next
       else [if isWordBreak c then '_' else c.toLower]) ++
        snakeChars (isUpperAscii c) (next :: rest)

def snakeCase (s : String) : String :=
  String.ofList (snakeChars false (trimmedChars s.toList))

example : camelCase "some_value" = "SomeValue" := by decide +kernel

example : snakeCase "JSONData1" = "json_data_1" := by decide +kernel

end KernelAlgebra.Text
