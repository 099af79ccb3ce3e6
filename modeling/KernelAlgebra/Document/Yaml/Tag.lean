import KernelAlgebra.Document.Yaml.Scalar

/-!
# Anchors, tags and directives

A tag is a handle, which a directive may define, and a suffix; a verbatim tag has no handle.
-/

namespace KernelAlgebra.Document.Yaml

/-! ## Anchors -/

def endsAnchor (c : Char) : Bool :=
  endsWord c || ['?', ':', ',', ']', '\x7d', '%', '@', '\x60'].contains c

def anchorName (a : Ahead) : Except Fault (String × Ahead) :=
  let (name, b) := a.span inName
  if name.isEmpty || !endsAnchor b.peek then b.fail .badAnchor
  else .ok (String.ofList name, b)

/-! ## Tags -/

def inUri (c : Char) : Bool :=
  inName c || [';', '/', '?', ':', '@', '&', '=', '+', '$', ',', '.', '!', '~', '*', '\'', '(',
    ')', '[', ']', '%'].contains c

def escapedByte? (a : Ahead) : Option UInt8 :=
  if a.peek = '%' then
    match (a.take 3).map Place.char with
    | [_, x, y] => (Number.hexadecimal? [x, y]).map UInt8.ofNat
    | _ => none
  else none

def escapedBytes : Nat → Ahead → Except Fault (List UInt8 × Ahead)
  | 0, a => .ok ([], a)
  | n + 1, a =>
      match escapedByte? a with
      | none => a.fail .badUriEscape
      | some b =>
          if Text.isContinuation b then do
            let (more, after) ← escapedBytes n (a.drop 3)
            return (b :: more, after)
          else a.fail .badUriTrail

def escapedCharacter (a : Ahead) : Except Fault (List Char × Ahead) :=
  match escapedByte? a with
  | none => a.fail .badUriEscape
  | some b =>
      match widthFrom? b with
      | none => a.fail .badUriLead
      | some width => do
          let (more, after) ← escapedBytes (width - 1) (a.drop 3)
          return ((Text.decode (b :: more)).map Glyph.rune, after)

def uriFrom : Nat → Ahead → Except Fault (List Char × Ahead)
  | 0, a => .ok ([], a)
  | fuel + 1, a =>
      if a.peek = '%' then do
        let (cs, b) ← escapedCharacter a
        let (more, after) ← uriFrom fuel b
        return (cs ++ more, after)
      else if inUri a.peek then do
        let (more, after) ← uriFrom fuel (a.drop 1)
        return (a.peek :: more, after)
      else .ok ([], a)

def uri (a : Ahead) : Except Fault (String × Ahead) :=
  if inUri a.peek then do
    let (cs, after) ← uriFrom a.length a
    return (String.ofList cs, after)
  else a.fail .missingUri

def handle (a : Ahead) : Except Fault (List Char × Ahead) :=
  if a.peek ≠ '!' then a.fail .missingExclamation
  else
    let (name, b) := Ahead.span (a.drop 1) inName
    if b.peek = '!' then .ok ('!' :: name ++ ['!'], b.drop 1) else .ok ('!' :: name, b)

def isClosed (h : List Char) : Bool := 1 < h.length && h.getLast? == some '!'

structure Tag where
  /-- Empty if the suffix is the whole tag. -/
  handle : String
  suffix : String
  deriving DecidableEq, Repr

def verbatimTag (a : Ahead) : Except Fault (Tag × Ahead) := do
  let (suffix, a) ← uri (a.drop 2)
  if a.peek = '>' then return (⟨"", suffix⟩, a.drop 1) else a.fail .unclosedTag

def shorthandTag (a : Ahead) : Except Fault (Tag × Ahead) := do
  let (h, a) ← handle a
  if isClosed h then
    let (suffix, a) ← uri a
    return (⟨String.ofList h, suffix⟩, a)
  else
    let (more, a) ← uriFrom a.length a
    let suffix := h.drop 1 ++ more
    return (if suffix.isEmpty then ⟨"", "!"⟩ else ⟨"!", String.ofList suffix⟩, a)

def tag (a : Ahead) : Except Fault (Tag × Ahead) := do
  let (t, a) ← if a.peekAt 1 = '<' then verbatimTag a else shorthandTag a
  if endsWord a.peek then return (t, a) else a.fail .textBehindTag

/-! ## Directives -/

inductive Directive where
  | version (major minor : Nat)
  | handle (name meaning : String)
  deriving DecidableEq, Repr

def versionNumber (a : Ahead) : Except Fault (Nat × Ahead) :=
  let (digits, b) := a.span Char.isDigit
  if digits.isEmpty then a.fail .missingVersion
  else if 2 < digits.length then a.fail .longVersion
  else .ok (digits.foldl (fun n c => n * 10 + (c.toNat - 48)) 0, b)

def versionDirective (a : Ahead) : Except Fault (Directive × Ahead) := do
  let (major, a) ← versionNumber (a.skip isBlank)
  if a.peek ≠ '.' then a.fail .missingPoint
  else
    let (minor, a) ← versionNumber (a.drop 1)
    return (.version major minor, a)

def handleDirective (a : Ahead) : Except Fault (Directive × Ahead) := do
  let (h, a) ← handle (a.skip isBlank)
  if !isClosed h && h ≠ ['!'] then a.fail .missingExclamation
  else if !isBlank a.peek then a.fail .missingSpace
  else
    let (meaning, a) ← uri (a.skip isBlank)
    if endsWord a.peek then return (.handle (String.ofList h) meaning, a)
    else a.fail .textBehindTag

def directive (a : Ahead) : Except Fault (Directive × Ahead) := do
  let (name, b) := a.span inName
  if name.isEmpty then b.fail .missingDirective
  else if !endsWord b.peek then b.fail .badDirective
  else
    let (d, b) ←
      match String.ofList name with
      | "YAML" => versionDirective b
      | "TAG" => handleDirective b
      | _ => b.fail .unknownDirective
    return (d, ← b.lineBehind)

end KernelAlgebra.Document.Yaml
