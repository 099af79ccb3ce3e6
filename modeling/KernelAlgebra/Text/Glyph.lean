import KernelAlgebra.Total

/-!
# Source text as a sequence of glyphs

A source arrives as bytes that may not be well-formed UTF-8.  Decoding takes the longest
well-formed character at each place; a byte that starts none stands for itself as a `stray`
glyph.  Widths are counted in bytes, so positions can be computed for both.
-/

namespace KernelAlgebra

inductive Glyph where
  | char (c : Char)
  | stray (byte : UInt8)
  deriving DecidableEq, Repr

abbrev Text := List Glyph

namespace Glyph

/-- The character that stands for a stray byte wherever text is shown. -/
def replacement : Char := Char.ofNat 0xFFFD

def width : Glyph → Nat
  | char c => c.utf8Size
  | stray _ => 1

def rune : Glyph → Char
  | char c => c
  | stray _ => replacement

end Glyph

namespace Text

def ofString (s : String) : Text :=
  s.toList.map .char

/-- The text as it is shown: stray bytes become the replacement character. -/
def shown (t : Text) : String :=
  String.ofList (t.map Glyph.rune)

def byteLength (t : Text) : Nat :=
  total (t.map Glyph.width)

@[simp] theorem byteLength_nil : byteLength [] = 0 := rfl

@[simp] theorem byteLength_cons (g : Glyph) (t : Text) :
    byteLength (g :: t) = g.width + byteLength t := by
  simp [byteLength]

@[simp] theorem byteLength_append (s t : Text) :
    byteLength (s ++ t) = byteLength s + byteLength t := by
  simp [byteLength]

theorem shown_ofString (s : String) : shown (ofString s) = s := by
  simp [shown, ofString, Function.comp_def, Glyph.rune]

/-! ## Decoding -/

def isContinuation (b : UInt8) : Bool :=
  0x80 ≤ b && b ≤ 0xBF

def payload (b : UInt8) : Nat :=
  b.toNat % 64

def secondOfThree (lead second : UInt8) : Bool :=
  if lead = 0xE0 then 0xA0 ≤ second && second ≤ 0xBF
  else if lead = 0xED then 0x80 ≤ second && second ≤ 0x9F
  else isContinuation second

def secondOfFour (lead second : UInt8) : Bool :=
  if lead = 0xF0 then 0x90 ≤ second && second ≤ 0xBF
  else if lead = 0xF4 then 0x80 ≤ second && second ≤ 0x8F
  else isContinuation second

def leading? (lead : UInt8) (rest : List UInt8) : Option (Char × Nat) :=
  if lead < 0x80 then some (Char.ofNat lead.toNat, 0)
  else if 0xC2 ≤ lead && lead ≤ 0xDF then
    match rest with
    | b :: _ =>
        if isContinuation b then
          some (Char.ofNat (lead.toNat % 32 * 64 + payload b), 1)
        else none
    | [] => none
  else if 0xE0 ≤ lead && lead ≤ 0xEF then
    match rest with
    | b :: c :: _ =>
        if secondOfThree lead b && isContinuation c then
          some (Char.ofNat ((lead.toNat % 16 * 64 + payload b) * 64 + payload c), 2)
        else none
    | _ => none
  else if 0xF0 ≤ lead && lead ≤ 0xF4 then
    match rest with
    | b :: c :: d :: _ =>
        if secondOfFour lead b && isContinuation c && isContinuation d then
          some (Char.ofNat
            (((lead.toNat % 8 * 64 + payload b) * 64 + payload c) * 64 + payload d), 3)
        else none
    | _ => none
  else none

def decode : List UInt8 → Text
  | [] => []
  | b :: rest =>
      match leading? b rest with
      | some (c, n) => .char c :: decode (rest.drop n)
      | none => .stray b :: decode rest
termination_by bytes => bytes.length
decreasing_by
  · simp only [List.length_drop, List.length_cons]
    omega
  · simp

/-! An overlong form, half of a pair and a character cut short are all stray bytes. -/

example : decode [0xC0, 0x80] = [.stray 0xC0, .stray 0x80] := by decide +kernel

example : decode [0xED, 0xA0, 0x80] = [.stray 0xED, .stray 0xA0, .stray 0x80] := by
  decide +kernel

example : decode [0x41, 0xE2, 0x82] = [.char 'A', .stray 0xE2, .stray 0x82] := by
  decide +kernel

example : decode [0xF4, 0x8F, 0xBF, 0xBF] = [.char (Char.ofNat 0x10FFFF)] := by decide +kernel

/-! ## Lines -/

def lines : Text → List Text
  | [] => [[]]
  | g :: t =>
      if g = .char '\n' then [] :: lines t
      else
        match lines t with
        | [] => [[g]]
        | line :: more => (g :: line) :: more

end Text

end KernelAlgebra
