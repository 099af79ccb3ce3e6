import KernelAlgebra.Text.Cut
import KernelAlgebra.Text.Lowercase
import KernelAlgebra.Text.Quote

/-!
# Versions of the shading language

A version says what the language supports.
-/

namespace KernelAlgebra.Shader

structure Version where
  major : Nat
  minor : Nat
  es : Bool
  deriving DecidableEq, Repr

inductive VersionError where
  | invalid (text : String)
  | tooOld (v : Version)
  deriving DecidableEq, Repr

namespace Version

def standard : Version := ⟨3, 30, false⟩

def twoDigits (n : Nat) : String :=
  if n < 10 then s!"0{n}" else toString n

def digits (v : Version) : String := s!"{v.major}{twoDigits v.minor}"

def text (v : Version) : String :=
  v.digits ++ if v.es then " es" else " core"

def number (v : Version) : Nat := v.major * 100 + v.minor

def supportsCompute (v : Version) : Bool :=
  if v.es then 310 ≤ v.number else 430 ≤ v.number

def supportsStorage (v : Version) : Bool := v.supportsCompute

/-- Whether every stage input and output may carry a location. -/
def supportsStageLocations (v : Version) : Bool :=
  if v.es then 310 ≤ v.number else 410 ≤ v.number

/-- Whether uniforms may carry a location and samplers a binding. -/
def supportsResourceLayouts (v : Version) : Bool :=
  if v.es then 310 ≤ v.number else 430 ≤ v.number

def withoutEnding? (ending s : List Char) : Option (List Char) :=
  if ending.isSuffixOf s then some (s.take (s.length - ending.length)) else none

def splitDialect (s : List Char) : List Char × Bool :=
  match withoutEnding? ['e', 's'] s with
  | some rest => (rest, true)
  | none => ((withoutEnding? ['c', 'o', 'r', 'e'] s).getD s, false)

def readInteger (cs : List Char) : Option Int :=
  let digits := fun (ds : List Char) =>
    if ds.isEmpty || !ds.all Char.isDigit then none
    else some (ds.foldl (fun (n : Nat) d => n * 10 + (d.toNat - '0'.toNat)) 0)
  match cs with
  | '+' :: ds => (digits ds).map Int.ofNat
  | '-' :: ds => (digits ds).map fun n => -Int.ofNat n
  | ds => (digits ds).map Int.ofNat

def parse (s : String) : Except VersionError Version :=
  let (rest, es) := splitDialect (Text.lowercase (Text.trimmed s)).toList
  match readInteger (Text.trimmedChars rest) with
  | none => .error (.invalid (String.ofList rest))
  | some n =>
      if n < 100 || 999 < n then .error (.invalid (String.ofList rest))
      else
        let v : Version := ⟨n.toNat / 100, n.toNat % 100, es⟩
        if v.number < 300 then .error (.tooOld v) else .ok v

example : (parse " 310ES").toOption = some ⟨3, 10, true⟩ := by decide +kernel

end Version

def VersionError.message : VersionError → String
  | .invalid text => s!"invalid GLSL version {Text.quoted text}"
  | .tooOld v => s!"GLSL version {v.text} is not supported, the oldest is 300 es"

end KernelAlgebra.Shader
