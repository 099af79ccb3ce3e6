import KernelAlgebra.Error
import KernelAlgebra.Text.Cut
import KernelAlgebra.Text.Lowercase
import KernelAlgebra.Text.Quote

/-!
# Targets

A target names the backend and the stage that a program is meant for.
-/

namespace KernelAlgebra

inductive Backend where
  | arb
  | glsl
  | hlsl
  | msl
  | spirv
  deriving DecidableEq, Repr

namespace Backend

def all : List Backend := [arb, glsl, hlsl, msl, spirv]

def name : Backend → String
  | arb => "arb"
  | glsl => "glsl"
  | hlsl => "hlsl"
  | msl => "msl"
  | spirv => "spirv"

def nameOfCode (code : Nat) : String :=
  ((all[code]?).map name).getD "unknown"

def ofName? (s : String) : Option Backend :=
  match s with
  | "metal" => some msl
  | "spv" => some spirv
  | _ => all.find? (·.name == s)

end Backend

inductive Stage where
  | vertex
  | fragment
  | compute
  deriving DecidableEq, Repr

namespace Stage

def all : List Stage := [vertex, fragment, compute]

def name : Stage → String
  | vertex => "vertex"
  | fragment => "fragment"
  | compute => "compute"

def nameOfCode (code : Nat) : String :=
  ((all[code]?).map name).getD "unknown"

def ofName? (s : String) : Option Stage :=
  match s with
  | "vs" => some vertex
  | "fs" | "ps" | "pixel" => some fragment
  | "cs" => some compute
  | _ => all.find? (·.name == s)

end Stage

structure Target where
  backend : Backend
  stage : Stage
  deriving DecidableEq, Repr

inductive TargetError where
  | absent
  | noSeparator (text : String)
  | unknownBackend (name text : String)
  | unknownStage (name text : String)
  deriving DecidableEq, Repr

def TargetError.toError : TargetError → Error
  | .absent => ⟨.unsupportedBinding, "program has no target"⟩
  | .noSeparator text =>
      ⟨.unsupportedBinding, s!"target {Text.quoted text} is not <backend>:<stage>"⟩
  | .unknownBackend name text =>
      ⟨.unsupportedBinding,
        s!"unknown backend {Text.quoted name} in target {Text.quoted text}"⟩
  | .unknownStage name text =>
      ⟨.unsupportedBinding,
        s!"unknown stage {Text.quoted name} in target {Text.quoted text}"⟩

namespace Target

def text (t : Target) : String := s!"{t.backend.name}:{t.stage.name}"

def cut (s : String) : Option (String × String) :=
  let cs := s.toList
  match cs.dropWhile (· != ':') with
  | [] => none
  | _ :: rest => some (String.ofList (cs.takeWhile (· != ':')), String.ofList rest)

/-- Reads a backend and a stage, in any case, with the usual short forms. -/
def parse (s : String) : Except TargetError Target :=
  if s = "" then .error .absent
  else
    match cut (Text.lowercase (Text.trimmed s)) with
    | none => .error (.noSeparator s)
    | some (backend, stage) =>
        match Backend.ofName? backend, Stage.ofName? stage with
        | none, _ => .error (.unknownBackend backend s)
        | _, none => .error (.unknownStage stage s)
        | some b, some st => .ok ⟨b, st⟩

example : (parse " Metal:PS ").toOption = some ⟨.msl, .fragment⟩ := by decide +kernel

end Target

end KernelAlgebra
