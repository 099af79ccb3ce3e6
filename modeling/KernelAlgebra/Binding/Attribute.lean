import KernelAlgebra.Binding.Target
import KernelAlgebra.Compose.Handle
import KernelAlgebra.Text.Case

/-!
# Attributes

An attribute says where a symbol of the interface ends up in a backend.  Stage inputs and
stage outputs are numbered separately, in order.  The first position among them is a builtin
value if the stage has one on that side.  Resources are numbered per register class.  Compute
kernels only have resources.
-/

namespace KernelAlgebra

inductive Direction where
  | input
  | output
  | resource
  deriving DecidableEq, Repr

namespace Direction

def name : Direction → String
  | input => "in"
  | output => "out"
  | resource => "resource"

def nameOfCode : Nat → String
  | 0 => "in"
  | 1 => "out"
  | _ => "resource"

/-- Begins the names of unnamed symbols. -/
def shortName : Direction → String
  | input => "in"
  | output => "out"
  | resource => "res"

end Direction

structure Attribute where
  sym : Symbol
  direction : Direction
  /-- The stage location or the resource slot; a builtin has none. -/
  location : Option Nat
  identifier : String
  decoration : String
  deriving DecidableEq

def Attribute.isBuiltin (a : Attribute) : Bool := a.location.isNone

inductive AttributeError where
  | missing
  | target (e : TargetError)
  | computeInterface (t : Target) (inputs outputs : Nat)
  | streamResource (t : Target) (s : Symbol)

def AttributeError.toError : AttributeError → Error
  | .missing => ⟨.nullOperand, "binding a nil program"⟩
  | .target e => e.toError
  | .computeInterface t n m =>
      ⟨.unsupportedBinding,
        s!"{t.text} kernels have no attribute interface ({n} inputs, {m} outputs)"⟩
  | .streamResource t s =>
      ⟨.unsupportedBinding, s!"{t.text} programs cannot bind stream {s.describe}"⟩

namespace Target

def position (t : Target) : String :=
  match t.backend, t.stage with
  | .glsl, .vertex => "gl_Position"
  | .glsl, _ => "gl_FragCoord"
  | .hlsl, _ => "SV_Position"
  | .msl, _ => "[[position]]"
  | .spirv, .vertex => "BuiltIn Position"
  | .spirv, _ => "BuiltIn FragCoord"
  | .arb, .vertex => "result.position"
  | .arb, _ => "fragment.position"

def locationText (t : Target) (isInput : Bool) (n : Nat) : String :=
  match t.backend, isInput, t.stage with
  | .glsl, true, _ => s!"layout(location = {n}) in"
  | .glsl, false, _ => s!"layout(location = {n}) out"
  | .hlsl, false, .fragment | .hlsl, false, .compute => s!"SV_Target{n}"
  | .hlsl, _, _ => s!"TEXCOORD{n}"
  | .msl, true, .vertex => s!"[[attribute({n})]]"
  | .msl, false, .fragment | .msl, false, .compute => s!"[[color({n})]]"
  | .msl, _, _ => s!"[[user(locn{n})]]"
  | .spirv, _, _ => s!"Location {n}"
  | .arb, true, .vertex => s!"vertex.attrib[{n}]"
  | .arb, true, _ => s!"fragment.texcoord[{n}]"
  | .arb, false, .vertex => s!"result.texcoord[{n}]"
  | .arb, false, _ => s!"result.color[{n}]"

def identifier (t : Target) (dir : Direction) (i : Nat) (s : Symbol) : String :=
  if s.name = "" then s!"{dir.shortName}{i}"
  else
    match t.backend, dir with
    | .glsl, .input => "in" ++ Text.camelCase s.name
    | .glsl, .output => "out" ++ Text.camelCase s.name
    | .glsl, .resource => Text.lowerCamelCase s.name
    | .spirv, _ => Text.lowerCamelCase s.name
    | _, _ => Text.snakeCase s.name

/--
Binds one direction from place `i` and location `n` on; `builtin` says that the position
builtin is still to be had.
-/
def stageAttributes (t : Target) (dir : Direction) (builtin : Bool) (i n : Nat) :
    List Symbol → List Attribute
  | [] => []
  | s :: rest =>
      let name := t.identifier dir i s
      if builtin && s.semantic = .position then
        ⟨s, dir, none, if t.backend = .glsl then t.position else name, t.position⟩ ::
          t.stageAttributes dir false (i + 1) n rest
      else
        ⟨s, dir, some n, name, t.locationText (dir = .input) n⟩ ::
          t.stageAttributes dir builtin (i + 1) (n + 1) rest

/-- The classes of registers, each with slots of its own. -/
inductive RegisterClass where
  | values
  | textures
  | streams
  deriving DecidableEq, Repr

def registerClass? (t : Target) (role : Role) : Option RegisterClass :=
  match t.backend, role with
  | .glsl, .texture | .glsl, .stream => some .textures
  | .hlsl, .texture => some .textures
  | .hlsl, .stream => some .streams
  | .msl, .texture => some .textures
  | .arb, .texture => some .textures
  | .arb, .stream => none
  | _, _ => some .values

def slotText (t : Target) (role : Role) (n : Nat) : String :=
  match t.backend, role with
  | .glsl, .texture => s!"layout(binding = {n}) uniform"
  | .glsl, .stream => s!"layout(std430, binding = {n}) buffer"
  | .glsl, _ => s!"layout(location = {n}) uniform"
  | .hlsl, .texture => s!"register(t{n})"
  | .hlsl, .stream => s!"register(u{n})"
  | .hlsl, _ => s!"register(c{n})"
  | .msl, .texture => s!"[[texture({n})]]"
  | .msl, _ => s!"[[buffer({n})]]"
  | .spirv, _ => s!"DescriptorSet 0 Binding {n}"
  | .arb, .texture => s!"texture[{n}]"
  | .arb, _ => s!"program.local[{n}]"

/-- Binds resources from place `i` on; `used` lists the classes of the slots that are taken. -/
def resourceAttributes (t : Target) (used : List RegisterClass) (i : Nat) :
    List Symbol → Except AttributeError (List Attribute)
  | [] => .ok []
  | s :: rest =>
      match t.registerClass? s.role with
      | none => .error (.streamResource t s)
      | some c =>
          let slot := used.count c
          let a : Attribute :=
            ⟨s, .resource, some slot, t.identifier .resource i s, t.slotText s.role slot⟩
          (t.resourceAttributes (c :: used) (i + 1) rest).map (a :: ·)

def attributes (t : Target) (inputs outputs resources : List Symbol) :
    Except AttributeError (List Attribute) :=
  if t.stage = .compute && inputs.length + outputs.length != 0 then
    .error (.computeInterface t inputs.length outputs.length)
  else
    (t.resourceAttributes [] 0 resources).map fun res =>
      t.stageAttributes .input (t.stage = .fragment) 0 0 inputs ++
        t.stageAttributes .output (t.stage = .vertex) 0 0 outputs ++ res

/-- Binds an interface that may have holes: they are met in the order of the lists. -/
def tryAttributes (t : Target) (inputs outputs resources : List Symbol) :
    Except (Fault AttributeError) (List Attribute) :=
  match t.attributes inputs outputs [] with
  | .error e => .error (.error e)
  | .ok _ =>
      if (inputs ++ outputs).any (·.isHole) then .error .outside
      else
        match t.attributes inputs outputs (resources.takeWhile (!·.isHole)) with
        | .error e => .error (.error e)
        | .ok attrs => if resources.any (·.isHole) then .error .outside else .ok attrs

end Target

def Interface.attributes (i : Interface) : Except (Fault AttributeError) (List Attribute) :=
  match Target.parse i.target with
  | .error e => .error (.error (.target e))
  | .ok t => t.tryAttributes i.inputs i.outputs i.resources

/--
Binds the interface of a handle: bound inputs are no stage inputs, and the sources of their
bindings are resources.
-/
def Handle.attributes (h : Handle) : Except (Fault AttributeError) (List Attribute) :=
  match Target.parse h.sketch.target with
  | .error e => .error (.error (.target e))
  | .ok t =>
      if h.sketch.inputs.length < h.bindings.length then .error .outside
      else
        t.tryAttributes h.free h.outputs
          (dedup (h.sketch.uniforms ++ h.sketch.textures ++ h.bindings.map Binding.source))

end KernelAlgebra
