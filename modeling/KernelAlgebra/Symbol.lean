import KernelAlgebra.Text.Quote

/-!
# Symbols

A symbol is a register with a size and a scalar type, and a value that never changes.  Its `id`
is drawn from a supply when it is declared, so two symbols are the same register exactly when
they are equal, however alike they look otherwise.  Ids start at one; the id zero belongs to the
hole, which stands where somebody wrote down no symbol at all.
-/

namespace KernelAlgebra

inductive Role where
  | input
  | output
  | inout
  | temp
  | const
  | uniform
  | stream
  | texture
  deriving DecidableEq, Repr

namespace Role

/-- All roles in the order of their codes. -/
def all : List Role :=
  [input, output, inout, temp, const, uniform, stream, texture]

def name : Role → String
  | input => "input"
  | output => "output"
  | inout => "inout"
  | temp => "temp"
  | const => "const"
  | uniform => "uniform"
  | stream => "stream"
  | texture => "texture"

def nameOfCode (code : Nat) : String :=
  match all[code]? with
  | some r => r.name
  | none => s!"kind({code})"

def ofName? (s : String) : Option Role :=
  all.find? (·.name == s)

/-- Inputs, outputs and temporaries belong to one program; the other roles may be shared. -/
def isLocal : Role → Bool
  | input | output | inout | temp => true
  | const | uniform | stream | texture => false

def isReadOnly (r : Role) : Bool := !r.isLocal

end Role

/-- The scalar type of the elements.  Any code may stand here, also one that has no name. -/
@[ext]
structure Scalar where
  code : UInt8
  deriving DecidableEq, Repr

namespace Scalar

def float32 : Scalar := ⟨0⟩

def float16 : Scalar := ⟨1⟩

def int32 : Scalar := ⟨2⟩

def uint32 : Scalar := ⟨3⟩

def bool : Scalar := ⟨4⟩

def name (s : Scalar) : String :=
  if s = float32 then "float32"
  else if s = float16 then "float16"
  else if s = int32 then "int32"
  else if s = uint32 then "uint32"
  else if s = bool then "bool"
  else s!"scalar({s.code})"

/-- Reads the long or the short name; `bool` has only the long one. -/
def ofName? : String → Option Scalar
  | "float32" | "f32" => some float32
  | "float16" | "f16" => some float16
  | "int32" | "i32" => some int32
  | "uint32" | "u32" => some uint32
  | "bool" => some bool
  | _ => none

end Scalar

/-- How a backend interprets the value when it picks an attribute. -/
inductive Semantic where
  | attrib
  | point
  | vector
  | normal
  | color
  | texcoord
  | position
  deriving DecidableEq, Repr

namespace Semantic

def all : List Semantic := [attrib, point, vector, normal, color, texcoord, position]

def name : Semantic → String
  | attrib => "attrib"
  | point => "point"
  | vector => "vector"
  | normal => "normal"
  | color => "color"
  | texcoord => "texcoord"
  | position => "position"

def code (s : Semantic) : Nat := all.idxOf s

def nameOfCode (code : Nat) : String :=
  match all[code]? with
  | some s => s.name
  | none => s!"semantic({code})"

def ofName? (text : String) : Option Semantic :=
  all.find? (·.name == text)

end Semantic

structure Symbol where
  id : Nat
  role : Role
  size : Nat
  scalar : Scalar
  semantic : Semantic
  name : String
  /-- The payload of a constant or the default of a uniform: empty, or one number per element. -/
  value : List Float
  deriving DecidableEq

namespace Symbol

/-- What stands in a list or an operand that lacks its symbol. -/
def hole : Symbol := ⟨0, .input, 0, .float32, .attrib, "", []⟩

def isHole (s : Symbol) : Bool := s.id = 0

@[simp] theorem isHole_hole : hole.isHole = true := rfl

def isInput (s : Symbol) : Bool := s.role = .input || s.role = .inout

def isOutput (s : Symbol) : Bool := s.role = .output || s.role = .inout

def isInOut (s : Symbol) : Bool := s.role = .inout

def isResource (s : Symbol) : Bool := s.role = .texture || s.role = .stream

def isLocal (s : Symbol) : Bool := s.role.isLocal

def hasValue (s : Symbol) : Bool := !s.value.isEmpty

def sameType (s t : Symbol) : Bool := s.size = t.size && s.scalar = t.scalar

/-- The name, or one made from the id for an unnamed symbol. -/
def label (s : Symbol) : String :=
  if s.isHole then "<nil>"
  else if s.name != "" then s.name
  else
    match s.role with
    | .temp => s!"t{s.id}"
    | .const => s!"c{s.id}"
    | r => s!"{r.name}{s.id}"

def describe (s : Symbol) : String :=
  if s.isHole then "<nil>"
  else s!"{s.role.name} {s.label}:{s.size} {s.scalar.name} {s.semantic.name}"

end Symbol

/-! ## Declaring symbols -/

/-- What a declaration asks for; the size is not checked yet. -/
structure Declaration where
  role : Role
  size : Int
  name : String := ""
  scalar : Scalar := .float32
  semantic : Semantic := .attrib
  value : List Float := []

inductive DeclarationFault where
  | badSize (name : String) (size : Int)
  | badPayload (name : String) (count : Nat) (size : Int)
  deriving DecidableEq, Repr

def DeclarationFault.message : DeclarationFault → String
  | .badSize name size => s!"ir: symbol {Text.quoted name} declared with size {size}"
  | .badPayload name count size =>
      s!"ir: symbol {Text.quoted name} has {count} values for size {size}"

/-- The source of fresh ids: every id that was handed out is below `next`. -/
structure Supply where
  next : Nat
  deriving DecidableEq, Repr

namespace Supply

def start : Supply := ⟨1⟩

def declare (g : Supply) (d : Declaration) : Except DeclarationFault (Symbol × Supply) :=
  if d.size < 1 then .error (.badSize d.name d.size)
  else if !d.value.isEmpty && (d.value.length : Int) != d.size then
    .error (.badPayload d.name d.value.length d.size)
  else
    .ok (⟨g.next, d.role, d.size.toNat, d.scalar, d.semantic, d.name, d.value⟩, ⟨g.next + 1⟩)

theorem declare_eq_ok {g g' : Supply} {d : Declaration} {s : Symbol}
    (h : g.declare d = .ok (s, g')) :
    s = ⟨g.next, d.role, d.size.toNat, d.scalar, d.semantic, d.name, d.value⟩ ∧
      g' = ⟨g.next + 1⟩ := by
  unfold declare at h
  split at h
  · cases h
  · split at h
    · cases h
    · cases h
      exact ⟨rfl, rfl⟩

/-- A fresh symbol that differs from `s` in its id and its role. -/
def copy (g : Supply) (s : Symbol) (role : Role) : Symbol × Supply :=
  ({ s with id := g.next, role := role }, ⟨g.next + 1⟩)

/-- A fresh symbol that differs from `s` in its id and its name. -/
def rename (g : Supply) (s : Symbol) (name : String) : Symbol × Supply :=
  ({ s with id := g.next, name := name }, ⟨g.next + 1⟩)

def copyAll (g : Supply) (role : Symbol → Role) : List Symbol → List Symbol × Supply
  | [] => ([], g)
  | s :: rest =>
      let (t, g) := g.copy s (role s)
      let (ts, g) := g.copyAll role rest
      (t :: ts, g)

end Supply

/-! ## Lists of symbols as ordered sets -/

/-- Appends the symbols that are not there yet, one by one. -/
def addNew (list : List Symbol) (more : List Symbol) : List Symbol :=
  more.foldl (fun acc s => if s ∈ acc then acc else acc ++ [s]) list

/-- First occurrences only. -/
def dedup (list : List Symbol) : List Symbol :=
  addNew [] list

theorem mem_addNew {s : Symbol} {list more : List Symbol} :
    s ∈ addNew list more ↔ s ∈ list ∨ s ∈ more := by
  induction more generalizing list with
  | nil => simp [addNew]
  | cons t rest ih =>
      have step : addNew list (t :: rest) =
          addNew (if t ∈ list then list else list ++ [t]) rest := rfl
      rw [step, ih]
      by_cases h : t ∈ list <;> simp [h] <;> grind

theorem nodup_addNew {list more : List Symbol} (h : list.Nodup) : (addNew list more).Nodup := by
  induction more generalizing list with
  | nil => simpa [addNew] using h
  | cons t rest ih =>
      have step : addNew list (t :: rest) =
          addNew (if t ∈ list then list else list ++ [t]) rest := rfl
      rw [step]
      by_cases ht : t ∈ list
      · simpa [ht] using ih h
      · simp only [ht, if_false]
        exact ih (by grind)

theorem mem_dedup {s : Symbol} {list : List Symbol} : s ∈ dedup list ↔ s ∈ list := by
  simp [dedup, mem_addNew]

theorem nodup_dedup (list : List Symbol) : (dedup list).Nodup :=
  nodup_addNew (by simp)

end KernelAlgebra
