import KernelAlgebra.Symbol

/-!
# Shared constants

Equal requests get the same symbol.  Two requests are equal when their scalar types agree and
their numbers agree bit by bit, so `0` and `-0` are different constants.
-/

namespace KernelAlgebra

/-- A request for a constant.  Patterns of 64 bits tell its numbers apart where numbers cannot. -/
@[ext]
structure ConstantRequest where
  scalar : Scalar
  patterns : List UInt64
  deriving DecidableEq

namespace ConstantRequest

def ofValues (scalar : Scalar) (values : List Float) : ConstantRequest :=
  ⟨scalar, values.map Float.toBits⟩

def values (r : ConstantRequest) : List Float := r.patterns.map Float.ofBits

/-- The code of the scalar type in decimal digits, and the patterns in hexadecimal digits without
leading zeros. -/
def key (r : ConstantRequest) : String :=
  ":".intercalate
    (toString r.scalar.code :: r.patterns.map fun x => String.ofList (Nat.toDigits 16 x.toNat))

def declaration (r : ConstantRequest) : Declaration :=
  { role := .const, size := r.patterns.length, scalar := r.scalar, value := r.values }

structure IsAnswer (r : ConstantRequest) (s : Symbol) : Prop where
  role : s.role = .const
  size : s.size = r.patterns.length
  scalar : s.scalar = r.scalar
  value : s.value = r.values

theorem isAnswer_of_declare {r : ConstantRequest} {g g' : Supply} {s : Symbol}
    (h : g.declare r.declaration = .ok (s, g')) : r.IsAnswer s := by
  obtain ⟨rfl, -⟩ := Supply.declare_eq_ok h
  exact ⟨rfl, rfl, rfl, rfl⟩

end ConstantRequest

structure ConstantPool where
  /-- The constants in the order of their first request. -/
  constants : List Symbol
  table : List (String × Symbol)
  sound : ∀ e ∈ table, e.2 ∈ constants ∧ ∃ r : ConstantRequest, r.key = e.1 ∧ r.IsAnswer e.2
  deriving DecidableEq

namespace ConstantPool

def empty : ConstantPool := ⟨[], [], by simp⟩

def find? (pool : ConstantPool) (r : ConstantRequest) : Option Symbol :=
  pool.table.lookup r.key

def add (pool : ConstantPool) (r : ConstantRequest) (s : Symbol) (h : r.IsAnswer s) :
    ConstantPool where
  constants := pool.constants ++ [s]
  table := (r.key, s) :: pool.table
  sound := by
    intro e he
    rcases List.mem_cons.mp he with rfl | he
    · exact ⟨by simp, r, rfl, h⟩
    · obtain ⟨hmem, hr⟩ := pool.sound e he
      exact ⟨List.mem_append.mpr (.inl hmem), hr⟩

def request (pool : ConstantPool) (g : Supply) (r : ConstantRequest) :
    Except DeclarationFault (Symbol × ConstantPool × Supply) :=
  match pool.find? r with
  | some s => .ok (s, pool, g)
  | none =>
      match h : g.declare r.declaration with
      | .error e => .error e
      | .ok (s, g') => .ok (s, pool.add r s (ConstantRequest.isAnswer_of_declare h), g')

def get (pool : ConstantPool) (g : Supply) (scalar : Scalar) (values : List Float) :
    Except DeclarationFault (Symbol × ConstantPool × Supply) :=
  pool.request g (.ofValues scalar values)

def count (pool : ConstantPool) : Nat := pool.constants.length

end ConstantPool

end KernelAlgebra
