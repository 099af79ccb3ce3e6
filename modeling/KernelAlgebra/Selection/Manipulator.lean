import KernelAlgebra.Compose.Channels
import KernelAlgebra.Selection.Index

/-!
# Manipulators

A manipulator is a list of spans that pick channels of a program, in order.
-/

namespace KernelAlgebra

namespace Selection

abbrev Manipulator := List Span

namespace Manipulator

def swizzle (positions : List Int) : Manipulator :=
  positions.map fun p => Span.single (Index.absolute p)

def named (names : List String) : Manipulator :=
  names.map fun name => Span.single (Index.named name 0)

def extract (k : Index) : Manipulator :=
  [Span.single k, ⟨Index.fromStart 0, k.add (-1)⟩, ⟨k.add 1, Index.fromEnd 0⟩]

def insert (k : Index) : Manipulator :=
  [⟨Index.fromStart 1, k⟩, Span.single (Index.fromStart 0), ⟨k.add 1, Index.fromEnd 0⟩]

def drop (k : Index) : Manipulator :=
  [⟨Index.fromStart 0, k.add (-1)⟩, ⟨k.add 1, Index.fromEnd 0⟩]

def positions (vars : List Symbol) (m : Manipulator) : Except (Fault IndexError) (List Nat) :=
  (m.mapM (Span.positions vars)).map List.flatten

def text (m : Manipulator) : String :=
  "(" ++ String.intercalate ", " (m.map Span.text) ++ ")"

end Manipulator

end Selection

namespace Composer

def selectedPositions (vars : List Symbol) (m : Selection.Manipulator) : Compose (List Int) :=
  match m.positions vars with
  | .ok places => return places.map Int.ofNat
  | .error (.error e) => Compose.refuse (.refused e.toError)
  | .error (.crash text) => throw (.crash text)

/-- Free input `k` of the result is the `k`-th selected one. -/
def selectInputs (c : Composer) (h : Option Handle) (m : Selection.Manipulator) :
    Compose Handle := do
  match h with
  | none => Compose.refuse (.missing "manipulation of a nil program")
  | some g =>
      let free ← Compose.ofFresh g.freeInputs
      let places ← selectedPositions free m
      permuteInputs c h places

/-- Output `k` of the result is the `k`-th selected one. -/
def selectOutputsBy (c : Composer) (h : Option Handle) (m : Selection.Manipulator) :
    Compose Handle := do
  match h with
  | none => Compose.refuse (.missing "manipulation of a nil program")
  | some g =>
      let places ← selectedPositions g.outputs m
      permuteOutputs c h places

end Composer

end KernelAlgebra
