import KernelAlgebra.Binding.Attribute
import KernelAlgebra.Number.Layout
import KernelAlgebra.Text.Pad

/-!
# Reports

One report shows the interface of a program, the other one the bindings of a handle.
-/

namespace KernelAlgebra.Report

/-!
## Tables with a header, drawn with bars and rules

A cell may have several lines, and a row is as high as its highest cell.  Every column is as
wide as the widest line in it.  Header cells are centred, the others stand left.
-/

structure Table where
  header : List String
  rows : List (List String)

namespace Table

/-- The lines of a text; a line feed ends a line and belongs to none. -/
def splitLines : List Char → List (List Char)
  | [] => [[]]
  | c :: rest =>
      if c = '\n' then [] :: splitLines rest
      else
        match splitLines rest with
        | [] => [[c]]
        | line :: more => (c :: line) :: more

def cellLines (cell : String) : List String :=
  (splitLines cell.toList).map String.ofList

def widest (cells : List String) : Nat :=
  (cells.flatMap cellLines).foldl (fun w line => max w (Text.displayWidth line)) 0

def columnWidth (t : Table) (i : Nat) : Nat :=
  widest ((t.header :: t.rows).filterMap (·[i]?))

def widths (t : Table) : List Nat :=
  (List.range t.header.length).map t.columnWidth

def dashes (n : Nat) : String := String.ofList (List.replicate n '-')

def rule (widths : List Nat) : String :=
  "+" ++ String.join (widths.map fun w => dashes (w + 2) ++ "+") ++ "\n"

def line (fill : Nat → String → String) (widths : List Nat) (cells : List String) : String :=
  "|" ++ String.join (List.zipWith (fun w c => " " ++ fill w c ++ " |") widths cells) ++ "\n"

/-- What stands beside the further lines of a higher cell, two blanks at least. -/
def absentLine : String := "  "

def rowLines (cells : List String) : List (List String) :=
  let cells := cells.map cellLines
  let height := cells.foldl (fun h c => max h c.length) 0
  (List.range height).map fun k => cells.map (·.getD k absentLine)

def row (fill : Nat → String → String) (widths : List Nat) (cells : List String) : String :=
  String.join ((rowLines cells).map (line fill widths))

def render (t : Table) : String :=
  let ws := t.widths
  rule ws ++ row Text.fillCentred ws t.header ++ rule ws ++
    String.join (t.rows.map (row Text.fillRight ws)) ++ rule ws

example : render ⟨["a", "long"], [["xyz", "1"]]⟩ =
    "+-----+------+\n|  a  | long |\n+-----+------+\n| xyz | 1    |\n+-----+------+\n" := by
  decide +kernel

example : rowLines ["a\nb", "c"] = [["a", "c"], ["b", "  "]] := by decide +kernel

end Table

end KernelAlgebra.Report

namespace KernelAlgebra

/-! ## The reports -/

namespace Report

def valuesText (s : Symbol) : String :=
  String.intercalate ", " (s.value.map Number.text)

def symbolRow (role : String) (index : Nat) (s : Symbol) : List String :=
  [role, toString index, s.role.name, s.label, toString s.size, s.scalar.name, s.semantic.name,
   valuesText s]

def symbolRows (role : String) (list : List Symbol) : List (List String) :=
  list.zipIdx.map fun q => symbolRow role q.2 q.1

def interfaceTable (p : Interface) : Table :=
  { header := ["role", "#", "kind", "name", "size", "scalar", "semantic", "value"],
    rows :=
      symbolRows "input" p.inputs ++ symbolRows "output" p.outputs ++
        symbolRows "temp" p.temps ++ symbolRows "constant" p.constants ++
        symbolRows "uniform" p.uniforms ++ symbolRows "resource" p.textures }

def bindingTable (places : List Symbol) (bindings : List Binding) : Table :=
  { header := ["input", "binding", "source", "size"],
    rows := List.zipWith
      (fun n b => [n.label, b.kind.name, b.source.label, toString b.source.size])
      places bindings }

def bindingsText? (h : Handle) : Option String :=
  if h.bindings.isEmpty then some ""
  else h.curried?.map fun places => (bindingTable places h.bindings).render

def attributeRow (a : Attribute) : List String :=
  let place := match a.location with
    | some n => toString n
    | none => "builtin"
  [a.direction.name, place, a.identifier, a.decoration, a.sym.describe]

def attributeTable (attrs : List Attribute) : Table :=
  { header := ["direction", "location", "identifier", "decoration", "symbol"],
    rows := attrs.map attributeRow }

def attributesText? : Except (Fault AttributeError) (List Attribute) → Option String
  | .ok attrs => some (attributeTable attrs).render
  | .error (.error e) => some s!"no attribute bindings: {e.toError.message}\n"
  | .error (.crash _) => none

end Report

/-- The symbol lists as a table, and the diagnostics.  There is none for a list with a hole. -/
def Interface.report? (i : Interface) : Option String :=
  if i.symbols.any (·.isHole) then none
  else
    some (i.summary ++ "\n" ++ (Report.interfaceTable i).render ++
      String.join (i.diagnostics.map fun d => s!"warning: {d}\n"))

def Handle.report? (h : Handle) : Option String := do
  let bindings ← Report.bindingsText? h
  let attributes ← Report.attributesText? h.attributes
  return h.summary ++ "\n" ++ bindings ++ attributes

end KernelAlgebra
