import KernelAlgebra.Program.Basic

/-!
# Programs written with numbered symbols

Symbols are numbered by their first appearance: in the role lists first, then in the nodes in
arena order.  Texts in terms of these numbers do not depend on names or ids, so programs that
differ in nothing else have equal texts.
-/

namespace KernelAlgebra

/-- The symbols of a program; the place of a symbol is its number. -/
abbrev Numbering := List Symbol

namespace Numbering

def ofInstruction (i : Instruction) : List Symbol :=
  i.dst.sym :: i.src.map View.sym

def ofNode (n : Node) : List Symbol :=
  n.block.flatMap ofInstruction ++ n.branches.map fun b => b.cond.sym

def ofSketch (s : Sketch) : Numbering :=
  let mentioned := (s.graph?.map fun g => g.nodes.flatMap ofNode).getD []
  (dedup (s.symbols ++ mentioned)).filter (!·.isHole)

def number? (order : Numbering) (s : Symbol) : Option Nat :=
  if s.isHole then none else some (order.idxOf s)

def viewText (order : Numbering) (v : View) : String :=
  match order.number? v.sym with
  | none => "_"
  | some n =>
      (if v.neg then "-" else "") ++ s!"s{n}" ++
        match v.selector with
        | none => ""
        | some idx => "[" ++ String.intercalate "," (idx.map toString) ++ "]"

def instructionText (order : Numbering) (i : Instruction) : String :=
  (if i.dst.isAbsent then "" else order.viewText i.dst ++ " = ") ++ i.op.name ++
    String.join (i.src.map fun v => " " ++ order.viewText v)

end Numbering

end KernelAlgebra
