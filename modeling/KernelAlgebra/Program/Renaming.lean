import KernelAlgebra.Program.Basic

/-!
# Replacing symbols throughout a program

A renaming maps finitely many symbols and leaves all others alone.  It acts at once on all
mentions, so exchanging two symbols is a renaming too.  An absent operand of an instruction
stays absent, while a branch without a condition and a hole in a list can be filled.
-/

namespace KernelAlgebra

/-- Pairs of an old and a new symbol; the first pair with a given old symbol counts. -/
abbrev Renaming := List (Symbol × Symbol)

namespace Renaming

def apply (m : Renaming) (s : Symbol) : Symbol :=
  (m.lookup s).getD s

def onView (m : Renaming) (v : View) : View :=
  { v with sym := m.apply v.sym }

def onOperand (m : Renaming) (v : View) : View :=
  if v.isAbsent then v else m.onView v

def onInstruction (m : Renaming) (i : Instruction) : Instruction :=
  { i with dst := m.onOperand i.dst, src := i.src.map m.onOperand }

def onBranch (m : Renaming) (b : Branch) : Branch :=
  { b with cond := m.onView b.cond }

def onNode (m : Renaming) (n : Node) : Node :=
  { n with block := n.block.map m.onInstruction, branches := n.branches.map m.onBranch }

/-- Acts on all nodes, reachable or not. -/
def onGraph (m : Renaming) (g : Graph) : Graph :=
  { g with nodes := g.nodes.map m.onNode }

/-- Acts on a role list and drops the repeats that this brings about. -/
def onList (m : Renaming) (list : List Symbol) : List Symbol :=
  if m.isEmpty then list else dedup (list.map m.apply)

theorem apply_nil (s : Symbol) : apply [] s = s := rfl

theorem apply_cons (old new s : Symbol) (m : Renaming) :
    apply ((old, new) :: m) s = if s = old then new else m.apply s := by
  by_cases h : s = old
  · simp [apply, h]
  · simp [apply, List.lookup_cons, h, beq_eq_false_iff_ne.mpr h]

end Renaming

namespace Program

def renameCode (p : Program) (m : Renaming) : Program :=
  { p with graph := m.onGraph p.graph }

def renameLists (p : Program) (m : Renaming) : Program :=
  { p with
    inputs := m.onList p.inputs,
    outputs := m.onList p.outputs,
    temps := m.onList p.temps,
    constants := m.onList p.constants,
    uniforms := m.onList p.uniforms,
    textures := m.onList p.textures }

def rename (p : Program) (m : Renaming) : Program :=
  (p.renameCode m).renameLists m

def withLocals (p : Program) (copies : List Symbol) : Program :=
  p.copied.rename (p.locals.zip copies)

/-- The program with fresh local symbols, so that it shares none with any other program. -/
def freshCopy (p : Program) (g : Supply) : Program × Supply :=
  let (copies, g) := g.copyAll Symbol.role p.locals
  (p.withLocals copies, g)

end Program

end KernelAlgebra
