import KernelAlgebra.Compose.Composer

/-!
# Renaming channels and replacing symbols of a handle
-/

namespace KernelAlgebra

namespace Composer

/-- A fresh symbol for every one that has the old name.  Later entries count. -/
def freshNames (old new : String) (m : Renaming) : List Symbol → Fresh ComposeError Renaming
  | [] => return m
  | s :: rest => do
      if s.isHole then Fresh.crash
      else if s.name = old then
        let t ← Fresh.renamed s new
        freshNames old new ((s, t) :: m) rest
      else
        freshNames old new m rest

def renamedBy (h : Handle) (m : Renaming) (finish : Program → Program) : Compose Handle := do
  let p ← Compose.ofFresh (Fresh.copyOf h.sketch)
  Compose.newHandle (finish (p.rename m)) h.bindings (Handle.spareAfter m p.inputs)

def renameIn (c : Composer) (h : Handle) (list : List Symbol) (old new : String) :
    Compose Handle := do
  let m ← Compose.ofFresh (freshNames old new [] list)
  if m.isEmpty then
    Compose.debug c s!"rename: no symbol named {Text.quoted old} in {h.sketch.summary}"
    return h
  else
    renamedBy h m id

def renameCore (c : Composer) (h : Option Handle) (list : Interface → List Symbol)
    (old new : String) : Compose Handle :=
  match h with
  | some h => renameIn c h (list h.sketch.toInterface) old new
  | none => Compose.refuse (.missing "rename of a nil program")

/-- Gives every input with the old name the new one.  A name that is absent is no error. -/
def renameInput (c : Composer) (h : Option Handle) (old new : String) : Compose Handle :=
  Compose.observe c "rename_input" (renameCore c h Interface.inputs old new)

def renameOutput (c : Composer) (h : Option Handle) (old new : String) : Compose Handle :=
  Compose.observe c "rename_output" (renameCore c h Interface.outputs old new)

def replaceCore (h : Option Handle) (old new : Symbol) : Compose Handle :=
  match h with
  | none => Compose.refuse (.missing "replace variable with a nil operand")
  | some h =>
      if old.isHole || new.isHole then
        Compose.refuse (.missing "replace variable with a nil operand")
      else if old.size != new.size then Compose.refuse (.replacementSize old new)
      else renamedBy h [(old, new)] Program.collect

def replaceVariable (c : Composer) (h : Option Handle) (old new : Symbol) : Compose Handle :=
  Compose.observe c "replace_variable" (replaceCore h old new)

end Composer

end KernelAlgebra
