import KernelAlgebra.Proofs.Computation
import KernelAlgebra.Shader.Writer

/-!
# The parts of a shader

A shader is written a second time, in parts that tell vector types and element selections from all
other text.  Writing the parts one after the other gives the shader.
-/

namespace KernelAlgebra.Shader

inductive Piece where
  | text (s : String)
  | vector (n : Nat)
  | selection (letters : List Char)
  deriving DecidableEq

abbrev Phrase := List Piece

def Piece.written : Piece → String
  | .text s => s
  | .vector n => typeName n
  | .selection letters => "." ++ String.ofList letters

namespace Phrase

def written : Phrase → String
  | [] => ""
  | q :: rest => q.written ++ written rest

@[simp] theorem written_nil : written [] = "" := rfl

@[simp] theorem written_cons (q : Piece) (rest : Phrase) :
    written (q :: rest) = q.written ++ written rest := rfl

@[simp] theorem written_append (a b : Phrase) : written (a ++ b) = written a ++ written b := by
  induction a with
  | nil => simp
  | cons q rest ih => simp [ih, String.append_assoc]

def separated : List Phrase → Phrase
  | [] => []
  | [a] => a
  | a :: rest => a ++ [.text ", "] ++ separated rest

/-! ## Expressions -/

def zero (n : Nat) : Phrase := if n = 1 then [.text "0.0"] else [.vector n, .text "(0.0)"]

def literal (values : List Float) (n : Nat) : Phrase :=
  let parts := (Machine.padded n values).map numberText
  if n = 1 then [.text (String.join parts)]
  else [.vector n, .text ("(" ++ String.intercalate ", " parts ++ ")")]

def selectExpr (names : Names) (v : View) : Except ShaderError Phrase :=
  let name := names.of v.sym
  if v.isAbsent then .error .crash
  else if v.sym.size = 1 then
    .ok (if 1 < v.size then [.vector v.size, .text "(", .text name, .text ")"] else [.text name])
  else if selectsAll v then .ok [.text name]
  else (v.elements.mapM elementLetter).map fun sel => [.text name, .selection sel]

def viewExpr (names : Names) (n : Nat) (v : View) : Except ShaderError Phrase :=
  (selectExpr names v).map fun e =>
    (if v.neg then [.text "-"] else []) ++
      if v.size = 1 && 1 < n then [.vector n, .text "("] ++ e ++ [.text ")"] else e

def dstExpr (names : Names) (v : View) : Except ShaderError Phrase :=
  let name := names.of v.sym
  if v.isAbsent then .error .crash
  else if v.sym.size = 1 || selectsAll v then .ok [.text name]
  else (v.elements.mapM elementLetter).map fun sel => [.text name, .selection sel]

def conditionExpr (names : Names) (v : View) : Except ShaderError Phrase :=
  let sign := if v.neg then "-" else ""
  let name := names.of v.sym
  if v.isAbsent then .error .crash
  else if v.sym.size ≤ 1 then .ok [.text sign, .text name]
  else
    match v.index? 0 with
    | none => .error .crash
    | some k => (elementLetter k).map fun c => [.text sign, .text name, .selection [c]]

def specialExpr (op : Op) (n : Nat) (srcs : List Phrase) : Except ShaderError Phrase :=
  match op, srcs with
  | .asn, [a] => .ok a
  | .mod, [a, b] =>
      .ok ([.text "("] ++ a ++ [.text " - "] ++ b ++ [.text " * trunc("] ++ a ++ [.text " / "] ++
        b ++ [.text "))"])
  | .rcp, [a] => .ok ([.text "(1.0 / "] ++ a ++ [.text ")"])
  | .mad, [a, b, c] =>
      .ok ([.text "("] ++ a ++ [.text " * "] ++ b ++ [.text " + "] ++ c ++ [.text ")"])
  | .lrp, [a, b, c] =>
      .ok ([.text "mix("] ++ c ++ [.text ", "] ++ b ++ [.text ", "] ++ a ++ [.text ")"])
  | .cond, [a, b, c] =>
      if n = 1 then
        .ok ([.text "("] ++ a ++ [.text " > 0.0 ? "] ++ b ++ [.text " : "] ++ c ++ [.text ")"])
      else
        .ok ([.text "mix("] ++ c ++ [.text ", "] ++ b ++
          [.text ", ", .vector n, .text "(greaterThan("] ++ a ++
          [.text ", ", .vector n, .text "(0.0))))"])
  | op, _ => .error (.noForm op)

def elementwiseExpr (op : Op) (n : Nat) (srcs : List Phrase) : Except ShaderError Phrase :=
  match functionName? op, operator? op, comparison? op, srcs with
  | some f, _, _, _ => .ok ([.text f, .text "("] ++ separated srcs ++ [.text ")"])
  | _, some o, _, [a, b] =>
      .ok ([.text "("] ++ a ++ [.text " ", .text o, .text " "] ++ b ++ [.text ")"])
  | _, _, some (o, f), [a, b] =>
      if n = 1 then
        .ok ([.text "float("] ++ a ++ [.text " ", .text o, .text " "] ++ b ++ [.text ")"])
      else
        .ok ([.vector n, .text "(", .text f, .text "("] ++ a ++ [.text ", "] ++ b ++
          [.text "))"])
  | _, _, _, _ => specialExpr op n srcs

def instructionExpr (names : Names) (i : Instruction) : Except ShaderError Phrase := do
  let n := i.dst.size
  match i.op, i.src with
  | .dot, [a, b] =>
      let x ← viewExpr names a.size a
      let y ← viewExpr names a.size b
      return [.text "dot("] ++ x ++ [.text ", "] ++ y ++ [.text ")"]
  | .tex, [t, coord] =>
      let at_ ← viewExpr names coord.size coord
      let e := [.text "texture(", .text (names.of t.sym), .text ", "] ++ at_ ++ [.text ")"]
      return if n < 4 then e ++ [.selection (View.selectorLetters.take n)] else e
  | op, srcs => elementwiseExpr op n (← srcs.mapM (viewExpr names n))

def killStatement (names : Names) (stage : Stage) (src : View) : Except ShaderError Phrase := do
  if stage != .fragment then throw (.killOutsideFragment stage)
  else
    let k := max 1 src.size
    let e ← viewExpr names k src
    return if 1 < k then
        [.text "if (any(lessThan("] ++ e ++ [.text ", "] ++ zero k ++ [.text "))) discard;"]
      else [.text "if ("] ++ e ++ [.text " < 0.0) discard;"]

def statement (names : Names) (stage : Stage) (i : Instruction) :
    Except ShaderError (List Phrase) := do
  match i.op with
  | .nop => return []
  | .kil => return [← killStatement names stage (i.src.head?.getD View.absent)]
  | _ =>
      let e ← instructionExpr names i
      let dst ← dstExpr names i.dst
      return [dst ++ [.text " = "] ++ e ++ [.text ";"]]

/-! ### What they write -/

theorem written_zero (n : Nat) : written (zero n) = Shader.zero n := by
  unfold zero Shader.zero
  split <;> simp [Piece.written, toString]

theorem written_literal (values : List Float) (n : Nat) :
    written (literal values n) = Shader.literal values n := by
  unfold literal Shader.literal
  simp only
  split <;> simp [Piece.written, toString, String.append_assoc]

theorem written_selectExpr (names : Names) (v : View) :
    Shader.selectExpr names v = (selectExpr names v).map written := by
  unfold selectExpr Shader.selectExpr selectorText
  simp only
  split
  · rfl
  split
  · split <;> simp [Except.map, Piece.written, toString, String.append_assoc]
  split
  · simp [Except.map, Piece.written]
  · cases v.elements.mapM elementLetter <;>
      simp [Except.map, Piece.written, toString, String.append_assoc]

theorem written_viewExpr (names : Names) (n : Nat) (v : View) :
    Shader.viewExpr names n v = (viewExpr names n v).map written := by
  unfold viewExpr Shader.viewExpr
  rw [written_selectExpr]
  cases selectExpr names v with
  | error e => rfl
  | ok e =>
      simp only [Except.map, Except.ok.injEq, written_append]
      congr 1
      · split <;> rfl
      · split <;> simp [Piece.written, toString, String.append_assoc]

theorem written_dstExpr (names : Names) (v : View) :
    Shader.dstExpr names v = (dstExpr names v).map written := by
  unfold dstExpr Shader.dstExpr selectorText
  simp only
  split
  · rfl
  split
  · simp [Except.map, Piece.written]
  · cases v.elements.mapM elementLetter <;>
      simp [Except.map, Piece.written, toString, String.append_assoc]

theorem written_conditionExpr (names : Names) (v : View) :
    Shader.conditionExpr names v = (conditionExpr names v).map written := by
  unfold conditionExpr Shader.conditionExpr
  simp only
  split
  · rfl
  split
  · simp [Except.map, Piece.written]
  · cases v.index? 0 with
    | none => rfl
    | some k =>
        cases hk : elementLetter k with
        | error e => simp [hk, Except.map]
        | ok c =>
            have hletter : String.ofList [c] = toString c := rfl
            simp only [hk, Except.map, written_cons, written_nil, Piece.written, hletter,
              String.append_empty, String.append_assoc]
            rfl

theorem written_separated (srcs : List Phrase) :
    written (separated srcs) = String.intercalate ", " (srcs.map written) := by
  fun_induction separated srcs with
  | case1 => simp
  | case2 a => simp
  | case3 a rest hrest ih =>
      obtain ⟨b, rest, rfl⟩ := List.exists_cons_of_ne_nil (fun h => hrest h)
      simpa [Piece.written, String.append_assoc] using ih

theorem written_specialExpr (op : Op) (n : Nat) (srcs : List Phrase) :
    Shader.specialExpr op n (srcs.map written) = (specialExpr op n srcs).map written := by
  rcases srcs with _ | ⟨a, _ | ⟨b, _ | ⟨c, _ | ⟨d, rest⟩⟩⟩⟩
  all_goals cases op
  all_goals
    simp [Shader.specialExpr, specialExpr, Except.map, Piece.written, toString, String.append_assoc]
  all_goals split <;> simp [Piece.written]

theorem written_elementwiseExpr (op : Op) (n : Nat) (srcs : List Phrase) :
    Shader.elementwiseExpr op n (srcs.map written) = (elementwiseExpr op n srcs).map written := by
  have hspecial := written_specialExpr op n srcs
  have hseparated := written_separated srcs
  cases hf : functionName? op with
  | some f =>
      simp [Shader.elementwiseExpr, elementwiseExpr, hf, hseparated, Except.map, Piece.written,
        toString, String.append_assoc]
  | none =>
      -- the operators and the comparisons have a form for two sources only
      rcases srcs with _ | ⟨a, _ | ⟨b, _ | ⟨c, rest⟩⟩⟩
      case cons.cons.nil =>
        cases ho : operator? op with
        | some o =>
            simp [Shader.elementwiseExpr, elementwiseExpr, hf, ho, Except.map, Piece.written,
              toString, String.append_assoc]
        | none =>
            cases hc : comparison? op with
            | none => simpa [Shader.elementwiseExpr, elementwiseExpr, hf, ho, hc] using hspecial
            | some q =>
                simp only [Shader.elementwiseExpr, elementwiseExpr, hf, ho, hc, List.map_cons,
                  List.map_nil]
                split <;> simp [Except.map, Piece.written, toString, String.append_assoc]
      all_goals
        cases ho : operator? op <;> cases hc : comparison? op <;>
          simpa [Shader.elementwiseExpr, elementwiseExpr, hf, ho, hc] using hspecial

theorem mapM_eq_map {ε α β γ : Type} {f : α → Except ε γ} {f' : α → Except ε β} {h : β → γ}
    {xs : List α} (hf : ∀ x ∈ xs, f x = (f' x).map h) :
    xs.mapM f = (xs.mapM f').map (List.map h) := by
  induction xs with
  | nil => rfl
  | cons x rest ih =>
      rw [List.mapM_cons, List.mapM_cons, hf x (by simp), ih fun y hy => hf y (by simp [hy])]
      cases f' x with
      | error e => rfl
      | ok y => cases rest.mapM f' <;> rfl

theorem written_instructionExpr (names : Names) (i : Instruction) :
    Shader.instructionExpr names i = (instructionExpr names i).map written := by
  obtain ⟨op, dst, srcs⟩ := i
  unfold instructionExpr
  split
  · rename_i a b hop hsrcs
    obtain rfl : op = .dot := hop
    obtain rfl : srcs = [a, b] := hsrcs
    simp only [Shader.instructionExpr, written_viewExpr]
    cases viewExpr names a.size a with
    | error e => rfl
    | ok x =>
        cases viewExpr names a.size b with
        | error e => rfl
        | ok y =>
            refine congrArg Except.ok ?_
            simp [Piece.written, toString, String.append_assoc]
  · rename_i t coord hop hsrcs
    obtain rfl : op = .tex := hop
    obtain rfl : srcs = [t, coord] := hsrcs
    simp only [Shader.instructionExpr, written_viewExpr]
    cases viewExpr names coord.size coord with
    | error e => rfl
    | ok e =>
        refine congrArg Except.ok ?_
        have hdot : ∀ s : String, ")." ++ s = ")" ++ ("." ++ s) := by
          intro s
          rw [← String.append_assoc]
          rfl
        split <;> simp [Piece.written, letters, toString, String.append_assoc, hdot]
  · rename_i hdot htex
    unfold Shader.instructionExpr
    split
    · rename_i hop hsrcs
      exact absurd hsrcs (hdot _ _ hop)
    · rename_i hop hsrcs
      exact absurd hsrcs (htex _ _ hop)
    · simp only
      rw [mapM_eq_map fun v _ => written_viewExpr names dst.size v]
      cases srcs.mapM (viewExpr names dst.size) with
      | error e => rfl
      | ok es => exact written_elementwiseExpr _ _ _

theorem written_killStatement (names : Names) (stage : Stage) (src : View) :
    Shader.killStatement names stage src = (killStatement names stage src).map written := by
  unfold killStatement Shader.killStatement
  split
  · rfl
  · simp only [written_viewExpr]
    cases viewExpr names (max 1 src.size) src with
    | error e => rfl
    | ok e =>
        refine congrArg Except.ok ?_
        split <;> simp [Piece.written, written_zero, toString, String.append_assoc]

theorem statement_of_computes {names : Names} {stage : Stage} {i : Instruction}
    (hnop : i.op ≠ .nop) (hkil : i.op ≠ .kil) :
    statement names stage i = (do
      let e ← instructionExpr names i
      let dst ← dstExpr names i.dst
      return [dst ++ [.text " = "] ++ e ++ [.text ";"]]) := by
  unfold statement
  split <;> simp_all

theorem written_statement (names : Names) (stage : Stage) (i : Instruction) :
    Shader.statement names stage i = (statement names stage i).map (List.map written) := by
  unfold Shader.statement
  split
  · rename_i hop
    simp only [statement, hop]
    rfl
  · rename_i hop
    simp only [statement, hop, written_killStatement]
    cases killStatement names stage (i.src.head?.getD View.absent) <;> rfl
  · rename_i hnop hkil
    rw [statement_of_computes hnop hkil]
    simp only [written_instructionExpr, written_dstExpr]
    cases instructionExpr names i with
    | error e => rfl
    | ok e =>
        cases dstExpr names i.dst with
        | error e => rfl
        | ok dst =>
            refine congrArg Except.ok ?_
            simp [Piece.written, toString, String.append_assoc]

end Phrase

end KernelAlgebra.Shader
