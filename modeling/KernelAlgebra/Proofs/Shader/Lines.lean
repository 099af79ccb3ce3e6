import KernelAlgebra.Proofs.Binding.Attributes
import KernelAlgebra.Proofs.Shader.Phrases

/-!
# The lines of a shader

A line declares one variable or declares nothing.  A line without a declaration has one of a few
forms, and what stands in it for an expression ends no statement, so that no declaration can hide
behind it.
-/

namespace KernelAlgebra.Shader

theorem forall_of_mapM_eq_ok {ε α β : Type} {f : α → Except ε β} {Q : β → Prop} {xs : List α}
    {ys : List β} (h : xs.mapM f = .ok ys) (hQ : ∀ x ∈ xs, ∀ y, f x = .ok y → Q y) :
    ∀ y ∈ ys, Q y := by
  induction xs generalizing ys with
  | nil =>
      cases h
      simp
  | cons x xs ih =>
      rw [List.mapM_cons] at h
      obtain ⟨y, hy, h⟩ := exists_of_bind_eq_ok h
      obtain ⟨ys, hys, h⟩ := exists_of_bind_eq_ok h
      cases h
      exact List.forall_mem_cons.mpr
        ⟨hQ x (by simp) y hy, ih hys fun z hz => hQ z (List.mem_cons_of_mem x hz)⟩

theorem eq_map_of_mapM_eq_ok {ε α β : Type} {f : α → Except ε β} {g : α → β} {xs : List α}
    {ys : List β} (h : xs.mapM f = .ok ys) (hg : ∀ x y, f x = .ok y → y = g x) :
    ys = xs.map g := by
  induction xs generalizing ys with
  | nil =>
      cases h
      rfl
  | cons x xs ih =>
      rw [List.mapM_cons] at h
      obtain ⟨y, hy, h⟩ := exists_of_bind_eq_ok h
      obtain ⟨ys, hys, h⟩ := exists_of_bind_eq_ok h
      cases h
      rw [List.map_cons, ← hg x y hy, ← ih hys]

theorem exists_of_map_eq_ok {ε α β : Type} {x : Except ε α} {f : α → β} {r : β}
    (h : x.map f = .ok r) : ∃ a, x = .ok a ∧ r = f a := by
  cases x with
  | error e => cases h
  | ok a =>
      cases h
      exact ⟨a, rfl, rfl⟩

/-! ## Lines and what they declare -/

/-- The text ends neither a statement nor a line. -/
def isPlain (s : String) : Bool := s.toList.all fun c => c ≠ ';' && c ≠ '\n'

/-- No statement and no line ends in the text, except within a name that is known. -/
inductive Unbroken (known : List String) : String → Prop
  | name {x : String} : x ∈ known → Unbroken known x
  | text {s : String} : isPlain s → Unbroken known s
  | append {s t : String} : Unbroken known s → Unbroken known t → Unbroken known (s ++ t)

/-- A declared variable.  Behind its name may come the brackets of an array or a value. -/
structure Variable where
  qualifiers : List String
  type : String
  name : String
  ending : String

def Variable.written (x : Variable) : String :=
  String.join (x.qualifiers.map (· ++ " ")) ++ x.type ++ " " ++ x.name ++ x.ending ++ ";"

/-- Lines that are the same in all shaders. -/
def marks : List String :=
  ["", "\x7d", "\x7d;", "default:", "break;", "layout(local_size_x = 1) in;", "void main() \x7b"]

/-- The line declares nothing.  What it assigns to is known under that name. -/
inductive Silent (known : List String) : String → Prop
  | mark {line : String} : line ∈ marks → Silent known line
  | version (v : Version) : Silent known ("#version " ++ v.text)
  | program (t : Target) :
      Silent known ("// program " ++ Interface.serial ++ ", target " ++ t.text)
  | node (id : Nat) : Silent known ("// node " ++ toString id)
  | precision {range type : String} : range ∈ ["highp", "mediump"] →
      type ∈ ["float", "int", "sampler2D", "sampler3D"] →
      Silent known ("precision " ++ range ++ " " ++ type ++ ";")
  | buffer (a : Attribute) :
      Silent known (a.decoration ++ " " ++ Text.camelCase a.identifier ++ "Block \x7b")
  | control {keyword condition : String} : keyword ∈ ["if", "while", "switch"] →
      Unbroken known condition → Silent known (keyword ++ " (" ++ condition ++ ") \x7b")
  | label (id : Nat) : Silent known ("case " ++ toString id ++ ":")
  | discard {condition : String} :
      Unbroken known condition → Silent known ("if (" ++ condition ++ ") discard;")
  | assignment {name value : String} :
      name ∈ known → Unbroken known value → Silent known (name ++ " = " ++ value ++ ";")
  | partly {name value : String} {letters : List Char} :
      name ∈ known → (∀ c ∈ letters, c ∈ View.selectorLetters) → Unbroken known value →
      Silent known (name ++ "." ++ String.ofList letters ++ " = " ++ value ++ ";")

def spaces (n : Nat) : String := String.ofList (List.replicate n ' ')

/-- The lines declare these variables, one each, and between them stand lines that are silent. -/
inductive Declaring (known : List String) : Lines → List Variable → Prop
  | nil : Declaring known [] []
  | declared {lines : Lines} {xs : List Variable} (indent : Nat) (x : Variable) :
      Declaring known lines xs → Declaring known ((spaces indent ++ x.written) :: lines) (x :: xs)
  | silent {lines : Lines} {xs : List Variable} {line : String} (indent : Nat) :
      Silent known line → Declaring known lines xs →
      Declaring known ((spaces indent ++ line) :: lines) xs

variable {known : List String}

section Declaring

variable {lines lines' : Lines} {xs xs' : List Variable}

@[simp] theorem spaces_zero : spaces 0 = "" := rfl

theorem spaces_add (m n : Nat) : spaces (m + n) = spaces m ++ spaces n := by
  rw [spaces, spaces, spaces, ← String.ofList_append, List.replicate_append_replicate]

theorem Declaring.cons (x : Variable) (h : Declaring known lines xs) :
    Declaring known (x.written :: lines) (x :: xs) := by
  simpa using h.declared 0 x

theorem Silent.cons {line : String} (hline : Silent known line) (h : Declaring known lines xs) :
    Declaring known (line :: lines) xs := by
  simpa using h.silent 0 hline

theorem Declaring.append (h : Declaring known lines xs) (h' : Declaring known lines' xs') :
    Declaring known (lines ++ lines') (xs ++ xs') := by
  induction h with
  | nil => exact h'
  | declared indent x _ ih => exact ih.declared indent x
  | silent indent hline _ ih => exact ih.silent indent hline

theorem Declaring.indented (h : Declaring known lines xs) :
    Declaring known (indented lines) xs := by
  have hspaces : ∀ n (rest : String), "    " ++ (spaces n ++ rest) = spaces (4 + n) ++ rest := by
    intro n rest
    rw [spaces_add, String.append_assoc]
    rfl
  induction h with
  | nil => exact .nil
  | declared indent x _ ih =>
      rw [Shader.indented, List.map_cons, hspaces]
      exact ih.declared _ x
  | silent indent hline _ ih =>
      rw [Shader.indented, List.map_cons, hspaces]
      exact ih.silent _ hline

theorem declaring_map (xs : List Variable) : Declaring known (xs.map Variable.written) xs := by
  induction xs with
  | nil => exact .nil
  | cons x rest ih => exact ih.cons x

theorem declaring_singleton {line : String} {x : Variable} (h : line = x.written) :
    Declaring known [line] [x] :=
  h ▸ .cons x .nil

theorem declaring_silent (h : ∀ line ∈ lines, Silent known line) : Declaring known lines [] := by
  induction lines with
  | nil => exact .nil
  | cons line rest ih =>
      obtain ⟨hline, hrest⟩ := List.forall_mem_cons.mp h
      exact hline.cons (ih hrest)

theorem declaring_flatten {parts : List Lines} (h : ∀ part ∈ parts, Declaring known part []) :
    Declaring known parts.flatten [] := by
  induction parts with
  | nil => exact .nil
  | cons part rest ih =>
      obtain ⟨hpart, hrest⟩ := List.forall_mem_cons.mp h
      exact hpart.append (ih hrest)

theorem declaring_mark {line : String} (h : line ∈ marks) : Declaring known [line] [] :=
  (Silent.mark h).cons .nil

theorem Declaring.blank : Declaring known [""] [] := declaring_mark (by decide)

end Declaring

/-! ## Texts within a line -/

theorem isPlain_iff {s : String} : isPlain s ↔ ∀ c ∈ s.toList, c ≠ ';' ∧ c ≠ '\n' := by
  simp [isPlain]

theorem unbroken_toString (n : Nat) : Unbroken known (toString n) := by
  refine .text (isPlain_iff.mpr fun c hc => ?_)
  rw [Nat.toString_eq_ofList_toDigits, String.toList_ofList] at hc
  have hdigit := Nat.isDigit_of_mem_toDigits (by decide) (by decide) hc
  constructor <;> rintro rfl <;> simp [Char.isDigit] at hdigit

theorem unbroken_typeName (n : Nat) : Unbroken known (typeName n) := by
  unfold typeName
  split
  · exact .text (by decide)
  · exact .append (.text (by decide)) (unbroken_toString n)

theorem unbroken_letters {letters : List Char} (h : ∀ c ∈ letters, c ∈ View.selectorLetters) :
    Unbroken known (String.ofList letters) := by
  refine .text (isPlain_iff.mpr fun c hc => ?_)
  rw [String.toList_ofList] at hc
  have hletter := h c hc
  constructor <;> rintro rfl <;> simp [View.selectorLetters] at hletter

theorem unbroken_intercalate {parts : List String} (h : ∀ s ∈ parts, Unbroken known s) :
    Unbroken known (String.intercalate ", " parts) := by
  induction parts with
  | nil => exact .text (by decide)
  | cons s rest ih =>
      have hrest := ih fun t ht => h t (List.mem_cons_of_mem s ht)
      by_cases hempty : rest = []
      · rw [hempty, String.intercalate_singleton]
        exact h s (by simp)
      · rw [String.intercalate_cons_of_ne_nil hempty]
        exact ((h s (by simp)).append (.text (by decide))).append hrest

/-! ### Expressions -/

theorem mem_of_elementLetter {k : Int} {c : Char} (h : elementLetter k = .ok c) :
    c ∈ View.selectorLetters := by
  unfold elementLetter at h
  split at h
  · rename_i c' hc
    cases h
    split at hc
    · cases hc
    · exact List.mem_of_getElem? hc
  · cases h

theorem mem_of_elementLetters {v : View} {letters : List Char}
    (h : v.elements.mapM elementLetter = .ok letters) : ∀ c ∈ letters, c ∈ View.selectorLetters :=
  forall_of_mapM_eq_ok h fun _ _ _ => mem_of_elementLetter

def Phrase.Unbroken (known : List String) (e : Phrase) : Prop :=
  ∀ q ∈ e, Shader.Unbroken known q.written

namespace Phrase

@[simp] theorem unbroken_nil : Phrase.Unbroken known [] := by simp [Phrase.Unbroken]

@[simp] theorem unbroken_cons {q : Piece} {rest : Phrase} :
    Phrase.Unbroken known (q :: rest) ↔ Shader.Unbroken known q.written ∧ rest.Unbroken known := by
  simp [Phrase.Unbroken]

@[simp] theorem unbroken_append {a b : Phrase} :
    Phrase.Unbroken known (a ++ b) ↔ a.Unbroken known ∧ b.Unbroken known := by
  simp [Phrase.Unbroken, or_imp, forall_and]

theorem Unbroken.written {e : Phrase} (h : e.Unbroken known) : Shader.Unbroken known e.written := by
  induction e with
  | nil => exact .text (by decide)
  | cons q rest ih =>
      rw [unbroken_cons] at h
      exact h.1.append (ih h.2)

@[simp] theorem unbroken_vector (n : Nat) : Shader.Unbroken known (Piece.vector n).written :=
  unbroken_typeName n

theorem unbroken_selection {letters : List Char} (h : ∀ c ∈ letters, c ∈ View.selectorLetters) :
    Shader.Unbroken known (Piece.selection letters).written :=
  .append (.text (by decide)) (unbroken_letters h)

-- `simp` is given this one for the fixed texts, with `decide` for its premise
theorem unbroken_text {s : String} (h : isPlain s) :
    Shader.Unbroken known (Piece.text s).written :=
  .text h

theorem unbroken_separated {srcs : List Phrase} (h : ∀ e ∈ srcs, e.Unbroken known) :
    (separated srcs).Unbroken known := by
  fun_induction separated srcs with
  | case1 => simp
  | case2 a => exact h a (by simp)
  | case3 a rest hrest ih =>
      have htail := ih fun e he => h e (by simp [he])
      simp (disch := decide) [h a (by simp), htail, unbroken_text]

theorem unbroken_zero (n : Nat) : (zero n).Unbroken known := by
  unfold zero
  split <;> simp (disch := decide) [unbroken_text]

section Expressions

variable {names : Names} {op : Op} {n : Nat} {srcs : List Phrase} {e : Phrase}

theorem unbroken_specialExpr (hsrcs : ∀ e ∈ srcs, e.Unbroken known)
    (h : specialExpr op n srcs = .ok e) : e.Unbroken known := by
  unfold specialExpr at h
  split at h
  case h_7 => cases h
  all_goals simp only [List.forall_mem_cons] at hsrcs
  case h_6 => split at h <;> cases h <;> simp (disch := decide) [hsrcs, unbroken_text]
  all_goals
    cases h
    simp (disch := decide) [hsrcs, unbroken_text]

theorem unbroken_of_functionName {f : String} (h : functionName? op = some f) :
    Shader.Unbroken known (Piece.text f).written := by
  cases op <;> cases h <;> exact unbroken_text (by decide)

theorem unbroken_of_operator {o : String} (h : operator? op = some o) :
    Shader.Unbroken known (Piece.text o).written := by
  cases op <;> cases h <;> exact unbroken_text (by decide)

theorem unbroken_of_comparison {o f : String} (h : comparison? op = some (o, f)) :
    Shader.Unbroken known (Piece.text o).written ∧
      Shader.Unbroken known (Piece.text f).written := by
  cases op <;> cases h <;> exact ⟨unbroken_text (by decide), unbroken_text (by decide)⟩

theorem unbroken_elementwiseExpr (hsrcs : ∀ e ∈ srcs, e.Unbroken known)
    (h : elementwiseExpr op n srcs = .ok e) : e.Unbroken known := by
  unfold elementwiseExpr at h
  split at h
  · rename_i hf
    cases h
    simp (disch := decide) [unbroken_of_functionName hf, unbroken_separated hsrcs, unbroken_text]
  · rename_i ho _
    cases h
    simp only [List.forall_mem_cons] at hsrcs
    simp (disch := decide) [unbroken_of_operator ho, hsrcs, unbroken_text]
  · rename_i hc _ _
    simp only [List.forall_mem_cons] at hsrcs
    have hwords := @unbroken_of_comparison known _ _ _ hc
    split at h <;> cases h <;> simp (disch := decide) [hwords, hsrcs, unbroken_text]
  · exact unbroken_specialExpr hsrcs h

variable (hnames : ∀ s, Shader.Unbroken known (names.of s))

include hnames

theorem unbroken_name (s : Symbol) : Shader.Unbroken known (Piece.text (names.of s)).written :=
  hnames s

theorem unbroken_selectExpr {v : View} (h : selectExpr names v = .ok e) : e.Unbroken known := by
  have hname := unbroken_name hnames v.sym
  unfold selectExpr at h
  simp only at h
  split at h
  · cases h
  split at h
  · cases h
    split <;> simp (disch := decide) [hname, unbroken_text]
  split at h
  · cases h
    simp [hname]
  · obtain ⟨letters, hletters, rfl⟩ := exists_of_map_eq_ok h
    simp [hname, unbroken_selection (mem_of_elementLetters hletters)]

theorem unbroken_viewExpr {v : View} (h : viewExpr names n v = .ok e) : e.Unbroken known := by
  obtain ⟨e, hselect, rfl⟩ := exists_of_map_eq_ok h
  have he := unbroken_selectExpr hnames hselect
  refine unbroken_append.mpr ⟨?_, ?_⟩
  · split <;> simp (disch := decide) [unbroken_text]
  · split <;> simp (disch := decide) [he, unbroken_text]

theorem unbroken_conditionExpr {v : View} (h : conditionExpr names v = .ok e) :
    e.Unbroken known := by
  have hname := unbroken_name hnames v.sym
  have hsign : Shader.Unbroken known (Piece.text (if v.neg then "-" else "")).written :=
    unbroken_text (by split <;> decide)
  unfold conditionExpr at h
  simp only at h
  split at h
  · cases h
  split at h
  · cases h
    simp [hname, hsign]
  split at h
  · cases h
  · obtain ⟨c, hc, rfl⟩ := exists_of_map_eq_ok h
    have hselection : Shader.Unbroken known (Piece.selection [c]).written :=
      unbroken_selection (by simpa using mem_of_elementLetter hc)
    simp [hname, hsign, hselection]

theorem unbroken_instructionExpr {i : Instruction} (h : instructionExpr names i = .ok e) :
    e.Unbroken known := by
  unfold instructionExpr at h
  simp only at h
  split at h
  · obtain ⟨x, hx, h⟩ := exists_of_bind_eq_ok h
    obtain ⟨y, hy, h⟩ := exists_of_bind_eq_ok h
    cases h
    simp (disch := decide) [unbroken_viewExpr hnames hx, unbroken_viewExpr hnames hy, unbroken_text]
  · obtain ⟨x, hx, h⟩ := exists_of_bind_eq_ok h
    cases h
    have hx := unbroken_viewExpr hnames hx
    split
    · have hletters : Shader.Unbroken known
          (Piece.selection (View.selectorLetters.take i.dst.size)).written :=
        unbroken_selection fun c hc => List.mem_of_mem_take hc
      simp (disch := decide) [hx, hletters, unbroken_name hnames, unbroken_text]
    · simp (disch := decide) [hx, unbroken_name hnames, unbroken_text]
  · obtain ⟨es, hes, h⟩ := exists_of_bind_eq_ok h
    exact unbroken_elementwiseExpr
      (forall_of_mapM_eq_ok hes fun _ _ _ => unbroken_viewExpr hnames) h

end Expressions

end Phrase

theorem unbroken_of_map_written {r : Except ShaderError Phrase} {s : String}
    (h : r.map Phrase.written = .ok s) (hr : ∀ e, r = .ok e → e.Unbroken known) :
    Unbroken known s := by
  obtain ⟨e, he, rfl⟩ := exists_of_map_eq_ok h
  exact (hr e he).written

/-! ## Statements -/

section Statements

variable {names : Names} {stage : Stage} {e : String}

/-- What the instruction writes has a name that is known. -/
def Writes (known : List String) (names : Names) (i : Instruction) : Prop :=
  i.dst.isAbsent = false → names.of i.dst.sym ∈ known

variable (hnames : ∀ s, Unbroken known (names.of s))

include hnames

theorem unbroken_outputExpr (a : Attribute) : Unbroken known (outputExpr names a) := by
  have hparts : ∀ s ∈ [names.of a.sym] ++ List.replicate (3 - a.sym.size) "0.0" ++ ["1.0"],
      Unbroken known s := by
    intro s hs
    simp only [List.mem_append, List.mem_singleton, List.mem_replicate] at hs
    rcases hs with (rfl | ⟨_, rfl⟩) | rfl
    · exact hnames a.sym
    · exact .text (by decide)
    · exact .text (by decide)
  unfold outputExpr
  simp only
  split
  · exact hnames a.sym
  · exact .append (.append (.text (by decide)) (unbroken_intercalate hparts)) (.text (by decide))

theorem unbroken_of_viewExpr {n : Nat} {v : View} (h : viewExpr names n v = .ok e) :
    Unbroken known e := by
  rw [Phrase.written_viewExpr] at h
  exact unbroken_of_map_written h fun _ => Phrase.unbroken_viewExpr hnames

theorem unbroken_of_conditionExpr {v : View} (h : conditionExpr names v = .ok e) :
    Unbroken known e := by
  rw [Phrase.written_conditionExpr] at h
  exact unbroken_of_map_written h fun _ => Phrase.unbroken_conditionExpr hnames

theorem unbroken_of_instructionExpr {i : Instruction} (h : instructionExpr names i = .ok e) :
    Unbroken known e := by
  rw [Phrase.written_instructionExpr] at h
  exact unbroken_of_map_written h fun _ => Phrase.unbroken_instructionExpr hnames

theorem silent_killStatement {src : View} {line : String}
    (h : killStatement names stage src = .ok line) : Silent known line := by
  unfold killStatement at h
  split at h
  · cases h
  · obtain ⟨e, he, h⟩ := exists_of_bind_eq_ok h
    have he := unbroken_of_viewExpr hnames he
    cases h
    split
    · have hline : s!"if (any(lessThan({e}, {zero (max 1 src.size)}))) discard;" = "if (" ++
          ("any(lessThan(" ++ e ++ ", " ++ zero (max 1 src.size) ++ "))") ++ ") discard;" :=
        String.toList_inj.mp (by simp [toString])
      rw [hline]
      refine .discard (.append (.append (.append (.append ?_ he) ?_) ?_) ?_)
      case refine_3 =>
        rw [← Phrase.written_zero]
        exact (Phrase.unbroken_zero _).written
      all_goals exact .text (by decide)
    · have hline : s!"if ({e} < 0.0) discard;" = "if (" ++ (e ++ " < 0.0") ++ ") discard;" :=
        String.toList_inj.mp (by simp [toString])
      rw [hline]
      exact .discard (he.append (.text (by decide)))

theorem silent_statement {i : Instruction} {lines : Lines} (hi : Writes known names i)
    (h : statement names stage i = .ok lines) : ∀ line ∈ lines, Silent known line := by
  unfold statement at h
  split at h
  · cases h
    simp
  · obtain ⟨line, hline, h⟩ := exists_of_bind_eq_ok h
    cases h
    simpa using silent_killStatement hnames hline
  · obtain ⟨e, he, h⟩ := exists_of_bind_eq_ok h
    have he := unbroken_of_instructionExpr hnames he
    obtain ⟨dst, hdst, h⟩ := exists_of_bind_eq_ok h
    cases h
    rw [List.forall_mem_singleton]
    unfold dstExpr at hdst
    simp only at hdst
    split at hdst
    · cases hdst
    rename_i hpresent
    have hknown := hi (by simpa using hpresent)
    split at hdst
    · cases hdst
      exact .assignment hknown he
    · obtain ⟨sel, hsel, rfl⟩ := exists_of_map_eq_ok hdst
      obtain ⟨letters, hletters, rfl⟩ := exists_of_map_eq_ok hsel
      exact .partly hknown (mem_of_elementLetters hletters) he

end Statements

end KernelAlgebra.Shader
