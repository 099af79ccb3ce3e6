import KernelAlgebra.Assembly.Lexer
import Mathlib.Data.List.TakeWhile

/-!
# Cutting a text into lexemes

What the lexer makes of a text does not depend on where the text stands, so cutting is described
without places: one lexeme or blank after another is cut off the front.  A lexeme is as long as it
can be, which is why each statement about one says what may follow it.
-/

namespace KernelAlgebra.Assembly

structure Lexeme where
  kind : TokenKind
  text : Text
  deriving DecidableEq, Repr

def Token.unplaced (t : Token) : Lexeme := ⟨t.kind, t.lexeme⟩

/-- The lexemes in front of a rest that is left over. -/
inductive Cuts : Text → List Lexeme → Text → Prop
  | done {left : Text} : Cuts left [] left
  | token {g : Glyph} {rest left : Text} {kind : TokenKind} {more : Nat} {ws : List Lexeme} :
      scan g rest = .token kind more → Cuts (rest.drop more) ws left →
        Cuts (g :: rest) (⟨kind, g :: rest.take more⟩ :: ws) left
  | skip {g : Glyph} {rest left : Text} {more : Nat} {ws : List Lexeme} :
      scan g rest = .skip more → Cuts (rest.drop more) ws left → Cuts (g :: rest) ws left

theorem Cuts.append {s t u : Text} {ws ws' : List Lexeme} (h : Cuts s ws t) (h' : Cuts t ws' u) :
    Cuts s (ws ++ ws') u := by
  induction h with
  | done => exact h'
  | token hscan _ ih => exact .token hscan (ih h')
  | skip hscan _ ih => exact .skip hscan (ih h')

theorem Cuts.one {g : Glyph} {tail rest : Text} {kind : TokenKind}
    (h : scan g (tail ++ rest) = .token kind tail.length) :
    Cuts (g :: tail ++ rest) [⟨kind, g :: tail⟩] rest := by
  have hrest : Cuts ((tail ++ rest).drop tail.length) [] rest := by
    rw [List.drop_left]
    exact .done
  have hcuts := Cuts.token h hrest
  rwa [List.take_left] at hcuts

theorem Cuts.glyph {g : Glyph} {rest left : Text} {kind : TokenKind} {ws : List Lexeme}
    (h : scan g rest = .token kind 0) (hrest : Cuts rest ws left) :
    Cuts (g :: rest) (⟨kind, [g]⟩ :: ws) left :=
  .token h hrest

theorem Cuts.blank {g : Glyph} {rest left : Text} {ws : List Lexeme} (h : scan g rest = .skip 0)
    (hrest : Cuts rest ws left) : Cuts (g :: rest) ws left :=
  .skip h hrest

theorem tokensFrom_of_cuts (source : Text) {t left : Text} {ws : List Lexeme} (p : Position)
    (h : Cuts t ws left) (hleft : left = []) :
    ∃ ts last, tokensFrom source p t = .ok (ts, last) ∧ ts.map Token.unplaced = ws := by
  induction h generalizing p with
  | done =>
      subst hleft
      exact ⟨[], p, by rw [tokensFrom], rfl⟩
  | @token g rest left kind more ws hscan _ ih =>
      let lexeme := g :: rest.take more
      obtain ⟨ts, last, hts, hws⟩ := ih (p.afterAll lexeme) hleft
      refine ⟨⟨kind, lexeme, p.line, p.columnOf lexeme⟩ :: ts, last, ?_, congrArg (List.cons _) hws⟩
      rw [tokensFrom, hscan]
      simp only [lexeme] at hts
      simp only [hts]
      rfl
  | skip hscan _ ih =>
      obtain ⟨ts, last, hts, hws⟩ := ih (p.afterAll _) hleft
      refine ⟨ts, last, ?_, hws⟩
      rw [tokensFrom, hscan]
      exact hts

theorem tokenize_of_cuts {source : Text} {ws : List Lexeme} (h : Cuts source ws []) :
    ∃ ts stop, tokenize source = .ok (ts, stop) ∧ ts.map Token.unplaced = ws := by
  obtain ⟨ts, last, hts, hws⟩ := tokensFrom_of_cuts source Position.first h rfl
  refine ⟨ts, endToken last, ?_, hws⟩
  rw [tokenize, hts]
  rfl

theorem scan_of_mem_tokensFrom {source t : Text} {p last : Position} {ts : List Token}
    (h : tokensFrom source p t = .ok (ts, last)) {u : Token} (hu : u ∈ ts) :
    ∃ g rest more, scan g rest = .token u.kind more ∧ u.lexeme = g :: rest.take more := by
  fun_induction tokensFrom source p t generalizing ts last with
  | case1 p =>
      cases h
      cases hu
  | case2 p g rest kind more hscan lexeme ts' last' hrest =>
      rename_i ih
      cases h
      obtain rfl | hu := List.mem_cons.mp hu
      · exact ⟨g, rest, more, hscan, rfl⟩
      · exact ih hrest hu
  | case3 => cases h
  | case4 p g rest more hscan ih => exact ih h hu
  | case5 => cases h

/-! ## Lexemes of several glyphs -/

def marks : List Char :=
  ['(', ')', ',', '.', ':', '=', '&', '-', '~', '>', '<', '"', '#', '/', ';', '\n', ' ', '\r', '\t']

theorem scan_of_not_mem_marks {g : Glyph} {rest : Text} (h : g.rune ∉ marks) :
    scan g rest = if isDigit g then .token .number (numberCount rest)
      else if startsWord g then scanWord g rest else .fail (.stray g.rune) 0 := by
  unfold scan
  split <;> first | rfl | (rename_i hrune; exact absurd (hrune ▸ h) (by decide))

theorem not_mem_marks_of_isDigit {g : Glyph} (h : isDigit g) : g.rune ∉ marks := by
  have hnone : marks.all (fun c => !('0' ≤ c && c ≤ '9')) = true := by decide +kernel
  intro hmem
  have hmark := List.all_eq_true.mp hnone _ hmem
  rw [isDigit] at h
  rw [h] at hmark
  cases hmark

theorem not_mem_marks_of_startsWord {g : Glyph} (h : startsWord g) : g.rune ∉ marks := by
  have hnone : marks.all (fun c => !(Text.isLetter c || c = '_')) = true := by decide +kernel
  intro hmem
  have hmark := List.all_eq_true.mp hnone _ hmem
  rw [startsWord] at h
  rw [h] at hmark
  cases hmark

theorem isLetter_eq_false_of_lt {c : Char} (h : c.toNat < 65) : Text.isLetter c = false := by
  have hbounds : Text.letterBounds = 65 :: Text.letterBounds.tail := rfl
  rw [Text.isLetter, hbounds, List.takeWhile_cons_of_neg (by simpa using h)]
  rfl

theorem isDigit_eq_false_of_startsWord {g : Glyph} (h : startsWord g) : isDigit g = false := by
  rw [Bool.eq_false_iff]
  intro hdigit
  simp only [isDigit, Bool.and_eq_true, decide_eq_true_eq] at hdigit
  have hle : g.rune.toNat ≤ 57 := Char.le_def.mp hdigit.2
  simp only [startsWord, isLetter_eq_false_of_lt (show g.rune.toNat < 65 by omega), Bool.false_or,
    decide_eq_true_eq] at h
  rw [h] at hle
  exact absurd hle (by decide)

theorem leadingCount_append {p : Glyph → Bool} {body rest : Text} (hbody : ∀ g ∈ body, p g)
    (hrest : ∀ g ∈ rest.head?, p g = false) : leadingCount p (body ++ rest) = body.length := by
  rw [leadingCount, List.takeWhile_append_of_pos hbody]
  cases rest with
  | nil => simp
  | cons g rest => simp [hrest g rfl]

/-! ### Words -/

def IsName : Text → Prop
  | [] => False
  | g :: tail => startsWord g ∧ (∀ h ∈ tail, continuesWord h) ∧
      TokenKind.ofWord (Text.shown (g :: tail)) = .ident

theorem IsName.ofString_shown {name : Text} (h : IsName name) :
    Text.ofString (Text.shown name) = name := by
  have hstray : ∀ b, startsWord (.stray b) = false ∧ continuesWord (.stray b) = false := by
    have hrune : startsWord (.char Glyph.replacement) = false ∧
        continuesWord (.char Glyph.replacement) = false := by decide +kernel
    exact fun _ => hrune
  have hchar : ∀ g ∈ name, Glyph.char g.rune = g := by
    cases name with
    | nil => exact h.elim
    | cons first tail =>
        intro g hg
        cases g with
        | char c => rfl
        | stray b =>
            obtain hfirst | htail := List.mem_cons.mp hg
            · exact absurd h.1 (by simp [← hfirst, hstray])
            · exact absurd (h.2.1 _ htail) (by simp [hstray])
  rw [Text.ofString, Text.shown, String.toList_ofList, List.map_map]
  exact (List.map_congr_left hchar).trans (List.map_id name)

theorem scan_of_startsWord {g : Glyph} {rest : Text} (h : startsWord g) :
    scan g rest = scanWord g rest := by
  rw [scan_of_not_mem_marks (not_mem_marks_of_startsWord h), isDigit_eq_false_of_startsWord h,
    if_pos h]
  rfl

theorem Cuts.name {name rest : Text} (hname : IsName name)
    (hrest : ∀ g ∈ rest.head?, continuesWord g = false) :
    Cuts (name ++ rest) [⟨.ident, name⟩] rest := by
  cases name with
  | nil => exact hname.elim
  | cons g tail =>
      obtain ⟨hstarts, htail, hword⟩ := hname
      refine Cuts.one ?_
      rw [scan_of_startsWord hstarts, scanWord, leadingCount_append htail hrest, List.take_left,
        hword]

theorem isName_of_scan {g : Glyph} {rest : Text} {more : Nat}
    (h : scan g rest = .token .ident more) : IsName (g :: rest.take more) := by
  unfold scan at h
  split at h
  case h_9 | h_10 | h_11 | h_14 => split at h <;> cases h
  case h_12 =>
    unfold scanString at h
    dsimp only at h
    split at h <;> cases h
  case h_20 =>
    split at h
    · cases h
    · split at h
      · rename_i hstarts
        simp only [scanWord, Scan.token.injEq] at h
        obtain ⟨hword, rfl⟩ := h
        refine ⟨hstarts, fun g hg => ?_, hword⟩
        rw [leadingCount, ← List.prefix_iff_eq_take.mp (List.takeWhile_prefix _)] at hg
        exact List.mem_takeWhile_imp hg
      · cases h
  all_goals cases h

theorem isName_of_mem_tokenize {source : Text} {ts : List Token} {stop u : Token}
    (h : tokenize source = .ok (ts, stop)) (hu : u ∈ ts) (hkind : u.kind = .ident) :
    IsName u.lexeme := by
  unfold tokenize at h
  cases hts : tokensFrom source Position.first source with
  | error e =>
      rw [hts] at h
      cases h
  | ok q =>
      rw [hts] at h
      cases h
      obtain ⟨g, rest, more, hscan, hlexeme⟩ := scan_of_mem_tokensFrom hts hu
      rw [hlexeme]
      exact isName_of_scan (hkind ▸ hscan)

/-! ### Numbers -/

theorem Cuts.number {digits rest : Text} (hne : digits ≠ []) (hdigits : ∀ g ∈ digits, isDigit g)
    (hrest : ∀ g ∈ rest.head?, isDigit g = false ∧ g ∉ [.char '.', .char 'e', .char 'E']) :
    Cuts (digits ++ rest) [⟨.number, digits⟩] rest := by
  obtain ⟨g, tail, rfl⟩ := List.exists_cons_of_ne_nil hne
  obtain ⟨hg, htail⟩ := List.forall_mem_cons.mp hdigits
  have hwhole : digitCount (tail ++ rest) = tail.length :=
    leadingCount_append htail fun g hg => (hrest g hg).1
  have hfraction : fractionCount rest = 0 := by
    unfold fractionCount
    split
    · exact absurd (hrest _ rfl).2 (by simp)
    · rfl
  have hexponent : exponentCount rest = 0 := by
    unfold exponentCount
    split
    · rename_i e g rest
      have he := (hrest _ rfl).2
      simp only [List.mem_cons, Glyph.char.injEq, List.not_mem_nil, or_false, not_or] at he
      simp [he]
    · rfl
  refine Cuts.one ?_
  rw [scan_of_not_mem_marks (not_mem_marks_of_isDigit hg), if_pos hg]
  simp only [numberCount, hwhole, List.drop_left, hfraction, Nat.add_zero, hexponent]

/-! ### Strings -/

theorem Cuts.string {inside rest : Text} (hinside : ∀ g ∈ inside, inString g) :
    Cuts (.char '"' :: (inside ++ [.char '"']) ++ rest)
      [⟨.string, .char '"' :: (inside ++ [.char '"'])⟩] rest := by
  refine Cuts.one ?_
  change scanString _ = _
  rw [List.append_assoc, scanString, leadingCount_append hinside (by rintro _ ⟨⟩; rfl),
    List.drop_left, List.length_append]
  rfl

end KernelAlgebra.Assembly
