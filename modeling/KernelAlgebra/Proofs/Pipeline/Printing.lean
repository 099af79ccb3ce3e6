import KernelAlgebra.Proofs.Assembly.Lexing
import KernelAlgebra.Proofs.Pipeline.Grammar
import Mathlib.Data.List.Basic

/-!
# Printed expressions

The text of an expression, with parentheses around every joint, is cut into lexemes that the grammar
derives as the same expression.  Strings come back when quoting leaves their characters as they are.
-/

namespace KernelAlgebra.Pipeline

open Assembly

/-! ## The lexemes of an expression -/

def Joint.kind : Joint → TokenKind
  | connect => .shiftRight
  | after => .shiftLeft
  | connectNamed => .tildeGreater
  | combine => .ampersand
  | combineNamed => .tildeAmpersand

def mark (k : TokenKind) : Lexeme := ⟨k, Text.ofString k.name⟩

namespace Expr

mutual

/-- Quotes leave the characters of all strings as they are. -/
def isPlain : Expr → Bool
  | ref _ | number _ => true
  | quoted value => value.all fun g => Text.escapeGlyph '"' g = [g.rune]
  | binary _ left right => left.isPlain && right.isPlain
  | call _ args => areAllPlain args

def areAllPlain : List Expr → Bool
  | [] => true
  | e :: rest => e.isPlain && areAllPlain rest

end

def digitsLexeme (n : Nat) : Lexeme := ⟨.number, Text.ofString (toString n)⟩

def numberLexemes : Int → List Lexeme
  | .ofNat n => [digitsLexeme n]
  | .negSucc n => [mark .minus, digitsLexeme (n + 1)]

mutual

def lexemes : Expr → List Lexeme
  | ref name => [⟨.ident, Text.ofString name⟩]
  | number value => numberLexemes value
  | quoted value => [⟨.string, Text.ofString (Text.quotedText value)⟩]
  | binary joint left right =>
      mark .leftParen :: (left.lexemes ++ mark joint.kind :: (right.lexemes ++ [mark .rightParen]))
  | call name args =>
      ⟨.ident, Text.ofString name⟩ :: mark .leftParen ::
        ([mark .comma].intercalate (lexemeLists args) ++ [mark .rightParen])

def lexemeLists : List Expr → List (List Lexeme)
  | [] => []
  | e :: rest => e.lexemes :: lexemeLists rest

end

theorem isPlain_quoted_iff {value : Text} :
    (quoted value).isPlain ↔ ∀ g ∈ value, Text.escapeGlyph '"' g = [g.rune] := by
  simp [isPlain]

theorem isPlain_binary_iff {joint : Joint} {left right : Expr} :
    (binary joint left right).isPlain ↔ left.isPlain ∧ right.isPlain := by
  simp [isPlain]

theorem isPlain_call_iff {name : String} {args : List Expr} :
    (call name args).isPlain ↔ ∀ a ∈ args, a.isPlain := by
  rw [isPlain]
  induction args with
  | nil => simp [areAllPlain]
  | cons e rest ih => simp [areAllPlain, ih]

/-! ## Cutting the text -/

def Closes (rest : Text) : Prop := ∀ g ∈ rest.head?, g ∈ [.char ' ', .char ')', .char ',']

/-- In front of what may stand behind it, the text is cut into the lexemes of the expression. -/
def Legible (e : Expr) : Prop :=
  ∀ rest, Closes rest → Cuts (Text.ofString e.text ++ rest) e.lexemes rest

theorem closes_cons {g : Glyph} (h : g ∈ [.char ' ', .char ')', .char ',']) (rest : Text) :
    Closes (g :: rest) := by
  rintro _ ⟨⟩
  exact h

theorem Closes.continuesWord_eq_false {rest : Text} (h : Closes rest) :
    ∀ g ∈ rest.head?, continuesWord g = false := by
  have hnone : ∀ g ∈ [.char ' ', .char ')', .char ','], continuesWord g = false := by decide +kernel
  exact fun g hg => hnone g (h g hg)

theorem legible_ref {name : String} (h : IsName (Text.ofString name)) : (ref name).Legible :=
  fun _ hrest => Cuts.name h hrest.continuesWord_eq_false

theorem isDigit_of_mem_toString {n : Nat} {g : Glyph} (h : g ∈ Text.ofString (toString n)) :
    isDigit g := by
  rw [Nat.toString_eq_ofList_toDigits, Text.ofString, String.toList_ofList] at h
  obtain ⟨c, hc, rfl⟩ := List.mem_map.mp h
  have hdigit := Nat.isDigit_of_mem_toDigits (by decide) (by decide) hc
  simpa [Char.isDigit, isDigit, Glyph.rune, Char.le_def] using hdigit

theorem ofString_toString_ne_nil (n : Nat) : Text.ofString (toString n) ≠ [] := by
  rw [Nat.toString_eq_ofList_toDigits, Text.ofString, String.toList_ofList]
  simp

theorem legible_number (value : Int) : (number value).Legible := by
  intro rest hrest
  have hdigits : ∀ n : Nat, Cuts (Text.ofString (toString n) ++ rest)
      [digitsLexeme n] rest := fun n =>
    Cuts.number (ofString_toString_ne_nil n) (fun _ => isDigit_of_mem_toString) fun g hg => by
      have hother : ∀ g ∈ [.char ' ', .char ')', .char ','],
          isDigit g = false ∧ g ∉ [.char '.', .char 'e', .char 'E'] := by decide
      exact hother g (hrest g hg)
  cases value with
  | ofNat n => exact hdigits n
  | negSucc n =>
      have htext : Text.ofString (number (.negSucc n)).text =
          .char '-' :: Text.ofString (toString (n + 1)) := by
        change Text.ofString ("-" ++ toString (n + 1)) = _
        simp [Text.ofString]
      rw [htext]
      exact Cuts.glyph (g := .char '-') rfl (hdigits (n + 1))

theorem eq_char_of_escapeGlyph {g : Glyph} (h : Text.escapeGlyph '"' g = [g.rune]) :
    g = .char g.rune ∧ inString g := by
  cases g with
  | stray b => cases h
  | char c =>
      refine ⟨rfl, ?_⟩
      have hquote : c ≠ '"' := by
        rintro rfl
        cases h
      have hfeed : c ≠ '\n' := by
        rintro rfl
        exact absurd h (by decide +kernel)
      simp [inString, hquote, hfeed]

theorem ofString_quotedText {value : Text} (h : ∀ g ∈ value, Text.escapeGlyph '"' g = [g.rune]) :
    Text.ofString (Text.quotedText value) = .char '"' :: (value ++ [.char '"']) := by
  have hescape : (value.flatMap (Text.escapeGlyph '"')).map Glyph.char = value := by
    rw [List.map_flatMap]
    have hsame : ∀ g ∈ value, (Text.escapeGlyph '"' g).map Glyph.char = [g] := fun g hg => by
      rw [h g hg, List.map_singleton, ← (eq_char_of_escapeGlyph (h g hg)).1]
    rw [List.flatMap_congr hsame, List.flatMap_singleton']
  rw [Text.quotedText, Text.ofString, String.toList_ofList, List.map_cons, List.map_append, hescape]
  rfl

theorem legible_quoted {value : Text} (h : (quoted value).isPlain) : (quoted value).Legible := by
  intro rest _
  have h := isPlain_quoted_iff.mp h
  change Cuts (Text.ofString (Text.quotedText value) ++ rest)
    [⟨.string, Text.ofString (Text.quotedText value)⟩] rest
  rw [ofString_quotedText h]
  exact Cuts.string fun g hg => (eq_char_of_escapeGlyph (h g hg)).2

theorem cuts_joint (joint : Joint) (rest : Text) :
    Cuts (Text.ofString joint.mark ++ .char ' ' :: rest) [mark joint.kind] (.char ' ' :: rest) := by
  cases joint
  case combine => exact .glyph rfl .done
  all_goals exact .one rfl

theorem legible_binary {joint : Joint} {left right : Expr} (hleft : left.Legible)
    (hright : right.Legible) : (binary joint left right).Legible := by
  intro rest hrest
  have htext : Text.ofString (binary joint left right).text ++ rest =
      .char '(' :: (Text.ofString left.text ++ .char ' ' :: (Text.ofString joint.mark ++
        .char ' ' :: (Text.ofString right.text ++ .char ')' :: rest))) := by
    simp [text, Text.ofString]
    rfl
  have hend : Cuts (.char ')' :: rest) [mark .rightParen] rest := .glyph rfl .done
  have hright := (hright _ (closes_cons (g := .char ')') (by decide) rest)).append hend
  have hjoint := (cuts_joint joint _).append (.blank (g := .char ' ') rfl hright)
  have hleft := (hleft _ (closes_cons (g := .char ' ') (by decide) _)).append (.blank rfl hjoint)
  rw [htext]
  exact .glyph rfl hleft

theorem cuts_arguments {args : List Expr} (hargs : ∀ a ∈ args, a.Legible) (rest : Text) :
    Cuts (Text.ofString (String.intercalate ", " (texts args)) ++ .char ')' :: rest)
      ([mark .comma].intercalate (lexemeLists args)) (.char ')' :: rest) := by
  induction args with
  | nil => exact .done
  | cons e more ih =>
      obtain ⟨he, hmore⟩ := List.forall_mem_cons.mp hargs
      cases more with
      | nil => simpa [texts, lexemeLists] using he _ (closes_cons (by decide) rest)
      | cons f more =>
          have hcomma : Cuts (.char ',' :: .char ' ' :: _) (mark .comma :: _) (.char ')' :: rest) :=
            .glyph rfl (.blank rfl (ih hmore))
          have hcuts := (he _ (closes_cons (by decide) _)).append hcomma
          simpa [texts, lexemeLists, Text.ofString] using hcuts

theorem legible_call {name : String} {args : List Expr} (hname : IsName (Text.ofString name))
    (hargs : ∀ a ∈ args, a.Legible) : (call name args).Legible := by
  intro rest _
  have htext : Text.ofString (call name args).text ++ rest =
      Text.ofString name ++ .char '(' ::
        (Text.ofString (String.intercalate ", " (texts args)) ++ .char ')' :: rest) := by
    simp [text, Text.ofString]
  have hend : Cuts (.char ')' :: rest) [mark .rightParen] rest := .glyph rfl .done
  have hopening := Cuts.glyph (g := .char '(') rfl ((cuts_arguments hargs rest).append hend)
  have hbefore : ∀ g ∈ (Glyph.char '(' :: (Text.ofString (String.intercalate ", " (texts args)) ++
      .char ')' :: rest)).head?, continuesWord g = false := by
    rintro _ ⟨⟩
    decide +kernel
  rw [htext]
  exact (Cuts.name hname hbefore).append hopening

end Expr

/-! ## Deriving the lexemes -/

theorem kind_eq_of_unplaced {t : Token} {k : TokenKind} (h : t.unplaced = mark k) : t.kind = k :=
  congrArg Lexeme.kind h

theorem text_eq_of_unplaced {t : Token} {k : TokenKind} {s : String}
    (h : t.unplaced = ⟨k, Text.ofString s⟩) : t.text = s := by
  have hlexeme : t.lexeme = Text.ofString s := congrArg Lexeme.text h
  rw [Token.text, hlexeme, Text.shown_ofString]

theorem Joint.outer_or_inner (joint : Joint) :
    outerJoint? joint.kind = some joint ∨ innerJoint? joint.kind = some joint := by
  cases joint <;> simp [Joint.kind, outerJoint?, innerJoint?]

/-- The grammar derives the expression from its lexemes, wherever they stand. -/
def Rederives (x : Nonterminal) (tree : x.Tree) (ws : List Lexeme) : Prop :=
  ∀ ts : List Token, ts.map Token.unplaced = ws → Derives x ts tree

theorem rederives_ref (name : String) : Rederives .primary (.ref name) (Expr.ref name).lexemes := by
  intro ts hts
  obtain ⟨t, rfl, ht⟩ := List.map_eq_singleton_iff.mp hts
  have hname := Derives.name (t := t) (congrArg Lexeme.kind ht)
  rwa [text_eq_of_unplaced ht] at hname

theorem rederives_binary {joint : Joint} {left right : Expr}
    (hleft : Rederives .primary left left.lexemes)
    (hright : Rederives .primary right right.lexemes) :
    Rederives .primary (.binary joint left right) (Expr.binary joint left right).lexemes := by
  intro ts hts
  obtain ⟨opening, ts, rfl, hopening, hts⟩ := List.map_eq_cons_iff.mp hts
  obtain ⟨us, ts, rfl, hus, hts⟩ := List.map_eq_append_iff.mp hts
  obtain ⟨t, ts, rfl, ht, hts⟩ := List.map_eq_cons_iff.mp hts
  obtain ⟨vs, ts, rfl, hvs, hts⟩ := List.map_eq_append_iff.mp hts
  obtain ⟨closing, rfl, hclosing⟩ := List.map_eq_singleton_iff.mp hts
  have hkind := kind_eq_of_unplaced ht
  have hinside : Derives .expression (us ++ t :: vs) (.binary joint left right) := by
    obtain houter | hinner := joint.outer_or_inner
    · exact .connected (.combination (.primary (hleft us hus))) (hkind ▸ houter)
        (.primary (hright vs hvs))
    · exact .combination (.combined (.primary (hleft us hus)) (hkind ▸ hinner) (hright vs hvs))
  have hparentheses := Derives.parentheses (kind_eq_of_unplaced hopening) hinside
    (kind_eq_of_unplaced hclosing)
  simpa using hparentheses

theorem rederives_arguments {e : Expr} {args : List Expr}
    (hargs : ∀ a ∈ e :: args, Rederives .argument a a.lexemes) :
    Rederives .arguments (e :: args)
      ([mark .comma].intercalate (Expr.lexemeLists (e :: args))) := by
  induction args generalizing e with
  | nil =>
      intro ts hts
      exact .last (hargs e List.mem_cons_self ts (by simpa [Expr.lexemeLists] using hts))
  | cons f more ih =>
      obtain ⟨he, hmore⟩ := List.forall_mem_cons.mp hargs
      intro ts hts
      rw [Expr.lexemeLists, Expr.lexemeLists, List.intercalate_cons_cons, List.append_assoc] at hts
      obtain ⟨us, ts, rfl, hus, hts⟩ := List.map_eq_append_iff.mp hts
      obtain ⟨comma, ts, rfl, hcomma, hts⟩ := List.map_eq_cons_iff.mp hts
      exact .more (he us hus) (kind_eq_of_unplaced hcomma) (ih hmore ts hts)

theorem rederives_call {name : String} {args : List Expr}
    (hargs : ∀ a ∈ args, Rederives .argument a a.lexemes) :
    Rederives .primary (.call name args) (Expr.call name args).lexemes := by
  intro ts hts
  obtain ⟨t, ts, rfl, ht, hts⟩ := List.map_eq_cons_iff.mp hts
  obtain ⟨opening, ts, rfl, hopening, hts⟩ := List.map_eq_cons_iff.mp hts
  obtain ⟨us, ts, rfl, hus, hts⟩ := List.map_eq_append_iff.mp hts
  obtain ⟨closing, rfl, hclosing⟩ := List.map_eq_singleton_iff.mp hts
  have hname : t.kind = .ident := congrArg Lexeme.kind ht
  rw [← text_eq_of_unplaced ht]
  cases args with
  | nil =>
      obtain rfl := List.map_eq_nil_iff.mp hus
      exact .callOfNothing hname (kind_eq_of_unplaced hopening) (kind_eq_of_unplaced hclosing)
  | cons e args =>
      exact .call hname (kind_eq_of_unplaced hopening) (rederives_arguments hargs us hus)
        (kind_eq_of_unplaced hclosing)

theorem writesInteger_of_unplaced {t : Token} {n : Nat} (ht : t.unplaced = Expr.digitsLexeme n)
    (hn : n < 2 ^ 63) : WritesInteger t n := by
  have htext : t.text.toList = Nat.toDigits 10 n := by
    rw [text_eq_of_unplaced ht, Nat.toString_eq_ofList_toDigits, String.toList_ofList]
  have hvalue := foldl_digits (Nat.toDigits 10 n) 0
  have hdigits := Nat.ofDigitChars_ten_toDigits (n := n)
  simp only [Nat.ofDigitChars, Nat.mul_comm 10] at hdigits
  rw [zero_mul, zero_add] at hvalue
  refine ⟨congrArg Lexeme.kind ht, ?_, fun c hc => ?_, ?_, hn⟩
  · rw [htext]
    exact Nat.toDigits_ne_nil
  · rw [htext] at hc
    have hc := Nat.isDigit_of_mem_toDigits (by decide) (by decide) hc
    simpa [Char.isDigit, Char.le_def] using hc
  · rw [htext, ← hvalue]
    exact hdigits

theorem rederives_number {value : Int} (h : value.natAbs < 2 ^ 63) :
    Rederives .argument (.number value) (Expr.number value).lexemes := by
  intro ts hts
  cases value with
  | ofNat n =>
      obtain ⟨t, rfl, ht⟩ := List.map_eq_singleton_iff.mp hts
      exact .number (writesInteger_of_unplaced ht h)
  | negSucc n =>
      obtain ⟨minus, ts, rfl, hminus, hts⟩ := List.map_eq_cons_iff.mp hts
      obtain ⟨t, rfl, ht⟩ := List.map_eq_singleton_iff.mp hts
      exact .negative (kind_eq_of_unplaced hminus) (writesInteger_of_unplaced ht h)

theorem rederives_quoted {value : Text} (h : (Expr.quoted value).isPlain) :
    Rederives .argument (.quoted value) (Expr.quoted value).lexemes := by
  intro ts hts
  obtain ⟨t, rfl, ht⟩ := List.map_eq_singleton_iff.mp hts
  have hlexeme : t.lexeme = .char '"' :: (value ++ [.char '"']) :=
    (congrArg Lexeme.text ht).trans (Expr.ofString_quotedText (Expr.isPlain_quoted_iff.mp h))
  have hstring := Derives.string (t := t) (congrArg Lexeme.kind ht)
  rwa [hlexeme, unquoted, List.drop_one, List.tail_cons, List.dropLast_concat] at hstring

/-! ## Reading the text back -/

/-- The text is cut into lexemes of which the grammar derives the same expression. -/
def Returns (x : Nonterminal) (tree : x.Tree) (e : Expr) : Prop :=
  e.isPlain → e.Legible ∧ Rederives x tree e.lexemes

def Reprints : (x : Nonterminal) → x.Tree → Prop
  | .expression, e | .combination, e | .primary, e => Returns .primary e e
  | .argument, e => Returns .argument e e
  | .arguments, args => ∀ a ∈ args, Returns .argument a a

theorem Reprints.binary {joint : Joint} {left right : Expr} (hleft : Returns .primary left left)
    (hright : Returns .primary right right) :
    Returns .primary (Expr.binary joint left right) (.binary joint left right) := by
  intro hplain
  obtain ⟨hplainLeft, hplainRight⟩ := Expr.isPlain_binary_iff.mp hplain
  exact ⟨Expr.legible_binary (hleft hplainLeft).1 (hright hplainRight).1,
    rederives_binary (hleft hplainLeft).2 (hright hplainRight).2⟩

theorem isName_text {t : Token} (ht : IsName t.lexeme) : IsName (Text.ofString t.text) := by
  rwa [Token.text, ht.ofString_shown]

theorem Reprints.call {t : Token} {args : List Expr} (ht : IsName t.lexeme)
    (hargs : ∀ a ∈ args, Returns .argument a a) :
    Returns .primary (Expr.call t.text args) (.call t.text args) := by
  intro hplain
  have hplain := Expr.isPlain_call_iff.mp hplain
  exact ⟨Expr.legible_call (isName_text ht) fun a ha => (hargs a ha (hplain a ha)).1,
    rederives_call fun a ha => (hargs a ha (hplain a ha)).2⟩

theorem Reprints.argument {e : Expr} (h : Returns .primary e e) : Returns .argument e e :=
  fun hplain => ⟨(h hplain).1, fun ts hts =>
    .expression (.combination (.primary ((h hplain).2 ts hts)))⟩

theorem Derives.reprints {x : Nonterminal} {ts : List Token} {tree : x.Tree}
    (h : Derives x ts tree) (hnames : ∀ t ∈ ts, t.kind = .ident → IsName t.lexeme) :
    Reprints x tree := by
  induction h with
  | combination _ ih | primary _ ih => exact ih hnames
  | connected _ _ _ ihleft ihright | combined _ _ _ ihleft ihright =>
      obtain ⟨hleft, hright⟩ := List.forall_mem_append.mp hnames
      exact .binary (ihleft hleft) (ihright fun t ht => hright t (List.mem_cons_of_mem _ ht))
  | name ht =>
      have hname := isName_text (hnames _ List.mem_cons_self ht)
      exact fun _ => ⟨Expr.legible_ref hname, rederives_ref _⟩
  | callOfNothing ht _ _ => exact .call (hnames _ List.mem_cons_self ht) (by simp)
  | call ht _ _ _ ih =>
      refine .call (hnames _ List.mem_cons_self ht) (ih fun t ht => hnames t ?_)
      simp [ht]
  | parentheses _ _ _ ih =>
      refine ih fun t ht => hnames t ?_
      simp [ht]
  | expression _ ih => exact .argument (ih hnames)
  | number h =>
      exact fun _ => ⟨Expr.legible_number _, rederives_number (by simpa using h.fits)⟩
  | negative _ h =>
      exact fun _ => ⟨Expr.legible_number _, rederives_number (by simpa using h.fits)⟩
  | string _ => exact fun hplain => ⟨Expr.legible_quoted hplain, rederives_quoted hplain⟩
  | last _ ih => exact List.forall_mem_singleton.mpr (ih hnames)
  | more _ _ _ iharg ihargs =>
      obtain ⟨harg, hargs⟩ := List.forall_mem_append.mp hnames
      exact List.forall_mem_cons.mpr
        ⟨iharg harg, ihargs fun t ht => hargs t (List.mem_cons_of_mem _ ht)⟩

theorem Derives.kind_ne_newline {x : Nonterminal} {ts : List Token} {tree : x.Tree}
    (h : Derives x ts tree) : ∀ t ∈ ts, t.kind ≠ .newline := by
  have houter : outerJoint? .newline = none := rfl
  have hinner : innerJoint? .newline = none := rfl
  induction h with
  | @connected t _ _ _ _ _ _ hjoint _ _ _ | @combined t _ _ _ _ _ _ hjoint _ _ _ =>
      have ht : t.kind ≠ .newline := by
        intro h
        simp [h, houter, hinner] at hjoint
      simp_all [or_imp]
  | number h | negative _ h => simp_all [h.kind]
  | _ => simp_all [or_imp]

theorem parseExpr_of_cuts {source : Text} {e : Expr} {ws : List Lexeme} (hcuts : Cuts source ws [])
    (hderives : Rederives .primary e ws) : parseExpr source = .ok e := by
  obtain ⟨ts, stop, hlexed, hts⟩ := tokenize_of_cuts hcuts
  have hexpr : Derives .expression ts e := .combination (.primary (hderives ts hts))
  have hsignificant : significant ts = ts := by
    rw [significant, List.filter_eq_self]
    exact fun t ht => decide_eq_true (hexpr.kind_ne_newline t ht)
  rw [parseExpr_of_tokenize hlexed, hsignificant, wholeExpr_eq_ok_iff.mpr hexpr]
  rfl

theorem parseExpr_ofString_text {source : Text} {e : Expr} (h : parseExpr source = .ok e)
    (hplain : e.isPlain) : parseExpr (Text.ofString e.text) = .ok e := by
  cases hlexed : tokenize source with
  | error fault =>
      rw [parseExpr, hlexed] at h
      cases h
  | ok q =>
      obtain ⟨ts, stop⟩ := q
      rw [parseExpr_of_tokenize hlexed] at h
      cases hwhole : wholeExpr stop (significant ts) with
      | error fault =>
          rw [hwhole] at h
          cases h
      | ok e' =>
          rw [hwhole] at h
          cases h
          have hreprints := (wholeExpr_eq_ok_iff.mp hwhole).reprints fun t ht =>
            isName_of_mem_tokenize hlexed (List.mem_of_mem_filter ht)
          obtain ⟨hlegible, hrederives⟩ := hreprints hplain
          have hcuts := hlegible [] (by simp [Expr.Closes])
          rw [List.append_nil] at hcuts
          exact parseExpr_of_cuts hcuts hrederives

/--
Parsing the text of a parsed expression gives the expression back, so no other parsed expression
has the same text, as long as quotes leave the characters of the strings as they are.
-/
theorem parseExpr_undoes_text {source : Text} {e : Expr} (h : parseExpr source = .ok e)
    (hplain : e.isPlain) :
    parseExpr (Text.ofString e.text) = .ok e ∧
      ∀ source' e', parseExpr source' = .ok e' → e'.isPlain → e'.text = e.text → e' = e := by
  have hback := parseExpr_ofString_text h hplain
  refine ⟨hback, fun source' e' h' hplain' htext => ?_⟩
  have hback' := parseExpr_ofString_text h' hplain'
  rw [htext, hback] at hback'
  exact (Except.ok.inj hback').symm

/-- Quoted text, a negative number and both levels. -/
def nestedSource : Text := Text.ofString "a << b(-2, \"x y\",\n c & d()) ~> e"

theorem parseExpr_undoes_text_nested : ∃ e, parseExpr nestedSource = .ok e ∧ e.isPlain ∧
    e.text = "((a << b(-2, \"x y\", (c & d()))) ~> e)" ∧
      parseExpr (Text.ofString e.text) = .ok e := by
  have hparses : (parseExpr nestedSource).toOption.map (fun e => (e.isPlain, e.text)) =
      some (true, "((a << b(-2, \"x y\", (c & d()))) ~> e)") := by decide +kernel
  cases hparsed : parseExpr nestedSource with
  | error fault =>
      rw [hparsed] at hparses
      cases hparses
  | ok e =>
      rw [hparsed] at hparses
      obtain ⟨hplain, htext⟩ := Prod.mk.inj (Option.some.inj hparses)
      exact ⟨e, rfl, hplain, htext, (parseExpr_undoes_text hparsed hplain).1⟩

end KernelAlgebra.Pipeline
