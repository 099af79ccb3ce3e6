import KernelAlgebra.Assembly.Lexer
import Mathlib.Data.List.TakeWhile

/-!
# Where tokens stand

The lexer counts lines and columns as it goes and takes the length of a lexeme off the column
behind it.  In a text of one-byte characters this gives the line and the column at which the lexeme
starts, and what is left out between the lexemes is blanks and comments.
-/

namespace KernelAlgebra

def Glyph.isAscii : Glyph → Bool
  | char c => c.toNat < 128
  | stray _ => false

theorem Glyph.width_of_isAscii {g : Glyph} (h : g.isAscii = true) : g.width = 1 := by
  cases g with
  | stray _ => cases h
  | char c =>
      have hlt : c.toNat < 128 := by simpa [isAscii] using h
      exact Char.utf8Size_eq_one_iff.mpr (Nat.le_of_lt_succ hlt)

namespace Assembly

/-! ## Places -/

namespace Position

/-- The place behind the front of a source: lines count line feeds, columns count from the last. -/
def behind (front : Text) : Position :=
  ⟨1 + front.count (.char '\n'), 1 + (front.reverse.takeWhile notLineFeed).length⟩

def Before (p q : Position) : Prop :=
  p.line < q.line ∨ p.line = q.line ∧ p.column < q.column

variable {p q r : Position} {g : Glyph} {front t : Text}

theorem Before.trans (h : p.Before q) (h' : q.Before r) : p.Before r := by
  unfold Before at *
  omega

theorem Before.irrefl : ¬ p.Before p := by
  unfold Before
  omega

theorem before_after (p : Position) (g : Glyph) : p.Before (p.after g) := by
  unfold Before after
  split
  · exact .inl (Nat.lt_succ_self _)
  · exact .inr ⟨rfl, Int.lt_succ _⟩

theorem before_afterAll (p : Position) (ht : t ≠ []) : p.Before (p.afterAll t) := by
  induction t generalizing p with
  | nil => exact absurd rfl ht
  | cons g rest ih =>
      cases rest with
      | nil => exact p.before_after g
      | cons g' rest => exact (p.before_after g).trans (ih (p.after g) (by simp))

theorem behind_nil : behind [] = first := rfl

theorem behind_concat (front : Text) (g : Glyph) :
    behind (front ++ [g]) = (behind front).after g := by
  unfold behind after
  by_cases hg : g = .char '\n'
  · simp [hg, notLineFeed, Nat.add_assoc]
  · simp [hg, notLineFeed, Int.add_assoc]

theorem behind_append (front t : Text) : behind (front ++ t) = (behind front).afterAll t := by
  induction t generalizing front with
  | nil => simp [afterAll]
  | cons g rest ih =>
      have hrest := ih (front ++ [g])
      rw [List.append_assoc, behind_concat] at hrest
      exact hrest

/-- A place in a source is the place behind one front only. -/
theorem behind_injective {source front' : Text} (hfront : front <+: source)
    (hfront' : front' <+: source) (h : behind front = behind front') : front = front' := by
  have hextends : ∀ {s t : Text}, s <+: t → behind s = behind t → s = t := by
    rintro s t ⟨more, rfl⟩ hsame
    by_contra hne
    have hbefore := (behind s).before_afterAll (t := more) fun hmore => hne (by simp [hmore])
    rw [← behind_append, ← hsame] at hbefore
    exact Before.irrefl hbefore
  rcases List.prefix_or_prefix_of_prefix hfront hfront' with hprefix | hprefix
  · exact hextends hprefix h
  · exact (hextends hprefix h.symm).symm

theorem columnOf_of_ascii (p : Position) (ht : ∀ g ∈ t, g.isAscii) : p.columnOf t = p.column := by
  have hlength : t.byteLength = t.length := by
    induction t with
    | nil => rfl
    | cons g rest ih =>
        rw [Text.byteLength_cons, ih fun h hh => ht h (by simp [hh]),
          Glyph.width_of_isAscii (ht g (by simp)), List.length_cons, Nat.add_comm]
  simp [columnOf, hlength]

end Position

/-! ## Gaps -/

/--
The rest of a comment that is so deep, up to what follows it: the comment closes as often as it has
been opened, or goes on to the end of the source.
-/
inductive Nested : Nat → Text → Text → Prop
  | done {after : Text} : Nested 0 [] after
  | unclosed {depth : Nat} : Nested (depth + 1) [] []
  | opening {depth : Nat} {inside after : Text} : Nested (depth + 2) inside after →
      Nested (depth + 1) (.char '/' :: .char '*' :: inside) after
  | closing {depth : Nat} {inside after : Text} : Nested depth inside after →
      Nested (depth + 1) (.char '*' :: .char '/' :: inside) after
  | other {depth : Nat} {g : Glyph} {inside after : Text} :
      ¬ [.char '/', .char '*'] <+: g :: (inside ++ after) →
      ¬ [.char '*', .char '/'] <+: g :: (inside ++ after) →
      Nested (depth + 1) inside after → Nested (depth + 1) (g :: inside) after

/-- What may stand between tokens: a blank, or a comment as a whole. -/
inductive IsGap : Text → Text → Prop
  | blank {c : Char} {after : Text} : c ∈ [' ', '\t', '\r'] → IsGap [.char c] after
  | lineComment {mark inside after : Text} : mark ∈ [[.char '#'], [.char '/', .char '/']] →
      .char '\n' ∉ inside → (∀ g ∈ after.head?, g = .char '\n') → IsGap (mark ++ inside) after
  | blockComment {inside after : Text} : Nested 1 inside after →
      IsGap (.char '/' :: .char '*' :: inside) after

theorem nested_commentCount (depth : Nat) (t : Text) :
    Nested depth (t.take (commentCount depth t)) (t.drop (commentCount depth t)) := by
  fun_induction commentCount depth t with
  | case1 => exact .done
  | case2 => exact .unclosed
  | case3 depth rest ih => simpa [Nat.add_comm 2] using Nested.opening ih
  | case4 depth rest ih => simpa [Nat.add_comm 2] using Nested.closing ih
  | case5 depth g rest hopening hclosing ih =>
      have hopening' : ¬ [.char '/', .char '*'] <+: g :: rest := by
        rintro ⟨more, hmore⟩
        obtain ⟨rfl, rfl⟩ := List.cons.inj hmore
        exact hopening _ rfl rfl
      have hclosing' : ¬ [.char '*', .char '/'] <+: g :: rest := by
        rintro ⟨more, hmore⟩
        obtain ⟨rfl, rfl⟩ := List.cons.inj hmore
        exact hclosing _ rfl rfl
      rw [Nat.add_comm 1, List.take_succ_cons, List.drop_succ_cons]
      exact .other (by rwa [List.take_append_drop]) (by rwa [List.take_append_drop]) ih

theorem isGap_lineComment {mark : Text} (hmark : mark ∈ [[.char '#'], [.char '/', .char '/']])
    (rest : Text) : IsGap (mark ++ rest.take (leadingCount notLineFeed rest))
      (rest.drop (leadingCount notLineFeed rest)) := by
  have htake : rest.take (leadingCount notLineFeed rest) = rest.takeWhile notLineFeed :=
    (List.prefix_iff_eq_take.mp (List.takeWhile_prefix notLineFeed)).symm
  have hdrop : rest.drop (leadingCount notLineFeed rest) = rest.dropWhile notLineFeed := by
    have hparts := List.take_append_drop (leadingCount notLineFeed rest) rest
    rw [htake] at hparts
    exact List.append_cancel_left (hparts.trans List.takeWhile_append_dropWhile.symm)
  rw [htake, hdrop]
  refine .lineComment hmark ?_ ?_
  · intro hmem
    simpa [notLineFeed] using List.mem_takeWhile_imp hmem
  · intro g hg
    have hstop := List.head?_dropWhile_not notLineFeed rest
    rw [hg] at hstop
    simpa [notLineFeed] using hstop

theorem isGap_of_scan {g : Glyph} {rest : Text} {more : Nat} (hg : g.isAscii)
    (h : scan g rest = .skip more) : IsGap (g :: rest.take more) (rest.drop more) := by
  cases g with
  | stray _ => cases hg
  | char c =>
  unfold scan at h
  -- one case for each mark, then numbers, words and strays
  split at h
  case h_12 =>
    unfold scanString at h
    dsimp only at h
    split at h <;> cases h
  case h_13 _ hrune =>
    cases h
    obtain rfl : c = '#' := hrune
    exact isGap_lineComment (List.mem_cons_self ..) rest
  case h_14 _ hrune =>
    obtain rfl : c = '/' := hrune
    split at h
    · rename_i inside
      cases h
      rw [Nat.add_comm 1]
      exact isGap_lineComment (List.mem_cons_of_mem _ (List.mem_singleton_self _)) inside
    · rename_i inside
      cases h
      rw [Nat.add_comm 1]
      exact .blockComment (nested_commentCount 1 inside)
    · cases h
  case h_17 _ hrune | h_18 _ hrune | h_19 _ hrune =>
    cases h
    change c = _ at hrune
    subst hrune
    exact .blank (by simp)
  case h_20 =>
    unfold scanWord at h
    dsimp only at h
    split at h
    · cases h
    · split at h <;> cases h
  -- the other marks start tokens or errors
  all_goals first | cases h | (split at h <;> cases h)

/-! ## Sources -/

/--
Behind the front of a source, its rest is made of these tokens and of gaps.  Each token says where
it starts.
-/
inductive Laid : Text → List Token → Text → Prop
  | done {front : Text} : Laid front [] []
  | token {front rest : Text} {t : Token} {ts : List Token} : t.lexeme ≠ [] →
      t.start = Position.behind front → Laid (front ++ t.lexeme) ts rest →
      Laid front (t :: ts) (t.lexeme ++ rest)
  | gap {front gap rest : Text} {ts : List Token} : IsGap gap rest → Laid (front ++ gap) ts rest →
      Laid front ts (gap ++ rest)

theorem laid_tokensFrom {source front rest : Text} {ts : List Token} {last : Position}
    (hascii : ∀ g ∈ rest, g.isAscii)
    (h : tokensFrom source (Position.behind front) rest = .ok (ts, last)) :
    Laid front ts rest ∧ last = Position.behind (front ++ rest) := by
  generalize hp : Position.behind front = p at h
  fun_induction tokensFrom source p rest generalizing front ts last with
  | case1 p =>
      cases h
      exact ⟨.done, by simp [hp]⟩
  | case2 p g rest kind more hscan lexeme ts' last' hrest =>
      rename_i ih
      cases h
      subst hp
      have hparts : g :: rest = lexeme ++ rest.drop more := by simp [lexeme]
      rw [hparts] at hascii ⊢
      have hlexeme : ∀ g ∈ lexeme, g.isAscii := fun g hg => hascii g (by simp [hg])
      obtain ⟨hlaid, hlast⟩ := ih (fun g hg => hascii g (List.mem_append_right _ hg))
        (Position.behind_append front lexeme) hrest
      refine ⟨.token (by simp [lexeme]) ?_ hlaid, by rw [hlast, List.append_assoc]⟩
      simp [Token.start, Position.columnOf_of_ascii _ hlexeme]
  | case3 => cases h
  | case4 p g rest more hscan ih =>
      subst hp
      have hgap := isGap_of_scan (hascii g (by simp)) hscan
      have hparts : g :: rest = (g :: rest.take more) ++ rest.drop more := by simp
      rw [hparts] at hascii ⊢
      obtain ⟨hlaid, hlast⟩ := ih (fun g hg => hascii g (List.mem_append_right _ hg))
        (Position.behind_append front _) h
      exact ⟨.gap hgap hlaid, by rw [hlast, List.append_assoc]⟩
  | case5 => cases h

theorem Laid.substring {front rest : Text} {ts : List Token} (h : Laid front ts rest) :
    ∀ t ∈ ts, ∃ skipped after, rest = skipped ++ t.lexeme ++ after ∧
      t.start = Position.behind (front ++ skipped) := by
  induction h with
  | done => simp
  | @token front rest t ts _ hstart _ ih =>
      intro u hu
      rcases List.mem_cons.mp hu with rfl | hu
      · exact ⟨[], rest, rfl, by rwa [List.append_nil]⟩
      · obtain ⟨skipped, after, rfl, hu⟩ := ih u hu
        exact ⟨t.lexeme ++ skipped, after, by simp, by rw [hu, List.append_assoc]⟩
  | @gap front gap rest ts _ _ ih =>
      intro u hu
      obtain ⟨skipped, after, rfl, hu⟩ := ih u hu
      exact ⟨gap ++ skipped, after, by simp, by rw [hu, List.append_assoc]⟩

theorem Laid.increasing {front rest : Text} {ts : List Token} {stop : Token}
    (h : Laid front ts rest) (hstop : stop.start = Position.behind (front ++ rest)) :
    (ts ++ [stop]).Pairwise fun t u => t.start.Before u.start := by
  induction h with
  | done => simp
  | @token front rest t ts hne hstart hrest ih =>
      rw [← List.append_assoc] at hstop
      refine List.pairwise_cons.mpr ⟨fun u hu => ?_, ih hstop⟩
      -- whatever starts later has the lexeme in front of it
      have hlater : ∀ more, t.start.Before (Position.behind (front ++ t.lexeme ++ more)) := by
        intro more
        rw [hstart, List.append_assoc, Position.behind_append]
        exact Position.before_afterAll _ (by simp [hne])
      rcases List.mem_append.mp hu with hu | hu
      · obtain ⟨skipped, _, _, hu⟩ := hrest.substring u hu
        exact hu ▸ hlater skipped
      · rw [List.mem_singleton.mp hu, hstop]
        exact hlater rest
  | gap _ _ ih => exact ih (by rw [hstop, List.append_assoc])

/--
The lexemes of a source of one-byte characters start at the lines and columns of their tokens, these
places increase up to the end of the source, and nothing is left out but blanks and comments.
-/
theorem tokenize_places {source : Text} {ts : List Token} {stop : Token}
    (hascii : ∀ g ∈ source, g.isAscii) (h : tokenize source = .ok (ts, stop)) :
    (∀ t ∈ ts, ∃ before after, source = before ++ t.lexeme ++ after ∧
      ∀ front, front <+: source → (Position.behind front = t.start ↔ front = before)) ∧
    (ts ++ [stop]).Pairwise (fun t u => t.start.Before u.start) ∧
    stop = endToken (Position.behind source) ∧ Laid [] ts source := by
  unfold tokenize at h
  cases hts : tokensFrom source Position.first source with
  | error e =>
      rw [hts] at h
      cases h
  | ok q =>
      obtain ⟨ts', last⟩ := q
      rw [hts] at h
      cases h
      rw [← Position.behind_nil] at hts
      obtain ⟨hlaid, rfl⟩ := laid_tokensFrom hascii hts
      refine ⟨fun t ht => ?_, hlaid.increasing rfl, rfl, hlaid⟩
      obtain ⟨before, after, hparts, hstart⟩ := hlaid.substring t ht
      refine ⟨before, after, hparts, fun front hfront => ?_⟩
      have hbefore : before <+: source := ⟨t.lexeme ++ after, by rw [hparts, List.append_assoc]⟩
      rw [hstart]
      exact ⟨Position.behind_injective hfront hbefore, fun hsame => hsame ▸ rfl⟩

/-- A declaration behind a comment in a comment, an assignment and the end of a comment. -/
def commentedSource : Text :=
  Text.ofString "temp /* of\n /* 4 */ lanes */ t:4 # four\nt = x ~> y1; // done\n\t\"s\" 1.5e+3/*"

theorem tokenize_places_commented : ∃ ts stop, tokenize commentedSource = .ok (ts, stop) ∧
    ts.map (fun t => (t.text, t.line, t.column)) =
      [("temp", 1, 1), ("t", 2, 19), (":", 2, 20), ("4", 2, 21), ("\n", 2, 29), ("t", 3, 1),
        ("=", 3, 3), ("x", 3, 5), ("~>", 3, 7), ("y1", 3, 10), (";", 3, 12), ("\n", 3, 21),
        ("\"s\"", 4, 2), ("1.5e+3", 4, 6)] ∧
    (ts ++ [stop]).Pairwise (fun t u => t.start.Before u.start) ∧ Laid [] ts commentedSource := by
  have hplaces : (tokenize commentedSource).toOption.map
      (fun q => q.1.map fun t => (t.text, t.line, t.column)) =
      some [("temp", 1, 1), ("t", 2, 19), (":", 2, 20), ("4", 2, 21), ("\n", 2, 29), ("t", 3, 1),
        ("=", 3, 3), ("x", 3, 5), ("~>", 3, 7), ("y1", 3, 10), (";", 3, 12), ("\n", 3, 21),
        ("\"s\"", 4, 2), ("1.5e+3", 4, 6)] := by decide +kernel
  cases hlexed : tokenize commentedSource with
  | error fault =>
      rw [hlexed] at hplaces
      cases hplaces
  | ok q =>
      rw [hlexed] at hplaces
      obtain ⟨_, hincreasing, _, hlaid⟩ := tokenize_places (by decide +kernel) hlexed
      exact ⟨q.1, q.2, rfl, Option.some.inj hplaces, hincreasing, hlaid⟩

end Assembly

end KernelAlgebra
