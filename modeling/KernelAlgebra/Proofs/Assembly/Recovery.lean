import KernelAlgebra.Assembly.Parser
import Mathlib.Data.List.Forall2

/-!
# Errors stay in their lines

The parser reads a line as if the line stood alone: what it takes, finds and complains about does
not depend on the tokens behind the line, and whatever it stumbles over, it goes on behind the
newline.  So a source is parsed line by line, and each line adds to the result on its own.
-/

namespace KernelAlgebra.Assembly

/-! ## A line in its source and by itself -/

/--
A cursor in a source and one in the line by itself.  The line goes up to `ending`, which is empty or
starts with a newline; the tokens read last are compared only if they belong to the line.
-/
structure Alongside (last : Token) (ending : List Token) (read : Bool) (c line : Cursor) :
    Prop where
  last_kind : last.kind = .eof
  rest : c.rest = line.rest ++ ending
  stop : c.stop = last
  lineStop : line.stop = ending.headD last
  within : ∀ t ∈ line.rest, t.kind ≠ .newline ∧ t.kind ≠ .eof
  ends : ∀ t ∈ ending.head?, t.kind = .newline
  previous : read = true → c.previous = line.previous

def Alike {α : Type} (last : Token) (ending : List Token) (read : α → Bool) :
    EStateM.Result ParseFault Cursor α → EStateM.Result ParseFault Cursor α → Prop
  | .ok a c, .ok a' line => a = a' ∧ Alongside last ending (read a) c line
  | .error f c, .error f' line => f = f' ∧ Alongside last ending false c line
  | _, _ => False

def Agree {α : Type} (last : Token) (ending : List Token) (c line : Cursor) (p : LineParser α)
    (after : α → Bool) : Prop :=
  Alike last ending after (p c) (p line)

/--
The parser does not look behind its line; `after` tells for which results a token has been read.
-/
structure Confined {α : Type} (before : Bool) (p : LineParser α) (after : α → Bool) : Prop where
  agree {last : Token} {ending : List Token} {c line : Cursor} :
    Alongside last ending before c line → Agree last ending c line p after

section

variable {α β : Type}

theorem bind_of_ok {p : LineParser α} {f : α → LineParser β} {c c' : Cursor} {a : α}
    (h : p c = .ok a c') : (p >>= f) c = f a c' := by
  change EStateM.bind p f c = _
  unfold EStateM.bind
  rw [h]

theorem bind_congr_at {p q : LineParser α} {f g : α → LineParser β} {c : Cursor} (hpq : p c = q c)
    (hfg : ∀ a c', q c = .ok a c' → f a c' = g a c') : (p >>= f) c = (q >>= g) c := by
  change EStateM.bind p f c = EStateM.bind q g c
  unfold EStateM.bind
  rw [hpq]
  cases hc : q c with
  | ok a c' => exact hfg a c' hc
  | error e c' => rfl

theorem bind_of_error {p : LineParser α} {f : α → LineParser β} {c c' : Cursor} {e : ParseFault}
    (h : p c = .error e c') : (p >>= f) c = .error e c' := by
  change EStateM.bind p f c = _
  unfold EStateM.bind
  rw [h]

end

section

variable {α β : Type} {last : Token} {ending : List Token} {c line : Cursor} {b : Bool}
  {after : α → Bool} {k : TokenKind}

theorem Alongside.unread (h : Alongside last ending b c line) :
    Alongside last ending false c line :=
  { h with previous := fun h => absurd h (by decide) }

theorem Confined.pure (x : α) (h : after x = true → b = true) : Confined b (pure x) after :=
  ⟨fun hcursors => ⟨rfl, { hcursors with previous := fun hread => hcursors.previous (h hread) }⟩⟩

theorem Confined.complain (t : Token) (complaint : ParseComplaint) :
    Confined b (LineParser.complain t complaint) after :=
  ⟨fun h => ⟨rfl, h.unread⟩⟩

theorem Agree.bind {p : LineParser α} {f : α → LineParser β} {after' : β → Bool}
    (hp : Agree last ending c line p after) (hf : ∀ x, Confined (after x) (f x) after') :
    Agree last ending c line (p >>= f) after' := by
  unfold Agree at hp ⊢
  cases hc : p c <;> cases hline : p line <;> rw [hc, hline] at hp
  case ok.ok =>
    obtain ⟨rfl, h⟩ := hp
    rw [bind_of_ok hc, bind_of_ok hline]
    exact (hf _).agree h
  case error.error =>
    rw [bind_of_error hc, bind_of_error hline]
    exact hp
  all_goals exact hp.elim

theorem Confined.bind {p : LineParser α} {f : α → LineParser β} {after' : β → Bool}
    (hp : Confined b p after) (hf : ∀ x, Confined (after x) (f x) after') :
    Confined b (p >>= f) after' :=
  ⟨fun h => (hp.agree h).bind hf⟩

/-! ## The parser's steps -/

theorem Alongside.step (h : Alongside last ending b c line) {t : Token} {rest : List Token}
    (hline : line.rest = t :: rest) :
    Alongside last ending true { c with previous := t, rest := rest ++ ending }
      { line with previous := t, rest := rest } where
  last_kind := h.last_kind
  rest := rfl
  stop := h.stop
  lineStop := h.lineStop
  within u hu := h.within u (by rw [hline]; exact List.mem_cons_of_mem t hu)
  ends := h.ends
  previous _ := rfl

theorem Alongside.headD (h : Alongside last ending b c line) :
    c.rest.headD c.stop = line.rest.headD line.stop := by
  rw [h.rest, h.stop, h.lineStop]
  cases line.rest <;> rfl

theorem Confined.peek : Confined b LineParser.peek fun _ => b :=
  ⟨fun h => ⟨h.headD, h⟩⟩

theorem Confined.spanFrom (start : Token) :
    Confined true (LineParser.spanFrom start) fun _ => true :=
  ⟨fun h => ⟨by rw [h.previous rfl], h⟩⟩

theorem Alongside.advance (h : Alongside last ending b c line) (hne : line.rest ≠ []) :
    Agree last ending c line LineParser.advance fun _ => true := by
  obtain ⟨t, rest, hline⟩ := List.exists_cons_of_ne_nil hne
  have hc := h.rest
  rw [hline] at hc
  obtain ⟨previous, _, stop⟩ := c
  obtain ⟨previous', _, stop'⟩ := line
  subst hline hc
  exact ⟨rfl, h.step rfl⟩

theorem Alongside.head?_kind (h : Alongside last ending b c line) (hk : k ≠ .newline) :
    (c.rest.head?.map Token.kind == some k) = (line.rest.head?.map Token.kind == some k) := by
  rw [h.rest]
  cases line.rest with
  | cons t rest => rfl
  | nil =>
      cases hending : ending with
      | nil => rfl
      | cons t rest =>
          have ht := h.ends t (by rw [hending]; rfl)
          simpa [ht] using hk.symm

theorem Confined.check (hk : k ≠ .newline) : Confined b (LineParser.check k) fun _ => b :=
  ⟨fun h => ⟨h.head?_kind hk, h⟩⟩

theorem Confined.take? (hk : k ≠ .newline) :
    Confined b (LineParser.take? k) fun t => t.isSome || b := by
  refine ⟨fun {last ending c line} h => ?_⟩
  have hc : LineParser.check k c = .ok (line.rest.head?.map Token.kind == some k) c := by
    rw [← h.head?_kind hk]
    rfl
  have hline : LineParser.check k line = .ok (line.rest.head?.map Token.kind == some k) line := rfl
  unfold LineParser.take? Agree
  rw [bind_of_ok hc, bind_of_ok hline]
  split
  · rename_i hnext
    have hne : line.rest ≠ [] := by
      intro hnil
      rw [hnil] at hnext
      cases hnext
    exact (h.advance hne).bind fun t => .pure _ fun _ => rfl
  · exact (Confined.pure none (by simp)).agree h

theorem Confined.accept (hk : k ≠ .newline) :
    Confined b (LineParser.accept k) fun taken => taken || b :=
  (Confined.take? hk).bind fun _ => .pure _ id

theorem Confined.expect (hk : k ≠ .newline) : Confined b (LineParser.expect k) fun _ => true := by
  refine (Confined.take? hk).bind fun t => ?_
  cases t with
  | some t => exact .pure t fun _ => rfl
  | none => exact Confined.peek.bind fun t => .complain t _

theorem Confined.number : Confined b LineParser.number fun _ => true := by
  refine (Confined.expect (by decide)).bind fun t => ?_
  split
  · exact .pure _ id
  · exact .complain t _

theorem Confined.signedNumber : Confined b LineParser.signedNumber fun _ => true :=
  (Confined.accept (by decide)).bind fun _ => Confined.number.bind fun _ => .pure _ id

theorem Confined.separated_succ {item : LineParser α} {fuel : Nat}
    (hitem : ∀ b, Confined b item fun _ => true)
    (hmore : Confined true (LineParser.separated item fuel) fun _ => true) :
    Confined b (LineParser.separated item (fuel + 1)) fun _ => true := by
  refine (hitem b).bind fun x => (Confined.accept (by decide)).bind fun taken => ?_
  cases taken with
  | true => exact hmore.bind fun more => .pure _ id
  | false => exact .pure _ id

theorem Confined.separated {item : LineParser α} (hitem : ∀ b, Confined b item fun _ => true)
    (fuel : Nat) : Confined true (LineParser.separated item fuel) fun _ => true := by
  induction fuel with
  | zero => exact .pure _ id
  | succ fuel ih => exact .separated_succ hitem ih

/-! ## Lists end before the tokens do -/

structure Consumes (p : LineParser α) (n : α → Nat) : Prop where
  length_le {c : Cursor} {a : α} {c' : Cursor} :
    p c = .ok a c' → c'.rest.length + n a ≤ c.rest.length

section

variable {n : α → Nat}

theorem Consumes.pure (x : α) (h : n x = 0) : Consumes (pure x) n := by
  constructor
  rintro c a c' ⟨⟩
  exact Nat.le_of_eq (by rw [h, Nat.add_zero])

theorem Consumes.complain (t : Token) (complaint : ParseComplaint) :
    Consumes (LineParser.complain t complaint) n := by
  constructor
  rintro c a c' ⟨⟩

theorem Consumes.bind {p : LineParser α} {f : α → LineParser β} {m : β → Nat}
    (hp : Consumes p n) (hf : ∀ x, Consumes (f x) fun y => m y - n x) : Consumes (p >>= f) m := by
  constructor
  intro c b c'' h
  cases hc : p c with
  | error e c' =>
      rw [bind_of_error hc] at h
      cases h
  | ok a c' =>
      rw [bind_of_ok hc] at h
      have hfirst := hp.length_le hc
      have hsecond : c''.rest.length + (m b - n a) ≤ c'.rest.length := (hf a).length_le h
      omega

theorem Consumes.peek : Consumes LineParser.peek fun _ => 0 := by
  constructor
  rintro c a c' ⟨⟩
  exact Nat.le_refl _

theorem Consumes.check (k : TokenKind) : Consumes (LineParser.check k) fun _ => 0 := by
  constructor
  rintro c a c' ⟨⟩
  exact Nat.le_refl _

theorem Consumes.spanFrom (start : Token) : Consumes (LineParser.spanFrom start) fun _ => 0 := by
  constructor
  rintro c a c' ⟨⟩
  exact Nat.le_refl _

theorem Consumes.take? (k : TokenKind) :
    Consumes (LineParser.take? k) fun t => if t.isSome then 1 else 0 := by
  constructor
  rintro ⟨previous, rest, stop⟩ a c' h
  have hcheck : LineParser.check k ⟨previous, rest, stop⟩ =
      .ok (rest.head?.map Token.kind == some k) ⟨previous, rest, stop⟩ := rfl
  unfold LineParser.take? at h
  rw [bind_of_ok hcheck] at h
  cases rest with
  | nil =>
      cases h
      exact Nat.le_refl _
  | cons t rest => split at h <;> cases h <;> exact Nat.le_refl _

theorem Consumes.accept (k : TokenKind) :
    Consumes (LineParser.accept k) fun taken => if taken then 1 else 0 := by
  refine (Consumes.take? k).bind fun t => ?_
  cases t <;> exact .pure _ rfl

theorem Consumes.expect (k : TokenKind) : Consumes (LineParser.expect k) fun _ => 1 := by
  refine (Consumes.take? k).bind fun t => ?_
  cases t with
  | some t => exact .pure t rfl
  | none => exact Consumes.peek.bind fun t => .complain t _

theorem Consumes.number : Consumes LineParser.number fun _ => 1 := by
  refine (Consumes.expect _).bind fun t => ?_
  split
  · exact .pure _ rfl
  · exact .complain t _

theorem Consumes.signedNumber : Consumes LineParser.signedNumber fun _ => 1 := by
  refine (Consumes.accept _).bind fun neg => Consumes.number.bind fun x => .pure _ ?_
  cases neg <;> rfl

theorem Consumes.separated {item : LineParser α} (hitem : Consumes item fun _ => 1) (fuel : Nat) :
    Consumes (LineParser.separated item fuel) fun _ => 0 := by
  induction fuel with
  | zero => exact .pure _ rfl
  | succ fuel ih =>
      refine hitem.bind fun x => (Consumes.accept _).bind fun taken => ?_
      cases taken with
      | true => exact ih.bind fun more => .pure _ rfl
      | false => exact .pure _ rfl

theorem Consumes.listOf {item : LineParser α} (hitem : Consumes item fun _ => 1) :
    Consumes (LineParser.listOf item) fun _ => 0 :=
  ⟨fun h => (Consumes.separated hitem _).length_le h⟩

theorem Consumes.operand : Consumes LineParser.operand fun _ => 1 := by
  refine Consumes.peek.bind fun start => (Consumes.accept _).bind fun neg =>
    (Consumes.check _).bind fun literal => ?_
  split
  · exact Consumes.number.bind fun x => (Consumes.spanFrom start).bind fun span =>
      .pure _ (by cases neg <;> rfl)
  · refine (Consumes.accept _).bind fun opened => ?_
    cases opened with
    | true =>
        exact (Consumes.listOf .signedNumber).bind fun values =>
          (Consumes.expect _).bind fun closing => (Consumes.spanFrom start).bind fun span =>
            .pure _ (by cases neg <;> rfl)
    | false =>
        refine (Consumes.take? _).bind fun name => ?_
        cases name with
        | none => exact Consumes.peek.bind fun t => .complain t _
        | some name =>
            refine (Consumes.accept _).bind fun dotted => ?_
            cases dotted with
            | true =>
                exact (Consumes.expect _).bind fun selector =>
                  (Consumes.spanFrom start).bind fun span => .pure _ (by cases neg <;> rfl)
            | false =>
                exact (Consumes.pure (n := fun _ => 0) _ rfl).bind fun selector =>
                  (Consumes.spanFrom start).bind fun span => .pure _ (by cases neg <;> rfl)

theorem separated_eq_of_length_lt {item : LineParser α} (hitem : Consumes item fun _ => 1)
    {c : Cursor} {fuel fuel' : Nat} (h : c.rest.length < fuel) (h' : c.rest.length < fuel') :
    LineParser.separated item fuel c = LineParser.separated item fuel' c := by
  induction fuel generalizing c fuel' with
  | zero => omega
  | succ fuel ih =>
      cases fuel' with
      | zero => omega
      | succ fuel' =>
          refine bind_congr_at rfl fun x c₁ hc₁ => bind_congr_at rfl fun taken c₂ hc₂ => ?_
          have hfirst : c₁.rest.length + 1 ≤ c.rest.length := hitem.length_le hc₁
          have hcomma : c₂.rest.length ≤ c₁.rest.length :=
            Nat.le_trans (Nat.le_add_right ..) ((Consumes.accept _).length_le hc₂)
          cases taken with
          | false => rfl
          | true => exact bind_congr_at (ih (by omega) (by omega)) fun _ _ _ => rfl

theorem attributes_eq_of_length_lt {name semantic scalar : String} {c : Cursor} {fuel fuel' : Nat}
    (h : c.rest.length < fuel) (h' : c.rest.length < fuel') :
    LineParser.attributes name fuel semantic scalar c =
      LineParser.attributes name fuel' semantic scalar c := by
  induction fuel generalizing semantic scalar c fuel' with
  | zero => omega
  | succ fuel ih =>
      cases fuel' with
      | zero => omega
      | succ fuel' =>
          refine bind_congr_at rfl fun word c' hc' => ?_
          have hword := (Consumes.take? _).length_le hc'
          cases word with
          | none => rfl
          | some t =>
              have hlt : c'.rest.length + 1 ≤ c.rest.length := hword
              dsimp only
              split
              · split
                · rfl
                · exact ih (by omega) (by omega)
              · split
                · rfl
                · exact ih (by omega) (by omega)

end

/-! ## Content -/

theorem Alongside.length_le (h : Alongside last ending b c line) :
    line.rest.length ≤ c.rest.length := by
  rw [h.rest, List.length_append]
  omega

theorem Confined.listOf {item : LineParser α} (hitem : ∀ b, Confined b item fun _ => true)
    (htakes : Consumes item fun _ => 1) : Confined b (LineParser.listOf item) fun _ => true := by
  refine ⟨fun {last ending c line} h => ?_⟩
  have hle := h.length_le
  have hline : LineParser.listOf item line = LineParser.separated item (c.rest.length + 1) line :=
    separated_eq_of_length_lt htakes (by omega) (by omega)
  rw [Agree, hline]
  exact (Confined.separated_succ hitem (.separated hitem _)).agree h

theorem Confined.operand : Confined b LineParser.operand fun _ => true := by
  refine Confined.peek.bind fun start => (Confined.accept (by decide)).bind fun neg =>
    (Confined.check (by decide)).bind fun literal => ?_
  split
  · exact Confined.number.bind fun x => (Confined.spanFrom start).bind fun span => .pure _ id
  · refine (Confined.accept (by decide)).bind fun opened => ?_
    cases opened with
    | true =>
        exact (Confined.listOf (fun _ => .signedNumber) .signedNumber).bind fun values =>
          (Confined.expect (by decide)).bind fun closing =>
            (Confined.spanFrom start).bind fun span => .pure _ id
    | false =>
        refine (Confined.take? (by decide)).bind fun name => ?_
        cases name with
        | none => exact Confined.peek.bind fun t => .complain t _
        | some name =>
            refine (Confined.accept (by decide)).bind fun dotted => ?_
            cases dotted with
            | true =>
                exact (Confined.expect (by decide)).bind fun selector =>
                  (Confined.spanFrom start).bind fun span => .pure _ id
            | false =>
                have hpure (t : Token) : Confined true (Pure.pure t) fun _ => true := .pure t id
                exact (hpure _).bind fun selector =>
                  (Confined.spanFrom start).bind fun span => .pure _ id

theorem Confined.attributes (name : String) (fuel : Nat) (semantic scalar : String) :
    Confined true (LineParser.attributes name fuel semantic scalar) fun _ => true := by
  induction fuel generalizing semantic scalar with
  | zero => exact .pure _ id
  | succ fuel ih =>
      refine (Confined.take? (by decide)).bind fun word => ?_
      cases word with
      | none => exact .pure _ id
      | some t =>
          dsimp only
          split
          · split
            · exact .complain t _
            · exact ih ..
          · split
            · exact .complain t _
            · exact ih ..

theorem Confined.allAttributes (name : String) :
    Confined true (LineParser.allAttributes name) fun _ => true := by
  refine ⟨fun {last ending c line} h => ?_⟩
  have hle := h.length_le
  have hline : LineParser.allAttributes name line =
      LineParser.attributes name (c.rest.length + 1) "" "" line :=
    attributes_eq_of_length_lt (by omega) (by omega)
  rw [Agree, hline]
  exact (Confined.attributes ..).agree h

theorem Alongside.declaration (h : Alongside last ending b c line) (hne : line.rest ≠ [])
    (role : Role) : Agree last ending c line (LineParser.declaration role) fun _ => true := by
  refine (h.advance hne).bind fun start => (Confined.expect (by decide)).bind fun name =>
    (Confined.expect (by decide)).bind fun colon =>
      (Confined.expect (by decide)).bind fun size => ?_
  split
  · exact .complain size _
  · refine (Confined.allAttributes _).bind fun words =>
      (Confined.accept (by decide)).bind fun valued => ?_
    cases valued with
    | true =>
        exact (Confined.listOf (fun _ => .signedNumber) .signedNumber).bind fun values =>
          (Confined.spanFrom start).bind fun span => .pure _ id
    | false =>
        have hpure (values : List Float) : Confined true (pure values) fun _ => true := .pure _ id
        exact (hpure []).bind fun values => (Confined.spanFrom start).bind fun span => .pure _ id

theorem Alongside.targetLine (h : Alongside last ending b c line) (hne : line.rest ≠ [])
    (current : String) :
    Agree last ending c line (LineParser.targetLine current) fun _ => true := by
  refine (h.advance hne).bind fun start => ?_
  split
  · exact .complain start _
  · exact (Confined.expect (by decide)).bind fun backend =>
      (Confined.expect (by decide)).bind fun colon =>
        (Confined.expect (by decide)).bind fun stage =>
          (Confined.spanFrom start).bind fun span => .pure _ id

theorem Alongside.peek_bind (h : Alongside last ending b c line) {f : Token → LineParser α}
    (hf : ∀ t, Agree last ending c line (f t) after) :
    Agree last ending c line (LineParser.peek >>= f) after := by
  unfold Agree
  have hc : LineParser.peek c = .ok (line.rest.headD line.stop) c := by
    rw [← h.headD]
    rfl
  rw [bind_of_ok hc, bind_of_ok (show LineParser.peek line = .ok _ line from rfl)]
  exact hf _

theorem Alongside.lineStop_kind (h : Alongside last ending b c line) : line.stop.kind ≠ .ident := by
  rw [h.lineStop]
  cases hending : ending with
  | nil => simp [h.last_kind]
  | cons t rest => simp [h.ends t (by rw [hending]; rfl)]

theorem opcode_of_kind_ne {c : Cursor} (h : (c.rest.headD c.stop).kind ≠ .ident) :
    LineParser.opcode c = .ok .asn c := by
  unfold LineParser.opcode
  rw [bind_of_ok (show LineParser.peek c = .ok (c.rest.headD c.stop) c from rfl),
    bind_of_ok (show LineParser.peekSecond c = .ok _ c from rfl)]
  cases Op.ofName? (c.rest.headD c.stop).text with
  | none => rfl
  | some op =>
      dsimp only
      rw [decide_eq_false h]
      rfl

theorem Confined.opcode : Confined true LineParser.opcode fun _ => true := by
  refine ⟨fun {last ending c line} h => ?_⟩
  cases hrest : line.rest with
  | nil =>
      have hline : (line.rest.headD line.stop).kind ≠ .ident := by
        rw [hrest]
        exact h.lineStop_kind
      unfold Agree
      rw [opcode_of_kind_ne hline, opcode_of_kind_ne (h.headD ▸ hline)]
      exact ⟨rfl, h⟩
  | cons t rest =>
      have hc : LineParser.peekSecond c = .ok (rest.headD line.stop) c := by
        change EStateM.Result.ok ((c.rest.drop 1).headD c.stop) c = _
        rw [h.rest, h.stop, h.lineStop, hrest]
        cases rest <;> rfl
      have hline : LineParser.peekSecond line = .ok (rest.headD line.stop) line := by
        change EStateM.Result.ok ((line.rest.drop 1).headD line.stop) line = _
        rw [hrest]
        rfl
      refine h.peek_bind fun start => ?_
      unfold Agree
      rw [bind_of_ok hc, bind_of_ok hline]
      cases Op.ofName? start.text with
      | none => exact ⟨rfl, h⟩
      | some op =>
          simp only
          split
          · exact (h.advance (by simp [hrest])).bind fun _ => .pure _ id
          · exact ⟨rfl, h⟩

theorem Alongside.instruction (h : Alongside last ending b c line) (hne : line.rest ≠ []) :
    Agree last ending c line LineParser.instruction fun _ => true := by
  refine h.peek_bind fun start => ?_
  split
  · exact (h.advance hne).bind fun opcode => Confined.operand.bind fun src =>
      (Confined.spanFrom start).bind fun span => .pure _ id
  · exact (h.advance hne).bind fun opcode => .pure _ id
  · refine Confined.agree (Confined.operand.bind fun dst => ?_) h
    exact (Confined.expect (by decide)).bind fun equal => Confined.opcode.bind fun op =>
      (Confined.listOf (fun _ => .operand) .operand).bind fun srcs =>
        (Confined.spanFrom start).bind fun span => .pure _ id

theorem Alongside.content (h : Alongside last ending b c line) (hne : line.rest ≠ [])
    (current : String) : Agree last ending c line (LineParser.content current) fun _ => true := by
  refine h.peek_bind fun start => ?_
  split
  case h_1 => exact (h.targetLine hne current).bind fun target => .pure _ id
  case h_2 | h_3 | h_4 =>
    exact (h.advance hne).bind fun word => Confined.operand.bind fun src =>
      (Confined.spanFrom start).bind fun span => .pure _ id
  case h_5 | h_6 | h_7 => exact (h.advance hne).bind fun word => .pure _ id
  case h_8 => exact h.instruction hne
  case h_9 =>
    split
    · exact (h.declaration hne _).bind fun d => .pure _ id
    · exact (Confined.complain start _).agree h

/-! ## One line -/

theorem skipFrom_append (previous : Token) {last : Token} {rest ending : List Token}
    (hwithin : ∀ t ∈ rest, t.kind ≠ .newline ∧ t.kind ≠ .eof)
    (hends : ∀ t ∈ ending.head?, t.kind = .newline) :
    ∃ previous',
      Cursor.skipFrom previous last (rest ++ ending) = ⟨previous', ending.tail, last⟩ := by
  induction rest generalizing previous with
  | nil =>
      cases ending with
      | nil => exact ⟨previous, rfl⟩
      | cons t ending =>
          have ht := hends t rfl
          exact ⟨t, by simp [Cursor.skipFrom, ht]⟩
  | cons t rest ih =>
      obtain ⟨⟨hnewline, heof⟩, hrest⟩ := List.forall_mem_cons.mp hwithin
      obtain ⟨previous', hskip⟩ := ih t hrest
      refine ⟨previous', ?_⟩
      rw [← hskip, List.cons_append, Cursor.skipFrom, if_neg heof, if_neg hnewline]

theorem Alongside.skipLine (h : Alongside last ending b c line) :
    ∃ previous, c.skipLine = ⟨previous, ending.tail, last⟩ := by
  rw [Cursor.skipLine, h.rest, h.stop]
  exact skipFrom_append _ h.within h.ends

theorem Alongside.endOfLine (h : Alongside last ending b c line) :
    (∃ f, LineParser.endOfLine c = .error f c ∧ LineParser.endOfLine line = .error f line) ∨
      ∃ previous, LineParser.endOfLine c = .ok () ⟨previous, ending.tail, last⟩ ∧
        LineParser.endOfLine line = .ok () line := by
  have hrest := h.rest
  have hstop := h.stop
  obtain ⟨previous, _, _⟩ := c
  obtain ⟨previous', rest, stop⟩ := line
  subst hrest hstop
  cases rest with
  | cons t rest =>
      obtain ⟨hnewline, heof⟩ := h.within t List.mem_cons_self
      refine .inl ⟨⟨t, .trailing t⟩, ?_, ?_⟩ <;>
      · change (if t.kind = .eof then _ else if t.kind = .newline then _ else _ :
          LineParser Unit) _ = _
        rw [if_neg heof, if_neg hnewline]
        rfl
  | nil =>
      right
      cases ending with
      | nil => exact ⟨previous, rfl, rfl⟩
      | cons t ending =>
          have ht := h.ends t rfl
          refine ⟨t, ?_, rfl⟩
          change (if t.kind = .eof then _ else if t.kind = .newline then _ else _ :
            LineParser Unit) _ = _
          rw [if_neg (by simp [ht]), if_pos ht]
          rfl

end

section

variable {last : Token} {ending : List Token} {c line : Cursor}

theorem parseLine_of_alongside (source : Text) (r : Parsed) (h : Alongside last ending false c line)
    (hne : line.rest ≠ []) :
    ∃ previous, parseLine source r c =
      ((parseLine source r line).1, ⟨previous, ending.tail, last⟩) := by
  have hcontent := h.content hne r.file.target
  unfold Agree at hcontent
  unfold parseLine
  cases hc : LineParser.content r.file.target c <;>
    cases hline : LineParser.content r.file.target line <;> rw [hc, hline] at hcontent
  case error.error =>
    obtain ⟨rfl, h⟩ := hcontent
    obtain ⟨previous, hskip⟩ := h.skipLine
    exact ⟨previous, by simp only [hskip]⟩
  case ok.ok =>
    obtain ⟨rfl, h⟩ := hcontent
    obtain ⟨f, hc, hline⟩ | ⟨previous, hc, hline⟩ := h.endOfLine
    · obtain ⟨previous, hskip⟩ := h.skipLine
      exact ⟨previous, by simp only [hc, hline, hskip]⟩
    · exact ⟨previous, by simp only [hc, hline]⟩
  all_goals exact hcontent.elim

end

/-! ## All lines -/

structure Line where
  tokens : List Token
  stop : Token

def splitLines (last : Token) : List Token → List Line
  | [] => [⟨[], last⟩]
  | t :: rest =>
      if t.kind = .newline then ⟨[], t⟩ :: splitLines last rest
      else
        match splitLines last rest with
        | line :: more => { line with tokens := t :: line.tokens } :: more
        | [] => [⟨[t], last⟩]

def readLine (source : Text) (r : Parsed) (line : Line) : Parsed :=
  match line.tokens with
  | [] => r
  | tokens => (parseLine source r ⟨line.stop, tokens, line.stop⟩).1

theorem splitLines_append_cons {last newline : Token} {line rest : List Token}
    (hline : ∀ t ∈ line, t.kind ≠ .newline) (hnewline : newline.kind = .newline) :
    splitLines last (line ++ newline :: rest) = ⟨line, newline⟩ :: splitLines last rest := by
  induction line with
  | nil => simp [splitLines, hnewline]
  | cons t line ih =>
      obtain ⟨ht, hline⟩ := List.forall_mem_cons.mp hline
      rw [List.cons_append, splitLines, if_neg ht, ih hline]

theorem splitLines_of_no_newline {last : Token} {line : List Token}
    (hline : ∀ t ∈ line, t.kind ≠ .newline) : splitLines last line = [⟨line, last⟩] := by
  induction line with
  | nil => rfl
  | cons t line ih =>
      obtain ⟨ht, hline⟩ := List.forall_mem_cons.mp hline
      rw [splitLines, if_neg ht, ih hline]

theorem splitLines_ne_nil (last : Token) (tokens : List Token) : splitLines last tokens ≠ [] := by
  cases tokens with
  | nil => simp [splitLines]
  | cons t rest =>
      rw [splitLines]
      split
      · simp
      · split <;> simp

theorem splitLines_append {last newline : Token} {first rest : List Token}
    (hnewline : newline.kind = .newline) :
    splitLines last (first ++ newline :: rest) =
      splitLines newline first ++ splitLines last rest := by
  induction first with
  | nil => simp [splitLines, hnewline]
  | cons t first ih =>
      obtain ⟨line, more, hfirst⟩ := List.exists_cons_of_ne_nil (splitLines_ne_nil newline first)
      rw [List.cons_append, splitLines, ih, splitLines, hfirst]
      split <;> rfl

theorem alongside_start (previous : Token) {last : Token} {line ending : List Token}
    (hlast : last.kind = .eof) (hline : ∀ t ∈ line, t.kind ≠ .newline ∧ t.kind ≠ .eof)
    (hends : ∀ t ∈ ending.head?, t.kind = .newline) :
    Alongside last ending false ⟨previous, line ++ ending, last⟩
      ⟨ending.headD last, line, ending.headD last⟩ where
  last_kind := hlast
  rest := rfl
  stop := rfl
  lineStop := rfl
  within := hline
  ends := hends
  previous h := absurd h (by decide)

theorem exists_line {tokens : List Token} (heof : ∀ t ∈ tokens, t.kind ≠ .eof) :
    ∃ line ending, tokens = line ++ ending ∧ (∀ t ∈ line, t.kind ≠ .newline ∧ t.kind ≠ .eof) ∧
      ∀ t ∈ ending.head?, t.kind = .newline := by
  induction tokens with
  | nil => exact ⟨[], [], rfl, by simp, by simp⟩
  | cons t rest ih =>
      obtain ⟨ht, hrest⟩ := List.forall_mem_cons.mp heof
      obtain ⟨line, ending, rfl, hline, hends⟩ := ih hrest
      by_cases hnewline : t.kind = .newline
      · exact ⟨[], t :: (line ++ ending), rfl, by simp, by simpa using hnewline⟩
      · exact ⟨t :: line, ending, rfl, List.forall_mem_cons.mpr ⟨⟨hnewline, ht⟩, hline⟩, hends⟩

theorem take?_of_kind_eq {t : Token} {k : TokenKind} (h : t.kind = k) (previous last : Token)
    (rest : List Token) :
    LineParser.take? k ⟨previous, t :: rest, last⟩ = .ok (some t) ⟨t, rest, last⟩ := by
  have hcheck : LineParser.check k ⟨previous, t :: rest, last⟩ =
      .ok (some t.kind == some k) ⟨previous, t :: rest, last⟩ := rfl
  unfold LineParser.take?
  rw [bind_of_ok hcheck, if_pos (by simp [h])]
  rfl

theorem take?_of_kind_ne {t : Token} {k : TokenKind} (h : t.kind ≠ k) (previous last : Token)
    (rest : List Token) :
    LineParser.take? k ⟨previous, t :: rest, last⟩ = .ok none ⟨previous, t :: rest, last⟩ := by
  have hcheck : LineParser.check k ⟨previous, t :: rest, last⟩ =
      .ok (some t.kind == some k) ⟨previous, t :: rest, last⟩ := rfl
  unfold LineParser.take?
  rw [bind_of_ok hcheck, if_neg (by simp [h])]
  rfl

section

variable {source : Text} {last : Token} {rounds : Nat} {r : Parsed} {previous : Token}

theorem parseLines_nil :
    parseLines source rounds r ⟨previous, [], last⟩ = r := by
  cases rounds <;> rfl

theorem parseLines_newline {newline : Token} {rest : List Token} (h : newline.kind = .newline) :
    parseLines source (rounds + 1) r ⟨previous, newline :: rest, last⟩ =
      parseLines source rounds r ⟨newline, rest, last⟩ := by
  have hatEnd : Cursor.atEnd ⟨previous, newline :: rest, last⟩ = false := by
    simp [Cursor.atEnd, h]
  rw [parseLines, hatEnd, take?_of_kind_eq h]
  rfl

theorem parseLines_line (hlast : last.kind = .eof) {line ending : List Token} (hne : line ≠ [])
    (hline : ∀ t ∈ line, t.kind ≠ .newline ∧ t.kind ≠ .eof)
    (hends : ∀ t ∈ ending.head?, t.kind = .newline) :
    ∃ previous', parseLines source (rounds + 1) r ⟨previous, line ++ ending, last⟩ =
      parseLines source rounds (readLine source r ⟨line, ending.headD last⟩)
        ⟨previous', ending.tail, last⟩ := by
  obtain ⟨t, rest, rfl⟩ := List.exists_cons_of_ne_nil hne
  have hstart := alongside_start previous hlast hline hends
  obtain ⟨previous', hparse⟩ := parseLine_of_alongside source r hstart (by simp)
  obtain ⟨hnewline, heof⟩ := hline t List.mem_cons_self
  have hatEnd : Cursor.atEnd ⟨previous, t :: rest ++ ending, last⟩ = false := by
    simp [Cursor.atEnd, heof]
  refine ⟨previous', ?_⟩
  rw [parseLines, hatEnd, hparse, List.cons_append, take?_of_kind_ne hnewline]
  rfl

theorem parseLines_eq_foldl (hlast : last.kind = .eof) {tokens : List Token}
    (heof : ∀ t ∈ tokens, t.kind ≠ .eof) (hrounds : tokens.length < rounds) :
    parseLines source rounds r ⟨previous, tokens, last⟩ =
      (splitLines last tokens).foldl (readLine source) r := by
  induction rounds generalizing tokens r previous with
  | zero => omega
  | succ rounds ih =>
      obtain ⟨line, ending, rfl, hline, hends⟩ := exists_line heof
      have hnewline : ∀ t ∈ line, t.kind ≠ .newline := fun t ht => (hline t ht).1
      obtain ⟨hline_eof, hending_eof⟩ := List.forall_mem_append.mp heof
      rw [List.length_append] at hrounds
      have hround : ∃ previous', parseLines source (rounds + 1) r ⟨previous, line ++ ending, last⟩ =
          parseLines source rounds (readLine source r ⟨line, ending.headD last⟩)
            ⟨previous', ending.tail, last⟩ := by
        cases line with
        | cons t rest => exact parseLines_line hlast (by simp) hline hends
        | nil =>
            cases ending with
            | nil => exact ⟨previous, parseLines_nil.trans parseLines_nil.symm⟩
            | cons t rest => exact ⟨t, parseLines_newline (hends t rfl)⟩
      obtain ⟨previous', hround⟩ := hround
      rw [hround]
      cases ending with
      | nil =>
          rw [List.append_nil, splitLines_of_no_newline hnewline]
          exact parseLines_nil
      | cons t rest =>
          rw [splitLines_append_cons hnewline (hends t rfl), List.foldl_cons]
          rw [List.length_cons] at hrounds
          have hrest : rest.length < rounds := by omega
          exact ih (List.forall_mem_cons.mp hending_eof).2 hrest

theorem parseTokens_eq_foldl (hlast : last.kind = .eof) {tokens : List Token}
    (heof : ∀ t ∈ tokens, t.kind ≠ .eof) :
    parseTokens source tokens last =
      (splitLines last tokens).foldl (readLine source) ⟨File.empty, []⟩ :=
  parseLines_eq_foldl hlast heof (Nat.lt_succ_self _)

end

/-! ## What a line adds -/

def added (source : Text) (target : String) (line : Line) : List Statement × List SourceError :=
  let r := readLine source ⟨⟨target, Span.unset, []⟩, []⟩ line
  (r.file.statements, r.errors)

theorem readLine_adds (source : Text) (r : Parsed) (line : Line) :
    (readLine source r line).file.statements =
        r.file.statements ++ (added source r.file.target line).1 ∧
      (readLine source r line).errors = r.errors ++ (added source r.file.target line).2 := by
  obtain ⟨tokens, stop⟩ := line
  cases tokens with
  | nil => simp [added, readLine]
  | cons t rest =>
      simp only [added, readLine, parseLine]
      cases LineParser.content r.file.target ⟨stop, t :: rest, stop⟩ with
      | error f c => simp [Parsed.withError]
      | ok found c =>
          cases hend : LineParser.endOfLine c <;> cases found <;>
            simp [hend, Parsed.withError, Parsed.withTarget, Parsed.withStatement]

/-- A line adds one error alone or at most one statement, and an empty line adds nothing. -/
def AddsOnce (line : Line) (result : List Statement × List SourceError) : Prop :=
  match line.tokens with
  | [] => result = ([], [])
  | _ => (∃ e, result = ([], [e])) ∨ ∃ s : Option Statement, result = (s.toList, [])

theorem addsOnce_added (source : Text) (target : String) (line : Line) :
    AddsOnce line (added source target line) := by
  obtain ⟨tokens, stop⟩ := line
  cases tokens with
  | nil => rfl
  | cons t rest =>
      simp only [AddsOnce, added, readLine, parseLine]
      cases LineParser.content target ⟨stop, t :: rest, stop⟩ with
      | error f c => exact .inl ⟨_, rfl⟩
      | ok found c =>
          cases hend : LineParser.endOfLine c with
          | error f c =>
              refine .inl ⟨sourceError source f, ?_⟩
              cases found <;> simp [hend, Parsed.withError, Parsed.withTarget]
          | ok _ c =>
              right
              cases found with
              | statement s =>
                  exact ⟨some s, by simp [hend, Parsed.withStatement, Parsed.withTarget]⟩
              | _ => exact ⟨none, by simp [hend, Parsed.withStatement, Parsed.withTarget]⟩

theorem content_eq_of_kind_ne {c : Cursor} (h : (c.rest.headD c.stop).kind ≠ .target)
    (current current' : String) :
    LineParser.content current c = LineParser.content current' c := by
  have hpeek : LineParser.peek c = .ok (c.rest.headD c.stop) c := rfl
  unfold LineParser.content
  rw [bind_of_ok hpeek, bind_of_ok hpeek]
  cases hkind : (c.rest.headD c.stop).kind <;> first | rfl | exact absurd hkind h

theorem added_eq_of_kind_ne {source : Text} {line : Line}
    (h : ∀ t ∈ line.tokens, t.kind ≠ .target) (target target' : String) :
    added source target line = added source target' line := by
  obtain ⟨tokens, stop⟩ := line
  cases tokens with
  | nil => rfl
  | cons t rest =>
      have hcontent := content_eq_of_kind_ne (c := ⟨stop, t :: rest, stop⟩) (h t List.mem_cons_self)
        target target'
      simp only [added, readLine, parseLine, hcontent]
      cases LineParser.content target' ⟨stop, t :: rest, stop⟩ with
      | error f c => rfl
      | ok found c =>
          cases hend : LineParser.endOfLine c <;> cases found <;>
            simp [hend, Parsed.withError, Parsed.withTarget, Parsed.withStatement]

theorem foldl_readLine_of_kind_ne (source : Text) {lines : List Line}
    (h : ∀ line ∈ lines, ∀ t ∈ line.tokens, t.kind ≠ .target) (r : Parsed) :
    (lines.foldl (readLine source) r).file.statements =
        r.file.statements ++ lines.flatMap (fun line => (added source "" line).1) ∧
      (lines.foldl (readLine source) r).errors =
        r.errors ++ lines.flatMap fun line => (added source "" line).2 := by
  induction lines generalizing r with
  | nil => simp
  | cons line lines ih =>
      obtain ⟨hline, hlines⟩ := List.forall_mem_cons.mp h
      obtain ⟨hstatements, herrors⟩ := ih hlines (readLine source r line)
      obtain ⟨hfirst, hfirst'⟩ := readLine_adds source r line
      rw [added_eq_of_kind_ne hline r.file.target ""] at hfirst hfirst'
      rw [List.foldl_cons, hstatements, herrors, hfirst, hfirst']
      simp

theorem foldl_readLine_adds (source : Text) (lines : List Line) (r : Parsed) :
    ∃ results, List.Forall₂ AddsOnce lines results ∧
      (lines.foldl (readLine source) r).file.statements =
        r.file.statements ++ results.flatMap Prod.fst ∧
      (lines.foldl (readLine source) r).errors = r.errors ++ results.flatMap Prod.snd := by
  induction lines generalizing r with
  | nil => exact ⟨[], .nil, by simp, by simp⟩
  | cons line lines ih =>
      obtain ⟨results, honce, hstatements, herrors⟩ := ih (readLine source r line)
      obtain ⟨hfirst, hfirst'⟩ := readLine_adds source r line
      refine ⟨added source r.file.target line :: results,
        .cons (addsOnce_added source r.file.target line) honce, ?_, ?_⟩
      · rw [List.foldl_cons, hstatements, hfirst]
        simp
      · rw [List.foldl_cons, herrors, hfirst']
        simp

theorem mem_of_mem_splitLines {last : Token} {tokens : List Token} {line : Line}
    (hline : line ∈ splitLines last tokens) {t : Token} (ht : t ∈ line.tokens) : t ∈ tokens := by
  induction tokens generalizing line with
  | nil =>
      obtain rfl := List.mem_singleton.mp hline
      exact ht
  | cons u rest ih =>
      obtain ⟨first, more, hrest⟩ := List.exists_cons_of_ne_nil (splitLines_ne_nil last rest)
      rw [splitLines, hrest] at hline
      rw [hrest] at ih
      split at hline
      · obtain rfl | hline := List.mem_cons.mp hline
        · cases ht
        · exact List.mem_cons_of_mem u (ih hline ht)
      · obtain rfl | hline := List.mem_cons.mp hline
        · obtain rfl | ht := List.mem_cons.mp ht
          · exact List.mem_cons_self
          · exact List.mem_cons_of_mem u (ih List.mem_cons_self ht)
        · exact List.mem_cons_of_mem u (ih (List.mem_cons_of_mem first hline) ht)

/--
What is wrong with a line stays in it.  Behind tokens that end with a newline, tokens without
targets add what they give by themselves; the result is put together from what each line adds, which
is one error alone or at most one statement.  No bound on the rounds of a loop cuts the parser
short, and it never asks for the token read last before it has read one.
-/
theorem parseTokens_append {source : Text} {first second : List Token} {last : Token}
    (hlast : last.kind = .eof) (heof : ∀ t ∈ first ++ second, t.kind ≠ .eof)
    (hends : first.getLast?.map Token.kind = some .newline)
    (htarget : ∀ t ∈ second, t.kind ≠ .target) :
    ((parseTokens source (first ++ second) last).file.statements =
        (parseTokens source first last).file.statements ++
          (parseTokens source second last).file.statements ∧
      (parseTokens source (first ++ second) last).errors =
        (parseTokens source first last).errors ++ (parseTokens source second last).errors) ∧
    (∃ results, List.Forall₂ AddsOnce (splitLines last (first ++ second)) results ∧
      (parseTokens source (first ++ second) last).file.statements = results.flatMap Prod.fst ∧
      (parseTokens source (first ++ second) last).errors = results.flatMap Prod.snd) ∧
    (∀ rounds previous, (first ++ second).length < rounds →
      parseLines source rounds ⟨File.empty, []⟩ ⟨previous, first ++ second, last⟩ =
        parseTokens source (first ++ second) last) ∧
    ∀ (c : Cursor) (rounds : Nat), c.rest.length < rounds →
      LineParser.separated LineParser.signedNumber rounds c =
          LineParser.listOf LineParser.signedNumber c ∧
        LineParser.separated LineParser.operand rounds c = LineParser.listOf LineParser.operand c ∧
        ∀ name, LineParser.attributes name rounds "" "" c = LineParser.allAttributes name c := by
  obtain ⟨hfirst_eof, hsecond_eof⟩ := List.forall_mem_append.mp heof
  refine ⟨?_, ?_, fun rounds previous hrounds => ?_,
    fun c rounds hrounds => ⟨?_, ?_, fun name => ?_⟩⟩
  · obtain ⟨newline, hlast?, hnewline⟩ := Option.map_eq_some_iff.mp hends
    obtain ⟨front, rfl⟩ := List.getLast?_eq_some_iff.mp hlast?
    have hlines : ∀ line ∈ splitLines last second, ∀ t ∈ line.tokens, t.kind ≠ .target :=
      fun line hline t ht => htarget t (mem_of_mem_splitLines hline ht)
    have hsecond := foldl_readLine_of_kind_ne source hlines
    rw [parseTokens_eq_foldl hlast heof, parseTokens_eq_foldl hlast hfirst_eof,
      parseTokens_eq_foldl hlast hsecond_eof, List.append_assoc, List.singleton_append,
      splitLines_append hnewline, splitLines_append hnewline, List.foldl_append, List.foldl_append]
    obtain ⟨hstatements, herrors⟩ :=
      hsecond ((splitLines newline front).foldl (readLine source) ⟨File.empty, []⟩)
    obtain ⟨hstatements', herrors'⟩ := hsecond ⟨File.empty, []⟩
    rw [hstatements, herrors, hstatements', herrors']
    exact ⟨rfl, rfl⟩
  · rw [parseTokens_eq_foldl hlast heof]
    exact foldl_readLine_adds source (splitLines last (first ++ second)) ⟨File.empty, []⟩
  · rw [parseLines_eq_foldl hlast heof hrounds, parseTokens_eq_foldl hlast heof]
  · exact separated_eq_of_length_lt .signedNumber hrounds (Nat.lt_succ_self _)
  · exact separated_eq_of_length_lt .operand hrounds (Nat.lt_succ_self _)
  · exact attributes_eq_of_length_lt hrounds (Nat.lt_succ_self _)

theorem parseTokens_append_broken :
    let word (k : TokenKind) (s : String) : Token := ⟨k, Text.ofString s, 1, 1⟩
    let newline := word .newline "\n"
    let assignment := [word .ident "x", word .equal "=", word .number "1"]
    let first := assignment ++ newline :: word .ident "add" :: newline :: assignment ++ [newline]
    let second := word .openIf "if" :: word .dot "." :: newline :: assignment
    let last := word .eof ""
    (parseTokens [] (first ++ second) last).file.statements.length = 3 ∧
      (parseTokens [] (first ++ second) last).errors.length = 2 ∧
      (parseTokens [] (first ++ second) last).errors =
        (parseTokens [] first last).errors ++ (parseTokens [] second last).errors := by
  intro word newline assignment first second last
  refine ⟨by decide +kernel, by decide +kernel, ?_⟩
  exact (parseTokens_append (by decide) (by decide +kernel) (by decide +kernel)
    (by decide +kernel)).1.2

end KernelAlgebra.Assembly
