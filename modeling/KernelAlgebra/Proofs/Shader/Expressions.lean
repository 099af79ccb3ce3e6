import KernelAlgebra.Proofs.Instruction.Admission
import KernelAlgebra.Proofs.Shader.Paragraphs
import KernelAlgebra.Proofs.Shader.Phrases
import Mathlib.Data.List.Forall2

/-!
# How wide expressions and statements are

The writer has letters for four elements.  It comes to a result when the elements it has to spell
have letters, and of all instructions only `dot` and `kil` can make it write something wider: a
destination has at most four elements, and the rules of the other opcodes keep the sources to its
size.
-/

namespace KernelAlgebra

namespace Shader

/-- A vector type or a selection that the language has. -/
def Piece.Narrow : Piece → Prop
  | .text _ => True
  | .vector n => 1 ≤ n ∧ n ≤ 4
  | .selection letters => 1 ≤ letters.length ∧ letters.length ≤ 4

def Phrase.Narrow (e : Phrase) : Prop := ∀ q ∈ e, q.Narrow

@[simp] theorem Phrase.narrow_nil : Phrase.Narrow [] := by simp [Phrase.Narrow]

@[simp] theorem Phrase.narrow_cons {q : Piece} {rest : Phrase} :
    Phrase.Narrow (q :: rest) ↔ q.Narrow ∧ rest.Narrow := by simp [Phrase.Narrow]

@[simp] theorem Phrase.narrow_append {a b : Phrase} :
    Phrase.Narrow (a ++ b) ↔ a.Narrow ∧ b.Narrow := by
  simp [Phrase.Narrow, or_imp, forall_and]

/-! ## Results of the writer -/

section Delivers

variable {α β : Type} {safe safe' : Prop} {good : α → Prop} {good' : β → Prop}

/--
A result says that its condition holds and is as it should be; under the condition, every error has
a category.
-/
def Delivers (r : Except ShaderError α) (safe : Prop) (good : α → Prop) : Prop :=
  (∀ a, r = .ok a → safe ∧ good a) ∧ ∀ e, r = .error e → safe → e.toError?.isSome = true

theorem delivers_ok {a : α} (hsafe : safe) (h : good a) : Delivers (.ok a) safe good := by
  constructor
  · rintro _ ⟨⟩
    exact ⟨hsafe, h⟩
  · rintro _ ⟨⟩

theorem delivers_refused {e : ShaderError} (h : e.toError?.isSome = true) :
    Delivers (.error e) safe good := by
  constructor
  · rintro _ ⟨⟩
  · rintro _ ⟨⟩ _
    exact h

theorem delivers_unsafe {e : ShaderError} (h : ¬ safe) : Delivers (.error e) safe good := by
  constructor
  · rintro _ ⟨⟩
  · exact fun _ _ hsafe => absurd hsafe h

theorem Delivers.bind {x : Except ShaderError α} {f : α → Except ShaderError β}
    (h : Delivers x safe good) (hf : ∀ a, good a → Delivers (f a) safe' good') :
    Delivers (x >>= f) (safe ∧ safe') good' := by
  cases x with
  | error e =>
      constructor
      · rintro _ ⟨⟩
      · rintro _ ⟨⟩ hsafe
        exact h.2 e rfl hsafe.1
  | ok a =>
      obtain ⟨hsafe, hgood⟩ := h.1 a rfl
      obtain ⟨hok, herror⟩ := hf a hgood
      exact ⟨fun b hb => ⟨⟨hsafe, (hok b hb).1⟩, (hok b hb).2⟩,
        fun e he hboth => herror e he hboth.2⟩

theorem Delivers.imp {x : Except ShaderError α} {good' : α → Prop} (h : Delivers x safe good)
    (hsafe : safe' ↔ safe) (hgood : ∀ a, good a → good' a) : Delivers x safe' good' :=
  ⟨fun a ha => ⟨hsafe.mpr (h.1 a ha).1, hgood a (h.1 a ha).2⟩,
    fun e he hs => h.2 e he (hsafe.mp hs)⟩

theorem Delivers.bind_free_left {x : Except ShaderError α} {f : α → Except ShaderError β}
    (h : Delivers x True good) (hf : ∀ a, good a → Delivers (f a) safe good') :
    Delivers (x >>= f) safe good' :=
  (h.bind hf).imp (by simp) fun _ hb => hb

theorem Delivers.bind_free_right {x : Except ShaderError α} {f : α → Except ShaderError β}
    (h : Delivers x safe good) (hf : ∀ a, good a → Delivers (f a) True good') :
    Delivers (x >>= f) safe good' :=
  (h.bind hf).imp (by simp) fun _ hb => hb

theorem Delivers.map {x : Except ShaderError α} {f : α → β} (h : Delivers x safe good)
    (hf : ∀ a, good a → good' (f a)) : Delivers (x.map f) safe good' := by
  cases x with
  | error e =>
      constructor
      · rintro _ ⟨⟩
      · rintro _ ⟨⟩ hsafe
        exact h.2 e rfl hsafe
  | ok a => exact delivers_ok (h.1 a rfl).1 (hf a (h.1 a rfl).2)

theorem Delivers.mapM {γ : Type} {f : γ → Except ShaderError β} {xs : List γ} {safe : γ → Prop}
    {good : γ → β → Prop} (h : ∀ x ∈ xs, Delivers (f x) (safe x) (good x)) :
    Delivers (xs.mapM f) (∀ x ∈ xs, safe x) (fun ys => List.Forall₂ good xs ys) := by
  induction xs with
  | nil => exact delivers_ok (by simp) .nil
  | cons x rest ih =>
      have hrest := ih fun y hy => h y (by simp [hy])
      rw [List.mapM_cons]
      refine Delivers.imp ((h x (by simp)).bind fun y hy => hrest.bind_free_right fun ys hys =>
        delivers_ok trivial ?_) (by simp) fun _ hall => hall
      exact .cons hy hys

end Delivers

end Shader

/-! ## Views -/

namespace View

def Lettered (v : View) : Prop :=
  v.sym.size = 1 ∨ Shader.selectsAll v = true ∨ ∀ k ∈ v.elements, k < 4

/-- A view that is written without a wide type or a wide selection. -/
def Short (v : View) : Prop := v.size ≤ 4 ∨ Shader.selectsAll v = true

structure Shown (v : View) : Prop where
  present : v.isAbsent = false
  pos : 0 < v.size
  bounds : ∀ k ∈ v.elements, 0 ≤ k ∧ k < v.sym.size

theorem shown_of_inside {v : View} (hpresent : v.isAbsent = false) (hinside : v.Inside)
    (hsize : 0 < v.sym.size) : v.Shown where
  present := hpresent
  pos := by
    cases hselector : v.selector with
    | none => simpa [size, hpresent, hselector] using hsize
    | some idx =>
        cases idx with
        | nil => exact absurd hselector hinside.nonempty
        | cons k rest => simp [size, hpresent, hselector]
  bounds := by
    intro k hk
    cases hselector : v.selector with
    | none =>
        simp only [elements, hpresent, hselector, Bool.false_eq_true, if_false, List.mem_map,
          List.mem_range] at hk
        obtain ⟨j, hj, rfl⟩ := hk
        exact ⟨by simp, by simpa using hj⟩
    | some idx =>
        refine hinside.bounds k ?_
        simpa [elements, hpresent, hselector] using hk

end View

namespace Shader

namespace Phrase

theorem delivers_elementLetter {k : Int} (hk : 0 ≤ k) :
    Delivers (elementLetter k) (k < 4) fun _ => True := by
  unfold elementLetter
  rw [if_neg (by omega)]
  split
  · rename_i c hc
    obtain ⟨hlt, _⟩ := List.getElem?_eq_some_iff.mp hc
    simp only [View.selectorLetters, List.length_cons, List.length_nil] at hlt
    exact delivers_ok (by omega) trivial
  · rename_i hnone
    have hle := List.getElem?_eq_none_iff.mp hnone
    simp only [View.selectorLetters, List.length_cons, List.length_nil] at hle
    exact delivers_unsafe (by omega)

theorem delivers_letters {v : View} (hv : v.Shown) :
    Delivers (v.elements.mapM elementLetter) (∀ k ∈ v.elements, k < 4)
      fun sel => sel.length = v.size :=
  (Delivers.mapM fun k hk => delivers_elementLetter (hv.bounds k hk).1).imp .rfl
    fun sel hsel => by rw [← hsel.length_eq, View.length_elements]

theorem size_of_selectsAll {v : View} (hpresent : v.isAbsent = false)
    (hall : selectsAll v = true) : v.size = v.sym.size := by
  cases hselector : v.selector with
  | none => simp [View.size, hpresent, hselector]
  | some idx =>
      have hidx : idx = (List.range v.sym.size).map Int.ofNat := by
        simpa [selectsAll, View.isIdentity, hselector] using hall
      simp [View.size, hpresent, hselector, hidx]

theorem delivers_selectExpr (names : Names) {v : View} (hv : v.Shown) :
    Delivers (selectExpr names v) v.Lettered fun e => e.Narrow ↔ v.Short := by
  unfold selectExpr
  simp only [hv.present, Bool.false_eq_true, if_false]
  have hpos := hv.pos
  split
  · rename_i hscalar
    have hwhole : selectsAll v = true → v.size = 1 := fun hall =>
      (size_of_selectsAll hv.present hall).trans hscalar
    refine delivers_ok (.inl hscalar) ?_
    split
    · simp only [narrow_cons, Piece.Narrow, narrow_nil, View.Short]
      grind
    · simp only [narrow_cons, Piece.Narrow, narrow_nil, View.Short]
      grind
  split
  · rename_i hall
    exact delivers_ok (.inr (.inl hall)) (by simp [Piece.Narrow, View.Short, hall])
  · rename_i hscalar hall
    refine (delivers_letters hv).map (fun sel hsel => ?_) |>.imp ?_ fun _ h => h
    · simp [Piece.Narrow, View.Short, hall, hsel]
      omega
    · simp [View.Lettered, hscalar, hall]

theorem delivers_viewExpr (names : Names) (n : Nat) {v : View} (hv : v.Shown) :
    Delivers (viewExpr names n v) v.Lettered fun e =>
      e.Narrow ↔ v.Short ∧ (v.size = 1 → 1 < n → n ≤ 4) := by
  unfold viewExpr
  refine (delivers_selectExpr names hv).map fun e he => ?_
  have hsign : Narrow (if v.neg then [.text "-"] else []) := by
    split <;> simp [Piece.Narrow]
  rw [narrow_append, ← he]
  simp only [hsign, true_and]
  split
  · rename_i hwiden
    simp only [Bool.and_eq_true, decide_eq_true_eq] at hwiden
    simp only [narrow_append, narrow_cons, narrow_nil, Piece.Narrow]
    grind
  · rename_i hwiden
    simp only [Bool.and_eq_true, decide_eq_true_eq] at hwiden
    grind

theorem delivers_dstExpr (names : Names) {v : View} (hv : v.Shown) (hsize : v.size ≤ 4)
    (hsym : v.sym.size ≤ 4) : Delivers (dstExpr names v) True Narrow := by
  unfold dstExpr
  simp only [hv.present, Bool.false_eq_true, if_false]
  split
  · exact delivers_ok trivial (by simp [Piece.Narrow])
  · refine ((delivers_letters hv).map fun sel hsel => ?_).imp ?_ fun _ h => h
    · have hpos := hv.pos
      simp [Piece.Narrow, hsel]
      omega
    · refine iff_of_true trivial fun k hk => ?_
      have := (hv.bounds k hk).2
      omega

end Phrase

end Shader

def Branch.Lettered (b : Branch) : Prop :=
  b.cond.sym.size ≤ 1 ∨ ∀ k ∈ b.cond.elements.head?, k < 4

namespace Shader

namespace Phrase

theorem index?_zero {v : View} (hv : v.Shown) : v.index? 0 = v.elements.head? := by
  have hpos := hv.pos
  cases hselector : v.selector with
  | none =>
      simp only [View.size, hv.present, hselector, Bool.false_eq_true, if_false] at hpos
      obtain ⟨n, hn⟩ := Nat.exists_eq_succ_of_ne_zero (Nat.ne_of_gt hpos)
      simp [View.index?, View.elements, hv.present, hselector, hn, List.range_succ_eq_map]
  | some idx =>
      cases idx <;> simp [View.index?, View.elements, hv.present, hselector]

theorem delivers_conditionExpr (names : Names) {b : Branch} (hv : b.cond.Shown) :
    Delivers (conditionExpr names b.cond) b.Lettered Narrow := by
  unfold conditionExpr
  simp only [hv.present, Bool.false_eq_true, if_false]
  split
  · rename_i hscalar
    exact delivers_ok (.inl hscalar) (by simp [Piece.Narrow])
  · rename_i hscalar
    rw [index?_zero hv]
    cases hhead : b.cond.elements.head? with
    | none =>
        have hempty := congrArg List.length (List.head?_eq_none_iff.mp hhead)
        rw [View.length_elements] at hempty
        exact absurd hempty (Nat.ne_of_gt hv.pos)
    | some k =>
        have hk := (hv.bounds k (List.mem_of_head? hhead)).1
        refine ((delivers_elementLetter hk).map fun c _ => ?_).imp ?_ fun _ h => h
        · simp [Piece.Narrow]
        · simp [Branch.Lettered, hscalar, hhead]

end Phrase

end Shader

/-! ## Instructions -/

namespace Instruction

def spelled (i : Instruction) : List View := if i.op = .tex then i.src.tail else i.src

def Lettered (i : Instruction) : Prop := ∀ v ∈ i.spelled, v.Lettered

structure Short (i : Instruction) : Prop where
  dot : i.op = .dot → ∀ v ∈ i.src, v.Short
  kil : i.op = .kil → ∀ v ∈ i.src, v.size ≤ 4

def Sampled (i : Instruction) : Prop :=
  ∀ t coord, i.op = .tex → i.src = [t, coord] → coord.size ≤ 3

structure Writable (i : Instruction) : Prop where
  admits : i.op.Admits i.dst i.src
  sources : ∀ v ∈ i.src, v.Shown
  destination : i.dst.isAbsent = false → i.dst.Shown ∧ i.dst.size ≤ 4 ∧ i.dst.sym.size ≤ 4
  coordinates : i.Sampled

theorem short_of_op {i : Instruction} (hdot : i.op ≠ .dot) (hkil : i.op ≠ .kil) : i.Short :=
  ⟨fun h => absurd h hdot, fun h => absurd h hkil⟩

end Instruction

theorem Op.Sized.sizes {op : Op} {dst : View} {srcs : List View} (h : op.Sized dst srcs)
    (hdst : op.hasDst = true) (hdot : op ≠ .dot) (htex : op ≠ .tex)
    (hcount : srcs.length = op.arity) : ∀ v ∈ srcs, v.size = 1 ∨ v.size = dst.size := by
  unfold Op.Sized at h
  split at h
  · exact h
  · rename_i hrule
    cases op <;> simp_all [Op.rule]
  · simp_all
  · simp_all
  · rename_i hrule
    cases op <;> simp_all [Op.rule]
  · cases op <;> simp_all [Op.rule, Op.hasDst, Op.arity] <;>
      grind [List.length_eq_one_iff, List.length_eq_two]

namespace Shader

theorem forall_mem_iff_of_forall₂ {α β : Type} {P : α → Prop} {Q : β → Prop} {xs : List α}
    {ys : List β} (h : List.Forall₂ (fun x y => Q y ↔ P x) xs ys) :
    (∀ y ∈ ys, Q y) ↔ ∀ x ∈ xs, P x := by
  induction h with
  | nil => simp
  | cons hhead _ ih => simp [hhead, ih]

theorem forall_mem_of_forall₂ {α β : Type} {Q : β → Prop} {xs : List α} {ys : List β}
    (h : List.Forall₂ (fun _ y => Q y) xs ys) : ∀ y ∈ ys, Q y := by
  induction h with
  | nil => simp
  | cons hhead _ ih => exact List.forall_mem_cons.mpr ⟨hhead, ih⟩

def Paragraph.Narrow (lines : Paragraph) : Prop := ∀ line ∈ lines, line.Narrow

namespace Phrase

theorem narrow_separated {srcs : List Phrase} (h : ∀ e ∈ srcs, e.Narrow) :
    (separated srcs).Narrow := by
  fun_induction separated srcs with
  | case1 => simp
  | case2 a => exact h a (by simp)
  | case3 a rest hrest ih =>
      have := ih fun e he => h e (by simp [he])
      simp_all [Piece.Narrow]

theorem narrow_zero {n : Nat} (hn : 1 ≤ n) : (zero n).Narrow ↔ n ≤ 4 := by
  unfold zero
  split
  · rename_i hone
    simp [Piece.Narrow, hone]
  · simp [Piece.Narrow, hn]

variable {op : Op} {n : Nat} {srcs : List Phrase}

theorem delivers_specialExpr (hn : 1 ≤ n ∧ n ≤ 4) (h : ∀ e ∈ srcs, e.Narrow) :
    Delivers (specialExpr op n srcs) True Narrow := by
  unfold specialExpr
  split
  case h_7 => exact delivers_refused rfl
  case h_6 =>
    split <;> exact delivers_ok trivial (by simp_all [Piece.Narrow])
  all_goals exact delivers_ok trivial (by simp_all [Piece.Narrow])

theorem delivers_elementwiseExpr (hn : 1 ≤ n ∧ n ≤ 4) (h : ∀ e ∈ srcs, e.Narrow) :
    Delivers (elementwiseExpr op n srcs) True Narrow := by
  unfold elementwiseExpr
  split
  · exact delivers_ok trivial (by simp [Piece.Narrow, narrow_separated h])
  · exact delivers_ok trivial (by simp_all [Piece.Narrow])
  · split <;> exact delivers_ok trivial (by simp_all [Piece.Narrow])
  · exact delivers_specialExpr hn h

theorem delivers_views (names : Names) {views : List View} (hn : n ≤ 4)
    (hviews : ∀ v ∈ views, v.Shown) (hsizes : ∀ v ∈ views, v.size = 1 ∨ v.size = n) :
    Delivers (views.mapM (viewExpr names n)) (∀ v ∈ views, v.Lettered)
      fun es => ∀ e ∈ es, e.Narrow := by
  refine (Delivers.mapM fun v hv => delivers_viewExpr names n (hviews v hv)).imp .rfl ?_
  intro es hes
  rw [forall_mem_iff_of_forall₂ hes]
  intro v hv
  have := hsizes v hv
  exact ⟨.inl (by omega), fun _ _ => hn⟩

theorem delivers_dot (names : Names) (dst : View) {a b : View} (ha : a.Shown) (hb : b.Shown)
    (hequal : a.size = b.size) :
    Delivers (instructionExpr names ⟨.dot, dst, [a, b]⟩) (a.Lettered ∧ b.Lettered)
      fun e => e.Narrow ↔ a.Short ∧ b.Short := by
  simp only [instructionExpr]
  refine (delivers_viewExpr names a.size ha).bind fun x hx => ?_
  refine (delivers_viewExpr names a.size hb).bind_free_right fun y hy => delivers_ok trivial ?_
  simp only [narrow_append, narrow_cons, narrow_nil, Piece.Narrow, hx, hy]
  have : 1 < a.size → a.size ≠ 1 := by omega
  grind

theorem delivers_tex (names : Names) {dst : View} (t : View) {coord : View} (hdst : 0 < dst.size)
    (hcoord : coord.Shown) (hsize : coord.size ≤ 3) :
    Delivers (instructionExpr names ⟨.tex, dst, [t, coord]⟩) coord.Lettered Narrow := by
  simp only [instructionExpr]
  refine (delivers_viewExpr names coord.size hcoord).bind_free_right fun e he =>
    delivers_ok trivial ?_
  have hnarrow : e.Narrow := he.mpr ⟨.inl (by omega), fun _ _ => by omega⟩
  split
  · simp [Piece.Narrow, hnarrow, View.selectorLetters]
    omega
  · simp [Piece.Narrow, hnarrow]

theorem instructionExpr_of_elementwise (names : Names) {op : Op} {dst : View} {srcs : List View}
    (hdot : op ≠ .dot) (htex : op ≠ .tex) :
    instructionExpr names ⟨op, dst, srcs⟩ = (do
      elementwiseExpr op dst.size (← srcs.mapM (viewExpr names dst.size))) := by
  unfold instructionExpr
  split
  · rename_i hop _
    exact absurd hop hdot
  · rename_i hop _
    exact absurd hop htex
  · rfl

theorem delivers_instructionExpr (names : Names) {i : Instruction} (h : i.Writable)
    (hpresent : i.dst.isAbsent = false) :
    Delivers (instructionExpr names i) i.Lettered fun e => e.Narrow ↔ i.Short := by
  have hhas : i.op.hasDst = true := by simpa [hpresent] using h.admits.destination
  have hkil : i.op ≠ .kil := by
    intro hop
    simp [hop, Op.hasDst] at hhas
  obtain ⟨hshown, hsize, _⟩ := h.destination hpresent
  have hsources := h.sources
  have hsized := h.admits.sized
  have hcount := h.admits.count
  obtain ⟨op, dst, srcs⟩ := i
  by_cases hdot : op = .dot
  · subst hdot
    obtain ⟨a, b, rfl⟩ := List.length_eq_two.mp hcount
    obtain ⟨ha, hb⟩ : a.Shown ∧ b.Shown := by simpa using hsources
    refine (delivers_dot names dst ha hb hsized.2).imp ?_ fun e he => he.trans ?_
    · simp [Instruction.Lettered, Instruction.spelled]
    · exact ⟨fun hab => ⟨fun _ => by simpa using hab, fun hop => absurd hop hkil⟩,
        fun hi => by simpa using hi.dot rfl⟩
  have hshort : Instruction.Short ⟨op, dst, srcs⟩ := Instruction.short_of_op hdot hkil
  by_cases htex : op = .tex
  · subst htex
    obtain ⟨t, coord, rfl⟩ := List.length_eq_two.mp hcount
    have hcoord := h.coordinates t coord rfl rfl
    refine (delivers_tex names t hshown.pos (hsources coord (by simp)) hcoord).imp ?_
      fun e he => iff_of_true he hshort
    simp [Instruction.Lettered, Instruction.spelled]
  · rw [instructionExpr_of_elementwise names hdot htex]
    have hviews := delivers_views names hsize hsources (hsized.sizes hhas hdot htex hcount)
    refine (hviews.bind_free_right fun es hes =>
      delivers_elementwiseExpr ⟨hshown.pos, hsize⟩ hes).imp ?_ fun e he => iff_of_true he hshort
    simp [Instruction.Lettered, Instruction.spelled, htex]

theorem delivers_killStatement (names : Names) (stage : Stage) {v : View} (hv : v.Shown) :
    Delivers (killStatement names stage v) v.Lettered fun e => e.Narrow ↔ v.size ≤ 4 := by
  unfold killStatement
  split
  · exact delivers_refused rfl
  · have hpos := hv.pos
    have hmax : max 1 v.size = v.size := by omega
    rw [hmax]
    refine (delivers_viewExpr names v.size hv).bind_free_right fun e he =>
      delivers_ok trivial ?_
    have hzero := narrow_zero (n := v.size) hpos
    split
    · simp only [narrow_append, narrow_cons, narrow_nil, Piece.Narrow, he, hzero, View.Short]
      grind
    · simp only [narrow_append, narrow_cons, narrow_nil, Piece.Narrow, he, View.Short]
      grind

theorem delivers_statement (names : Names) (stage : Stage) {i : Instruction} (h : i.Writable) :
    Delivers (statement names stage i) i.Lettered
      fun lines => Paragraph.Narrow lines ↔ i.Short := by
  have hcount := h.admits.count
  have hdestination := h.admits.destination
  by_cases hnop : i.op = .nop
  · have hsrc : i.src = [] := by simpa [hnop, Op.arity] using hcount
    simp only [statement, hnop]
    refine delivers_ok ?_ (iff_of_true ?_ ?_)
    · simp [Instruction.Lettered, Instruction.spelled, hsrc]
    · simp [Paragraph.Narrow]
    · exact Instruction.short_of_op (by simp [hnop]) (by simp [hnop])
  by_cases hkil : i.op = .kil
  · obtain ⟨v, hsrc⟩ := List.length_eq_one_iff.mp (hkil ▸ hcount)
    have hlettered : i.Lettered ↔ v.Lettered := by
      simp [Instruction.Lettered, Instruction.spelled, hkil, hsrc]
    simp only [statement, hkil, hsrc, List.head?_cons, Option.getD_some]
    refine ((delivers_killStatement names stage (h.sources v (by simp [hsrc]))).bind_free_right
      fun e he => delivers_ok trivial ?_).imp hlettered fun _ he => he
    simp only [Paragraph.Narrow, List.mem_singleton, forall_eq, he]
    exact ⟨fun hv => ⟨by simp [hkil], fun _ => by simpa [hsrc] using hv⟩,
      fun hi => by simpa [hsrc] using hi.kil hkil⟩
  · have hhas : i.op.hasDst = true := by
      have hknown := h.admits.known
      cases hop : i.op <;> simp_all [Op.hasDst, Op.isKnown]
    have hdst : i.dst.isAbsent = false := by simpa [hhas] using hdestination
    obtain ⟨hshown, hsize, hsym⟩ := h.destination hdst
    rw [statement_of_computes hnop hkil]
    refine (delivers_instructionExpr names h hdst).bind_free_right fun e he => ?_
    refine (delivers_dstExpr names hshown hsize hsym).bind_free_right fun d hd =>
      delivers_ok trivial ?_
    simp [Paragraph.Narrow, Piece.Narrow, hd, he]

end Phrase

end Shader

end KernelAlgebra
