import KernelAlgebra.Proofs.Compose.Reordering
import KernelAlgebra.Proofs.Selection.Parts
import KernelAlgebra.Proofs.Selection.Spans

/-!
# Manipulators conserve channels

The program of a manipulator takes the channels that its parts demand, and nothing else.  So in
front of a program it feeds the inputs that it took and leaves the others free, and behind one
it passes on what its parts make of the outputs that it took and leaves the others alone.  The
first part that does not fit decides how the computation ends.
-/

namespace KernelAlgebra

open Machine Compose

namespace Selection

/-! ## Outcomes -/

section Outcomes

variable {α β : Type} {m m' : Option Misfit} {x : Compose α} {env : Env} {Q R : α → Supply → Prop}
  {S : β → Supply → Prop}

/-- Without a misfit the computation succeeds, and with one it ends as the misfit says. -/
structure Outcome (m : Option Misfit) (x : Compose α) (env : Env) (Q : α → Supply → Prop) :
    Prop where
  fits : m = none → Succeeds x env Q
  ends : ∀ misfit, m = some misfit → ∃ f env', Yields x env (.error f) env' ∧ misfit.Ends f

theorem Outcome.of_succeeds (hx : Succeeds x env Q) : Outcome none x env Q :=
  ⟨fun _ => hx, by simp⟩

theorem Outcome.of_error {misfit : Misfit} {f : Fault ComposeError} {env' : Env}
    (hx : Yields x env (.error f) env') (hf : misfit.Ends f) : Outcome (some misfit) x env Q := by
  refine ⟨by simp, fun other heq => ?_⟩
  cases heq
  exact ⟨f, env', hx, hf⟩

theorem Outcome.imp (hx : Outcome m x env Q) (himp : ∀ a g, Q a g → R a g) : Outcome m x env R :=
  ⟨fun hm => (hx.fits hm).imp himp, hx.ends⟩

theorem Outcome.refused {misfit : Misfit} {k : ErrorKind} (hx : Outcome m x env Q)
    (hm : m = some misfit) (hk : misfit.kind? = some k) :
    ∃ e env', x.run.run env = (.error (.error e), env') ∧ e.kind = k := by
  obtain ⟨f, env', hrun, hends⟩ := hx.ends misfit hm
  rw [Misfit.Ends, hk] at hends
  obtain ⟨e, rfl, hkind⟩ := hends
  exact ⟨e, env', hrun, hkind⟩

theorem Outcome.bind {f : α → Compose β} (hx : Outcome m x env Q)
    (hf : m = none → ∀ a env', env.supply.next ≤ env'.supply.next → Q a env'.supply →
      Outcome m' (f a) env' S) : Outcome (m.or m') (x >>= f) env S := by
  cases m with
  | some misfit =>
      obtain ⟨e, env', hrun, hends⟩ := hx.ends misfit rfl
      exact .of_error ((yields_bind_error hrun).mpr ⟨rfl, rfl⟩) hends
  | none =>
      obtain ⟨a, env₁, hrun, hle, ha⟩ := hx.fits rfl
      have hf := hf rfl a env₁ hle ha
      rw [Option.none_or]
      constructor
      · intro hm
        obtain ⟨b, env₂, hrun₂, hle₂, hb⟩ := hf.fits hm
        exact ⟨b, env₂, (yields_bind hrun).mpr hrun₂, Nat.le_trans hle hle₂, hb⟩
      · intro misfit hm
        obtain ⟨e, env₂, hrun₂, hends⟩ := hf.ends misfit hm
        exact ⟨e, env₂, (yields_bind hrun).mpr hrun₂, hends⟩

end Outcomes

/-! ## Taking channels -/

section Steps

variable {c : Composer} {env : Env} {side : Side} {vars : List Symbol} {cursor : Nat} {n : Int}

theorem outcome_take {name : String} (hcursor : cursor < 2 ^ 63) (hn : n < 2 ^ 63) :
    Outcome (takeMisfit? vars.length cursor n) (Fixed.take vars cursor n name) env
      fun taken _ => taken = (vars.drop cursor).take n.toNat := by
  unfold takeMisfit? Fixed.take
  by_cases hneg : n < 0
  · rw [if_pos hneg, if_pos hneg]
    exact .of_error (yields_throw.mpr ⟨rfl, rfl⟩) ⟨_, rfl, rfl⟩
  rw [if_neg hneg, if_neg hneg]
  by_cases hword : 2 ^ 63 ≤ cursor + n.toNat
  · -- the sum wraps around and comes out below zero
    have hstop := word_of_le (n := cursor + n) (by omega) (by omega)
    simp only [hstop]
    rw [if_pos hword, if_neg (by omega), if_pos (by omega)]
    exact .of_error (yields_throw.mpr ⟨rfl, rfl⟩) rfl
  have hstop := word_of_isWord (n := cursor + n) ⟨by omega, by omega⟩
  simp only [hstop]
  rw [if_neg hword]
  by_cases hlt : vars.length < cursor + n.toNat
  · rw [if_pos hlt, if_pos (by omega)]
    exact .of_error (yields_throw.mpr ⟨rfl, rfl⟩) ⟨_, rfl, rfl⟩
  · rw [if_neg hlt, if_neg (by omega), if_neg (by omega)]
    exact .of_succeeds (succeeds_pure rfl)

theorem checkCopies_cases (name : String) {s : Symbol} {rest : List Symbol}
    (hsolid : ∀ t ∈ s :: rest, t.isHole = false) :
    ((∀ t ∈ rest, t.size = s.size) → Fixed.checkCopies name s rest = .ok ()) ∧
      (¬ (∀ t ∈ rest, t.size = s.size) →
        ∃ t, Fixed.checkCopies name s rest = .error (.error (.unequalDuplicates name t s))) := by
  induction rest with
  | nil => simp [Fixed.checkCopies]
  | cons t rest ih =>
      have hs := hsolid s (by simp)
      have ht := hsolid t (by simp)
      obtain ⟨hok, herror⟩ := ih fun r hr => hsolid r (by
        simp only [List.mem_cons] at hr ⊢
        tauto)
      simp only [Fixed.checkCopies, hs, ht, Bool.or_self, Bool.false_eq_true, if_false,
        List.forall_mem_cons]
      by_cases hsize : t.size = s.size
      · simp only [hsize, bne_self_eq_false, Bool.false_eq_true, if_false, true_and]
        exact ⟨hok, herror⟩
      · simp only [hsize, false_and, false_implies, not_false_eq_true, true_implies, true_and]
        exact ⟨t, by simp [hsize]⟩

theorem even_cons_iff {s : Symbol} {rest : List Symbol} :
    (Part.dup n).Even (s :: rest) ↔ ∀ t ∈ rest, t.size = s.size := by
  constructor
  · exact fun heven t ht => heven t (by simp [ht]) s (by simp)
  · intro hall
    have hsize : ∀ t ∈ s :: rest, t.size = s.size := List.forall_mem_cons.mpr ⟨rfl, hall⟩
    exact fun r hr t ht => (hsize r hr).trans (hsize t ht).symm

theorem outcome_checkCopies {name : String} {s : Symbol} {rest : List Symbol}
    (hsolid : ∀ t ∈ s :: rest, t.isHole = false) :
    Outcome (if (Part.dup n).Even (s :: rest) then none else some .unequal)
      (ofFresh (Fresh.ofExcept (Fixed.checkCopies name s rest))) env fun _ _ => True := by
  obtain ⟨hok, herror⟩ := checkCopies_cases name hsolid
  split
  · rename_i heven
    rw [hok (even_cons_iff.mp heven)]
    exact .of_succeeds (succeeds_ofFresh (yields_pure.mpr ⟨rfl, rfl⟩) (Nat.le_refl _) trivial)
  · rename_i heven
    obtain ⟨t, hcheck⟩ := herror fun hall => heven (even_cons_iff.mpr hall)
    rw [hcheck]
    exact .of_error (yields_ofFresh_iff.mpr ⟨_, yields_throw.mpr ⟨rfl, rfl⟩, rfl⟩) ⟨_, rfl, rfl⟩

theorem outcome_fanOut {template : Symbol} (hid : template.id < env.supply.next)
    (hsolid : template.isHole = false) :
    Outcome (copiesMisfit? n) (Channels.fanOut template n) env fun h g =>
      h.Presents g [] ⟨[], [template.face], List.replicate n.toNat template.face⟩
        fun _ values outputs => ∃ x : List Float, x.length = template.size ∧ values = [x] ∧
          outputs = List.replicate n.toNat x := by
  rw [← Option.none_or (o := copiesMisfit? n)]
  refine (Outcome.of_succeeds (Channels.succeeds_copy hid hsolid)).bind
    fun _ input env₁ hle₁ hinput => ?_
  unfold copiesMisfit?
  split
  · exact .of_error ((yields_bind_error (yields_throw.mpr ⟨rfl, rfl⟩)).mpr ⟨rfl, rfl⟩) rfl
  · exact .of_succeeds (Channels.presents_spread hinput (Nat.lt_of_lt_of_le hid hle₁) hsolid)

end Steps

/-! ## Pieces -/

def piece (side : Side) (ps : List Part) (xs : List Symbol) : Facade Symbol :=
  match side with
  | .inputs => ⟨[], asked ps xs, supplied ps xs (asked ps xs)⟩
  | .outputs => ⟨[], xs.take (demand .outputs ps), outgoing ps xs⟩

theorem meets_piece_inputs {F : Facade Symbol} {ps : List Part} {xs : List Symbol}
    (hfree : F.free = xs.map Symbol.face) (heven : Even ps xs)
    (hle : demand .inputs ps ≤ xs.length) :
    ((piece .inputs ps xs).map Symbol.face).Meets Symbol.size F := by
  refine Facade.meets_of_sizes ?_
  simp only [piece, Facade.map, List.length_map, length_supplied_asked heven hle, hfree,
    ← List.map_take]
  rw [List.map_map, List.map_map]
  exact sizes_supplied heven

theorem meets_piece_outputs {F : Facade Symbol} {ps : List Part} {xs : List Symbol}
    (houtputs : F.outputs = xs.map Symbol.face) :
    F.Meets Symbol.size ((piece .outputs ps xs).map Symbol.face) := by
  have hsplit : F.outputs = ((piece .outputs ps xs).map Symbol.face).free ++
      F.outputs.drop (demand .outputs ps) := by
    simp only [piece, Facade.map, houtputs, List.map_take, List.take_append_drop]
  exact Facade.meets_of_append hsplit

/-- What the program for parts does that take their channels from this list. -/
def acts (side : Side) (ps : List Part) (xs : List Symbol) : Behaviour := fun values outputs =>
  match side with
  | .inputs =>
      values.length = (asked ps xs).length ∧
        outputs = supplied ps (xs.map Symbol.blank) values ∧
        Suits ((supplied ps xs (asked ps xs)).map NameGroup.key) outputs
  | .outputs =>
      Suits ((xs.take (demand .outputs ps)).map NameGroup.key) values ∧
        outputs = outgoing ps values

section Pieces

variable {side : Side} {ps qs : List Part} {xs : List Symbol} {values outputs : List (List Float)}

theorem length_supplied_congr {α β : Type} {blanks given : List α} {blanks' given' : List β}
    (hblanks : blanks.length = blanks'.length) (hgiven : given.length = given'.length) :
    (supplied ps blanks given).length = (supplied ps blanks' given').length := by
  have hcount : ∀ {γ : Type} (bs gs : List γ), (supplied ps bs gs).length =
      (supplied ps (List.replicate bs.length ()) (List.replicate gs.length ())).length := by
    intro γ bs gs
    rw [← List.map_const', ← List.map_const', ← map_supplied, List.length_map]
  rw [hcount blanks, hcount blanks', hblanks, hgiven]

theorem piece_append : piece side (ps ++ qs) xs =
    (piece side ps xs).beside (piece side qs (xs.drop (demand side ps))) := by
  cases side with
  | inputs =>
      simp only [piece, Facade.beside, asked_append, List.append_nil]
      rw [supplied_append rfl]
  | outputs =>
      simp only [piece, Facade.beside, outgoing_append, demand_append, List.append_nil,
        List.take_add]

theorem acts_append (hle : demand side ps ≤ xs.length)
    (h : acts side (ps ++ qs) xs values outputs) :
    Behaviour.Paired (acts side ps xs) (acts side qs (xs.drop (demand side ps))) 0 0 values
      outputs := by
  cases side with
  | inputs =>
      obtain ⟨hlen, rfl, hsuits⟩ := h
      rw [asked_append, List.length_append] at hlen
      have hown : (values.take (asked ps xs).length).length = (asked ps xs).length :=
        List.length_take_of_le (by omega)
      have hsplit := List.take_append_drop (asked ps xs).length values
      have hsupplied : supplied (ps ++ qs) (xs.map Symbol.blank)
          (values.take (asked ps xs).length ++ values.drop (asked ps xs).length) = _ :=
        supplied_append (hown.trans length_asked_map.symm)
      rw [hsplit] at hsupplied
      rw [hsupplied, asked_append, supplied_append rfl, List.map_append, suits_append (by
        rw [List.length_map]
        exact length_supplied_congr (List.length_map _) hown)] at hsuits
      refine ⟨[], [], values.take (asked ps xs).length, values.drop (asked ps xs).length, _, _,
        by simp, rfl, rfl, ⟨hown, rfl, hsuits.1⟩, ⟨?_, ?_, hsuits.2⟩, hsupplied⟩
      · rw [List.nil_append, List.length_drop]
        omega
      · rw [List.nil_append, List.map_drop]
  | outputs =>
      obtain ⟨hsuits, rfl⟩ := h
      have hlen := hsuits.length
      rw [List.length_map, demand_append, List.take_add, List.length_append,
        List.length_take_of_le hle] at hlen
      have hown : (values.take (demand .outputs ps)).length = demand .outputs ps :=
        List.length_take_of_le (by omega)
      rw [← List.take_append_drop (demand .outputs ps) values, demand_append, List.take_add,
        List.map_append, suits_append (by
          rw [hown, List.length_map, List.length_take_of_le hle])] at hsuits
      refine ⟨[], [], values.take (demand .outputs ps), values.drop (demand .outputs ps), _, _,
        by simp, rfl, rfl, ⟨hsuits.1, rfl⟩, ⟨hsuits.2, rfl⟩, ?_⟩
      rw [List.nil_append, List.nil_append, outgoing_take, outgoing_append]

/-! ### One part -/

theorem piece_inputs_singleton {p : Part} {chunk : List Symbol}
    (hchunk : xs.take (p.consumed .inputs) = chunk) :
    piece .inputs [p] xs = ⟨[], p.asked chunk, p.supplied chunk (p.asked chunk)⟩ := by
  subst hchunk
  simp only [piece]
  rw [supplied_singleton (by rw [asked_singleton]), asked_singleton]

theorem piece_outputs_singleton {p : Part} {chunk : List Symbol}
    (hchunk : xs.take (p.consumed .outputs) = chunk) :
    piece .outputs [p] xs = ⟨[], chunk, p.outgoing chunk⟩ := by
  subst hchunk
  simp only [piece]
  rw [outgoing_singleton, demand_singleton]

theorem of_acts_inputs_singleton {p : Part} {chunk : List Symbol}
    (hchunk : xs.take (p.consumed .inputs) = chunk) (h : acts .inputs [p] xs values outputs) :
    values.length = (p.asked chunk).length ∧
      outputs = p.supplied (chunk.map Symbol.blank) values ∧
      Suits ((p.supplied chunk (p.asked chunk)).map NameGroup.key) outputs := by
  subst hchunk
  obtain ⟨hlen, rfl, hsuits⟩ := h
  rw [asked_singleton] at hlen
  have hblanks : values.length =
      (p.asked ((xs.map Symbol.blank).take (p.consumed .inputs))).length := by
    rw [hlen, ← List.map_take, ← Part.map_asked, List.length_map]
  rw [supplied_singleton (by rw [asked_singleton]), asked_singleton, supplied_singleton hblanks]
    at hsuits
  rw [supplied_singleton hblanks]
  rw [← List.map_take] at hsuits ⊢
  exact ⟨hlen, rfl, hsuits⟩

theorem of_acts_outputs_singleton {p : Part} {chunk : List Symbol}
    (hchunk : xs.take (p.consumed .outputs) = chunk) (hlen : chunk.length = p.consumed .outputs)
    (h : acts .outputs [p] xs values outputs) :
    Suits (chunk.map NameGroup.key) values ∧ outputs = p.outgoing values := by
  subst hchunk
  obtain ⟨hsuits, rfl⟩ := h
  rw [demand_singleton] at hsuits
  refine ⟨hsuits, ?_⟩
  rw [outgoing_singleton, List.take_of_length_le]
  rw [hsuits.length, List.length_map]
  exact Nat.le_of_eq hlen

end Pieces

/-- The program for parts that take their channels from the cursor on. -/
def Made (side : Side) (vars : List Symbol) (cursor : Nat) (ps : List Part) (r : Handle × Nat)
    (g : Supply) : Prop :=
  r.2 = cursor + demand side ps ∧
    r.1.Presents g [] ((piece side ps (vars.drop cursor)).map Symbol.face)
      fun _ => acts side ps (vars.drop cursor)

section Programs

variable {c : Composer} {side : Side} {vars : List Symbol} {cursor : Nat}

theorem succeeds_made {env : Env} {x : Compose Handle} {ps : List Part} {next : Nat}
    (hnext : next = cursor + demand side ps)
    (hx : Succeeds x env fun h g =>
      h.Presents g [] ((piece side ps (vars.drop cursor)).map Symbol.face)
        fun _ => acts side ps (vars.drop cursor)) :
    Succeeds (do return (← x, next)) env (Made side vars cursor ps) :=
  hx.bind fun _ _ _ hh => succeeds_pure ⟨hnext, hh⟩

theorem firstMisfit?_singleton {p : Part} :
    firstMisfit? side vars cursor [p] = p.misfit? side vars cursor := by
  rw [firstMisfit?, firstMisfit?, Option.or_none]

theorem outcome_taking {env : Env} {p : Part} {n : Int} {name : String} {misfit : Option Misfit}
    {make : List Symbol → Compose (Handle × Nat)} (hconsumed : p.consumed side = n.toNat)
    (hcursor : cursor < 2 ^ 63) (hn : n < 2 ^ 63) (hvars : env.supply.Above vars)
    (hsolid : ∀ s ∈ vars, s.isHole = false)
    (hmake : ∀ taken env', env'.supply.Above taken → (∀ s ∈ taken, s.isHole = false) →
      (vars.drop cursor).take (p.consumed side) = taken → taken.length = p.consumed side →
      0 ≤ n → Outcome misfit (make taken) env' (Made side vars cursor [p])) :
    Outcome ((takeMisfit? vars.length cursor n).or misfit)
      (Fixed.take vars cursor n name >>= make) env (Made side vars cursor [p]) := by
  refine (outcome_take hcursor hn).bind fun hfits taken env₁ hle₁ htaken => ?_
  obtain ⟨hnonneg, _, hle⟩ := takeMisfit?_eq_none_iff.mp hfits
  rw [← hconsumed] at htaken hle
  have hmem : ∀ s ∈ taken, s ∈ vars := by
    intro s hs
    rw [htaken] at hs
    exact List.mem_of_mem_drop (List.mem_of_mem_take hs)
  refine hmake taken env₁ (fun s hs => hvars.mono hle₁ s (hmem s hs))
    (fun s hs => hsolid s (hmem s hs)) htaken.symm ?_ hnonneg
  rw [htaken, List.length_take_of_le]
  rw [List.length_drop]
  omega

theorem outcome_keep {env : Env} {n : Int} (hcursor : cursor < 2 ^ 63) (hn : n < 2 ^ 63)
    (hvars : env.supply.Above vars) (hsolid : ∀ s ∈ vars, s.isHole = false) :
    Outcome (firstMisfit? side vars cursor [.keep n]) (Fixed.program c side vars cursor (.keep n))
      env (Made side vars cursor [.keep n]) := by
  rw [firstMisfit?_singleton, Part.misfit?, ← Option.or_none (o := takeMisfit? _ _ _)]
  refine outcome_taking rfl hcursor hn hvars hsolid
    fun taken env₁ habove hsolid htaken hlen _ => .of_succeeds (succeeds_made ?_ ?_)
  · rw [demand_singleton, hlen]
  refine (Channels.presents_passThrough habove hsolid).imp fun h g hh => ?_
  cases side with
  | inputs =>
      rw [piece_inputs_singleton htaken]
      refine hh.imp fun u values outputs hacts => ?_
      obtain ⟨_, rfl, hsuits⟩ := of_acts_inputs_singleton htaken hacts
      exact ⟨hsuits, rfl⟩
  | outputs =>
      rw [piece_outputs_singleton htaken]
      refine hh.imp fun u values outputs hacts => ?_
      exact of_acts_outputs_singleton htaken hlen hacts

theorem outcome_lose {env : Env} {n : Int} (hcursor : cursor < 2 ^ 63) (hn : n < 2 ^ 63)
    (hvars : env.supply.Above vars) (hsolid : ∀ s ∈ vars, s.isHole = false) :
    Outcome (firstMisfit? side vars cursor [.lose n]) (Fixed.program c side vars cursor (.lose n))
      env (Made side vars cursor [.lose n]) := by
  rw [firstMisfit?_singleton, Part.misfit?, ← Option.or_none (o := takeMisfit? _ _ _)]
  refine outcome_taking rfl hcursor hn hvars hsolid
    fun taken env₁ habove hsolid htaken hlen _ => .of_succeeds ?_
  have hnext : cursor + taken.length = cursor + demand side [.lose n] := by
    rw [demand_singleton, hlen]
  cases side with
  | inputs =>
      refine succeeds_made hnext ((Channels.presents_source habove hsolid).imp fun h g hh => ?_)
      rw [piece_inputs_singleton htaken]
      refine hh.imp fun u values outputs hacts => ?_
      obtain ⟨hnone, rfl, _⟩ := of_acts_inputs_singleton htaken hacts
      exact ⟨List.eq_nil_of_length_eq_zero hnone, rfl⟩
  | outputs =>
      refine succeeds_made hnext ((Channels.presents_sink habove hsolid).imp fun h g hh => ?_)
      rw [piece_outputs_singleton htaken]
      refine hh.imp fun u values outputs hacts => ?_
      exact of_acts_outputs_singleton htaken hlen hacts

theorem outcome_dup_outputs {env : Env} {n : Int} (hcursor : cursor < 2 ^ 63)
    (hvars : env.supply.Above vars) (hsolid : ∀ s ∈ vars, s.isHole = false) :
    Outcome (firstMisfit? .outputs vars cursor [.dup n])
      (Fixed.program c .outputs vars cursor (.dup n)) env (Made .outputs vars cursor [.dup n]) := by
  rw [firstMisfit?_singleton]
  refine outcome_taking (n := 1) rfl hcursor (by decide) hvars hsolid
    fun taken env₁ habove hsolid htaken hlen _ => ?_
  obtain ⟨s, rfl⟩ := List.length_eq_one_iff.mp hlen
  rw [← Option.or_none (o := copiesMisfit? n)]
  refine (outcome_fanOut (habove s (by simp)) (hsolid s (by simp))).bind
    fun _ h env₂ _ hh => .of_succeeds (succeeds_pure ⟨?_, ?_⟩)
  · rw [demand_singleton]
    rfl
  rw [piece_outputs_singleton htaken]
  simp only [Part.outgoing, Facade.map, List.flatMap_cons, List.flatMap_nil, List.append_nil,
    List.map_replicate, List.map_cons, List.map_nil]
  refine hh.imp fun u values outputs hacts => ?_
  obtain ⟨hsuits, rfl⟩ := of_acts_outputs_singleton htaken hlen hacts
  obtain ⟨x, rfl⟩ := List.length_eq_one_iff.mp hsuits.length
  refine ⟨x, ?_, rfl, by simp [Part.outgoing]⟩
  simpa [Suits, NameGroup.key] using hsuits

theorem outcome_dup_inputs {env : Env} {n : Int} (hcursor : cursor < 2 ^ 63) (hn : n < 2 ^ 63)
    (hvars : env.supply.Above vars) (hsolid : ∀ s ∈ vars, s.isHole = false) :
    Outcome (firstMisfit? .inputs vars cursor [.dup n])
      (Fixed.program c .inputs vars cursor (.dup n)) env (Made .inputs vars cursor [.dup n]) := by
  rw [firstMisfit?_singleton]
  refine outcome_taking (n := n) rfl hcursor hn hvars hsolid
    fun taken env₁ habove hsolid htaken hlen hnonneg => ?_
  have htaken' : (vars.drop cursor).take n.toNat = taken := htaken
  have hlen' : taken.length = n.toNat := hlen
  rw [htaken']
  cases taken with
  | nil =>
      have hzero : n = 0 := by
        simp only [List.length_nil] at hlen'
        omega
      have hfits : copiesMisfit? n = none :=
        copiesMisfit?_eq_none_iff.mpr ⟨hnonneg, by rw [hzero]; decide⟩
      have heven : (Part.dup n).Even [] := fun _ hs => by cases hs
      rw [if_pos heven, hfits]
      refine .of_succeeds (succeeds_made (by rw [demand_singleton, ← hlen]; rfl) ?_)
      refine (Channels.presents_passThrough habove hsolid).imp fun h g hh => ?_
      rw [piece_inputs_singleton htaken]
      refine hh.imp fun u values outputs hacts => ?_
      obtain ⟨hnone, rfl, hsuits⟩ := of_acts_inputs_singleton htaken hacts
      obtain rfl := List.eq_nil_of_length_eq_zero hnone
      exact ⟨hsuits, rfl⟩
  | cons s rest =>
      have hcount : ((rest.length : Int) + 1) = n := by
        simp only [List.length_cons] at hlen'
        omega
      have hsplit : (if (Part.dup n).Even (s :: rest) then copiesMisfit? n else some .unequal) =
          (if (Part.dup n).Even (s :: rest) then none else some .unequal).or
            ((copiesMisfit? n).or none) := by
        rw [Option.or_none]
        split <;> rfl
      rw [hsplit]
      refine (outcome_checkCopies hsolid).bind fun _ _ env₂ hle₂ _ => ?_
      rw [hcount]
      refine (outcome_fanOut (habove.mono hle₂ s (by simp)) (hsolid s (by simp))).bind
        fun _ h env₃ _ hh => .of_succeeds (succeeds_pure ⟨?_, ?_⟩)
      · rw [demand_singleton, ← hlen, List.length_cons, Nat.add_assoc]
      rw [piece_inputs_singleton htaken]
      simp only [Part.asked, Part.supplied, Facade.map, List.take_succ_cons, List.take_zero,
        List.flatMap_cons, List.flatMap_nil, List.append_nil, List.map_replicate, List.map_cons,
        List.map_nil, hlen']
      refine hh.imp fun u values outputs hacts => ?_
      obtain ⟨hone, rfl, hsuits⟩ := of_acts_inputs_singleton htaken hacts
      obtain ⟨x, rfl⟩ := List.length_eq_one_iff.mp hone
      refine ⟨x, ?_, rfl, by simp [Part.supplied, ← hlen']⟩
      simpa [Suits, NameGroup.key, Part.supplied, Part.asked] using hsuits

theorem succeeds_start {env : Env} (side : Side) (xs : List Symbol) :
    Succeeds (Channels.passThrough []) env fun h g =>
      h.Presents g [] ((piece side [] xs).map Symbol.face) fun _ => acts side [] xs := by
  refine (Channels.presents_passThrough (by simp [Supply.Above]) (by simp)).imp fun h g hh => ?_
  cases side with
  | inputs =>
      refine hh.imp ?_
      rintro _ values _ ⟨hnone, rfl, _⟩
      obtain rfl := List.eq_nil_of_length_eq_zero hnone
      exact ⟨rfl, rfl⟩
  | outputs =>
      refine hh.imp ?_
      rintro _ values _ ⟨hsuits, rfl⟩
      obtain rfl := List.eq_nil_of_length_eq_zero hsuits.length
      exact ⟨rfl, rfl⟩

theorem succeeds_combine_made {env : Env} {ps qs : List Part} {done h : Handle}
    (hle : cursor + demand side ps ≤ vars.length)
    (hdone : done.Presents env.supply [] ((piece side ps (vars.drop cursor)).map Symbol.face)
      fun _ => acts side ps (vars.drop cursor))
    (hh : h.Presents env.supply []
      ((piece side qs (vars.drop (cursor + demand side ps))).map Symbol.face)
      fun _ => acts side qs (vars.drop (cursor + demand side ps))) :
    Succeeds (c.combine (some done) (some h)) env fun wider g => wider.Presents g []
      ((piece side (ps ++ qs) (vars.drop cursor)).map Symbol.face)
      fun _ => acts side (ps ++ qs) (vars.drop cursor) := by
  refine (Composer.presents_combine hdone hh).imp fun wider g hwider => ?_
  rw [← Facade.map_beside, ← List.drop_drop, ← piece_append] at hwider
  refine hwider.imp fun u values outputs hacts => ?_
  have hnone : ∀ rs xs, ((piece side rs xs).map Symbol.face).curried.length = 0 := by
    intro rs xs
    cases side <;> rfl
  rw [hnone, hnone]
  exact acts_append (by rw [List.length_drop]; omega) hacts

mutual

theorem outcome_program (f : Fixed) (ps : List Part) (env : Env) (cursor : Nat)
    (hps : f.parts? = some ps) (hcounts : ∀ p ∈ ps, p.count < 2 ^ 63) (hcursor : cursor < 2 ^ 63)
    (hle : cursor ≤ vars.length) (hvars : env.supply.Above vars)
    (hsolid : ∀ s ∈ vars, s.isHole = false) :
    Outcome (firstMisfit? side vars cursor ps) (Fixed.program c side vars cursor f) env
      (Made side vars cursor ps) := by
  match f with
  | .keep n =>
      cases hps
      exact outcome_keep hcursor (hcounts (.keep n) (by simp)) hvars hsolid
  | .lose n =>
      cases hps
      exact outcome_lose hcursor (hcounts (.lose n) (by simp)) hvars hsolid
  | .dup n =>
      cases hps
      cases side with
      | inputs => exact outcome_dup_inputs hcursor (hcounts (.dup n) (by simp)) hvars hsolid
      | outputs => exact outcome_dup_outputs hcursor hvars hsolid
  | .wrap _ => cases hps
  | .tree children =>
      rw [← Option.none_or (o := firstMisfit? side vars cursor ps)]
      refine (Outcome.of_succeeds (succeeds_start side (vars.drop cursor))).bind
        fun _ start env₁ hle₁ hstart => ?_
      exact outcome_combined children [] ps env₁ cursor hps hcounts hcursor hle
        (hvars.mono hle₁) hsolid hstart

theorem outcome_combined (children : List Fixed) (before ps : List Part) (env : Env)
    (cursor : Nat) {done : Handle} (hps : Fixed.partsOf? children = some ps)
    (hcounts : ∀ p ∈ ps, p.count < 2 ^ 63) (hcursor : cursor + demand side before < 2 ^ 63)
    (hle : cursor + demand side before ≤ vars.length) (hvars : env.supply.Above vars)
    (hsolid : ∀ s ∈ vars, s.isHole = false)
    (hdone : done.Presents env.supply []
      ((piece side before (vars.drop cursor)).map Symbol.face)
      fun _ => acts side before (vars.drop cursor)) :
    Outcome (firstMisfit? side vars (cursor + demand side before) ps)
      (Fixed.combined c side vars (cursor + demand side before) done children) env
      (Made side vars cursor (before ++ ps)) := by
  match children with
  | [] =>
      cases hps
      rw [List.append_nil]
      exact .of_succeeds (succeeds_pure ⟨rfl, hdone⟩)
  | f :: rest =>
      obtain ⟨qs, rs, hqs, hrs, rfl⟩ := Fixed.partsOf?_cons hps
      have hfirst : ∀ p ∈ qs, p.count < 2 ^ 63 := fun p hp => hcounts p (by simp [hp])
      have hrest : ∀ p ∈ rs, p.count < 2 ^ 63 := fun p hp => hcounts p (by simp [hp])
      rw [firstMisfit?_append]
      refine (outcome_program f qs env _ hqs hfirst hcursor hle hvars hsolid).bind
        fun hfits r env₁ hle₁ hr => ?_
      obtain ⟨h, next⟩ := r
      obtain ⟨rfl, hh⟩ := hr
      obtain ⟨hword, havailable⟩ := bounds_of_firstMisfit? hcursor hle hfits
      rw [← Option.none_or (o := firstMisfit? side vars _ rs)]
      refine (Outcome.of_succeeds (succeeds_combine_made hle (hdone.mono hle₁) hh)).bind
        fun _ wider env₂ hle₂ hwider => ?_
      have hnext : cursor + demand side before + demand side qs =
          cursor + demand side (before ++ qs) := by
        rw [demand_append, Nat.add_assoc]
      rw [hnext] at hword havailable ⊢
      rw [← List.append_assoc]
      exact outcome_combined rest (before ++ qs) rs env₂ cursor hrs hrest hword havailable
        ((hvars.mono hle₁).mono hle₂) hsolid hwider

end

end Programs

end Selection

/-! ## Manipulations -/

namespace Composer

open Selection

variable {c : Composer} {env : Env} {h : Handle} {bs : List Binding} {F : Facade Symbol}
  {R : Overrides → Behaviour} {f : Fixed} {ps : List Part}

theorem outcome_fixInputs (hh : h.Presents env.supply bs F R) (hps : f.parts? = some ps)
    (hcounts : ∀ p ∈ ps, p.count < 2 ^ 63) :
    Outcome (firstMisfit? .inputs h.free 0 ps) (fixInputs c (some h) f) env fun h' g =>
      h'.Presents g bs
        ⟨F.curried, asked ps F.free ++ F.free.drop (demand .inputs ps), F.outputs⟩
        fun u values outputs => ∃ cs ys zs, values = cs ++ ys ++ zs ∧
          cs.length = F.curried.length ∧ ys.length = (asked ps h.free).length ∧
          R u (cs ++ supplied ps (h.free.map Symbol.blank) ys ++ zs) outputs := by
  obtain ⟨p, hp, _⟩ := hh.runs
  obtain rfl := hh.faces
  obtain ⟨habove, hsolid⟩ := hp.above_free
  rw [← Option.none_or (o := firstMisfit? _ _ _ _), ← Option.or_none (o := firstMisfit? _ _ _ _)]
  refine (Outcome.of_succeeds (hp.succeeds_freeInputs env)).bind ?_
  rintro _ _ env₁ hle₁ ⟨rfl, _⟩
  refine (outcome_program f ps env₁ 0 hps hcounts (by decide) (Nat.zero_le _)
    (habove.mono hle₁) hsolid).bind fun hfits r env₂ hle₂ hr => ?_
  obtain ⟨front, next⟩ := r
  obtain ⟨_, hfront⟩ := hr
  have heven := even_of_firstMisfit? hfits
  have havailable := (bounds_of_firstMisfit? (by decide) (Nat.zero_le _) hfits).2
  rw [List.drop_zero] at hfront heven
  rw [Nat.zero_add] at havailable
  have hlen := length_supplied_asked heven havailable
  have hfree : h.faces.free = h.free.map Symbol.face := rfl
  refine .of_succeeds ((presents_connect hfront (hh.mono (Nat.le_trans hle₁ hle₂))
    (meets_piece_inputs hfree heven havailable)).imp fun h' g hh' => ?_)
  have hnone : ((supplied ps h.free (asked ps h.free)).map Symbol.face).drop h.faces.free.length =
      [] := by
    rw [List.drop_eq_nil_iff, List.length_map, hlen, hfree, List.length_map]
    exact havailable
  simp only [piece, Facade.map, Facade.joined, List.nil_append, List.length_map, List.length_nil,
    hlen, hnone, List.append_nil, List.map_nil] at hh'
  rw [map_asked, ← hfree] at hh'
  refine hh'.imp ?_
  rintro u _ outputs ⟨cs, ys, zs, rfl, hcs, hys, hR⟩
  have hsupplied : (supplied ps (h.free.map Symbol.blank) ys).length = demand .inputs ps :=
    (length_supplied_congr (List.length_map _) hys).trans hlen
  -- what arrives has the sizes of the inputs that were taken
  have hsuits := (hh.suits hR).1
  rw [Facade.inputs, List.map_append, List.append_assoc,
    suits_append (by rw [hcs, List.length_map])] at hsuits
  have htaken := hsuits.2
  rw [← List.take_append_drop (demand .inputs ps) h.faces.free, List.map_append,
    suits_append (by
      rw [hsupplied, List.length_map, List.length_take_of_le]
      rwa [hfree, List.length_map]), hfree, ← List.map_take, map_key_map_face, suits_key,
    ← sizes_supplied heven, ← suits_key] at htaken
  have hle : (supplied ps (h.free.map Symbol.blank) ys).length ≤ h.faces.free.length := by
    rw [hsupplied, hfree, List.length_map]
    exact havailable
  refine ⟨[], cs, ys, zs, supplied ps (h.free.map Symbol.blank) ys, outputs, by simp, rfl, hcs,
    ⟨hys, rfl, htaken.1⟩, ?_, ?_⟩
  · rw [List.take_of_length_le hle]
    exact hR
  · rw [List.drop_eq_nil_of_le hle, List.append_nil]

theorem outcome_fixOutputs (hh : h.Presents env.supply bs F R) (hps : f.parts? = some ps)
    (hcounts : ∀ p ∈ ps, p.count < 2 ^ 63) :
    Outcome (firstMisfit? .outputs h.outputs 0 ps) (fixOutputs c (some h) f) env fun h' g =>
      h'.Presents g bs
        ⟨F.curried, F.free, outgoing ps F.outputs ++ F.outputs.drop (demand .outputs ps)⟩
        fun u values outputs => ∃ r, R u values r ∧
          outputs = outgoing ps r ++ r.drop (demand .outputs ps) := by
  obtain ⟨p, hp, _⟩ := hh.runs
  obtain rfl := hh.faces
  obtain ⟨habove, hsolid⟩ := hp.above_outputs
  rw [← Option.or_none (o := firstMisfit? _ _ _ _)]
  refine (outcome_program f ps env 0 hps hcounts (by decide) (Nat.zero_le _) habove
    hsolid).bind fun hfits r env₁ hle₁ hr => ?_
  obtain ⟨back, next⟩ := r
  obtain ⟨_, hback⟩ := hr
  have havailable := (bounds_of_firstMisfit? (by decide) (Nat.zero_le _) hfits).2
  rw [List.drop_zero] at hback
  rw [Nat.zero_add] at havailable
  have houtputs : h.faces.outputs = h.outputs.map Symbol.face := rfl
  have htaken : (h.outputs.take (demand .outputs ps)).length = demand .outputs ps :=
    List.length_take_of_le havailable
  refine .of_succeeds ((presents_connect (hh.mono hle₁) hback
    (meets_piece_outputs houtputs)).imp fun h' g hh' => ?_)
  have hnone : ((h.outputs.take (demand .outputs ps)).map Symbol.face).drop
      h.faces.outputs.length = [] := by
    rw [List.drop_eq_nil_iff, List.length_map, htaken, houtputs, List.length_map]
    exact havailable
  simp only [piece, Facade.map, Facade.joined, List.append_nil, List.length_map, List.length_nil,
    htaken, hnone, List.map_nil] at hh'
  rw [map_outgoing, ← houtputs] at hh'
  refine hh'.imp ?_
  rintro u values _ ⟨r, hR, rfl⟩
  obtain ⟨hvalues, hr⟩ := hh.suits hR
  have hcurried : h.faces.curried.length ≤ values.length := by
    rw [hvalues.length, List.length_map, Facade.inputs, List.length_append]
    exact Nat.le_add_right ..
  have hsuits := hr.take (demand .outputs ps)
  rw [houtputs, map_key_map_face, ← List.map_take] at hsuits
  refine ⟨values.take h.faces.curried.length, [], values.drop h.faces.curried.length, [], r,
    outgoing ps r, by simp, List.length_take_of_le hcurried, rfl, ?_, ⟨?_, ?_⟩, rfl⟩
  · rwa [List.take_append_drop]
  · rwa [List.nil_append, List.append_nil]
  · rw [List.nil_append, List.append_nil, outgoing_take]

end Composer

/-! ## The results of manipulations -/

open Selection

/-- The parts pass on what they make of the outputs in front; the other outputs follow. -/
structure Handle.FollowedBy (ps : List Part) (h : Handle) (p : Program) (h' : Handle)
    (q : Program) : Prop where
  program : h'.sketch.program? = some q
  bindings : h'.bindings = h.bindings
  faces : h'.faces = ⟨h.faces.curried, h.faces.free,
    outgoing ps h.faces.outputs ++ h.faces.outputs.drop (demand .outputs ps)⟩
  runs : ∀ (u : Overrides) (values outputs : List (List Float)),
    (∃ steps, Completes p values u ⟨outputs, false, steps⟩) →
    ∃ steps, Completes q values u
      ⟨outgoing ps outputs ++ outputs.drop (demand .outputs ps), false, steps⟩

/-- The inputs that the parts ask for stand for the free inputs in front; the other free inputs
follow. -/
structure Handle.PrecededBy (ps : List Part) (h : Handle) (p : Program) (h' : Handle)
    (q : Program) : Prop where
  program : h'.sketch.program? = some q
  bindings : h'.bindings = h.bindings
  faces : h'.faces = ⟨h.faces.curried,
    asked ps h.faces.free ++ h.faces.free.drop (demand .inputs ps), h.faces.outputs⟩
  runs : ∀ (u : Overrides) (cs ys zs outputs : List (List Float)),
    cs.length = h.bindings.length → ys.length = (asked ps h.free).length →
    (∃ steps, Completes p
      (cs ++ supplied ps (h.free.map fun s => List.replicate s.size 0) ys ++ zs) u
      ⟨outputs, false, steps⟩) →
    ∃ steps, Completes q (cs ++ ys ++ zs) u ⟨outputs, false, steps⟩

namespace Composer

variable {h : Handle} {p : Program} {env : Env} {f : Fixed} {ps : List Part}

theorem exists_followedBy {x : Compose Handle} (hx : Succeeds x env fun h' g =>
      h'.Presents g h.bindings
        ⟨h.faces.curried, h.faces.free,
          outgoing ps h.faces.outputs ++ h.faces.outputs.drop (demand .outputs ps)⟩
        fun u values outputs => ∃ r, Gives p u values r ∧
          outputs = outgoing ps r ++ r.drop (demand .outputs ps)) :
    ∃ h' q env', x.run.run env = (.ok h', env') ∧ h.FollowedBy ps p h' q := by
  obtain ⟨h', env', hrun, _, hbs, hfaces, q, hq, hruns⟩ := hx
  refine ⟨h', q, env', hrun, Sketch.program?_of_eq hq.holds.sketch, hbs, hfaces,
    fun u values outputs hcompletes => ?_⟩
  exact hruns u values _ ⟨outputs, hcompletes, rfl⟩

theorem exists_precededBy {x : Compose Handle} (hh : h.Carries env.supply p)
    (hplain : ∀ s ∈ p.inputs, s.value = []) (hx : Succeeds x env fun h' g =>
      h'.Presents g h.bindings
        ⟨h.faces.curried, asked ps h.faces.free ++ h.faces.free.drop (demand .inputs ps),
          h.faces.outputs⟩
        fun u values outputs => ∃ cs ys zs, values = cs ++ ys ++ zs ∧
          cs.length = h.faces.curried.length ∧ ys.length = (asked ps h.free).length ∧
          Gives p u (cs ++ supplied ps (h.free.map Symbol.blank) ys ++ zs) outputs) :
    ∃ h' q env', x.run.run env = (.ok h', env') ∧ h.PrecededBy ps p h' q := by
  obtain ⟨h', env', hrun, _, hbs, hfaces, q, hq, hruns⟩ := hx
  refine ⟨h', q, env', hrun, Sketch.program?_of_eq hq.holds.sketch, hbs, hfaces,
    fun u cs ys zs outputs hcs hys hcompletes => ?_⟩
  have hblank : h.free.map Symbol.blank = h.free.map fun s => List.replicate s.size 0 :=
    List.map_congr_left fun _ hs => hh.blank_of_mem_free hplain hs
  rw [← hblank] at hcompletes
  exact hruns u _ outputs ⟨cs, ys, zs, rfl, hcs.trans hh.holds.length_curried.symm, hys, hcompletes⟩

theorem misfit_cases {side : Side} {vars : List Symbol} {m : Misfit}
    (hmoderate : Moderate side vars.length ps) (hm : firstMisfit? side vars 0 ps = some m) :
    (m = .overrun ∧ vars.length < demand side ps) ∨
      (m = .unequal ∧ side = .inputs ∧ ¬ Even ps vars) := by
  simpa using firstMisfit?_cases hmoderate.part (by simpa using hmoderate.word) hm

theorem count_lt_of_moderate {side : Side} {available : Nat}
    (hmoderate : Moderate side available ps) : ∀ part ∈ ps, part.count < 2 ^ 63 :=
  fun _ hpart => (hmoderate.part _ hpart).count_lt
    (Nat.lt_of_le_of_lt (consumed_le_demand hpart) hmoderate.word)

/--
Manipulators with moderate counts conserve channels.  Behind a valid program they go well when
there are as many outputs as they demand, and in front of it when there are as many free inputs
and copies feed inputs of one size.  The result has the channels that the parts make of those
they take, followed by the others, and does what the program does with them.  Running out of
channels is refused as an overrun.
-/
theorem fixed_conserves (c : Composer) (hp : h.sketch.program? = some p) (hvalid : p.issues = [])
    (hbindings : h.bindings.length ≤ p.inputs.length) (hplain : ∀ s ∈ p.inputs, s.value = [])
    (habove : env.supply.Above p.symbols) (hps : f.parts? = some ps) :
    (Moderate .outputs h.outputs.length ps →
      (demand .outputs ps ≤ h.outputs.length → ∃ h' q env',
        (fixOutputs c (some h) f).run.run env = (.ok h', env') ∧ h.FollowedBy ps p h' q) ∧
      (h.outputs.length < demand .outputs ps → ∃ e env',
        (fixOutputs c (some h) f).run.run env = (.error (.error e), env') ∧
          e.kind = .cursorOverrun)) ∧
    (Moderate .inputs h.free.length ps →
      (demand .inputs ps ≤ h.free.length ∧ Even ps h.free → ∃ h' q env',
        (fixInputs c (some h) f).run.run env = (.ok h', env') ∧ h.PrecededBy ps p h' q) ∧
      (¬ (demand .inputs ps ≤ h.free.length ∧ Even ps h.free) → ∃ e env',
        (fixInputs c (some h) f).run.run env = (.error (.error e), env') ∧
          (e.kind = .cursorOverrun ∧ h.free.length < demand .inputs ps ∨
            e.kind = .sizeMismatch ∧ ¬ Even ps h.free))) := by
  have hh : h.Carries env.supply p := ⟨over_of_program? hp hvalid hbindings, habove⟩
  refine ⟨fun hmoderate => ?_, fun hmoderate => ?_⟩
  · have hbehind := outcome_fixOutputs (c := c) hh.presents hps (count_lt_of_moderate hmoderate)
    refine ⟨fun hle => ?_, fun hlt => ?_⟩
    · have hm := (firstMisfit?_eq_none_iff hmoderate).mpr ⟨hle, by simp⟩
      exact exists_followedBy (hbehind.fits hm)
    · have hm : firstMisfit? .outputs h.outputs 0 ps ≠ none := fun hm =>
        Nat.not_le_of_lt hlt ((firstMisfit?_eq_none_iff hmoderate).mp hm).1
      obtain ⟨m, hm⟩ := Option.ne_none_iff_exists'.mp hm
      rcases misfit_cases hmoderate hm with ⟨rfl, _⟩ | ⟨_, hside, _⟩
      · exact hbehind.refused hm rfl
      · cases hside
  · have hfront := outcome_fixInputs (c := c) hh.presents hps (count_lt_of_moderate hmoderate)
    refine ⟨fun hfits => ?_, fun hnot => ?_⟩
    · have hm := (firstMisfit?_eq_none_iff hmoderate).mpr ⟨hfits.1, fun _ => hfits.2⟩
      exact exists_precededBy hh hplain (hfront.fits hm)
    · have hm : firstMisfit? .inputs h.free 0 ps ≠ none := fun hm =>
        have hfits := (firstMisfit?_eq_none_iff hmoderate).mp hm
        hnot ⟨hfits.1, hfits.2 rfl⟩
      obtain ⟨m, hm⟩ := Option.ne_none_iff_exists'.mp hm
      rcases misfit_cases hmoderate hm with ⟨rfl, hlt⟩ | ⟨rfl, _, hodd⟩
      · obtain ⟨e, env', hrun, hkind⟩ := hfront.refused hm rfl
        exact ⟨e, env', hrun, .inl ⟨hkind, hlt⟩⟩
      · obtain ⟨e, env', hrun, hkind⟩ := hfront.refused hm rfl
        exact ⟨e, env', hrun, .inr ⟨hkind, hodd⟩⟩

theorem fixed_conserves_selecting :
    let u : Symbol := ⟨7, .uniform, 1, .float32, .attrib, "u", []⟩
    let h : Handle := ⟨1, 1, selecting.sketch, [⟨.uniform, u⟩], []⟩
    let f : Fixed := .tree [.lose 1, .tree [.dup 2]]
    let env : Env := { Env.start with supply := ⟨8⟩ }
    (∃ h' q env', (fixOutputs {} (some h) f).run.run env = (.ok h', env') ∧
      h'.sketch.program? = some q ∧ ∃ steps,
        Completes q [[9], [1, 2], [7], [3]] [] ⟨[[7], [7], [3]], false, steps⟩) ∧
    ∃ h' q env', (fixInputs {} (some h) f).run.run env = (.ok h', env') ∧
      h'.sketch.program? = some q ∧ ∃ steps,
        Completes q [[9], [5]] [] ⟨[[0, 0], [5], [5]], false, steps⟩ := by
  intro u h f env
  obtain ⟨houtputs, hinputs⟩ :=
    @fixed_conserves h selecting env f [.lose 1, .dup 2] {} rfl rfl (by decide) (by decide)
      (by decide) rfl
  obtain ⟨hbehind, _⟩ := houtputs ⟨by decide, by decide⟩
  obtain ⟨hfront, _⟩ := hinputs ⟨by decide, by decide⟩
  obtain ⟨h₁, q₁, env₁, hrun₁, hfollowed⟩ := hbehind (by decide)
  obtain ⟨h₂, q₂, env₂, hrun₂, hpreceded⟩ := hfront (by decide)
  refine ⟨⟨h₁, q₁, env₁, hrun₁, hfollowed.program, ?_⟩, h₂, q₂, env₂, hrun₂, hpreceded.program, ?_⟩
  · exact hfollowed.runs [] [[9], [1, 2], [7], [3]] [[1, 2], [7], [3]] ⟨1, 1, rfl⟩
  · exact hpreceded.runs [] [[9]] [[5]] [] [[0, 0], [5], [5]] rfl rfl ⟨1, 1, rfl⟩

/-- No block has room for that many copies, though there is a channel to copy. -/
theorem fixOutputs_dup_unbounded :
    let h : Handle := ⟨1, 1, Program.copying.sketch, [], []⟩
    Program.copying.issues = [] ∧ demand .outputs [.dup (2 ^ 62)] ≤ h.outputs.length ∧
      ¬ ∃ h' env', (fixOutputs {} (some h) (.dup (2 ^ 62))).run.run
        { Env.start with supply := ⟨4⟩ } = (.ok h', env') := by
  refine ⟨rfl, by decide, ?_⟩
  rintro ⟨h', env', hrun⟩
  have hcrash : (fixOutputs {} (some ⟨1, 1, Program.copying.sketch, [], []⟩)
      (.dup (2 ^ 62))).run.run { Env.start with supply := ⟨4⟩ } = (.error .outside, _) := rfl
  cases hcrash.symm.trans hrun

/-! ## How manipulations end -/

end Composer

def Selection.Side.channels (h : Handle) : Side → List Symbol
  | .inputs => h.free
  | .outputs => h.outputs

namespace Composer

variable {h : Handle} {p : Program} {env : Env} {f : Fixed} {ps : List Part}

def fix (c : Composer) (h : Option Handle) (f : Fixed) : Side → Compose Handle
  | .inputs => fixInputs c h f
  | .outputs => fixOutputs c h f

/--
Whatever machine words they count, manipulators of a valid program end as their first misfit
says: with a handle if there is none, with an error of its category if it has one, and with a
crash if a sum leaves the range of words or copies behind a program are fewer than none or more
than a block has room for.
-/
theorem fix_ends (c : Composer) (side : Side) (hp : h.sketch.program? = some p)
    (hvalid : p.issues = []) (hbindings : h.bindings.length ≤ p.inputs.length)
    (habove : env.supply.Above p.symbols) (hps : f.parts? = some ps)
    (hcounts : ∀ part ∈ ps, part.count < 2 ^ 63) :
    (firstMisfit? side (side.channels h) 0 ps = none → ∃ h' env',
      (fix c (some h) f side).run.run env = (.ok h', env')) ∧
    (∀ m k, firstMisfit? side (side.channels h) 0 ps = some m → m.kind? = some k →
      ∃ e env', (fix c (some h) f side).run.run env = (.error (.error e), env') ∧ e.kind = k) ∧
    (firstMisfit? side (side.channels h) 0 ps = some .unbounded → ∃ env',
      (fix c (some h) f side).run.run env = (.error .outside, env')) := by
  have hh : h.Carries env.supply p := ⟨over_of_program? hp hvalid hbindings, habove⟩
  have houtcome : Outcome (firstMisfit? side (side.channels h) 0 ps) (fix c (some h) f side) env
      fun _ _ => True := by
    cases side with
    | inputs => exact (outcome_fixInputs hh.presents hps hcounts).imp fun _ _ _ => trivial
    | outputs => exact (outcome_fixOutputs hh.presents hps hcounts).imp fun _ _ _ => trivial
  refine ⟨fun hm => ?_, fun m k hm hk => ?_, fun hm => ?_⟩
  · obtain ⟨h', env', hrun, _⟩ := houtcome.fits hm
    exact ⟨h', env', hrun⟩
  · exact houtcome.refused hm hk
  · obtain ⟨fault, env', hrun, rfl⟩ := houtcome.ends .unbounded hm
    exact ⟨env', hrun⟩

theorem fix_ends_copying :
    let h : Handle := ⟨1, 1, Program.copying.sketch, [], []⟩
    let env : Env := { Env.start with supply := ⟨4⟩ }
    (∃ e env', (fix {} (some h) (.dup (-1)) .inputs).run.run env = (.error (.error e), env') ∧
      e.kind = .range) ∧
    (∃ env', (fix {} (some h) (.dup (-1)) .outputs).run.run env = (.error .outside, env')) ∧
    ∃ env', (fix {} (some h) (.tree [.keep 1, .keep (2 ^ 63 - 1)]) .outputs).run.run env =
      (.error .outside, env') := by
  intro h env
  have hdup : ∀ part ∈ [Part.dup (-1)], part.count < 2 ^ 63 := by decide
  have hkeep : ∀ part ∈ [Part.keep 1, .keep (2 ^ 63 - 1)], part.count < 2 ^ 63 := by decide
  have hfront := @fix_ends h Program.copying env (.dup (-1)) _ {} .inputs rfl rfl (by decide)
    (by decide) rfl hdup
  have hbehind := @fix_ends h Program.copying env (.dup (-1)) _ {} .outputs rfl rfl (by decide)
    (by decide) rfl hdup
  have hwrapped := @fix_ends h Program.copying env (.tree [.keep 1, .keep (2 ^ 63 - 1)]) _ {}
    .outputs rfl rfl (by decide) (by decide) rfl hkeep
  exact ⟨hfront.2.1 .negative .range (by decide) rfl, hbehind.2.2 (by decide),
    hwrapped.2.2 (by decide)⟩

end Composer

end KernelAlgebra
