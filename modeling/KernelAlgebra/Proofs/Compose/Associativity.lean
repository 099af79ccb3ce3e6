import KernelAlgebra.Proofs.Compose.Facade
import KernelAlgebra.Proofs.Compose.Splitting

/-!
# Connecting is associative

Three handles can be connected in either grouping or in none.  The two results look the same
from the outside and behave alike, whatever is left over at either junction.
-/

namespace KernelAlgebra

open Machine

variable {Λ : Type} {π : Λ → Symbol} {A B C : Facade Λ} {g g' : Supply} {a b c h : Handle}
  {ap bp cp p : Program}

/-- The handle carries this program and shows the facade of labels. -/
structure Handle.Shows (π : Λ → Symbol) (A : Facade Λ) (g : Supply) (h : Handle) (p : Program) :
    Prop extends h.Carries g p where
  labels : ∃ ℓ, p.Shows π A ℓ
  curried : A.curried.length = h.bindings.length

namespace Handle.Shows

theorem mono (hh : h.Shows π A g p) (hle : g.next ≤ g'.next) : h.Shows π A g' p :=
  ⟨hh.toCarries.mono hle, hh.labels, hh.curried⟩

theorem length_free (hh : h.Shows π A g p) :
    (p.inputs.drop A.curried.length).length = A.free.length := by
  obtain ⟨ℓ, hℓ⟩ := hh.labels
  rw [hℓ.inputs, List.length_drop, List.length_map, Facade.inputs, List.length_append]
  omega

theorem sized (hh : h.Shows π A g p) (u : Overrides) :
    (Gives p u).Sized (A.curried.length + A.free.length) A.outputs.length := by
  obtain ⟨ℓ, hℓ⟩ := hh.labels
  have hsized := gives_sized p u
  rw [hℓ.inputs, hℓ.outputs, List.length_map, List.length_map, Facade.inputs,
    List.length_append] at hsized
  exact hsized

theorem meets_iff (ha : a.Shows π A g ap) (hb : b.Shows π B g bp) :
    a.Meets b ↔ A.Meets (fun x => (π x).size) B := by
  obtain ⟨ℓa, hℓa⟩ := ha.labels
  obtain ⟨ℓb, hℓb⟩ := hb.labels
  have hfree : bp.inputs.drop b.bindings.length = B.free.map ℓb := by
    rw [hℓb.inputs, Facade.inputs, List.map_append, List.drop_left']
    rw [List.length_map, hb.curried]
  rw [Composer.meets_iff ha.holds hb.holds, hfree, hℓa.outputs, List.zip_map, List.forall_mem_map]
  refine forall₂_congr fun q hq => ?_
  obtain ⟨hout, hin⟩ := List.of_mem_zip hq
  have hsize := Symbol.size_of_face (hℓa.face q.1 (List.mem_append.mpr (.inr hout)))
  have hsize' := Symbol.size_of_face
    (hℓb.face q.2 (List.mem_append.mpr (.inl (List.mem_append.mpr (.inr hin)))))
  change (ℓa q.1).size = (ℓb q.2).size ↔ (π q.1).size = (π q.2).size
  rw [hsize, hsize']

end Handle.Shows

namespace Composer

variable {o : Composer} {env env' : Env}

theorem exists_yields_connect (ha : a.Shows π A env.supply ap) (hb : b.Shows π B env.supply bp)
    (hmeets : A.Meets (fun x => (π x).size) B) :
    ∃ h env', Yields (connect o (some a) (some b)) env (.ok h) env' := by
  obtain ⟨r, env₁, hrun⟩ := yields_self (connectCore o (some a) (some b)) env
  rcases connects_of_yields ha.holds hb.holds ha.above hb.above hrun with
    ⟨_, h, q, rfl, _, hsketch, _⟩ | ⟨hnot, _⟩
  · obtain ⟨env', hobserve, _⟩ := Compose.yields_observe hrun (by rw [hsketch]; rfl)
    exact ⟨h, env', hobserve⟩
  · exact absurd ((ha.meets_iff hb).mpr hmeets) hnot

theorem joined_of_yields_connect [DecidableEq Λ] (hoff : o.optimize = false)
    (ha : a.Shows π A env.supply ap) (hb : b.Shows π B env.supply bp) (hapart : ∀ x ∈ A.all, x ∉ B.all)
    (hrun : Yields (connect o (some a) (some b)) env (.ok h) env') :
    A.Meets (fun x => (π x).size) B ∧ h.bindings = a.bindings ++ b.bindings ∧
      env.supply.next ≤ env'.supply.next ∧ ∃ q, h.Shows π (A.joined B) env'.supply q ∧
        ∀ u, Gives q u = Behaviour.Composed (Gives ap u) (Gives bp u) A.curried.length
          B.curried.length B.free.length := by
  obtain ⟨r, env₁, hcore⟩ := yields_self (connectCore o (some a) (some b)) env
  rcases connects_of_yields ha.holds hb.holds ha.above hb.above hcore with
    ⟨hmeets, h, q, rfl, hjoins, hsketch, hbindings⟩ | ⟨_, _, e, rfl, _⟩
  · obtain ⟨env₂, hobserve, hsupply⟩ := Compose.yields_observe hcore (by rw [hsketch]; rfl)
    obtain ⟨heq, rfl⟩ := hobserve.unique hrun
    cases heq
    rw [← ha.curried, ← hb.curried] at hjoins
    obtain ⟨ℓa, hℓa⟩ := ha.labels
    obtain ⟨ℓb, hℓb⟩ := hb.labels
    obtain ⟨ℓ, hℓ⟩ := hjoins.shows ha.holds.valid hℓa hℓb hapart
    have hcurried : (A.joined B).curried.length = h.bindings.length := by
      rw [hbindings, List.length_append, ← ha.curried, ← hb.curried]
      exact List.length_append
    refine ⟨(ha.meets_iff hb).mp hmeets, hbindings, hsupply ▸ hjoins.later, q,
      ⟨⟨⟨hsketch, hjoins.valid, ?_⟩, hsupply ▸ hjoins.above⟩, ⟨ℓ, hℓ⟩, hcurried⟩, ?_⟩
    · rw [← hcurried, hℓ.inputs, List.length_map, Facade.inputs, List.length_append]
      exact Nat.le_add_right ..
    · intro u
      funext values outputs
      rw [← hb.length_free]
      exact propext (hjoins.gives_iff hoff ha.holds.valid hb.holds.valid
        (ha.curried ▸ ha.holds.bindings) (hb.curried ▸ hb.holds.bindings))
  · obtain ⟨env₂, hrefused⟩ := Compose.yields_observe_refused hcore
    cases (hrefused.unique hrun).1

section Three

variable [DecidableEq Λ]

theorem row_of_yields_left (hoff : o.optimize = false) (ha : a.Shows π A env.supply ap)
    (hb : b.Shows π B env.supply bp) (hc : c.Shows π C env.supply cp)
    (hab : ∀ x ∈ A.all, x ∉ B.all) (hac : ∀ x ∈ A.all, x ∉ C.all) (hbc : ∀ x ∈ B.all, x ∉ C.all)
    (hrun : Yields (connect o (some a) (some b) >>= fun ab => connect o (some ab) (some c))
      env (.ok h) env') :
    (A.Meets (fun x => (π x).size) B ∧ (A.joined B).Meets (fun x => (π x).size) C) ∧
      h.bindings = a.bindings ++ b.bindings ++ c.bindings ∧
      ∃ q, h.Shows π ((A.joined B).joined C) env'.supply q ∧
        ∀ u, Gives q u = Behaviour.Row (Gives ap u) (Gives bp u) (Gives cp u) A.curried.length
          B.curried.length C.curried.length B.free.length C.free.length B.outputs.length := by
  obtain ⟨ab, env₁, hrun₁, hrun₂⟩ := yields_bind_ok_iff.mp hrun
  obtain ⟨hmeets, hbindings, hle, abp, hshows, hgives⟩ :=
    joined_of_yields_connect hoff ha hb hab hrun₁
  have hapart : ∀ x ∈ (A.joined B).all, x ∉ C.all := fun x hx =>
    (Facade.mem_all_joined hx).elim (hac x) (hbc x)
  obtain ⟨hmeets', hbindings', _, q, hshows', hgives'⟩ :=
    joined_of_yields_connect hoff hshows (hc.mono hle) hapart hrun₂
  refine ⟨⟨hmeets, hmeets'⟩, by rw [hbindings', hbindings], q, hshows', fun u => ?_⟩
  funext values outputs
  rw [hgives', hgives, Facade.joined, List.length_append]
  exact propext (Behaviour.composed_left_iff (hb.sized u))

theorem row_of_yields_right (hoff : o.optimize = false) (ha : a.Shows π A env.supply ap)
    (hb : b.Shows π B env.supply bp) (hc : c.Shows π C env.supply cp)
    (hab : ∀ x ∈ A.all, x ∉ B.all) (hac : ∀ x ∈ A.all, x ∉ C.all) (hbc : ∀ x ∈ B.all, x ∉ C.all)
    (hrun : Yields (connect o (some b) (some c) >>= fun bc => connect o (some a) (some bc))
      env (.ok h) env') :
    (B.Meets (fun x => (π x).size) C ∧ A.Meets (fun x => (π x).size) (B.joined C)) ∧
      h.bindings = a.bindings ++ b.bindings ++ c.bindings ∧
      ∃ q, h.Shows π (A.joined (B.joined C)) env'.supply q ∧
        ∀ u, Gives q u = Behaviour.Row (Gives ap u) (Gives bp u) (Gives cp u) A.curried.length
          B.curried.length C.curried.length B.free.length C.free.length B.outputs.length := by
  obtain ⟨bc, env₁, hrun₁, hrun₂⟩ := yields_bind_ok_iff.mp hrun
  obtain ⟨hmeets, hbindings, hle, bcp, hshows, hgives⟩ :=
    joined_of_yields_connect hoff hb hc hbc hrun₁
  have hapart : ∀ x ∈ A.all, x ∉ (B.joined C).all := fun x hx hx' =>
    (Facade.mem_all_joined hx').elim (hab x hx) (hac x hx)
  obtain ⟨hmeets', hbindings', _, q, hshows', hgives'⟩ :=
    joined_of_yields_connect hoff (ha.mono hle) hshows hapart hrun₂
  refine ⟨⟨hmeets, hmeets'⟩, by rw [hbindings', hbindings, List.append_assoc], q, hshows',
    fun u => ?_⟩
  funext values outputs
  rw [hgives', hgives, Facade.joined, List.length_append, List.length_append, List.length_drop]
  exact propext (Behaviour.composed_right_iff (ha.sized u) (hb.sized u))

theorem exists_yields_left (hoff : o.optimize = false) (ha : a.Shows π A env.supply ap)
    (hb : b.Shows π B env.supply bp) (hc : c.Shows π C env.supply cp)
    (hab : ∀ x ∈ A.all, x ∉ B.all) (hmeets : A.Meets (fun x => (π x).size) B)
    (hmeets' : (A.joined B).Meets (fun x => (π x).size) C) :
    ∃ h env', Yields (connect o (some a) (some b) >>= fun ab => connect o (some ab) (some c))
      env (.ok h) env' := by
  obtain ⟨ab, env₁, hrun₁⟩ := exists_yields_connect (o := o) ha hb hmeets
  obtain ⟨_, _, hle, abp, hshows, _⟩ := joined_of_yields_connect hoff ha hb hab hrun₁
  obtain ⟨h, env₂, hrun₂⟩ := exists_yields_connect hshows (hc.mono hle) hmeets'
  exact ⟨h, env₂, (yields_bind hrun₁).mpr hrun₂⟩

theorem exists_yields_right (hoff : o.optimize = false) (ha : a.Shows π A env.supply ap)
    (hb : b.Shows π B env.supply bp) (hc : c.Shows π C env.supply cp)
    (hbc : ∀ x ∈ B.all, x ∉ C.all) (hmeets : B.Meets (fun x => (π x).size) C)
    (hmeets' : A.Meets (fun x => (π x).size) (B.joined C)) :
    ∃ h env', Yields (connect o (some b) (some c) >>= fun bc => connect o (some a) (some bc))
      env (.ok h) env' := by
  obtain ⟨bc, env₁, hrun₁⟩ := exists_yields_connect (o := o) hb hc hmeets
  obtain ⟨_, _, hle, bcp, hshows, _⟩ := joined_of_yields_connect hoff hb hc hbc hrun₁
  obtain ⟨h, env₂, hrun₂⟩ := exists_yields_connect (ha.mono hle) hshows hmeets'
  exact ⟨h, env₂, (yields_bind hrun₁).mpr hrun₂⟩

end Three

theorem shows_of_program? {k : Nat} (hp : h.sketch.program? = some p) (hvalid : p.issues = [])
    (hbindings : h.bindings.length ≤ p.inputs.length) (habove : g.Above p.symbols) :
    h.Shows Prod.snd ((p.facade h.bindings.length).marked k) g p where
  holds := over_of_program? hp hvalid hbindings
  above := habove
  labels := ⟨_, p.shows_marked _ k⟩
  curried := Facade.length_curried_marked hbindings

/--
Connecting is associative.  Of three handles over valid programs either both groupings can be
connected or none.  The two results have the same bindings and, up to ids, the same inputs and
outputs, and without optimization they complete the same runs with the same outputs.
-/
theorem connect_assoc (o : Composer) (hoff : o.optimize = false) {a b c : Handle}
    {ap bp cp : Program} {env env' : Env} (hap : a.sketch.program? = some ap)
    (hbp : b.sketch.program? = some bp) (hcp : c.sketch.program? = some cp)
    (hva : ap.issues = []) (hvb : bp.issues = []) (hvc : cp.issues = [])
    (hba : a.bindings.length ≤ ap.inputs.length) (hbb : b.bindings.length ≤ bp.inputs.length)
    (hbc : c.bindings.length ≤ cp.inputs.length)
    (habove : env.supply.Above (ap.symbols ++ bp.symbols ++ cp.symbols))
    (habove' : env'.supply.Above (ap.symbols ++ bp.symbols ++ cp.symbols)) :
    let left := connect o (some a) (some b) >>= fun ab => connect o (some ab) (some c)
    let right := connect o (some b) (some c) >>= fun bc => connect o (some a) (some bc)
    ((∃ h e, left.run.run env = (.ok h, e)) ↔ ∃ h e, right.run.run env' = (.ok h, e)) ∧
    ∀ h e h' e', left.run.run env = (.ok h, e) → right.run.run env' = (.ok h', e') →
      h.bindings = h'.bindings ∧
      ∃ q q', h.sketch.program? = some q ∧ h'.sketch.program? = some q' ∧
        List.Forall₂ Symbol.Twin q.inputs q'.inputs ∧
        List.Forall₂ Symbol.Twin q.outputs q'.outputs ∧
        ∀ (u : Overrides) (values outputs : List (List Float)),
          (∃ steps, Completes q values u ⟨outputs, false, steps⟩) ↔
            ∃ steps, Completes q' values u ⟨outputs, false, steps⟩ := by
  have hshows : ∀ {e : Env}, e.supply.Above (ap.symbols ++ bp.symbols ++ cp.symbols) →
      a.Shows Prod.snd ((ap.facade a.bindings.length).marked 0) e.supply ap ∧
      b.Shows Prod.snd ((bp.facade b.bindings.length).marked 1) e.supply bp ∧
      c.Shows Prod.snd ((cp.facade c.bindings.length).marked 2) e.supply cp := by
    intro e he
    obtain ⟨hab, hc⟩ := List.forall_mem_append.mp he
    obtain ⟨ha, hb⟩ := List.forall_mem_append.mp hab
    exact ⟨shows_of_program? hap hva hba ha, shows_of_program? hbp hvb hbb hb,
      shows_of_program? hcp hvc hbc hc⟩
  have hab := apart_of_marked (k := 0) (l := 1) (by decide) (ap.facade a.bindings.length)
    (bp.facade b.bindings.length)
  have hac := apart_of_marked (k := 0) (l := 2) (by decide) (ap.facade a.bindings.length)
    (cp.facade c.bindings.length)
  have hbc := apart_of_marked (k := 1) (l := 2) (by decide) (bp.facade b.bindings.length)
    (cp.facade c.bindings.length)
  obtain ⟨ha, hb, hc⟩ := hshows habove
  obtain ⟨ha', hb', hc'⟩ := hshows habove'
  refine ⟨⟨?_, ?_⟩, ?_⟩
  · rintro ⟨h, e, hrun⟩
    have hmeets := (row_of_yields_left hoff ha hb hc hab hac hbc hrun).1
    obtain ⟨hmeets, hmeets'⟩ := (Facade.meets_assoc ..).mp hmeets
    exact exists_yields_right hoff ha' hb' hc' hbc hmeets hmeets'
  · rintro ⟨h, e, hrun⟩
    have hmeets := (row_of_yields_right hoff ha' hb' hc' hab hac hbc hrun).1
    obtain ⟨hmeets, hmeets'⟩ := (Facade.meets_assoc ..).mpr hmeets
    exact exists_yields_left hoff ha hb hc hab hmeets hmeets'
  · intro h e h' e' hrun hrun'
    obtain ⟨_, hbindings, q, hq, hgives⟩ := row_of_yields_left hoff ha hb hc hab hac hbc hrun
    obtain ⟨_, hbindings', q', hq', hgives'⟩ :=
      row_of_yields_right hoff ha' hb' hc' hab hac hbc hrun'
    rw [Facade.joined_assoc] at hq
    obtain ⟨ℓ, hℓ⟩ := hq.labels
    obtain ⟨ℓ', hℓ'⟩ := hq'.labels
    obtain ⟨hinputs, houtputs⟩ := hℓ.twins hℓ' hq.holds.valid hq'.holds.valid
    refine ⟨hbindings.trans hbindings'.symm, q, q', by rw [hq.holds.sketch]; rfl,
      by rw [hq'.holds.sketch]; rfl, hinputs, houtputs, fun u values outputs => ?_⟩
    change Gives q u values outputs ↔ Gives q' u values outputs
    rw [hgives, hgives']

/-- Exchanges two values; one of its channels is of both directions. -/
def crossing : Program :=
  let x : Symbol := ⟨1, .inout, 1, .float32, .attrib, "x", []⟩
  let y : Symbol := ⟨2, .input, 1, .float32, .attrib, "y", []⟩
  let z : Symbol := ⟨3, .output, 1, .float32, .attrib, "z", []⟩
  { Interface.empty "" with
    inputs := [x, y], outputs := [z, x], graph := ⟨[⟨[.copy z y], [], none⟩], 0, 0⟩ }

theorem connect_assoc_crossing :
    let o : Composer := { optimize := false }
    let a : Handle := ⟨1, 1, crossing.sketch, [], []⟩
    let b : Handle := ⟨2, 2, Program.copying.sketch, [], []⟩
    let env : Env := { Env.start with supply := ⟨4⟩ }
    ∃ h e h' e' q q',
      (connect o (some a) (some b) >>= fun ab => connect o (some ab) (some a)).run.run env =
        (.ok h, e) ∧
      (connect o (some b) (some a) >>= fun ba => connect o (some a) (some ba)).run.run env =
        (.ok h', e') ∧
      h.sketch.program? = some q ∧ h'.sketch.program? = some q' ∧
      List.Forall₂ Symbol.Twin q.inputs q'.inputs ∧
      List.Forall₂ Symbol.Twin q.outputs q'.outputs ∧
      (∃ steps, Completes q [[3], [5]] [] ⟨[[3], [5]], false, steps⟩) ∧
      ∃ steps, Completes q' [[3], [5]] [] ⟨[[3], [5]], false, steps⟩ := by
  intro o a b env
  have hsupply : env.supply.Above (crossing.symbols ++ Program.copying.symbols ++
      crossing.symbols) := by decide
  obtain ⟨hiff, hsame⟩ := @connect_assoc o rfl a b a crossing Program.copying crossing env env
    rfl rfl rfl rfl rfl rfl (by decide) (by decide) (by decide) hsupply hsupply
  have ha : ∀ k, a.Shows Prod.snd ((crossing.facade 0).marked k) env.supply crossing := fun k =>
    shows_of_program? (h := a) (p := crossing) rfl rfl (by decide) (by decide)
  have hb : b.Shows Prod.snd ((Program.copying.facade 0).marked 1) env.supply Program.copying :=
    shows_of_program? (h := b) (p := Program.copying) rfl rfl (by decide) (by decide)
  have hapart : ∀ {k l : Nat} {A B : Facade Symbol}, k ≠ l →
      ∀ x ∈ (A.marked k).all, x ∉ (B.marked l).all := fun hne => apart_of_marked hne _ _
  obtain ⟨h, e, hleft⟩ := exists_yields_left (o := o) rfl (ha 0) hb (ha 2) (hapart (by decide))
    (by unfold Facade.Meets; decide) (by unfold Facade.Meets; decide)
  obtain ⟨h', e', hright⟩ := hiff.mp ⟨h, e, hleft⟩
  obtain ⟨_, q, q', hq, hq', hinputs, houtputs, hruns⟩ := hsame h e h' e' hleft hright
  obtain ⟨_, _, q₁, hq₁, hrow⟩ := row_of_yields_left rfl (ha 0) hb (ha 2) (hapart (by decide))
    (hapart (by decide)) (hapart (by decide)) hleft
  obtain rfl : q₁ = q := by
    rw [hq₁.holds.sketch] at hq
    exact Option.some.inj hq
  have hrun : Gives q₁ [] [[3], [5]] [[3], [5]] := by
    rw [hrow]
    exact ⟨[], [], [], [[3], [5]], [], [], [[5], [3]], [[5]], [[3], [5]], rfl, rfl, rfl, rfl,
      ⟨1, 1, rfl⟩, ⟨2, 2, rfl⟩, ⟨1, 1, rfl⟩, rfl⟩
  exact ⟨h, e, h', e', q₁, q', hleft, hright, hq, hq', hinputs, houtputs, hrun,
    (hruns _ _ _).mp hrun⟩

end Composer

end KernelAlgebra
