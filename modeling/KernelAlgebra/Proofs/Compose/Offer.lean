import KernelAlgebra.Compose.Named
import KernelAlgebra.Proofs.Compose.Facade
import KernelAlgebra.Proofs.Compose.Splitting

/-!
# What handles offer

A handle offers bindings, a facade of names and sizes, and a behaviour.  Connecting and
combining handles succeed and give handles that offer the joined or the paired behaviour, so
what a composition of several steps offers is put together from what its steps offer.
-/

namespace KernelAlgebra

open Machine

/-! ## Success -/

namespace Compose

variable {α β : Type} {env : Env} {c : Composer} {x : Compose α} {Q R : α → Supply → Prop}
  {S : β → Supply → Prop}

/-- The computation succeeds, no id becomes free again, and what it returns has the property. -/
def Succeeds (x : Compose α) (env : Env) (Q : α → Supply → Prop) : Prop :=
  ∃ a env', Yields x env (.ok a) env' ∧ env.supply.next ≤ env'.supply.next ∧ Q a env'.supply

theorem succeeds_pure {a : α} (h : Q a env.supply) : Succeeds (pure a) env Q :=
  ⟨a, env, yields_pure.mpr ⟨rfl, rfl⟩, Nat.le_refl _, h⟩

theorem Succeeds.bind {f : α → Compose β} (hx : Succeeds x env Q)
    (hf : ∀ a env', env.supply.next ≤ env'.supply.next → Q a env'.supply →
      Succeeds (f a) env' S) : Succeeds (x >>= f) env S := by
  obtain ⟨a, env₁, hrun₁, hle₁, ha⟩ := hx
  obtain ⟨b, env₂, hrun₂, hle₂, hb⟩ := hf a env₁ hle₁ ha
  exact ⟨b, env₂, (yields_bind hrun₁).mpr hrun₂, Nat.le_trans hle₁ hle₂, hb⟩

theorem Succeeds.imp (hx : Succeeds x env Q) (himp : ∀ a g, Q a g → R a g) :
    Succeeds x env R := by
  obtain ⟨a, env', hrun, hle, ha⟩ := hx
  exact ⟨a, env', hrun, hle, himp a _ ha⟩

theorem succeeds_ofFresh {x : Fresh ComposeError α} {a : α} {g : Supply}
    (hx : Yields x env.supply (.ok a) g) (hle : env.supply.next ≤ g.next) (h : Q a g) :
    Succeeds (ofFresh x) env Q :=
  ⟨a, { env with supply := g }, yields_ofFresh_iff.mpr ⟨g, hx, rfl⟩, hle, h⟩

theorem succeeds_after {y : Compose Unit}
    (hy : ∀ {r env'}, Yields y env r env' → r = .ok () ∧ env'.supply = env.supply)
    (hx : ∀ env', env'.supply = env.supply → Succeeds x env' Q) :
    Succeeds (y >>= fun _ => x) env Q := by
  obtain ⟨r, env₁, hrun⟩ := yields_self y env
  obtain ⟨rfl, hsupply⟩ := hy hrun
  obtain ⟨a, env₂, hrun₂, hle, ha⟩ := hx env₁ hsupply
  exact ⟨a, env₂, (yields_bind hrun).mpr hrun₂, hsupply ▸ hle, ha⟩

theorem supply_of_yields_logAll {lines : List String} {f : String → String}
    {r : Except (Fault ComposeError) PUnit} {env' : Env}
    (h : Yields (lines.forM fun line => log c (f line)) env r env') :
    r = .ok () ∧ env'.supply = env.supply := by
  induction lines generalizing env with
  | nil =>
      obtain ⟨rfl, rfl⟩ := yields_pure.mp h
      exact ⟨rfl, rfl⟩
  | cons line rest ih =>
      obtain ⟨env₁, _, hsupply, h⟩ := (yields_bind_quiet supply_of_yields_log).mp h
      obtain ⟨rfl, hsupply'⟩ := ih h
      exact ⟨rfl, hsupply'.trans hsupply⟩

end Compose

/-! ## Names and sizes -/

def Handle.keys (h : Handle) : Facade (String × Nat) :=
  ⟨(h.sketch.inputs.take h.bindings.length).map NameGroup.key, h.free.map NameGroup.key,
    h.outputs.map NameGroup.key⟩

variable {g g' : Supply} {h a b : Handle} {p ap bp q : Program}

def Handle.faces (h : Handle) : Facade Symbol :=
  Facade.map Symbol.face ⟨h.sketch.inputs.take h.bindings.length, h.free, h.outputs⟩

theorem Handle.keys_eq_map_faces (h : Handle) : h.keys = h.faces.map NameGroup.key := by
  rw [faces, Facade.map_map]
  rfl

theorem Handle.Over.faces_eq (hh : h.Over p) :
    h.faces = (p.facade h.bindings.length).map Symbol.face := by
  unfold faces free outputs
  rw [hh.sketch]
  rfl

theorem Handle.Over.length_curried (hh : h.Over p) :
    h.faces.curried.length = h.bindings.length := by
  rw [hh.faces_eq, Facade.map, List.length_map]
  exact List.length_take_of_le hh.bindings

theorem Handle.Over.keys_eq (hh : h.Over p) :
    h.keys = ((p.facade h.bindings.length).map Symbol.face).map NameGroup.key := by
  rw [h.keys_eq_map_faces, hh.faces_eq]

def Suits (keys : List (String × Nat)) (xs : List (List Float)) : Prop :=
  xs.map List.length = keys.map Prod.snd

section Suits

variable {ks ks' : List (String × Nat)} {xs ys : List (List Float)}

theorem Suits.length (h : Suits ks xs) : xs.length = ks.length := by
  simpa using congrArg List.length h

theorem suits_append (hlen : xs.length = ks.length) :
    Suits (ks ++ ks') (xs ++ ys) ↔ Suits ks xs ∧ Suits ks' ys := by
  unfold Suits
  rw [List.map_append, List.map_append]
  constructor
  · intro h
    exact List.append_inj h (by simpa using hlen)
  · rintro ⟨h, h'⟩
    rw [h, h']

theorem Suits.take (h : Suits ks xs) (n : Nat) : Suits (ks.take n) (xs.take n) := by
  unfold Suits at h ⊢
  rw [List.map_take, List.map_take, h]

theorem suits_key {symbols : List Symbol} :
    Suits (symbols.map NameGroup.key) xs ↔ xs.map List.length = symbols.map Symbol.size := by
  unfold Suits
  rw [List.map_map]
  rfl

end Suits

theorem Program.Valid.suits {u : Overrides} {values outputs : List (List Float)} (hp : p.Valid)
    (hrun : Gives p u values outputs) :
    Suits (p.inputs.map NameGroup.key) values ∧ Suits (p.outputs.map NameGroup.key) outputs := by
  obtain ⟨st, fin, hstart, hcomputes, _, rfl⟩ := gives_iff.mp hrun
  have hsized : fin.Sized u := hcomputes.sized (sized_start hstart)
  rw [suits_key, suits_key, ← start_iff_sizes hp.orderly.inputs.solid]
  refine ⟨⟨st, hstart⟩, ?_⟩
  rw [List.map_map]
  exact List.map_congr_left fun s _ => hsized s

/-! ## Offers -/

/-- The handle has these bindings, its channels look like this facade, and its program behaves
in this way. -/
structure Handle.Presents (g : Supply) (bindings : List Binding) (F : Facade Symbol)
    (R : Overrides → Behaviour) (h : Handle) : Prop where
  bindings : h.bindings = bindings
  faces : h.faces = F
  runs : ∃ p, h.Carries g p ∧ ∀ u values outputs, R u values outputs → Gives p u values outputs

/-- The handle has these bindings and this facade, and its program behaves in this way. -/
structure Handle.Offers (g : Supply) (bindings : List Binding) (F : Facade (String × Nat))
    (R : Overrides → Behaviour) (h : Handle) : Prop where
  bindings : h.bindings = bindings
  keys : h.keys = F
  runs : ∃ p, h.Carries g p ∧ ∀ u values outputs, R u values outputs → Gives p u values outputs

namespace Handle.Presents

variable {bs : List Binding} {F : Facade Symbol} {R R' : Overrides → Behaviour}

theorem mono (hh : h.Presents g bs F R) (hle : g.next ≤ g'.next) : h.Presents g' bs F R := by
  obtain ⟨p, hp, hruns⟩ := hh.runs
  exact ⟨hh.bindings, hh.faces, p, hp.mono hle, hruns⟩

theorem imp (hh : h.Presents g bs F R)
    (himp : ∀ u values outputs, R' u values outputs → R u values outputs) :
    h.Presents g bs F R' := by
  obtain ⟨p, hp, hruns⟩ := hh.runs
  exact ⟨hh.bindings, hh.faces, p, hp, fun u values outputs h =>
    hruns u values outputs (himp u values outputs h)⟩

theorem offers (hh : h.Presents g bs F R) : h.Offers g bs (F.map NameGroup.key) R :=
  ⟨hh.bindings, by rw [h.keys_eq_map_faces, hh.faces], hh.runs⟩

end Handle.Presents

namespace Handle.Offers

variable {bs bs' : List Binding} {F A B : Facade (String × Nat)} {R R' S : Overrides → Behaviour}

theorem presents (hh : h.Offers g bs F R) : h.Presents g bs h.faces R :=
  ⟨hh.bindings, rfl, hh.runs⟩

theorem map_faces (hh : h.Offers g bs F R) : h.faces.map NameGroup.key = F :=
  h.keys_eq_map_faces.symm.trans hh.keys

theorem mono (hh : h.Offers g bs F R) (hle : g.next ≤ g'.next) : h.Offers g' bs F R := by
  obtain ⟨p, hp, hruns⟩ := hh.runs
  exact ⟨hh.bindings, hh.keys, p, hp.mono hle, hruns⟩

theorem imp (hh : h.Offers g bs F R)
    (himp : ∀ u values outputs, R' u values outputs → R u values outputs) :
    h.Offers g bs F R' := by
  obtain ⟨p, hp, hruns⟩ := hh.runs
  exact ⟨hh.bindings, hh.keys, p, hp, fun u values outputs h =>
    hruns u values outputs (himp u values outputs h)⟩

theorem length_curried (hh : h.Offers g bs F R) : F.curried.length = bs.length := by
  obtain ⟨p, hp, _⟩ := hh.runs
  rw [← hh.keys, ← hh.bindings, Handle.keys, List.length_map, hp.holds.sketch]
  exact List.length_take_of_le hp.holds.bindings

theorem keys_free (hh : h.Offers g bs F R) : h.free.map NameGroup.key = F.free := by
  rw [← hh.keys]
  rfl

theorem keys_outputs (hh : h.Offers g bs F R) : h.outputs.map NameGroup.key = F.outputs := by
  rw [← hh.keys]
  rfl

theorem suits (hh : h.Offers g bs F R) {u : Overrides} {values outputs : List (List Float)}
    (hrun : R u values outputs) : Suits F.inputs values ∧ Suits F.outputs outputs := by
  obtain ⟨p, hp, hruns⟩ := hh.runs
  have hsuits := hp.holds.valid.suits (hruns u values outputs hrun)
  have hinputs : F.inputs = p.inputs.map NameGroup.key := by
    rw [← hh.keys, hp.holds.keys_eq, Facade.map_map, Facade.inputs, Facade.map, ← List.map_append]
    simp only [Program.facade, List.take_append_drop]
    rfl
  have houtputs : F.outputs = p.outputs.map NameGroup.key := by
    rw [← hh.keys, hp.holds.keys_eq, Facade.map_map]
    rfl
  rw [hinputs, houtputs]
  exact hsuits

end Handle.Offers

theorem Handle.Presents.suits {bs : List Binding} {F : Facade Symbol} {R : Overrides → Behaviour}
    (hh : h.Presents g bs F R) {u : Overrides} {values outputs : List (List Float)}
    (hrun : R u values outputs) :
    Suits (F.inputs.map NameGroup.key) values ∧ Suits (F.outputs.map NameGroup.key) outputs := by
  have hsuits := hh.offers.suits hrun
  rw [Facade.inputs, List.map_append]
  exact hsuits

theorem Handle.Carries.presents (hh : h.Carries g p) :
    h.Presents g h.bindings h.faces (Gives p) :=
  ⟨rfl, rfl, p, hh, fun _ _ _ hrun => hrun⟩

theorem Handle.Carries.offers (hh : h.Carries g p) : h.Offers g h.bindings h.keys (Gives p) :=
  ⟨rfl, rfl, p, hh, fun _ _ _ hrun => hrun⟩

theorem Handle.over_of_facade {F : Facade Symbol} (hsketch : h.sketch = q.sketch)
    (hvalid : q.Valid) (hfacade : (q.facade h.bindings.length).map Symbol.face = F)
    (hlen : F.curried.length = h.bindings.length) : h.Over q ∧ h.faces = F := by
  have hle : h.bindings.length ≤ q.inputs.length := by
    have htake : ((q.facade h.bindings.length).map Symbol.face).curried.length =
        min h.bindings.length q.inputs.length := by
      rw [Facade.map, List.length_map]
      exact List.length_take
    rw [hfacade, hlen] at htake
    omega
  have hover : h.Over q := ⟨hsketch, hvalid, hle⟩
  exact ⟨hover, hover.faces_eq.trans hfacade⟩

namespace Compose

variable {c : Composer} {env : Env} {op : String} {x : Compose Handle}

theorem Succeeds.observed {bs : List Binding} {F : Facade Symbol} {R : Overrides → Behaviour}
    (hx : Succeeds x env fun h g => h.Presents g bs F R) :
    Succeeds (observe c op x) env fun h g => h.Presents g bs F R := by
  obtain ⟨h, env₁, hrun, hle, hh⟩ := hx
  obtain ⟨p, hp, _⟩ := hh.runs
  have hgraph : h.sketch.graph?.isSome := by
    rw [hp.holds.sketch]
    rfl
  obtain ⟨env₂, hobserve, hsupply⟩ : ∃ env₂, Yields (observe c op x) env (.ok h) env₂ ∧
      env₂.supply = env₁.supply := yields_observe hrun hgraph
  exact ⟨h, env₂, hobserve, hsupply ▸ hle, hsupply ▸ hh⟩

end Compose

namespace Composer

open Compose

variable {c : Composer} {env : Env} {bs bs' : List Binding} {R S : Overrides → Behaviour}

theorem meets_of_faces (hmeets : a.faces.Meets Symbol.size b.faces) : a.Meets b := by
  intro q hq
  refine hmeets (q.1.face, q.2.face) ?_
  change _ ∈ (a.outputs.map Symbol.face).zip (b.free.map Symbol.face)
  rw [List.zip_map]
  exact List.mem_map_of_mem hq

section Faces

variable {A B : Facade Symbol}

theorem presents_connectBoth (ha : a.Presents env.supply bs A R)
    (hb : b.Presents env.supply bs' B S) (hmeets : A.Meets Symbol.size B) :
    Succeeds (connectBoth c a b) env fun h g => h.Presents g (bs ++ bs') (A.joined B) fun u =>
      Behaviour.Composed (R u) (S u) A.curried.length B.curried.length B.free.length := by
  obtain ⟨rfl, rfl, ap, hap, hruna⟩ := ha
  obtain ⟨rfl, rfl, bp, hbp, hrunb⟩ := hb
  have hcurrieda := hap.holds.length_curried
  have hcurriedb := hbp.holds.length_curried
  obtain ⟨r, env', hrun⟩ := yields_self (connectBoth c a b) env
  rcases connects_of_yields hap.holds hbp.holds hap.above hbp.above hrun with
    ⟨_, h, q, rfl, hjoins, hsketch, hbindings⟩ | ⟨hnot, _⟩
  · have hfacade := hjoins.map_face_facade hap.holds.valid hap.holds.bindings hbp.holds.bindings
    have hlen : h.bindings.length = a.bindings.length + b.bindings.length := by
      rw [hbindings, List.length_append]
    rw [← hlen, ← hap.holds.faces_eq, ← hbp.holds.faces_eq] at hfacade
    obtain ⟨hover, hfaces⟩ := Handle.over_of_facade hsketch hjoins.valid hfacade (by
      rw [Facade.joined, List.length_append, hcurrieda, hcurriedb, hlen])
    refine ⟨h, env', hrun, hjoins.later, hbindings, hfaces, q, ⟨hover, hjoins.above⟩, ?_⟩
    rintro u _ _ ⟨ca, cb, xa, xb, ra, rb, rfl, hca, hcb, hR, hS, rfl⟩
    have hfree : b.faces.free.length = (bp.inputs.drop b.bindings.length).length := by
      rw [hbp.holds.faces_eq, Facade.map, List.length_map]
      rfl
    rw [hfree] at hS ⊢
    exact hjoins.completes hap.holds.valid hbp.holds.valid hap.holds.bindings hbp.holds.bindings
      (hca.trans hcurrieda) (hcb.trans hcurriedb) (hruna _ _ _ hR) (hrunb _ _ _ hS)
  · exact absurd (meets_of_faces hmeets) hnot

theorem presents_combineBoth (ha : a.Presents env.supply bs A R)
    (hb : b.Presents env.supply bs' B S) :
    Succeeds (combineBoth c a b) env fun h g => h.Presents g (bs ++ bs') (A.beside B) fun u =>
      Behaviour.Paired (R u) (S u) A.curried.length B.curried.length := by
  obtain ⟨rfl, rfl, ap, hap, hruna⟩ := ha
  obtain ⟨rfl, rfl, bp, hbp, hrunb⟩ := hb
  have hcurrieda := hap.holds.length_curried
  have hcurriedb := hbp.holds.length_curried
  obtain ⟨r, env', hrun⟩ := yields_self (combineBoth c a b) env
  obtain ⟨h, q, rfl, hcombines, hsketch, hbindings⟩ :=
    combines_of_yields hap.holds hbp.holds hap.above hbp.above hrun
  have hfacade := hcombines.map_face_facade hap.holds.bindings hbp.holds.bindings
  have hlen : h.bindings.length = a.bindings.length + b.bindings.length := by
    rw [hbindings, List.length_append]
  rw [← hlen, ← hap.holds.faces_eq, ← hbp.holds.faces_eq] at hfacade
  obtain ⟨hover, hfaces⟩ := Handle.over_of_facade hsketch hcombines.valid hfacade (by
    rw [Facade.beside, List.length_append, hcurrieda, hcurriedb, hlen])
  refine ⟨h, env', hrun, hcombines.later, hbindings, hfaces, q,
    ⟨hover, hcombines.above hap.holds.valid hbp.holds.valid hap.above⟩, ?_⟩
  rintro u _ _ ⟨ca, cb, xa, xb, ra, rb, rfl, hca, hcb, hR, hS, rfl⟩
  obtain ⟨r, hr, houtputs⟩ := hcombines.completes hap.holds.valid hbp.holds.valid hap.holds.bindings
    hbp.holds.bindings (hca.trans hcurrieda) (hcb.trans hcurriedb) (hruna _ _ _ hR)
    (hrunb _ _ _ hS)
  rw [houtputs rfl] at hr
  exact hr

theorem presents_connect (ha : a.Presents env.supply bs A R)
    (hb : b.Presents env.supply bs' B S) (hmeets : A.Meets Symbol.size B) :
    Succeeds (connect c (some a) (some b)) env fun h g => h.Presents g (bs ++ bs') (A.joined B)
      fun u => Behaviour.Composed (R u) (S u) A.curried.length B.curried.length B.free.length :=
  (presents_connectBoth ha hb hmeets).observed

theorem presents_combine (ha : a.Presents env.supply bs A R)
    (hb : b.Presents env.supply bs' B S) :
    Succeeds (combine c (some a) (some b)) env fun h g => h.Presents g (bs ++ bs') (A.beside B)
      fun u => Behaviour.Paired (R u) (S u) A.curried.length B.curried.length :=
  (presents_combineBoth ha hb).observed

end Faces

section Keys

variable {A B : Facade (String × Nat)}

theorem succeeds_connectBoth (ha : a.Offers env.supply bs A R) (hb : b.Offers env.supply bs' B S)
    (hmeets : A.Meets Prod.snd B) :
    Succeeds (connectBoth c a b) env fun h g => h.Offers g (bs ++ bs') (A.joined B) fun u =>
      Behaviour.Composed (R u) (S u) A.curried.length B.curried.length B.free.length := by
  obtain rfl := ha.map_faces
  obtain rfl := hb.map_faces
  have hmeets : a.faces.Meets Symbol.size b.faces :=
    (Facade.meets_map (f := NameGroup.key)).mp hmeets
  refine (presents_connectBoth ha.presents hb.presents hmeets).imp fun h g hh => ?_
  have hh := hh.offers
  rw [Facade.map_joined] at hh
  simp only [Facade.length_curried_map, Facade.length_free_map]
  exact hh

theorem succeeds_combineBoth (ha : a.Offers env.supply bs A R)
    (hb : b.Offers env.supply bs' B S) :
    Succeeds (combineBoth c a b) env fun h g => h.Offers g (bs ++ bs') (A.beside B) fun u =>
      Behaviour.Paired (R u) (S u) A.curried.length B.curried.length := by
  obtain rfl := ha.map_faces
  obtain rfl := hb.map_faces
  refine (presents_combineBoth ha.presents hb.presents).imp fun h g hh => ?_
  have hh := hh.offers
  rw [Facade.map_beside] at hh
  simp only [Facade.length_curried_map]
  exact hh

end Keys

end Composer

end KernelAlgebra
