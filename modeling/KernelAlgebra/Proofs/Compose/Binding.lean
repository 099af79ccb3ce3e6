import KernelAlgebra.Compose.Rename
import KernelAlgebra.Proofs.Compose.Named

/-!
# Binding, renaming and resolving

Binding and renaming keep handles in order.  A handle in order that is bound to nothing but
uniforms and constants resolves to a valid program.
-/

namespace KernelAlgebra

/-! ## Binding -/

def Binding.Proper (b : Binding) : Prop :=
  b.source.isHole = false ∧ b.kind.takes b.source.role = true

theorem Binding.Proper.role {b : Binding} (h : b.Proper) (hkind : b.kind = .uniform) :
    b.source.role = .uniform ∨ b.source.role = .const := by
  have htakes := h.2
  rw [hkind] at htakes
  cases hrole : b.source.role <;> simp_all [BindingKind.takes]

theorem BindingKind.isKnown_of_takes {kind : BindingKind} {role : Role}
    (h : kind.takes role = true) : kind.isKnown = true := by
  cases kind with
  | uniform => rfl
  | stream => rfl
  | other code => cases role <;> cases h

theorem Fed.append_drop {bindings bindings' : List Binding} {inputs : List Symbol}
    (h : Fed bindings inputs) (h' : Fed bindings' (inputs.drop bindings.length)) :
    Fed (bindings ++ bindings') inputs := by
  have happend : Fed (bindings ++ bindings') (inputs.take bindings.length ++
      (inputs.drop bindings.length).take bindings'.length ++
      (inputs.drop bindings.length).drop bindings'.length) := h.append h'
  rwa [List.append_assoc, List.take_append_drop, List.take_append_drop] at happend

namespace Handle

theorem bindingsFor_cons {kind : BindingKind} {s n : Symbol} {sources free : List Symbol}
    {bindings : List Binding}
    (h : bindingsFor kind (s :: sources) (n :: free) = .ok bindings) :
    kind.takes s.role = true ∧ s.isHole = false ∧ s.size = n.size ∧
      ∃ rest, bindingsFor kind sources free = .ok rest ∧ bindings = ⟨kind, s⟩ :: rest := by
  simp only [bindingsFor] at h
  split at h
  · cases h
  rename_i hhole
  split at h
  · cases h
  rename_i htakes
  split at h
  · cases h
  split at h
  · cases h
  rename_i hsize
  have htakes : kind.takes s.role = true := by simpa using htakes
  refine ⟨htakes, ?_, by simpa using hsize, ?_⟩
  · simpa [BindingKind.isKnown_of_takes htakes] using hhole
  · cases hrest : bindingsFor kind sources free with
    | error f =>
        rw [hrest] at h
        cases h
    | ok rest =>
        rw [hrest] at h
        cases h
        exact ⟨rest, rfl, rfl⟩

theorem fed_bindingsFor {kind : BindingKind} {sources free : List Symbol}
    {bindings : List Binding} (hlen : sources.length ≤ free.length)
    (h : bindingsFor kind sources free = .ok bindings) :
    Fed bindings free ∧ ∀ b ∈ bindings, b.Proper := by
  induction sources generalizing free bindings with
  | nil =>
      cases h
      exact ⟨rfl, by simp⟩
  | cons s sources ih =>
      cases free with
      | nil => simp at hlen
      | cons n free =>
          obtain ⟨htakes, hsolid, hsize, rest, hrest, rfl⟩ := bindingsFor_cons h
          simp only [List.length_cons, Nat.add_le_add_iff_right] at hlen
          obtain ⟨hfed, hproper⟩ := ih hlen hrest
          constructor
          · unfold Fed at hfed ⊢
            simp [hfed, hsize]
          · exact List.forall_mem_cons.mpr ⟨⟨hsolid, htakes⟩, hproper⟩

variable {P : Binding → Prop} {h : Handle} {env : Env}

theorem ensures_bound {kind : BindingKind} {sources : List Symbol} (hh : h.InOrder P env.supply)
    (hP : ∀ b : Binding, b.Proper → P b) :
    Compose.Ensures (Compose.bound h kind sources) env fun h' g => h'.InOrder P g := by
  obtain ⟨p, hp⟩ := hh
  have hbound : Compose.Ensures (Compose.ofFresh (h.boundTo kind sources)) env fun bindings _ =>
      Fed bindings p.inputs ∧ ∀ b ∈ bindings, P b := by
    apply Compose.ensures_ofFresh
    intro r g hrun
    have hfree : h.sketch.inputs = p.inputs := by rw [hp.sketch]; rfl
    have hyields : Yields h.freeInputs env.supply (.ok h.free) env.supply := by
      unfold freeInputs
      rw [if_pos (hfree ▸ hp.fed.length_le)]
      exact yields_pure.mpr ⟨rfl, rfl⟩
    have hrun := (yields_bind hyields).mp hrun
    split at hrun
    · obtain ⟨rfl, rfl⟩ := yields_throw.mp hrun
      exact ⟨Nat.le_refl _, by simp⟩
    · rename_i hlen
      cases hfor : bindingsFor kind sources h.free with
      | error f =>
          rw [hfor] at hrun
          obtain ⟨rfl, rfl⟩ := (yields_bind_error (yields_throw.mpr ⟨rfl, rfl⟩)).mp hrun
          exact ⟨Nat.le_refl _, by simp⟩
      | ok bindings =>
          rw [hfor] at hrun
          obtain ⟨rfl, rfl⟩ := yields_pure.mp ((yields_bind (yields_pure.mpr ⟨rfl, rfl⟩)).mp hrun)
          refine ⟨Nat.le_refl _, fun all hall => ?_⟩
          cases hall
          obtain ⟨hfed, hproper⟩ := fed_bindingsFor (by omega) hfor
          rw [free, hfree] at hfed
          exact ⟨hp.fed.append_drop hfed,
            List.forall_mem_append.mpr ⟨hp.all, fun b hb => hP b (hproper b hb)⟩⟩
  refine hbound.bind fun bindings env₁ hle₁ hbindings => ?_
  have htag : Compose.Ensures Compose.newTag env₁ fun _ _ => True := by
    intro r env' hrun
    cases hrun
    exact ⟨Nat.le_refl _, by simp⟩
  refine htag.bind fun tag env₂ hle₂ _ => ?_
  exact Compose.ensures_pure ⟨p, hp.sketch, hp.valid, hp.above.mono (Nat.le_trans hle₁ hle₂),
    hbindings.1, hbindings.2⟩

end Handle

/-! ## Renaming -/

namespace Renaming.Draws

variable {m : Renaming} {g g' : Supply}

theorem nil (g g' : Supply) : Draws [] g g' :=
  ⟨by simp, by simp⟩

theorem cons (h : m.Draws g g') (hle : g.next ≤ g'.next) {s t : Symbol} (ht : t.id = g'.next) :
    Draws ((s, t) :: m) g ⟨g'.next + 1⟩ where
  fresh := by
    intro q hq
    rcases List.mem_cons.mp hq with rfl | hq
    · simp only
      omega
    · have := h.fresh q hq
      simp only
      omega
  apart := by
    intro q hq q' hq' heq
    rcases List.mem_cons.mp hq with rfl | hq <;> rcases List.mem_cons.mp hq' with rfl | hq'
    · rfl
    · have := h.fresh q' hq'
      simp only [← heq] at this
      omega
    · have := h.fresh q hq
      simp only [heq] at this
      omega
    · exact h.apart q hq q' hq' heq

end Renaming.Draws

namespace Composer

open Compose

variable {P : Binding → Prop} {c : Composer} {h : Handle} {env : Env}

def Retitles (m : Renaming) : Prop :=
  ∀ q ∈ m, q.1.isLocal = true ∧ q.2 = { q.1 with id := q.2.id, name := q.2.name }

theorem draws_of_freshNames {old new : String} {m : Renaming} {list : List Symbol}
    {g₀ g g' : Supply} {r : Except (Fault ComposeError) Renaming}
    (hrun : Yields (freshNames old new m list) g r g') (hm : m.Draws g₀ g) (htitles : Retitles m)
    (hle : g₀.next ≤ g.next) (hlocal : ∀ s ∈ list, s.isLocal = true) :
    g.next ≤ g'.next ∧ ∀ m', r = .ok m' → m'.Draws g₀ g' ∧ Retitles m' := by
  induction list generalizing m g with
  | nil =>
      obtain ⟨rfl, rfl⟩ := yields_pure.mp hrun
      refine ⟨Nat.le_refl _, fun m' hm' => ?_⟩
      cases hm'
      exact ⟨hm, htitles⟩
  | cons s rest ih =>
      have hrest : ∀ t ∈ rest, t.isLocal = true := fun t ht => hlocal t (by simp [ht])
      unfold freshNames at hrun
      split at hrun
      · obtain ⟨rfl, rfl⟩ := yields_throw.mp hrun
        exact ⟨Nat.le_refl _, by simp⟩
      · split at hrun
        · have hrenamed : Yields (Fresh.renamed s new : Fresh ComposeError Symbol) g
              (.ok { s with id := g.next, name := new }) ⟨g.next + 1⟩ := rfl
          have hrun := (yields_bind hrenamed).mp hrun
          have htitles' : Retitles ((s, { s with id := g.next, name := new }) :: m) :=
            List.forall_mem_cons.mpr ⟨⟨hlocal s (by simp), rfl⟩, htitles⟩
          obtain ⟨hle', hm'⟩ := ih hrun (hm.cons hle rfl) htitles' (Nat.le_succ_of_le hle) hrest
          exact ⟨Nat.le_of_succ_le hle', hm'⟩
        · exact ih hrun hm htitles hle hrest

theorem ensures_renamedBy {m : Renaming} {p : Program} {g : Supply} (hp : h.Holds P g p)
    (hdraws : m.Draws g env.supply) (hle : g.next ≤ env.supply.next) (htitles : Retitles m) :
    Ensures (renamedBy h m id) env fun h' g => h'.InOrder P g := by
  have hcopies := Program.copies_rename hp.valid hp.above hdraws htitles
  refine (Handle.ensures_copyOf hp.sketch).bind ?_
  rintro _ env₁ hle₁ rfl
  refine ensures_newHandle fun _ => ⟨p.copied.rename m, rfl, hcopies.valid hp.valid, ?_, ?_, hp.all⟩
  · intro t ht
    rcases hcopies.mem_symbols_cases ht with ht | ht
    · obtain ⟨s, hs, rfl⟩ := hcopies.exists_of_mem_locals ht
      have hnew := hdraws.above hp.above hle _ (List.mem_map_of_mem
        (Interface.mem_symbols_of_mem_locals hs))
      omega
    · exact hp.above.mono (Nat.le_trans hle hle₁) t ht
  · rw [hcopies.inputs]
    exact hp.fed.map fun s hs => hcopies.size_eq (Interface.mem_symbols.mpr (.inl hs))

theorem yields_renamedBy {m : Renaming} {p : Program} {finish : Program → Program}
    (hsketch : h.sketch = p.sketch) :
    Yields (renamedBy h m finish) env (.ok ⟨env.nextTag, env.nextTag,
      (finish (p.copied.rename m)).sketch, h.bindings, Handle.spareAfter m p.inputs⟩)
      { env with nextTag := env.nextTag + 1 } := by
  have hcopy : Yields (ofFresh (Fresh.copyOf h.sketch)) env (.ok p.copied) env := by
    rw [hsketch, yields_ofFresh_iff]
    exact ⟨_, Fresh.yields_copyOf, rfl⟩
  exact (yields_bind hcopy).mpr (yields_newHandle_iff.mpr ⟨rfl, rfl⟩)

theorem ensures_renameIn {list : List Symbol} {old new : String} {p : Program}
    (hp : h.Holds P env.supply p) (hlocal : ∀ s ∈ list, s.isLocal = true) :
    Ensures (renameIn c h list old new) env fun h' g => h'.InOrder P g := by
  have hnames : Ensures (ofFresh (freshNames old new [] list)) env fun m g =>
      m.Draws env.supply g ∧ Retitles m := by
    apply ensures_ofFresh
    intro r g hrun
    exact draws_of_freshNames hrun (.nil _ _) (by simp [Retitles]) (Nat.le_refl _) hlocal
  refine hnames.bind fun m env₁ hle₁ hm => ?_
  split
  · exact Ensures.after ensures_debug fun env₂ hle₂ =>
      ensures_pure ⟨p, hp.mono (Nat.le_trans hle₁ hle₂)⟩
  · exact ensures_renamedBy hp hm.1 hle₁ hm.2

variable {oh : Option Handle} {old new : String}

theorem ensures_renameInput (hh : ∀ h ∈ oh, h.InOrder P env.supply) :
    Ensures (renameInput c oh old new) env fun h g => h.InOrder P g := by
  refine ensures_observe ?_ Handle.InOrder.mono
  cases oh with
  | none => exact ensures_refuse
  | some h =>
      obtain ⟨p, hp⟩ := hh h rfl
      refine ensures_renameIn hp fun s hs => ?_
      rw [hp.sketch] at hs
      exact hp.valid.orderly.inputs.isLocal (by decide) hs

theorem ensures_renameOutput (hh : ∀ h ∈ oh, h.InOrder P env.supply) :
    Ensures (renameOutput c oh old new) env fun h g => h.InOrder P g := by
  refine ensures_observe ?_ Handle.InOrder.mono
  cases oh with
  | none => exact ensures_refuse
  | some h =>
      obtain ⟨p, hp⟩ := hh h rfl
      refine ensures_renameIn hp fun s hs => ?_
      rw [hp.sketch] at hs
      exact hp.valid.orderly.outputs.isLocal (by decide) hs

end Composer

end KernelAlgebra
