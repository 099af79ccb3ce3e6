import KernelAlgebra.Proofs.Compose.Resolution
import KernelAlgebra.Proofs.Compose.Splitting

/-!
# Bound inputs are arguments

A resolved program copies the sources of its bindings at the entry.  From there on it runs like
the program that it comes from, with the numbers of the sources for the bound inputs.
-/

namespace KernelAlgebra

open Machine

theorem zip_take_left {α β : Type} (xs : List α) (ys : List β) :
    (xs.take ys.length).zip ys = xs.zip ys := by
  induction xs generalizing ys with
  | nil => simp
  | cons x xs ih => cases ys <;> simp [ih]

theorem Renaming.apply_of_mem {m : Renaming} (hkeys : (m.map Prod.fst).Nodup)
    {q : Symbol × Symbol} (hq : q ∈ m) : m.apply q.1 = q.2 := by
  induction m with
  | nil => cases hq
  | cons r rest ih =>
      obtain ⟨old, new⟩ := r
      obtain ⟨hnot, hrest⟩ := List.nodup_cons.mp hkeys
      rw [apply_cons]
      rcases List.mem_cons.mp hq with rfl | hmem
      · rw [if_pos rfl]
      · rw [if_neg, ih hrest hmem]
        rintro rfl
        exact hnot (List.mem_map.mpr ⟨q, hmem, rfl⟩)

theorem Binding.Proper.isLocal_source {b : Binding} (h : b.Proper) (hkind : b.kind = .uniform) :
    b.source.isLocal = false := by
  rcases h.role hkind with hrole | hrole <;> simp [Symbol.isLocal, hrole, Role.isLocal]

namespace Resolved

variable {p : Program} {bindings : List Binding} {g g' : Supply} {m : Renaming} {block : Block}
  {u : Overrides} {sp st finp fin : Store}

/-! ## The first block -/

theorem feeds_eq (h : Resolved p.inputs bindings g g' m block) (hp : p.Valid) :
    feeds m bindings =
      (p.inputs.zip (bindings.map Binding.source)).map fun q => (m.apply q.1, q.2) := by
  have hnodup : (m.map Prod.fst).Nodup := by
    rw [h.keys, List.nodup_reverse]
    exact hp.orderly.inputs.nodup.sublist (List.take_sublist _ _)
  have hkeys : m.reverse.map Prod.fst = p.inputs.take bindings.length := by
    rw [List.map_reverse, h.keys, List.reverse_reverse]
  have hnew : m.reverse.map Prod.snd = (p.inputs.take bindings.length).map m.apply := by
    rw [← hkeys, List.map_map]
    apply List.map_congr_left
    intro q hq
    exact (Renaming.apply_of_mem hnodup (List.mem_reverse.mp hq)).symm
  have htake := zip_take_left p.inputs (bindings.map Binding.source)
  rw [List.length_map] at htake
  rw [feeds, hnew, List.zip_map_left, htake]
  rfl

theorem mem_feeds (h : Resolved p.inputs bindings g g' m block) (hp : p.Valid) {s t : Symbol}
    (hs : (s, t) ∈ p.inputs.zip (bindings.map Binding.source)) :
    (m.apply s, t) ∈ feeds m bindings := by
  rw [h.feeds_eq hp]
  exact List.mem_map.mpr ⟨(s, t), hs, rfl⟩

theorem exists_of_mem_feeds (h : Resolved p.inputs bindings g g' m block) {q : Symbol × Symbol}
    (hq : q ∈ feeds m bindings) :
    ∃ b ∈ bindings, ∃ r ∈ m, b.source.size = r.2.size ∧ q = (r.2, b.source) := by
  obtain ⟨b, hb, r, hr, hsize, hcopy⟩ :=
    h.exists_of_mem_block (i := .copy q.1 q.2) (h.code ▸ List.mem_map.mpr ⟨q, hq, rfl⟩)
  simp only [Instruction.copy, View.full, Instruction.mk.injEq, View.mk.injEq, List.cons.injEq,
    and_true, true_and] at hcopy
  exact ⟨b, hb, r, hr, hsize, Prod.ext hcopy.1 hcopy.2⟩

theorem independent_feeds (h : Resolved p.inputs bindings g g' m block) (hp : p.Valid)
    (habove : g.Above p.symbols) (hproper : ∀ b ∈ bindings, b.Proper)
    (huniform : ∀ b ∈ bindings, b.kind = .uniform) : Independent (feeds m bindings) where
  solid := by
    intro q hq
    obtain ⟨b, hb, r, hr, _, rfl⟩ := h.exists_of_mem_feeds hq
    exact ⟨h.solid_new habove hr, (hproper b hb).1⟩
  sizes := by
    intro q hq
    obtain ⟨b, _, r, _, hsize, rfl⟩ := h.exists_of_mem_feeds hq
    exact hsize
  nodup := by
    have hinputs : ∀ s ∈ p.inputs, s ∈ p.symbols :=
      fun s hs => Interface.mem_symbols.mpr (.inl hs)
    rw [h.feeds_eq hp, List.map_map]
    change ((p.inputs.zip (bindings.map Binding.source)).map (m.apply ∘ Prod.fst)).Nodup
    rw [← List.map_map, map_fst_zip]
    refine nodup_map (hp.orderly.inputs.nodup.sublist (List.take_sublist _ _)) ?_
    intro s hs t ht
    exact h.draws.injective habove s (hinputs s (List.mem_of_mem_take hs)) t
      (hinputs t (List.mem_of_mem_take ht))
  apart := by
    rintro q hq q' hq' heq
    obtain ⟨_, _, r, hr, _, rfl⟩ := h.exists_of_mem_feeds hq
    obtain ⟨b, hb, _, _, _, rfl⟩ := h.exists_of_mem_feeds hq'
    have hlocal := h.isLocal_new hr
    rw [show r.2 = b.source from heq, (hproper b hb).isLocal_source (huniform b hb)] at hlocal
    cases hlocal

theorem not_mem_feeds_of_mem (h : Resolved p.inputs bindings g g' m block)
    (habove : g.Above p.symbols) {s : Symbol} (hs : s ∈ p.symbols) :
    s ∉ (feeds m bindings).map Prod.fst := by
  intro hmem
  obtain ⟨q, hq, rfl⟩ := List.mem_map.mp hmem
  obtain ⟨_, _, r, hr, _, rfl⟩ := h.exists_of_mem_feeds hq
  have hold := habove _ hs
  have hnew := (h.draws.fresh r hr).1
  simp only at hold
  omega

/-! ## Runs -/

theorem agree_behind_feeds (h : Resolved p.inputs bindings g g' m block) (hp : p.Valid)
    (habove : g.Above p.symbols)
    (hbound : ∀ q ∈ p.inputs.zip (bindings.map Binding.source), sp.get u q.1 = st.get u q.2)
    (hother : ∀ s ∈ p.symbols, s ∉ p.inputs.take bindings.length → sp.get u s = st.get u s)
    {mid : Store} (hcopied : ∀ q ∈ feeds m bindings, mid.get u q.1 = st.get u q.2)
    (hkept : ∀ s, s ∉ (feeds m bindings).map Prod.fst → mid.get u s = st.get u s) :
    Agree u (· ∈ p.symbols) m.apply sp mid := by
  intro s hs
  by_cases htaken : s ∈ p.inputs.take bindings.length
  · have hzip : s ∈ (p.inputs.zip (bindings.map Binding.source)).map Prod.fst := by
      rwa [map_fst_zip, List.length_map]
    obtain ⟨⟨s, t⟩, hq, rfl⟩ := List.mem_map.mp hzip
    rw [hcopied _ (h.mem_feeds hp hq), hbound _ hq]
  · rcases h.apply_cases s with ⟨hmem, _⟩ | ⟨_, hsame⟩
    · exact absurd hmem htaken
    · rw [hsame, hkept s (h.not_mem_feeds_of_mem habove hs), hother s hs htaken]

theorem sequel_resolution (hp : p.Valid) (m : Renaming) (block : Block) (taken : Nat) :
    Graph.Sequel (fun _ => (m.onGraph p.graph).size) (fun id => id) (Graph.single block)
      (m.onGraph p.graph) (resolution p taken m block).graph :=
  Graph.sequel_prologue (hp.sound.of_sameShape (renders_onGraph hp.fits m).shape) block

theorem computes_resolution (h : Resolved p.inputs bindings g g' m block) (hp : p.Valid)
    (habove : g.Above p.symbols) (hproper : ∀ b ∈ bindings, b.Proper)
    (huniform : ∀ b ∈ bindings, b.kind = .uniform) (hsized : st.Sized u)
    (hbound : ∀ q ∈ p.inputs.zip (bindings.map Binding.source), sp.get u q.1 = st.get u q.2)
    (hother : ∀ s ∈ p.symbols, s ∉ p.inputs.take bindings.length → sp.get u s = st.get u s)
    (hrun : Computes p.graph u sp finp false) :
    ∃ fin, Computes (resolution p bindings.length m block).graph u st fin false ∧
      Agree u (· ∈ p.symbols) m.apply finp fin ∧
      ∀ t, t ∉ p.symbols → t ∉ m.map Prod.snd → fin.get u t = st.get u t := by
  have hrenders := renders_onGraph hp.fits m
  have hsound : (m.onGraph p.graph).Sound := hp.sound.of_sameShape hrenders.shape
  obtain ⟨mid, hfirst, _, hcopied, hkept⟩ :=
    computes_copyBlock (h.independent_feeds hp habove hproper huniform) hsized
  obtain ⟨fin₁, hsecond, hagree, hframe⟩ :=
    (hrenders.embeds hp.sound hp.fits).computes
      ((h.relabels hp habove).faithful (h.draws.injective habove)) hp.sound rfl rfl
      (h.agree_behind_feeds hp habove hbound hother hcopied hkept) hrun
  rw [← h.code] at hfirst
  obtain ⟨fin, hfin, hsame⟩ := computes_sequel (sequel_resolution hp m block bindings.length)
    (Graph.sound_single block) hsound hfirst (fun _ => rfl) hsecond
  refine ⟨fin, hfin, fun s hs => (hsame _).trans (hagree s hs), ?_⟩
  intro t hold hnew
  have hunfed : t ∉ (feeds m bindings).map Prod.fst := by
    intro hmem
    obtain ⟨q, hq, rfl⟩ := List.mem_map.mp hmem
    obtain ⟨_, _, r, hr, _, rfl⟩ := h.exists_of_mem_feeds hq
    exact hnew (List.mem_map.mpr ⟨r, hr, rfl⟩)
  rw [hsame t, hframe t, hkept t hunfed]
  rintro s ⟨hs, _⟩ rfl
  rcases m.apply_cases s with hkey | ⟨hfixed, _⟩
  · exact hnew (List.mem_map.mpr ⟨_, hkey, rfl⟩)
  · exact hold (hfixed.symm ▸ hs)

theorem computes_of_resolution (h : Resolved p.inputs bindings g g' m block) (hp : p.Valid)
    (habove : g.Above p.symbols) (hproper : ∀ b ∈ bindings, b.Proper)
    (huniform : ∀ b ∈ bindings, b.kind = .uniform) (hsized : st.Sized u)
    (hbound : ∀ q ∈ p.inputs.zip (bindings.map Binding.source), sp.get u q.1 = st.get u q.2)
    (hother : ∀ s ∈ p.symbols, s ∉ p.inputs.take bindings.length → sp.get u s = st.get u s)
    (hrun : Computes (resolution p bindings.length m block).graph u st fin false) :
    ∃ finp, Computes p.graph u sp finp false ∧ Agree u (· ∈ p.symbols) m.apply finp fin := by
  have hrenders := renders_onGraph hp.fits m
  have hsound : (m.onGraph p.graph).Sound := hp.sound.of_sameShape hrenders.shape
  obtain ⟨mid, mid', fin', hfirst, hmid, hsecond, hfin⟩ :=
    computes_sequel_back (sequel_resolution hp m block bindings.length)
      (Graph.sound_single block) hsound hrun
  rw [h.code] at hfirst
  obtain ⟨hcopied, hkept⟩ :=
    copied_of_computes (h.independent_feeds hp habove hproper huniform) hsized hfirst
  have hagree := h.agree_behind_feeds hp habove hbound hother
    (fun q hq => (hmid q.1).trans (hcopied q hq)) fun s hs => (hmid s).trans (hkept s hs)
  obtain ⟨finp, hcomputes, hagree', _⟩ :=
    (hrenders.embeds hp.sound hp.fits).computes_back
      ((h.relabels hp habove).faithful (h.draws.injective habove)) hp.sound rfl rfl hagree hsecond
  exact ⟨finp, hcomputes, fun s hs => (hfin _).trans (hagree' s hs)⟩

/-! ## Starts -/

variable {values outputs : List (List Float)}

theorem start_iff (h : Resolved p.inputs bindings g g' m block) (hp : p.Valid)
    (hfed : Fed bindings p.inputs) :
    (∃ sp, start p.toInterface (bindings.map (fun b => startValue u b.source) ++ values) =
        .ok sp) ↔
      ∃ st, start (resolution p bindings.length m block).toInterface values = .ok st := by
  have hsolid : ∀ s ∈ (resolution p bindings.length m block).inputs, s.isHole = false := by
    rw [h.inputs_resolution hp]
    exact fun s hs => hp.orderly.inputs.solid s (List.mem_of_mem_drop hs)
  have hsources : (bindings.map fun b => startValue u b.source).map List.length =
      (p.inputs.take bindings.length).map Symbol.size := by
    rw [← hfed, List.map_map]
    exact List.map_congr_left fun b _ => Store.sized_empty u b.source
  have hsplit : p.inputs.map Symbol.size = (p.inputs.take bindings.length).map Symbol.size ++
      (p.inputs.drop bindings.length).map Symbol.size := by
    rw [← List.map_append, List.take_append_drop]
  rw [start_iff_sizes hp.orderly.inputs.solid, start_iff_sizes hsolid, h.inputs_resolution hp,
    List.map_append, hsources, hsplit, List.append_cancel_left_eq]

theorem get_starts (h : Resolved p.inputs bindings g g' m block) (hp : p.Valid)
    (hproper : ∀ b ∈ bindings, b.Proper) (huniform : ∀ b ∈ bindings, b.kind = .uniform)
    (hfed : Fed bindings p.inputs)
    (hsp : start p.toInterface (bindings.map (fun b => startValue u b.source) ++ values) = .ok sp)
    (hst : start (resolution p bindings.length m block).toInterface values = .ok st) :
    (∀ q ∈ p.inputs.zip (bindings.map Binding.source), sp.get u q.1 = st.get u q.2) ∧
      ∀ s ∈ p.symbols, s ∉ p.inputs.take bindings.length → sp.get u s = st.get u s := by
  have hinputs := h.inputs_resolution hp
  have hlen : (bindings.map fun b => startValue u b.source).length =
      (p.inputs.take bindings.length).length := by
    rw [List.length_map, List.length_take_of_le hfed.length_le]
  have hzip : p.inputs.zip (bindings.map (fun b => startValue u b.source) ++ values) = _ :=
    zip_of_split hlen
  constructor
  · rintro ⟨s, t⟩ hq
    have hvalue : (s, startValue u t) ∈
        (p.inputs.take bindings.length).zip (bindings.map fun b => startValue u b.source) := by
      have hall := zip_take_left p.inputs (bindings.map fun b => startValue u b.source)
      rw [List.length_map] at hall
      rw [hall, show (bindings.map fun b => startValue u b.source) =
        (bindings.map Binding.source).map (startValue u) by rw [List.map_map]; rfl,
        List.zip_map_right]
      exact List.mem_map.mpr ⟨(s, t), hq, rfl⟩
    have hsource : t ∉ (resolution p bindings.length m block).inputs := by
      obtain ⟨b, hb, rfl⟩ := List.mem_map.mp (List.of_mem_zip hq).2
      rw [hinputs]
      intro hmem
      have hlocal : b.source.isLocal = true :=
        hp.orderly.inputs.isLocal (by decide) (List.mem_of_mem_drop hmem)
      rw [(hproper b hb).isLocal_source (huniform b hb)] at hlocal
      cases hlocal
    rw [get_start_of_mem hp.orderly.inputs.nodup hsp (hzip ▸ List.mem_append.mpr (.inl hvalue)),
      get_start_of_not_mem hst hsource]
  · intro s _ htaken
    refine get_start_eq ?_ hp.orderly.inputs.nodup hst hsp ?_ ?_
    · rw [hinputs]
      exact hp.orderly.inputs.nodup.sublist (List.drop_sublist _ _)
    · intro xs hxs
      rw [hinputs] at hxs
      rw [hzip]
      exact List.mem_append.mpr (.inr hxs)
    · intro hnot hmem
      rw [hinputs] at hnot
      rw [← List.take_append_drop bindings.length p.inputs, List.mem_append] at hmem
      exact hmem.elim htaken hnot

theorem gives_resolution_iff (h : Resolved p.inputs bindings g g' m block) (hp : p.Valid)
    (habove : g.Above p.symbols) (hproper : ∀ b ∈ bindings, b.Proper)
    (huniform : ∀ b ∈ bindings, b.kind = .uniform) (hfed : Fed bindings p.inputs) :
    Gives (resolution p bindings.length m block) u values outputs ↔
      Gives p u (bindings.map (fun b => startValue u b.source) ++ values) outputs := by
  have houtputs : ∀ {finp fin : Store}, Agree u (· ∈ p.symbols) m.apply finp fin →
      (resolution p bindings.length m block).outputs.map (fin.get u) =
        p.outputs.map (finp.get u) := by
    intro finp fin hagree
    rw [h.outputs_resolution hp habove, List.map_map]
    exact List.map_congr_left fun s hs => hagree s (Interface.mem_symbols.mpr (.inr (.inl hs)))
  constructor
  · intro hrun
    obtain ⟨st, fin, hst, hcomputes, _, rfl⟩ := gives_iff.mp hrun
    obtain ⟨sp, hsp⟩ := (h.start_iff hp hfed).mpr ⟨st, hst⟩
    obtain ⟨hbound, hother⟩ := h.get_starts hp hproper huniform hfed hsp hst
    obtain ⟨finp, hcomputes', hagree⟩ := h.computes_of_resolution hp habove hproper huniform
      (sized_start hst) hbound hother hcomputes
    rw [houtputs hagree]
    exact gives_iff.mpr ⟨sp, finp, hsp, hcomputes',
      fun s hs => by simp [hp.orderly.outputs.solid s hs], rfl⟩
  · intro hrun
    obtain ⟨sp, finp, hsp, hcomputes, _, rfl⟩ := gives_iff.mp hrun
    obtain ⟨st, hst⟩ := (h.start_iff hp hfed).mp ⟨sp, hsp⟩
    obtain ⟨hbound, hother⟩ := h.get_starts hp hproper huniform hfed hsp hst
    obtain ⟨fin, hcomputes', hagree, _⟩ := h.computes_resolution hp habove hproper huniform
      (sized_start hst) hbound hother hcomputes
    rw [← houtputs hagree]
    refine gives_iff.mpr ⟨st, fin, hst, hcomputes', fun s hs => ?_, rfl⟩
    simp [(h.collectable hp habove).outputs.solid s hs]

end Resolved

theorem Handle.Holds.gives_resolve_iff {g g' : Supply} {h : Handle} {p q : Program}
    (hp : h.Holds Binding.Proper g p) (huniform : ∀ b ∈ h.bindings, b.kind = .uniform)
    (hresolve : Yields h.resolve g (.ok q) g') {u : Overrides}
    {values outputs : List (List Float)} :
    Gives q u values outputs ↔
      Gives p u (h.bindings.map (fun b => startValue u b.source) ++ values) outputs := by
  have hcopies := Program.copies_copied hp.valid
  rw [← hcopies.gives_iff hp.valid]
  rcases hp.yields_resolve huniform with ⟨hyields, hnone⟩ | ⟨m, block, g'', hresolved, hyields⟩
  · obtain ⟨heq, _⟩ := hyields.unique hresolve
    cases heq
    rw [hnone]
    rfl
  · obtain ⟨heq, _⟩ := hyields.unique hresolve
    cases heq
    rw [← hresolved.gives_resolution_iff (hcopies.valid hp.valid) hp.above hp.all huniform hp.fed]
    exact gives_congr rfl rfl rfl

end KernelAlgebra
