import KernelAlgebra.Proofs.Compose.Closure
import Mathlib.Data.List.InsertIdx

/-!
# Replacing a symbol of a handle

A symbol of the same role and size fits wherever the old one did, so the program stays valid.
The lists drop the repeats that this brings about, however, while bindings stand for inputs by
their place: where an input takes the place of another one, every binding behind the later of
the two moves on by one input.
-/

namespace KernelAlgebra

/-! ## Renamings that keep role and size -/

/-- New symbols fit where the old ones did. -/
structure Renaming.Respects (m : Renaming) : Prop where
  role : ∀ s, (m.apply s).role = s.role
  size : ∀ s, (m.apply s).size = s.size
  solid : ∀ s, s.isHole = false → (m.apply s).isHole = false

namespace Renaming

variable {m : Renaming} {list : List Symbol} {old new : Symbol}

theorem respects_of_pairs (h : ∀ q ∈ m, q.2.role = q.1.role ∧ q.2.size = q.1.size ∧
    q.2.isHole = false) : m.Respects := by
  have hcases : ∀ s, (m.apply s).role = s.role ∧ (m.apply s).size = s.size ∧
      (s.isHole = false → (m.apply s).isHole = false) := by
    intro s
    rcases m.apply_cases s with hpair | ⟨hsame, _⟩
    · obtain ⟨hrole, hsize, hsolid⟩ := h _ hpair
      exact ⟨hrole, hsize, fun _ => hsolid⟩
    · rw [hsame]
      exact ⟨rfl, rfl, id⟩
  exact ⟨fun s => (hcases s).1, fun s => (hcases s).2.1, fun s => (hcases s).2.2⟩

theorem Respects.isInOut_eq (hm : m.Respects) (s : Symbol) : (m.apply s).isInOut = s.isInOut := by
  rw [Symbol.isInOut, hm.role, Symbol.isInOut]

theorem Respects.conforms (hm : m.Respects) (declared : List Symbol) :
    Conforms declared m.apply where
  stays := by
    intro s _ hlocal
    rwa [Symbol.isLocal, hm.role]
  size := fun s _ => hm.size s
  solid := fun s _ => hm.solid s
  texture := fun s _ hrole => (hm.role s).trans hrole

theorem nodup_onList (h : list.Nodup) : (m.onList list).Nodup := by
  unfold onList
  split
  · exact h
  · exact nodup_dedup _

theorem Respects.roleList_onList (hm : m.Respects) {roles : List Role}
    (hlist : RoleList roles list) : RoleList roles (m.onList list) where
  nodup := nodup_onList hlist.nodup
  role := by
    intro t ht
    obtain ⟨s, hs, rfl⟩ := mem_onList.mp ht
    rw [hm.role]
    exact hlist.role s hs
  solid := by
    intro t ht
    obtain ⟨s, hs, rfl⟩ := mem_onList.mp ht
    exact hm.solid s (hlist.solid s hs)

end Renaming

namespace Program

variable {p : Program} {m : Renaming}

theorem Valid.collectable_rename (hp : p.Valid) (hm : m.Respects) :
    (p.rename m).toInterface.Collectable := by
  have horderly := hp.orderly
  have hlist : ∀ {roles : List Role} {list : List Symbol}, RoleList roles list →
      ∀ t ∈ m.onList list, t.role ∈ roles ∧ t.isHole = false := by
    intro roles list hlist t ht
    have hrenamed := hm.roleList_onList hlist
    exact ⟨hrenamed.role t ht, hrenamed.solid t ht⟩
  refine ⟨hm.roleList_onList horderly.inputs, hm.roleList_onList horderly.outputs,
    hlist horderly.constants, hlist horderly.uniforms, hlist horderly.textures, ?_, ?_⟩
  · intro t ht hinout
    obtain ⟨s, hs, rfl⟩ := Renaming.mem_onList.mp ht
    rw [hm.isInOut_eq] at hinout
    exact Renaming.mem_onList.mpr ⟨s, horderly.inout_output s hs hinout, rfl⟩
  · intro t ht hinout
    obtain ⟨s, hs, rfl⟩ := Renaming.mem_onList.mp ht
    rw [hm.isInOut_eq] at hinout
    exact Renaming.mem_onList.mpr ⟨s, horderly.inout_input s hs hinout, rfl⟩

theorem Valid.collect_rename (hp : p.Valid) (hm : m.Respects) : (p.rename m).collect.Valid := by
  have hrenders := renders_onGraph hp.fits m
  have hfits : (p.rename m).graph.Fits (p.symbols.map m.apply) :=
    hrenders.fits (hm.conforms _) (fun _ hs => List.mem_map_of_mem hs) hp.fits
  exact valid_collect (hp.collectable_rename hm) (hp.sound.of_sameShape hrenders.shape) hfits

end Program

/-! ## The place that a list loses -/

theorem dedup_repeat {xs ys : List Symbol} {s : Symbol} (hs : s ∈ xs) (h : (xs ++ ys).Nodup) :
    dedup (xs ++ s :: ys) = xs ++ ys := by
  obtain ⟨hxs, hys, hapart⟩ := List.nodup_append.mp h
  have hnot : s ∉ ys := fun hmem => hapart s hs s hmem rfl
  have hkept : ys.filter (· ∉ xs) = ys :=
    List.filter_eq_self.mpr fun t ht => by simpa using fun hmem => hapart t hmem t ht rfl
  rw [dedup_append, dedup_of_nodup hxs, dedup_of_nodup (List.nodup_cons.mpr ⟨hnot, hys⟩),
    List.filter_cons_of_neg (by simpa using hs), hkept]

theorem dedup_eq_eraseIdx {list : List Symbol} {i j : Nat} (hij : i < j) (hj : j < list.length)
    (htwin : list[i] = list[j]) (h : (list.eraseIdx j).Nodup) : dedup list = list.eraseIdx j := by
  have hmem : list[j] ∈ list.take j :=
    List.mem_take_iff_getElem.mpr ⟨i, by omega, htwin⟩
  rw [List.eraseIdx_eq_take_drop_succ] at h ⊢
  rw [← dedup_repeat hmem h, ← List.drop_eq_getElem_cons hj, List.take_append_drop]

theorem not_mem_eraseIdx {list : List Symbol} (h : list.Nodup) {j : Nat} (hj : j < list.length) :
    list[j] ∉ list.eraseIdx j := by
  intro hmem
  obtain ⟨i, hi, hne, heq⟩ := List.mem_eraseIdx_iff_getElem.mp hmem
  exact hne (h.getElem_inj_iff.mp heq)

namespace Renaming

variable {list : List Symbol} {old new : Symbol}

/--
The place that a list loses when one symbol takes the place of another: that of the later one.
It lies behind the list if one of them is not there, or if they are the same.
-/
def lostPlace (list : List Symbol) (old new : Symbol) : Nat :=
  if old = new then list.length else max (list.idxOf old) (list.idxOf new)

theorem apply_single (s : Symbol) : apply [(old, new)] s = if s = old then new else s := by
  rw [apply_cons, apply_nil]

theorem eq_of_apply_single {s t : Symbol} (h : apply [(old, new)] s = apply [(old, new)] t) :
    s = t ∨ s = old ∧ t = new ∨ s = new ∧ t = old := by
  rw [apply_single, apply_single] at h
  split at h <;> split at h <;> simp_all

theorem nodup_map_single (h : list.Nodup) (hmissing : ¬ (old ∈ list ∧ new ∈ list)) :
    (list.map (apply [(old, new)])).Nodup := by
  refine nodup_map h fun s hs t ht heq => ?_
  rcases eq_of_apply_single heq with hsame | ⟨rfl, rfl⟩ | ⟨rfl, rfl⟩
  · exact hsame
  · exact absurd ⟨hs, ht⟩ hmissing
  · exact absurd ⟨ht, hs⟩ hmissing

theorem onList_of_places {i j : Nat} (h : list.Nodup) (hij : i < j) (hj : j < list.length)
    (hplaces : list[i] = old ∧ list[j] = new ∨ list[i] = new ∧ list[j] = old) :
    onList [(old, new)] list = (list.map (apply [(old, new)])).eraseIdx j := by
  have hmissing : ¬ (old ∈ list.eraseIdx j ∧ new ∈ list.eraseIdx j) := by
    rintro ⟨hold, hnew⟩
    rcases hplaces with ⟨_, hj'⟩ | ⟨_, hj'⟩
    · exact not_mem_eraseIdx h hj (hj' ▸ hnew)
    · exact not_mem_eraseIdx h hj (hj' ▸ hold)
  refine dedup_eq_eraseIdx hij (by simpa using hj) ?_ ?_
  · rw [List.getElem_map, List.getElem_map, apply_single, apply_single]
    rcases hplaces with ⟨hi', hj'⟩ | ⟨hi', hj'⟩ <;> simp [hi', hj']
  · rw [List.eraseIdx_map]
    exact nodup_map_single (h.sublist (List.eraseIdx_sublist _ _)) hmissing

theorem onList_single (h : list.Nodup) :
    onList [(old, new)] list =
      (list.map (apply [(old, new)])).eraseIdx (lostPlace list old new) := by
  unfold lostPlace
  split
  · rename_i hsame
    have hfixed : ∀ s ∈ list, apply [(old, new)] s = s := by
      intro s _
      rw [apply_single, ← hsame]
      split
      · rename_i hs
        exact hs.symm
      · rfl
    rw [onList_of_fixed hfixed h, List.map_congr_left hfixed, List.map_id',
      List.eraseIdx_of_length_le (Nat.le_refl _)]
  · rename_i hne
    by_cases hboth : old ∈ list ∧ new ∈ list
    · obtain ⟨hold, hnew⟩ := hboth
      have hold_lt := List.idxOf_lt_length_iff.mpr hold
      have hnew_lt := List.idxOf_lt_length_iff.mpr hnew
      have hplaces : list.idxOf old ≠ list.idxOf new := fun heq => hne ((List.idxOf_inj hold).mp heq)
      -- the later one goes, whichever of the two it is
      rcases Nat.lt_or_gt_of_ne hplaces with hlt | hlt
      · rw [Nat.max_eq_right (Nat.le_of_lt hlt)]
        exact onList_of_places h hlt hnew_lt
          (.inl ⟨List.getElem_idxOf hold_lt, List.getElem_idxOf hnew_lt⟩)
      · rw [Nat.max_eq_left (Nat.le_of_lt hlt)]
        exact onList_of_places h hlt hold_lt
          (.inr ⟨List.getElem_idxOf hnew_lt, List.getElem_idxOf hold_lt⟩)
    · have hbehind : list.length ≤ max (list.idxOf old) (list.idxOf new) := by
        rcases not_and_or.mp hboth with hold | hnew
        · exact Nat.le_trans (Nat.le_of_eq (List.idxOf_eq_length hold).symm) (Nat.le_max_left _ _)
        · exact Nat.le_trans (Nat.le_of_eq (List.idxOf_eq_length hnew).symm) (Nat.le_max_right _ _)
      rw [onList_eq_map (nodup_map_single h hboth), List.eraseIdx_of_length_le (by simpa using hbehind)]

end Renaming

/-! ## Bindings and a lost place -/

section Fed

variable {bindings : List Binding} {inputs : List Symbol} {j : Nat}

theorem fed_iff_getElem? : Fed bindings inputs ↔ ∀ m < bindings.length,
    (inputs[m]?).map Symbol.size = (bindings[m]?).map (·.source.size) := by
  unfold Fed
  rw [List.ext_getElem?_iff]
  refine forall_congr' fun m => ?_
  rw [List.getElem?_map, List.getElem?_map, List.getElem?_take]
  by_cases hm : m < bindings.length
  · simp [hm, eq_comm]
  · simp [hm]

theorem fed_map_iff {σ : Symbol → Symbol} (hσ : ∀ s, (σ s).size = s.size) :
    Fed bindings (inputs.map σ) ↔ Fed bindings inputs := by
  have hsizes : Symbol.size ∘ σ = Symbol.size := funext hσ
  unfold Fed
  rw [← List.map_take, List.map_map, hsizes]

theorem Fed.eraseIdx_iff (h : Fed bindings inputs) : Fed bindings (inputs.eraseIdx j) ↔
    ∀ m, j ≤ m → m < bindings.length →
      (inputs[m + 1]?).map Symbol.size = (inputs[m]?).map Symbol.size := by
  have hsizes := fed_iff_getElem?.mp h
  rw [fed_iff_getElem?]
  constructor
  · intro hall m hj hm
    have hnext := hall m hm
    rw [List.getElem?_eraseIdx, if_neg (by omega)] at hnext
    rw [hnext, hsizes m hm]
  · intro hall m hm
    rw [List.getElem?_eraseIdx, ← hsizes m hm]
    split
    · rfl
    · exact hall m (by omega) hm

end Fed

theorem Handle.freeInputs_eq (h : Handle) (g : Supply) :
    h.freeInputs.run.run g = if h.sketch.inputs.length < h.bindings.length then
      (.error .outside, g) else (.ok h.free, g) := by
  unfold Handle.freeInputs
  split
  · rename_i hle
    rw [if_neg (by omega)]
    rfl
  · rename_i hlt
    rw [if_pos (by omega)]
    rfl

namespace Composer

open Compose

variable {env : Env} {h : Handle} {old new : Symbol}

theorem yields_replaceCore {p : Program} (hsketch : h.sketch = p.sketch)
    (hold : old.isHole = false) (hnew : new.isHole = false) (hsize : new.size = old.size) :
    ∃ h' env', Yields (replaceCore (some h) old new) env (.ok h') env' ∧
      h'.sketch = (p.copied.rename [(old, new)]).collect.sketch ∧ h'.bindings = h.bindings := by
  have hpresent : ¬ (old.isHole || new.isHole) = true := by simp [hold, hnew]
  have hsizes : ¬ (old.size != new.size) = true := by simp [hsize]
  simp only [replaceCore, if_neg hpresent, if_neg hsizes]
  exact ⟨_, _, yields_renamedBy hsketch, rfl, rfl⟩

/--
Replacing a symbol by one of its size and role gives a handle over a valid program.  Its
bindings are those of the given handle, though its inputs may have lost a place.  The result is
well-formed exactly when every binding from that place on finds an input of the right size one
place further on, and its free inputs are out of reach when a bound place was lost and no input
was free.
-/
theorem replaceVariable_wellFormed_iff (c : Composer) (hh : h.WellFormed)
    (hold : old.isHole = false) (hnew : new.isHole = false) (hsize : new.size = old.size)
    (hrole : new.role = old.role) :
    let place := Renaming.lostPlace h.sketch.inputs old new
    ∃ h' q env', (replaceVariable c (some h) old new).run.run env = (.ok h', env') ∧
      h'.sketch.program? = some q ∧ q.issues = [] ∧ h'.bindings = h.bindings ∧
      q.inputs = (h.sketch.inputs.map (Renaming.apply [(old, new)])).eraseIdx place ∧
      (h'.WellFormed ↔ ∀ m, place ≤ m → m < h.bindings.length →
        (h.sketch.inputs[m + 1]?).map Symbol.size = (h.sketch.inputs[m]?).map Symbol.size) ∧
      ∀ g, h'.freeInputs.run.run g =
        if place < h.bindings.length ∧ h.bindings.length = h.sketch.inputs.length then
          (.error .outside, g) else (.ok h'.free, g) := by
  intro place
  obtain ⟨p, hp, hissues⟩ := hh.valid
  have hvalid := Program.issues_eq_nil_iff.mp hissues
  have hsketch := Sketch.eq_of_program? hp
  have hinputs := Sketch.inputs_of_eq hsketch
  have hrespects : Renaming.Respects [(old, new)] := by
    refine Renaming.respects_of_pairs fun q hq => ?_
    rw [List.mem_singleton.mp hq]
    exact ⟨hrole, hsize, hnew⟩
  obtain ⟨h', env₁, hcore, hsketch', hbindings⟩ := yields_replaceCore hsketch hold hnew hsize
  obtain ⟨env', hrun, _⟩ :
      ∃ env', Yields (replaceVariable c (some h) old new) env (.ok h') env' ∧
        env'.supply = env₁.supply :=
    yields_observe hcore (by rw [hsketch']; rfl)
  have hcopied : p.copied.Valid := (Program.copies_copied hvalid).valid hvalid
  have hvalid' := hcopied.collect_rename hrespects
  have hinputs' : (p.copied.rename [(old, new)]).collect.inputs =
      (h.sketch.inputs.map (Renaming.apply [(old, new)])).eraseIdx place := by
    have hnodup : h.sketch.inputs.Nodup := hinputs ▸ hvalid.orderly.inputs.nodup
    rw [← Renaming.onList_single hnodup, hinputs]
    rfl
  have hfed : Fed h.bindings h.sketch.inputs := fed_iff.mpr ⟨hh.bindings, hh.sizes⟩
  refine ⟨h', _, env', hrun, ?_, Program.issues_eq_nil_iff.mpr hvalid', hbindings, hinputs', ?_, ?_⟩
  · exact Sketch.program?_of_eq hsketch'
  -- renaming keeps all sizes, so only the lost place can part a binding from its input
  · rw [Handle.wellFormed_iff_fed hsketch' hvalid', hbindings, hinputs', List.eraseIdx_map,
      fed_map_iff hrespects.size, hfed.eraseIdx_iff]
  · intro g
    have hlen : h'.sketch.inputs.length = _ :=
      (congrArg (fun s : Sketch => s.inputs.length) hsketch').trans (congrArg List.length hinputs')
    rw [h'.freeInputs_eq, hbindings, hlen, List.length_eraseIdx, List.length_map]
    have hle := hh.bindings
    congr 1
    split <;> simp <;> omega

/-- The sum of two channels. -/
def adding : Program :=
  let x : Symbol := ⟨1, .input, 1, .float32, .attrib, "x", []⟩
  let y : Symbol := ⟨2, .input, 1, .float32, .attrib, "y", []⟩
  let z : Symbol := ⟨3, .output, 1, .float32, .attrib, "z", []⟩
  { Interface.empty "" with
    inputs := [x, y], outputs := [z],
    graph := ⟨[⟨[⟨.add, .full z, [.full x, .full y]⟩], [], none⟩], 0, 0⟩ }

theorem replaceVariable_wellFormed_iff_adding :
    let x : Symbol := ⟨1, .input, 1, .float32, .attrib, "x", []⟩
    let y : Symbol := ⟨2, .input, 1, .float32, .attrib, "y", []⟩
    let u : Symbol := ⟨4, .uniform, 1, .float32, .attrib, "u", []⟩
    let v : Symbol := ⟨5, .uniform, 1, .float32, .attrib, "v", []⟩
    let one : Handle := ⟨1, 1, adding.sketch, [⟨.uniform, u⟩], []⟩
    let both : Handle := ⟨2, 1, adding.sketch, [⟨.uniform, u⟩, ⟨.uniform, v⟩], []⟩
    (∃ h' env', (replaceVariable {} (some one) x y).run.run Env.start = (.ok h', env') ∧
      h'.WellFormed) ∧
    ∃ h' env', (replaceVariable {} (some both) x y).run.run Env.start = (.ok h', env') ∧
      ¬ h'.WellFormed ∧ ∀ g, h'.freeInputs.run.run g = (.error .outside, g) := by
  intro x y u v one both
  have hone : one.WellFormed := ⟨⟨adding, rfl, rfl⟩, by decide, by decide⟩
  have hboth : both.WellFormed := ⟨⟨adding, rfl, rfl⟩, by decide, by decide⟩
  obtain ⟨h₁, q₁, env₁, hrun₁, _, _, _, _, hwell₁, _⟩ :=
    @replaceVariable_wellFormed_iff Env.start one x y {} hone rfl rfl rfl rfl
  obtain ⟨h₂, q₂, env₂, hrun₂, _, _, _, _, hwell₂, hfree₂⟩ :=
    @replaceVariable_wellFormed_iff Env.start both x y {} hboth rfl rfl rfl rfl
  refine ⟨⟨h₁, env₁, hrun₁, hwell₁.mpr fun m hm hlt => ?_⟩, h₂, env₂, hrun₂, fun hwell => ?_, ?_⟩
  · have hplace : Renaming.lostPlace one.sketch.inputs x y = 1 := by decide
    have hlen : one.bindings.length = 1 := rfl
    omega
  · cases hwell₂.mp hwell 1 (by decide) (by decide)
  · exact fun g => (hfree₂ g).trans (if_pos (by decide))

end Composer

end KernelAlgebra
