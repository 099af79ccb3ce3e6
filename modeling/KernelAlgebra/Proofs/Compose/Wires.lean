import KernelAlgebra.Compose.Connect
import KernelAlgebra.Proofs.Compose.Operands

/-!
# Wires

A wire replaces an output and an input by one fresh temporary.  All symbols that wires bring
along are new and pairwise different, so the replacements do not get into each other's way.
-/

namespace KernelAlgebra

namespace Wire

/-- The new symbols of a wire. -/
def news (w : Wire) : List Symbol := w.temp :: (w.entrance.toList ++ w.leaving.toList)

/-- The new symbols are copies, and there are as many as the channels ask for. -/
structure Shaped (w : Wire) : Prop where
  temp : w.temp = { w.output with id := w.temp.id, role := .temp }
  entrance : ∀ e, w.entrance = some e → e = { w.output with id := e.id, role := .input }
  entrance_iff : w.entrance.isSome = w.output.isInOut
  leaving : ∀ l, w.leaving = some l → l = { w.input with id := l.id, role := .output }
  leaving_iff : w.leaving.isSome = w.input.isInOut

/-- Wires for pairs of channels, made from one supply and leaving another. -/
structure Drawn (g g' : Supply) (pairs : List (Symbol × Symbol)) (ws : List Wire) : Prop where
  ends : ws.map (fun w => (w.output, w.input)) = pairs
  shaped : ∀ w ∈ ws, w.Shaped
  later : g.next ≤ g'.next
  nodup : (ws.flatMap news).Nodup
  fresh : ∀ s ∈ ws.flatMap news, g.next ≤ s.id ∧ s.id < g'.next

def drawn (g : Supply) (o n : Symbol) : Wire :=
  { output := o,
    input := n,
    temp := { o with id := g.next, role := .temp },
    entrance := if o.isInOut then some { o with id := g.next + 1, role := .input } else none,
    leaving :=
      if n.isInOut then
        some { n with id := if o.isInOut then g.next + 2 else g.next + 1, role := .output }
      else none }

theorem yields_make {o n : Symbol} (ho : o.isHole = false) (hn : n.isHole = false) (g : Supply) :
    Yields (make o n) g (.ok (drawn g o n)) ⟨g.next + (drawn g o n).news.length⟩ := by
  unfold make Fresh.copy drawn
  rw [ho, hn]
  cases o.isInOut with
  | false => cases n.isInOut <;> rfl
  | true => cases n.isInOut <;> rfl

theorem shaped_drawn (g : Supply) (o n : Symbol) : (drawn g o n).Shaped := by
  unfold drawn
  constructor
  · rfl
  · cases o.isInOut <;> simp
  · cases o.isInOut <;> simp
  · cases n.isInOut <;> simp
  · cases n.isInOut <;> simp

theorem nodup_news_drawn (g : Supply) (o n : Symbol) : (drawn g o n).news.Nodup := by
  unfold drawn news
  cases o.isInOut <;> cases n.isInOut <;> simp

theorem fresh_drawn {g : Supply} {o n s : Symbol} (hs : s ∈ (drawn g o n).news) :
    g.next ≤ s.id ∧ s.id < g.next + (drawn g o n).news.length := by
  revert hs
  unfold drawn news
  cases o.isInOut <;> cases n.isInOut <;>
    simp only [if_true, if_false, Bool.false_eq_true, Option.toList_some, Option.toList_none,
      List.append_nil, List.nil_append, List.singleton_append, List.mem_cons, List.not_mem_nil,
      or_false, List.length_cons, List.length_nil] <;>
    rintro (rfl | rfl | rfl) <;> simp

/-- The wires that are made later only have symbols that the first one left in the supply. -/
theorem Drawn.cons {g g' : Supply} {o n : Symbol} {pairs : List (Symbol × Symbol)}
    {ws : List Wire} (h : Drawn ⟨g.next + (drawn g o n).news.length⟩ g' pairs ws) :
    Drawn g g' ((o, n) :: pairs) (drawn g o n :: ws) where
  ends := by
    rw [List.map_cons, h.ends]
    rfl
  shaped := List.forall_mem_cons.mpr ⟨shaped_drawn g o n, h.shaped⟩
  later := Nat.le_trans (Nat.le_add_right _ _) h.later
  nodup := by
    rw [List.flatMap_cons, List.nodup_append]
    refine ⟨nodup_news_drawn g o n, h.nodup, ?_⟩
    rintro s hs t ht rfl
    exact Nat.lt_irrefl s.id (Nat.lt_of_lt_of_le (fresh_drawn hs).2 (h.fresh s ht).1)
  fresh := by
    intro s hs
    rw [List.flatMap_cons, List.mem_append] at hs
    rcases hs with hs | hs
    · obtain ⟨hlow, hhigh⟩ := fresh_drawn hs
      exact ⟨hlow, Nat.lt_of_lt_of_le hhigh h.later⟩
    · obtain ⟨hlow, hhigh⟩ := h.fresh s hs
      exact ⟨Nat.le_trans (Nat.le_add_right _ _) hlow, hhigh⟩

theorem exists_drawn {pairs : List (Symbol × Symbol)}
    (h : ∀ q ∈ pairs, q.1.isHole = false ∧ q.2.isHole = false) (g : Supply) :
    ∃ ws g', Yields (pairs.mapM fun (o, n) => make o n) g (.ok ws) g' ∧ Drawn g g' pairs ws := by
  induction pairs generalizing g with
  | nil =>
      refine ⟨[], g, ?_, rfl, by simp, Nat.le_refl _, by simp, by simp⟩
      rw [List.mapM_nil]
      exact yields_pure.mpr ⟨rfl, rfl⟩
  | cons q rest ih =>
      obtain ⟨o, n⟩ := q
      obtain ⟨⟨ho, hn⟩, hrest⟩ := List.forall_mem_cons.mp h
      obtain ⟨ws, g', hyields, hdrawn⟩ := ih hrest ⟨g.next + (drawn g o n).news.length⟩
      refine ⟨drawn g o n :: ws, g', ?_, hdrawn.cons⟩
      rw [List.mapM_cons]
      refine (yields_bind (yields_make ho hn g)).mpr ((yields_bind hyields).mpr ?_)
      exact yields_pure.mpr ⟨rfl, rfl⟩

/-! ## Replacements -/

private theorem apply_foldl_of_ne {ws : List Wire} {s : Symbol}
    (h : ∀ w ∈ ws, s ≠ w.output ∧ s ≠ w.input) (m : Renaming) :
    Renaming.apply (ws.foldl (fun m w => (w.input, w.temp) :: (w.output, w.temp) :: m) m) s =
      m.apply s := by
  induction ws generalizing m with
  | nil => rfl
  | cons w rest ih =>
      obtain ⟨houtput, hinput⟩ := h w (by simp)
      rw [List.foldl_cons, ih fun w' hw' => h w' (by simp [hw']), Renaming.apply_cons,
        if_neg hinput, Renaming.apply_cons, if_neg houtput]

private theorem apply_foldl_of_mem {ws : List Wire} {s t : Symbol}
    (hsome : ∃ w ∈ ws, s = w.output ∨ s = w.input)
    (hall : ∀ w ∈ ws, s = w.output ∨ s = w.input → w.temp = t) (m : Renaming) :
    Renaming.apply (ws.foldl (fun m w => (w.input, w.temp) :: (w.output, w.temp) :: m) m) s =
      t := by
  induction ws generalizing m with
  | nil =>
      obtain ⟨w, hw, _⟩ := hsome
      cases hw
  | cons w rest ih =>
      rw [List.foldl_cons]
      by_cases hrest : ∃ w' ∈ rest, s = w'.output ∨ s = w'.input
      · exact ih hrest (fun w' hw' => hall w' (by simp [hw'])) _
      · have hne : ∀ w' ∈ rest, s ≠ w'.output ∧ s ≠ w'.input :=
          fun w' hw' => not_or.mp fun h => hrest ⟨w', hw', h⟩
        have hw : s = w.output ∨ s = w.input := by
          obtain ⟨w', hw', h⟩ := hsome
          rcases List.mem_cons.mp hw' with rfl | hw'
          · exact h
          · exact absurd ⟨w', hw', h⟩ hrest
        rw [apply_foldl_of_ne hne, Renaming.apply_cons, Renaming.apply_cons,
          hall w (by simp) hw]
        by_cases hinput : s = w.input
        · rw [if_pos hinput]
        · rw [if_neg hinput, if_pos (hw.resolve_right hinput)]

/-- Every end of a wire is the end of no other one. -/
structure Separate (ws : List Wire) : Prop where
  outputs : ∀ w ∈ ws, ∀ w' ∈ ws, w.output = w'.output → w = w'
  inputs : ∀ w ∈ ws, ∀ w' ∈ ws, w.input = w'.input → w = w'
  apart : ∀ w ∈ ws, ∀ w' ∈ ws, w.output ≠ w'.input

variable {ws : List Wire}

theorem apply_merging_of_ne {s : Symbol} (h : ∀ w ∈ ws, s ≠ w.output ∧ s ≠ w.input) :
    (merging ws).apply s = s :=
  apply_foldl_of_ne h []

theorem apply_merging_output (hws : Separate ws) {w : Wire} (hw : w ∈ ws) :
    (merging ws).apply w.output = w.temp := by
  refine apply_foldl_of_mem ⟨w, hw, .inl rfl⟩ ?_ []
  rintro w' hw' (h | h)
  · rw [hws.outputs w hw w' hw' h]
  · exact absurd h (hws.apart w hw w' hw')

theorem apply_merging_input (hws : Separate ws) {w : Wire} (hw : w ∈ ws) :
    (merging ws).apply w.input = w.temp := by
  refine apply_foldl_of_mem ⟨w, hw, .inr rfl⟩ ?_ []
  rintro w' hw' (h | h)
  · exact absurd h.symm (hws.apart w' hw' w hw)
  · rw [hws.inputs w hw w' hw' h]

def exchanged (keys : List (Symbol × Option Symbol)) (s : Symbol) : Symbol :=
  keys.foldl (fun t k => if t = k.1 then k.2.getD t else t) s

theorem foldl_substituted (keys : List (Symbol × Option Symbol)) (list : List Symbol) :
    keys.foldl (fun l k => substituted k.1 k.2 l) list = list.map (exchanged keys) := by
  induction keys generalizing list with
  | nil => exact (List.map_id list).symm
  | cons k rest ih =>
      obtain ⟨old, new⟩ := k
      have hstep : substituted old new list =
          list.map fun t => if t = old then new.getD t else t := by
        cases new with
        | none => simp [substituted]
        | some s => rfl
      rw [List.foldl_cons, ih, hstep, List.map_map]
      rfl

theorem exchanged_of_ne {keys : List (Symbol × Option Symbol)} {s : Symbol}
    (h : ∀ k ∈ keys, s = k.1 → k.2 = none) : exchanged keys s = s := by
  induction keys with
  | nil => rfl
  | cons k rest ih =>
      have hstep : (if s = k.1 then k.2.getD s else s) = s := by
        split
        · rename_i hs
          rw [h k (by simp) hs]
          rfl
        · rfl
      unfold exchanged
      rw [List.foldl_cons, hstep]
      exact ih fun k' hk' => h k' (by simp [hk'])

theorem exchanged_of_mem {keys : List (Symbol × Option Symbol)} {s t : Symbol}
    (hmem : (s, some t) ∈ keys) (hsame : ∀ k ∈ keys, s = k.1 → k.2 = some t)
    (ht : ∀ k ∈ keys, t ≠ k.1) : exchanged keys s = t := by
  induction keys with
  | nil => cases hmem
  | cons k rest ih =>
      unfold exchanged
      rw [List.foldl_cons]
      by_cases hs : s = k.1
      · rw [if_pos hs, hsame k (by simp) hs]
        exact exchanged_of_ne fun k' hk' heq => absurd heq (ht k' (by simp [hk']))
      · rw [if_neg hs]
        refine ih ?_ (fun k' hk' => hsame k' (by simp [hk'])) fun k' hk' => ht k' (by simp [hk'])
        rcases List.mem_cons.mp hmem with heq | hmem
        · exact absurd (congrArg Prod.fst heq) hs
        · exact hmem

def entering (ws : List Wire) : Symbol → Symbol :=
  exchanged (ws.map fun w => (w.output, w.entrance))

def leavingFor (ws : List Wire) : Symbol → Symbol :=
  exchanged (ws.map fun w => (w.input, w.leaving))

theorem onInputs_eq_map (ws : List Wire) (list : List Symbol) :
    onInputs ws list = list.map (entering ws) := by
  rw [entering, ← foldl_substituted, List.foldl_map]
  rfl

theorem onOutputs_eq_map (ws : List Wire) (list : List Symbol) :
    onOutputs ws list = list.map (leavingFor ws) := by
  rw [leavingFor, ← foldl_substituted, List.foldl_map]
  rfl

theorem entering_of_ne {s : Symbol} (h : ∀ w ∈ ws, s = w.output → w.entrance = none) :
    entering ws s = s := by
  apply exchanged_of_ne
  intro k hk hs
  obtain ⟨w, hw, rfl⟩ := List.mem_map.mp hk
  exact h w hw hs

theorem leavingFor_of_ne {s : Symbol} (h : ∀ w ∈ ws, s = w.input → w.leaving = none) :
    leavingFor ws s = s := by
  apply exchanged_of_ne
  intro k hk hs
  obtain ⟨w, hw, rfl⟩ := List.mem_map.mp hk
  exact h w hw hs

theorem entering_output (hws : Separate ws) {w : Wire} (hw : w ∈ ws) {e : Symbol}
    (he : w.entrance = some e) (hnew : ∀ w' ∈ ws, e ≠ w'.output) :
    entering ws w.output = e := by
  apply exchanged_of_mem
  · exact List.mem_map.mpr ⟨w, hw, by rw [he]⟩
  · intro k hk hs
    obtain ⟨w', hw', rfl⟩ := List.mem_map.mp hk
    rw [← hws.outputs w hw w' hw' hs, he]
  · intro k hk
    obtain ⟨w', hw', rfl⟩ := List.mem_map.mp hk
    exact hnew w' hw'

theorem leavingFor_input (hws : Separate ws) {w : Wire} (hw : w ∈ ws) {l : Symbol}
    (hl : w.leaving = some l) (hnew : ∀ w' ∈ ws, l ≠ w'.input) :
    leavingFor ws w.input = l := by
  apply exchanged_of_mem
  · exact List.mem_map.mpr ⟨w, hw, by rw [hl]⟩
  · intro k hk hs
    obtain ⟨w', hw', rfl⟩ := List.mem_map.mp hk
    rw [← hws.inputs w hw w' hw' hs, hl]
  · intro k hk
    obtain ⟨w', hw', rfl⟩ := List.mem_map.mp hk
    exact hnew w' hw'

end Wire

end KernelAlgebra
