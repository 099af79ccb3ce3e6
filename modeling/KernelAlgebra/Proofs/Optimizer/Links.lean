import KernelAlgebra.Proofs.Optimizer.Compaction
import KernelAlgebra.Proofs.Optimizer.Straighten
import Mathlib.Data.List.Nodup
import Mathlib.Data.List.Perm.Subperm

/-!
# Straightening leaves nothing to merge

Every merge takes a node out of the reach of the entry, so the passes come to one that merges
nothing.  Such a pass met no link, and where there is no link a pass merges nothing.
-/

namespace KernelAlgebra.Straighten

open KernelAlgebra.Graph

variable {g : Graph} {id next : Nat} {a b : Node} {single : Nat → Bool} {order : List Nat}

def NoLinks (g : Graph) : Prop := ∀ id next a b, ¬ Link g id next a b

/-! ## Chains -/

theorem mergeChain_of_not_mergeable {s : Progress} (h : mergeable? single s.graph id = none)
    (fuel : Nat) : mergeChain single id fuel s = s := by
  cases fuel with
  | zero => rfl
  | succ fuel => simp [mergeChain, h]

theorem merged_le_mergeChain (single : Nat → Bool) (id fuel : Nat) (s : Progress) :
    s.merged ≤ (mergeChain single id fuel s).merged := by
  induction fuel generalizing s with
  | zero => exact Nat.le_refl _
  | succ fuel ih =>
      simp only [mergeChain]
      split
      · rename_i next b _
        exact Nat.le_of_succ_le (ih ⟨merge s.graph id next b, s.merged + 1⟩)
      · exact Nat.le_refl _

theorem not_mergeable_of_mergeChain {fuel : Nat} {s : Progress} (hfuel : 0 < fuel)
    (h : (mergeChain single id fuel s).merged = s.merged) :
    mergeable? single s.graph id = none := by
  obtain ⟨fuel, rfl⟩ := Nat.exists_eq_add_of_le' hfuel
  simp only [mergeChain] at h
  split at h
  · rename_i next b _
    have hle := merged_le_mergeChain single id fuel ⟨merge s.graph id next b, s.merged + 1⟩
    simp only [h] at hle
    omega
  · assumption

/-! ## Passes -/

theorem foldl_of_not_mergeable {ids : List Nat} {s : Progress} (fuel : Nat)
    (h : ∀ x ∈ ids, mergeable? single s.graph x = none) :
    ids.foldl (fun s id => mergeChain single id fuel s) s = s := by
  induction ids with
  | nil => rfl
  | cons x rest ih =>
      rw [List.foldl_cons, mergeChain_of_not_mergeable (h x (by simp))]
      exact ih fun y hy => h y (by simp [hy])

theorem merged_le_foldl (single : Nat → Bool) (ids : List Nat) (fuel : Nat) (s : Progress) :
    s.merged ≤ (ids.foldl (fun s id => mergeChain single id fuel s) s).merged := by
  induction ids generalizing s with
  | nil => exact Nat.le_refl _
  | cons x rest ih => exact Nat.le_trans (merged_le_mergeChain single x fuel s) (ih _)

theorem not_mergeable_of_foldl {ids : List Nat} {fuel : Nat} {s : Progress} (hfuel : 0 < fuel)
    (h : (ids.foldl (fun s id => mergeChain single id fuel s) s).merged = s.merged) :
    ∀ x ∈ ids, mergeable? single s.graph x = none := by
  induction ids with
  | nil => simp
  | cons x rest ih =>
      rw [List.foldl_cons] at h
      have hchain := merged_le_mergeChain single x fuel s
      have hrest := merged_le_foldl single rest fuel (mergeChain single x fuel s)
      have hx : mergeable? single s.graph x = none :=
        not_mergeable_of_mergeChain hfuel (by omega)
      rw [mergeChain_of_not_mergeable hx] at h
      intro y hy
      rcases List.mem_cons.mp hy with rfl | hy
      · exact hx
      · exact ih h y hy

theorem mergeable_of_link (h : Link g id next a b) :
    mergeable? (fun x => (g.predecessors x).length == 1) g id = some (next, b) := by
  have hsingle : g.predecessors next = [id] := by
    rw [predecessors_eq_filter]
    refine List.perm_singleton.mp ((List.perm_ext_iff_of_nodup ?_ (List.nodup_singleton id)).mpr ?_)
    · exact (nodup_reachable g).filter _
    · intro x
      simp only [List.mem_filter, List.contains_eq_mem, decide_eq_true_eq, List.mem_singleton,
        mem_reachable]
      constructor
      · exact fun hx => h.sole x hx.1 hx.2
      · rintro rfl
        exact ⟨h.reaches, h.mem_targets⟩
  obtain ⟨block, branches, follower⟩ := a
  obtain rfl : branches = [] := h.branches
  obtain rfl : follower = some next := h.follower
  simp [mergeable?, h.source, h.distinct, h.not_entry, hsingle, h.target]

theorem noLinks_of_pass (h : (pass g).merged = 0) : NoLinks g := by
  intro id next a b hlink
  have hsize : 0 < g.size := Nat.zero_lt_of_lt hlink.reaches.lt
  have hnone := not_mergeable_of_foldl (s := ⟨g, 0⟩) hsize h id (mem_reachable.mpr hlink.reaches)
  rw [mergeable_of_link hlink] at hnone
  cases hnone

theorem pass_of_noLinks (hsound : g.Sound) (h : NoLinks g) : pass g = ⟨g, 0⟩ := by
  refine foldl_of_not_mergeable (s := ⟨g, 0⟩) g.size fun x hx => ?_
  cases hmerge : mergeable? (fun x => (g.predecessors x).length == 1) g x with
  | none => rfl
  | some q =>
      obtain ⟨a, hlink⟩ := link_of_mergeable? (tidy_start hsound) hx hmerge
      exact absurd hlink (h _ _ _ _)

/-! ## Rounds -/

theorem length_reachable_merge (h : Link g id next a b) :
    (merge g id next b).reachable.length < g.reachable.length := by
  have hnodup : (next :: (merge g id next b).reachable).Nodup :=
    List.nodup_cons.mpr ⟨fun hmem => (reaches_of_merge h (mem_reachable.mp hmem)).2 rfl,
      nodup_reachable _⟩
  have hsubset : next :: (merge g id next b).reachable ⊆ g.reachable := by
    intro x hx
    rcases List.mem_cons.mp hx with rfl | hx
    · exact mem_reachable.mpr h.reaches_next
    · exact mem_reachable.mpr (reaches_of_merge h (mem_reachable.mp hx)).1
  exact (hnodup.subperm hsubset).length_le

theorem Merges.length_reachable {count : Nat} {g g' : Graph} (h : Merges count g g') :
    g'.reachable.length + count ≤ g.reachable.length := by
  induction h with
  | done => exact Nat.le_refl _
  | merge hlink _ ih =>
      have := length_reachable_merge hlink
      omega

theorem length_reachable_le (g : Graph) : g.reachable.length ≤ g.size := by
  have hsubset : g.reachable ⊆ List.range g.size :=
    fun x hx => List.mem_range.mpr (mem_reachable.mp hx).lt
  simpa using ((nodup_reachable g).subperm hsubset).length_le

theorem noLinks_passes (fuel : Nat) {s : Progress} (hsound : s.graph.Sound)
    (hfuel : s.graph.reachable.length < fuel) : NoLinks (passes fuel s).graph := by
  induction fuel generalizing s with
  | zero => omega
  | succ fuel ih =>
      simp only [passes]
      split
      · exact noLinks_of_pass ‹_›
      · rename_i hmerged
        have hpass := mergedFrom_pass hsound
        obtain ⟨count, hmerges, hcount⟩ := id hpass
        have hlength := hmerges.length_reachable
        simp only [Nat.zero_add] at hcount hlength
        exact ih (hpass.replaces hsound).sound (by simp only; omega)

theorem noLinks_run (hsound : g.Sound) : NoLinks (run g).graph :=
  noLinks_passes (g.size + 1) (s := ⟨g, 0⟩) hsound
    (Nat.lt_succ_of_le (length_reachable_le g))

theorem run_of_noLinks (hsound : g.Sound) (h : NoLinks g) : run g = ⟨g, 0⟩ := by
  simp [run, passes, pass_of_noLinks hsound h]

/-! ## Renumbering -/

theorem noLinks_compact (hsound : g.Sound) (h : NoLinks g) : NoLinks g.compact := by
  intro j j' a' b' hlink
  obtain ⟨id, a, hreach, ha, rfl, hj⟩ := exists_of_node?_compact hsound hlink.source
  obtain ⟨next, b, hreach', hb, rfl, hj'⟩ := exists_of_node?_compact hsound hlink.target
  obtain rfl := newId_of_getElem? hsound hj
  obtain rfl := newId_of_getElem? hsound hj'
  have hinjective := (walks_compact hsound).injective
  have hfollower := hlink.follower
  rw [follower_renumber hsound hreach ha] at hfollower
  obtain ⟨x, hx, hnew⟩ := Option.map_eq_some_iff.mp hfollower
  have hxreach : g.Reaches x :=
    hreach.of_mem_successors hsound ha (by simp [Node.successors, hx])
  obtain rfl := hinjective _ _ hxreach hreach' hnew
  refine h id x a b ⟨ha, by simpa [renumber] using hlink.branches, hx, hb, ?_, ?_, hreach, ?_⟩
  · rintro rfl
    exact hlink.distinct rfl
  · rintro rfl
    exact hlink.not_entry rfl
  · intro y hy hedge
    refine hinjective _ _ hy hreach (hlink.sole _ (reaches_compact hsound hy) ?_)
    rw [(walks_compact hsound).targets y hy]
    exact List.mem_map_of_mem hedge

end KernelAlgebra.Straighten
