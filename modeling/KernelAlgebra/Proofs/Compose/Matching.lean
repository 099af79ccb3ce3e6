import KernelAlgebra.Proofs.Compose.Conduits
import Mathlib.Data.List.Induction

/-!
# Which output feeds which input

Taking for every output the first input of its name and size that is left over matches equal
occurrences: the first output of a name and size with the first such input, the second with the
second, and so on.
-/

namespace KernelAlgebra

/-! ## Occurrences -/

/-- Every key with the number of times that it occurred before. -/
def occurrences (keys : List (String × Nat)) : List ((String × Nat) × Nat) :=
  keys.mapIdx fun i k => (k, (keys.take i).count k)

section Occurrences

variable {keys : List (String × Nat)} {k : String × Nat} {i j m : Nat}

theorem getElem?_occurrences :
    (occurrences keys)[i]? = keys[i]?.map fun k => (k, (keys.take i).count k) := by
  rw [occurrences, List.getElem?_mapIdx]

theorem length_occurrences : (occurrences keys).length = keys.length :=
  List.length_mapIdx

theorem map_fst_occurrences : (occurrences keys).map Prod.fst = keys := by
  apply List.ext_getElem?
  intro i
  rw [List.getElem?_map, getElem?_occurrences, Option.map_map]
  exact Option.map_id'

theorem getElem?_of_occurrence {o : (String × Nat) × Nat} (h : (occurrences keys)[i]? = some o) :
    keys[i]? = some o.1 := by
  rw [getElem?_occurrences, Option.map_eq_some_iff] at h
  obtain ⟨k, hk, rfl⟩ := h
  exact hk

theorem take_occurrences : (occurrences keys).take j = occurrences (keys.take j) := by
  apply List.ext_getElem?
  intro i
  rw [List.getElem?_take, getElem?_occurrences, getElem?_occurrences, List.getElem?_take]
  split
  · rename_i hlt
    rw [List.take_take, Nat.min_eq_left (Nat.le_of_lt hlt)]
  · rfl

theorem occurrences_concat :
    occurrences (keys ++ [k]) = occurrences keys ++ [(k, keys.count k)] := by
  have hinit : (occurrences (keys ++ [k])).take keys.length = occurrences keys := by
    rw [take_occurrences, List.take_left]
  have hlast : (occurrences (keys ++ [k])).drop keys.length = [(k, keys.count k)] := by
    rw [occurrences, List.mapIdx_concat, List.drop_left' (List.length_mapIdx ..), List.take_left]
  rw [← hinit, ← hlast, List.take_append_drop]

theorem mem_occurrences : (k, m) ∈ occurrences keys ↔ m < keys.count k := by
  induction keys using List.reverseRecOn with
  | nil => simp [occurrences]
  | append_singleton keys k' ih =>
      rw [occurrences_concat, List.mem_append, ih, List.count_append, List.mem_singleton]
      by_cases heq : k = k'
      · subst heq
        simp
        omega
      · simp [heq, Ne.symm heq]

theorem nodup_occurrences : (occurrences keys).Nodup := by
  induction keys using List.reverseRecOn with
  | nil => simp [occurrences]
  | append_singleton keys k ih =>
      rw [occurrences_concat, List.nodup_append]
      refine ⟨ih, by simp, fun o ho o' ho' heq => ?_⟩
      rw [heq, List.mem_singleton.mp ho', mem_occurrences] at ho
      exact Nat.lt_irrefl _ ho

theorem eq_of_getElem?_occurrences {o : (String × Nat) × Nat}
    (hi : (occurrences keys)[i]? = some o) (hj : (occurrences keys)[j]? = some o) : i = j := by
  obtain ⟨hlt, _⟩ := List.getElem?_eq_some_iff.mp hi
  exact (List.getElem?_inj hlt nodup_occurrences).mp (hi.trans hj.symm)

end Occurrences

/-! ## What arrives and what is left over -/

section LeftOver

variable {α : Type}

/-- The vector of the output that is the same occurrence, for every input; `w` where there is
none. -/
def arriving (outs ins : List (String × Nat)) (ys : List α) (w : (String × Nat) × Nat → α) :
    List α :=
  (occurrences ins).map fun o => (((occurrences outs).zip ys).lookup o).getD (w o)

def unfed (outs ins : List (String × Nat)) : List ((String × Nat) × Nat) :=
  (occurrences ins).filter (· ∉ occurrences outs)

def spare (outs ins : List (String × Nat)) (ys : List α) : List α :=
  (((occurrences outs).zip ys).filter (·.1 ∉ occurrences ins)).map Prod.snd

variable {outs ins : List (String × Nat)} {l : List ((String × Nat) × Nat)}
  {o : (String × Nat) × Nat} {ys : List α} {i : Nat}

theorem lookup_zip (hnodup : l.Nodup) (hi : l[i]? = some o) : (l.zip ys).lookup o = ys[i]? := by
  induction l generalizing i ys with
  | nil => simp at hi
  | cons o' rest ih =>
      obtain ⟨ho', hrest⟩ := List.nodup_cons.mp hnodup
      cases ys with
      | nil => simp
      | cons y ys =>
          cases i with
          | zero =>
              obtain rfl : o' = o := by simpa using hi
              simp
          | succ i =>
              have hne : o ≠ o' := by
                rintro rfl
                exact ho' (List.mem_of_getElem? (by simpa using hi))
              rw [List.zip_cons_cons, List.lookup_cons, beq_false_of_ne hne]
              exact ih hrest (by simpa using hi)

theorem lookup_zip_of_not_mem (h : o ∉ l) : (l.zip ys).lookup o = none := by
  rw [List.lookup_eq_none_iff]
  intro q hq
  have hne : o ≠ q.1 := fun heq => h (heq ▸ (List.of_mem_zip hq).1)
  exact bne_iff_ne.mpr hne

theorem arriving_keys : arriving outs ins outs Prod.fst = ins := by
  have hown : ∀ o, (((occurrences outs).zip outs).lookup o).getD o.1 = o.1 := by
    intro o
    by_cases ho : o ∈ occurrences outs
    · obtain ⟨i, hi⟩ := List.getElem?_of_mem ho
      rw [lookup_zip nodup_occurrences hi, getElem?_of_occurrence hi]
      rfl
    · rw [lookup_zip_of_not_mem ho]
      rfl
  rw [arriving, List.map_congr_left fun o _ => hown o, map_fst_occurrences]

theorem length_arriving {w : (String × Nat) × Nat → α} :
    (arriving outs ins ys w).length = ins.length := by
  rw [arriving, List.length_map, length_occurrences]

theorem suits_unfed {w : (String × Nat) × Nat → List Float} {ys : List (List Float)}
    (h : Suits ins (arriving outs ins ys w)) :
    Suits ((unfed outs ins).map Prod.fst) ((unfed outs ins).map w) := by
  have hkeys : ins.map Prod.snd = (occurrences ins).map fun o => o.1.2 := by
    rw [← Function.comp_def Prod.snd Prod.fst, ← List.map_map, map_fst_occurrences]
  unfold Suits arriving at *
  rw [hkeys, List.map_map, List.map_eq_map_iff] at h
  rw [List.map_map, List.map_map, List.map_eq_map_iff]
  intro o ho
  obtain ⟨hin, hout⟩ := List.mem_filter.mp ho
  have hsize := h o hin
  rw [Function.comp, lookup_zip_of_not_mem (of_decide_eq_true hout)] at hsize
  exact hsize

end LeftOver

/-! ## Matching -/

namespace NameMatch

open NameGroup (key)

variable {outputs inputs : List Symbol} {taken : List Nat} {output : Symbol} {i j : Nat}

theorem inputFor_eq (list : List (Symbol × Nat)) :
    (inputFor taken output list).1 =
      (list.find? fun q => q.2 ∉ taken ∧ key q.1 = key output).map Prod.snd := by
  induction list with
  | nil => rfl
  | cons q rest ih =>
      obtain ⟨input, j⟩ := q
      by_cases hfound : j ∉ taken ∧ key input = key output
      · obtain ⟨hj, hkey⟩ := hfound
        have hname : input.name = output.name := congrArg Prod.fst hkey
        have hsize : input.size = output.size := congrArg Prod.snd hkey
        rw [List.find?_cons_of_pos (by simp [hj, hkey])]
        simp [inputFor, hj, hname, hsize]
      · rw [List.find?_cons_of_neg (by simpa using hfound), ← ih, inputFor]
        split
        · rfl
        · rename_i hname
          simp only [Bool.or_eq_true, decide_eq_true_eq, bne_iff_ne, ne_eq, not_or, not_not]
            at hname
          have hsize : input.size ≠ output.size := fun hsize =>
            hfound ⟨hname.1, Prod.ext hname.2 hsize⟩
          simp [hsize]

theorem first_of_inputFor (h : (inputFor taken output inputs.zipIdx).1 = some j) :
    j ∉ taken ∧ (inputs.map key)[j]? = some (key output) ∧
      ∀ j' < j, (inputs.map key)[j']? = some (key output) → j' ∈ taken := by
  rw [inputFor_eq, Option.map_eq_some_iff] at h
  obtain ⟨⟨s, j⟩, hfind, rfl⟩ := h
  obtain ⟨hs, i, hi, hget, hbefore⟩ := List.find?_eq_some_iff_getElem.mp hfind
  rw [List.getElem_zipIdx, Nat.zero_add, Prod.mk.injEq] at hget
  obtain ⟨rfl, rfl⟩ := hget
  rw [List.length_zipIdx] at hi
  simp only [decide_eq_true_eq] at hs
  refine ⟨hs.1, ?_, fun j' hj' hkey => ?_⟩
  · rw [List.getElem?_map, List.getElem?_eq_getElem hi, Option.map_some, hs.2]
  · have hlt : j' < inputs.length := Nat.lt_trans hj' hi
    rw [List.getElem?_map, List.getElem?_eq_getElem hlt, Option.map_some, Option.some.injEq] at hkey
    have hskip := hbefore j' hj'
    simpa [hkey] using hskip

theorem none_of_inputFor (h : (inputFor taken output inputs.zipIdx).1 = none)
    (hj : (inputs.map key)[j]? = some (key output)) : j ∈ taken := by
  rw [inputFor_eq, Option.map_eq_none_iff, List.find?_eq_none] at h
  rw [List.getElem?_map, Option.map_eq_some_iff] at hj
  obtain ⟨s, hs, hkey⟩ := hj
  have hmem := h (s, j) (List.mk_mem_zipIdx_iff_getElem?.mpr hs)
  simpa [hkey] using hmem

theorem inputFor_eq_some_iff {n : Nat}
    (htaken : ∀ j m, (occurrences (inputs.map key))[j]? = some (key output, m) →
      (j ∈ taken ↔ m < n)) :
    (inputFor taken output inputs.zipIdx).1 = some j ↔
      (occurrences (inputs.map key))[j]? = some (key output, n) := by
  have hfound : ∀ {j}, (inputFor taken output inputs.zipIdx).1 = some j →
      (occurrences (inputs.map key))[j]? = some (key output, n) := by
    intro j h
    obtain ⟨hj, hkey, hbefore⟩ := first_of_inputFor h
    have hoccurrence : (occurrences (inputs.map key))[j]? =
        some (key output, ((inputs.map key).take j).count (key output)) := by
      rw [getElem?_occurrences, hkey]
      rfl
    rw [hoccurrence]
    have hge := mt (htaken j _ hoccurrence).mpr hj
    -- an occurrence in between would have been there to take
    have hle : ¬ n < ((inputs.map key).take j).count (key output) := by
      intro hlt
      rw [← mem_occurrences, ← take_occurrences] at hlt
      obtain ⟨j', hj'⟩ := List.getElem?_of_mem hlt
      rw [List.getElem?_take] at hj'
      split at hj'
      · rename_i hbelow
        exact Nat.lt_irrefl n
          ((htaken j' n hj').mp (hbefore j' hbelow (getElem?_of_occurrence hj')))
      · cases hj'
    have heq : ((inputs.map key).take j).count (key output) = n := by omega
    rw [heq]
  refine ⟨hfound, fun hj => ?_⟩
  cases h : (inputFor taken output inputs.zipIdx).1 with
  | none =>
      exact absurd ((htaken j n hj).mp (none_of_inputFor h (getElem?_of_occurrence hj)))
        (Nat.lt_irrefl n)
  | some j' => rw [eq_of_getElem?_occurrences (hfound h) hj]

theorem ofLists_concat : (ofLists (outputs ++ [output]) inputs).pairs =
    (ofLists outputs inputs).pairs ++ ((inputFor (ofLists outputs inputs).taken output
      inputs.zipIdx).1.map fun j => (outputs.length, j)).toList := by
  unfold ofLists
  rw [List.zipIdx_append, List.foldl_append]
  simp [add]

theorem mem_pairs_ofLists : (i, j) ∈ (ofLists outputs inputs).pairs ↔
    ∃ o, (occurrences (outputs.map key))[i]? = some o ∧
      (occurrences (inputs.map key))[j]? = some o := by
  induction outputs using List.reverseRecOn generalizing i j with
  | nil => simp [ofLists, empty, occurrences]
  | append_singleton outputs output ih =>
      -- of each name and size as many inputs are taken as there were outputs, the first ones
      have htaken : ∀ j m, (occurrences (inputs.map key))[j]? = some (key output, m) →
          (j ∈ (ofLists outputs inputs).taken ↔ m < (outputs.map key).count (key output)) := by
        intro j m hj
        rw [← mem_occurrences, taken, List.mem_map]
        constructor
        · rintro ⟨⟨i, j⟩, hmem, rfl⟩
          obtain ⟨o, ho, ho'⟩ := ih.mp hmem
          rw [hj] at ho'
          cases ho'
          exact List.mem_of_getElem? ho
        · intro hmem
          obtain ⟨i, hi⟩ := List.getElem?_of_mem hmem
          exact ⟨(i, j), ih.mpr ⟨_, hi, hj⟩, rfl⟩
      rw [ofLists_concat, List.mem_append, ih, List.map_append, List.map_singleton,
        occurrences_concat]
      simp only [Option.mem_toList, Option.map_eq_some_iff, Prod.mk.injEq,
        inputFor_eq_some_iff htaken]
      constructor
      · rintro (⟨o, ho, ho'⟩ | ⟨j, hj, rfl, rfl⟩)
        · exact ⟨o, by rw [List.getElem?_append_left (List.getElem?_eq_some_iff.mp ho).1, ho], ho'⟩
        · exact ⟨_, by simp [length_occurrences], hj⟩
      · rintro ⟨o, ho, ho'⟩
        by_cases hlt : i < (occurrences (outputs.map key)).length
        · exact .inl ⟨o, by rwa [List.getElem?_append_left hlt] at ho, ho'⟩
        · rw [List.getElem?_append_right (by omega)] at ho
          obtain ⟨hi, hget⟩ := List.getElem?_eq_some_iff.mp ho
          rw [List.getElem_singleton] at hget
          rw [List.length_singleton, length_occurrences, List.length_map] at hi
          rw [length_occurrences, List.length_map] at hlt
          exact .inr ⟨j, hget ▸ ho', by omega, rfl⟩

/-! ## What is matched and what is left over -/

variable {o : (String × Nat) × Nat}

theorem outputOf?_eq_some_iff (hj : (occurrences (inputs.map key))[j]? = some o) :
    (ofLists outputs inputs).outputOf? j = some i ↔
      (occurrences (outputs.map key))[i]? = some o := by
  have hpair : ∀ i, (i, j) ∈ (ofLists outputs inputs).pairs ↔
      (occurrences (outputs.map key))[i]? = some o := by
    intro i
    rw [mem_pairs_ofLists]
    constructor
    · rintro ⟨o', ho', hj'⟩
      rw [hj] at hj'
      cases hj'
      exact ho'
    · exact fun ho => ⟨o, ho, hj⟩
  unfold outputOf?
  cases hfind : (ofLists outputs inputs).pairs.find? (·.2 = j) with
  | none =>
      have hnone := List.find?_eq_none.mp hfind
      refine ⟨fun h => (Option.some_ne_none _ h.symm).elim, fun h => ?_⟩
      exact absurd (hnone (i, j) ((hpair i).mpr h)) (by simp)
  | some q =>
      obtain ⟨i', j'⟩ := q
      obtain rfl : j' = j := by simpa using List.find?_some hfind
      have hi' := (hpair i').mp (List.mem_of_find?_eq_some hfind)
      rw [Option.map_some, Option.some.injEq]
      constructor
      · rintro rfl
        exact hi'
      · exact fun h => eq_of_getElem?_occurrences hi' h

theorem lt_of_outputOf? (h : (ofLists outputs inputs).outputOf? j = some i) :
    i < outputs.length := by
  obtain ⟨⟨i, j⟩, hfind, rfl⟩ := Option.map_eq_some_iff.mp h
  obtain ⟨o, ho, _⟩ := mem_pairs_ofLists.mp (List.mem_of_find?_eq_some hfind)
  simpa [length_occurrences] using (List.getElem?_eq_some_iff.mp ho).1

theorem outputOf?_isNone (hj : (occurrences (inputs.map key))[j]? = some o) :
    ((ofLists outputs inputs).outputOf? j).isNone = decide (o ∉ occurrences (outputs.map key)) := by
  rw [Bool.eq_iff_iff, decide_eq_true_iff, Option.isNone_iff_eq_none,
    Option.eq_none_iff_forall_ne_some]
  constructor
  · intro hnone hmem
    obtain ⟨i, hi⟩ := List.getElem?_of_mem hmem
    exact hnone i ((outputOf?_eq_some_iff hj).mpr hi)
  · exact fun hnot i hi => hnot (List.mem_of_getElem? ((outputOf?_eq_some_iff hj).mp hi))

theorem isMatchedOutput_eq (hi : (occurrences (outputs.map key))[i]? = some o) :
    (ofLists outputs inputs).isMatchedOutput i = decide (o ∈ occurrences (inputs.map key)) := by
  rw [Bool.eq_iff_iff, decide_eq_true_iff, isMatchedOutput, List.any_eq_true]
  constructor
  · rintro ⟨⟨i', j⟩, hmem, heq⟩
    obtain rfl : i' = i := by simpa using heq
    obtain ⟨o', ho', hj⟩ := mem_pairs_ofLists.mp hmem
    rw [hi] at ho'
    cases ho'
    exact List.mem_of_getElem? hj
  · intro hmem
    obtain ⟨j, hj⟩ := List.getElem?_of_mem hmem
    exact ⟨(i, j), mem_pairs_ofLists.mpr ⟨o, hi, hj⟩, by simp⟩

section Places

variable {α β : Type}

theorem outputOf?_bind {ys : List α} (hj : (occurrences (inputs.map key))[j]? = some o) :
    ((ofLists outputs inputs).outputOf? j).bind (ys[·]?) =
      ((occurrences (outputs.map key)).zip ys).lookup o := by
  cases h : (ofLists outputs inputs).outputOf? j with
  | none =>
      have hnot : ((ofLists outputs inputs).outputOf? j).isNone = _ := outputOf?_isNone hj
      rw [h, Option.isNone_none, eq_comm, decide_eq_true_iff] at hnot
      rw [lookup_zip_of_not_mem hnot]
      rfl
  | some i => rw [lookup_zip nodup_occurrences ((outputOf?_eq_some_iff hj).mp h), Option.bind_some]

theorem atPlaces_sources {m : NameMatch} {ys : List α} (list : List (β × Nat)) (w : β × Nat → α)
    (front : List α)
    (hlt : ∀ j i, m.outputOf? j = some i → i < ys.length) :
    atPlaces (m.sources ys.length front.length (list.map Prod.snd))
        (ys ++ (front ++ (list.filter fun q => (m.outputOf? q.2).isNone).map w)) =
      list.map fun q => ((m.outputOf? q.2).bind (ys[·]?)).getD (w q) := by
  induction list generalizing front with
  | nil => rfl
  | cons q rest ih =>
      cases h : m.outputOf? q.2 with
      | some i =>
          have hi : i < ys.length := hlt q.2 i h
          have hfilter : ((q :: rest).filter fun q => (m.outputOf? q.2).isNone) =
              rest.filter fun q => (m.outputOf? q.2).isNone :=
            List.filter_cons_of_neg (by simp [h])
          rw [hfilter, List.map_cons, sources, List.map_cons]
          simp only [h, Option.bind_some, List.getElem?_eq_getElem hi, Option.getD_some]
          rw [atPlaces_cons (by rw [List.length_append]; omega), List.getElem_append_left hi,
            ih front]
      | none =>
          have hfilter : ((q :: rest).filter fun q => (m.outputOf? q.2).isNone) =
              q :: rest.filter fun q => (m.outputOf? q.2).isNone :=
            List.filter_cons_of_pos (by simp [h])
          -- the channel of this input goes behind those of the inputs before
          have hnext := ih (front ++ [w q])
          rw [List.append_assoc, List.singleton_append, List.length_append, List.length_singleton]
            at hnext
          rw [hfilter, List.map_cons, sources, List.map_cons, List.map_cons]
          simp only [h, Option.bind_none, Option.getD_none]
          rw [atPlaces_cons (by simp), hnext]
          simp

theorem map_fst_filter_zipIdx (l : List β) (f : β → Bool) :
    (l.zipIdx.filter fun q => f q.1).map Prod.fst = l.filter f := by
  have h := List.filter_map (f := Prod.fst) (p := f) (l := l.zipIdx)
  rw [List.zipIdx_map_fst] at h
  exact h.symm

theorem range_eq_zipIdx {l : List β} {n : Nat} (h : l.length = n) :
    List.range n = l.zipIdx.map Prod.snd := by
  rw [List.zipIdx_map_snd, List.range_eq_range', h]

theorem map_fst_leftover :
    ((occurrences (inputs.map key)).zipIdx.filter fun q =>
        ((ofLists outputs inputs).outputOf? q.2).isNone).map Prod.fst =
      unfed (outputs.map key) (inputs.map key) := by
  have hfilter : ((occurrences (inputs.map key)).zipIdx.filter fun q =>
      ((ofLists outputs inputs).outputOf? q.2).isNone) =
        (occurrences (inputs.map key)).zipIdx.filter fun q =>
          decide (q.1 ∉ occurrences (outputs.map key)) :=
    List.filter_congr fun q hq => outputOf?_isNone (List.mk_mem_zipIdx_iff_getElem?.mp hq)
  rw [hfilter]
  exact map_fst_filter_zipIdx _ fun o => decide (o ∉ occurrences (outputs.map key))

theorem map_key_unmatched :
    ((ofLists outputs inputs).unmatched inputs).map key =
      (unfed (outputs.map key) (inputs.map key)).map Prod.fst := by
  have hzip : inputs.zipIdx.map (Prod.map key id) =
      (occurrences (inputs.map key)).zipIdx.map (Prod.map Prod.fst id) := by
    rw [← List.zipIdx_map, ← List.zipIdx_map, map_fst_occurrences]
  calc ((ofLists outputs inputs).unmatched inputs).map key
      = ((inputs.zipIdx.map (Prod.map key id)).filter fun q =>
          ((ofLists outputs inputs).outputOf? q.2).isNone).map Prod.fst := by
        rw [List.filter_map, List.map_map, unmatched, List.map_map]
        rfl
    _ = (((occurrences (inputs.map key)).zipIdx.filter fun q =>
          ((ofLists outputs inputs).outputOf? q.2).isNone).map Prod.fst).map Prod.fst := by
        rw [hzip, List.filter_map, List.map_map, List.map_map]
        rfl
    _ = _ := by rw [map_fst_leftover]

theorem atPlaces_sources_ofLists {ys : List α} (hys : ys.length = outputs.length)
    (w : (String × Nat) × Nat → α) :
    atPlaces ((ofLists outputs inputs).sources outputs.length 0 (List.range inputs.length))
        (ys ++ (unfed (outputs.map key) (inputs.map key)).map w) =
      arriving (outputs.map key) (inputs.map key) ys w := by
  have hlt : ∀ j i, (ofLists outputs inputs).outputOf? j = some i → i < ys.length := by
    intro j i hi
    rw [hys]
    exact lt_of_outputOf? hi
  have hplaces := atPlaces_sources (occurrences (inputs.map key)).zipIdx
    (fun q => w q.1) [] hlt
  have hrest : ((occurrences (inputs.map key)).zipIdx.filter fun q =>
      ((ofLists outputs inputs).outputOf? q.2).isNone).map (fun q => w q.1) =
        (unfed (outputs.map key) (inputs.map key)).map w := by
    rw [← map_fst_leftover, List.map_map]
    rfl
  rw [range_eq_zipIdx (length_occurrences.trans (List.length_map ..)), ← hys, ← hrest]
  calc _ = (occurrences (inputs.map key)).zipIdx.map fun q =>
        (((ofLists outputs inputs).outputOf? q.2).bind (ys[·]?)).getD (w q.1) := hplaces
    _ = ((occurrences (inputs.map key)).zipIdx.map Prod.fst).map fun o =>
        (((occurrences (outputs.map key)).zip ys).lookup o).getD (w o) := by
        rw [List.map_map]
        refine List.map_congr_left fun q hq => ?_
        rw [outputOf?_bind (List.mk_mem_zipIdx_iff_getElem?.mp hq)]
        rfl
    _ = _ := by rw [List.zipIdx_map_fst, arriving]

theorem atPlaces_filter_zipIdx {l : List β} {ys zs : List α} (hlen : l.length = ys.length)
    (f : β → Bool) : atPlaces ((l.zipIdx.filter fun q => f q.1).map Prod.snd) (ys ++ zs) =
      ((l.zip ys).filter fun q => f q.1).map Prod.snd := by
  induction l using List.reverseRecOn generalizing ys zs with
  | nil => rfl
  | append_singleton l b ih =>
      obtain rfl | ⟨ys, y, rfl⟩ := List.eq_nil_or_concat' ys
      · simp at hlen
      · have hlen : l.length = ys.length := by simpa using hlen
        rw [List.zipIdx_append, List.filter_append, List.map_append, atPlaces_append,
          List.append_assoc, ih hlen, List.zip_append hlen, List.filter_append, List.map_append]
        congr 1
        by_cases hb : f b = true <;> simp [hb, hlen, atPlaces]

theorem atPlaces_extras {ys zs : List α} (hys : ys.length = outputs.length) :
    atPlaces ((ofLists outputs inputs).extras outputs.length) (ys ++ zs) =
      spare (outputs.map key) (inputs.map key) ys := by
  have hlen : (occurrences (outputs.map key)).length = ys.length := by
    rw [length_occurrences, List.length_map, hys]
  have hextras : (ofLists outputs inputs).extras outputs.length =
      ((occurrences (outputs.map key)).zipIdx.filter fun q =>
        decide (q.1 ∉ occurrences (inputs.map key))).map Prod.snd := by
    rw [extras, range_eq_zipIdx (hlen.trans hys), List.filter_map]
    refine congrArg (List.map Prod.snd) (List.filter_congr fun q hq => ?_)
    rw [Function.comp, isMatchedOutput_eq (List.mk_mem_zipIdx_iff_getElem?.mp hq), decide_not]
  rw [hextras]
  exact atPlaces_filter_zipIdx hlen fun o => decide (o ∉ occurrences (inputs.map key))

theorem lt_of_mem_sources {m : NameMatch} {n k : Nat} {js : List Nat}
    (hlt : ∀ j i, m.outputOf? j = some i → i < n) :
    ∀ i ∈ m.sources n k js, i < n + (k + (js.filter fun j => (m.outputOf? j).isNone).length) := by
  induction js generalizing k with
  | nil => simp [sources]
  | cons j rest ih =>
      intro i hi
      rw [sources] at hi
      cases h : m.outputOf? j with
      | some i' =>
          have hi' := hlt j i' h
          simp only [h, List.mem_cons] at hi
          rw [List.filter_cons_of_neg (by simp [h])]
          rcases hi with rfl | hi
          · omega
          · exact ih i hi
      | none =>
          simp only [h, List.mem_cons] at hi
          rw [List.filter_cons_of_pos (by simp [h]), List.length_cons]
          rcases hi with rfl | hi
          · omega
          · have := ih i hi
            omega

/-- The outputs in the order of the inputs, and those that feed nothing where they are wanted. -/
def places (outputs inputs : List Symbol) (keepExtra : Bool) : List Nat :=
  (ofLists outputs inputs).sources outputs.length 0 (List.range inputs.length) ++
    (if keepExtra then (ofLists outputs inputs).extras outputs.length else [])

theorem atPlaces_places {ys : List α} {keepExtra : Bool} (hys : ys.length = outputs.length)
    (w : (String × Nat) × Nat → α) :
    atPlaces (places outputs inputs keepExtra) (ys ++
        (unfed (outputs.map key) (inputs.map key)).map w) =
      arriving (outputs.map key) (inputs.map key) ys w ++
        if keepExtra then spare (outputs.map key) (inputs.map key) ys else [] := by
  rw [places, atPlaces_append]
  congr 1
  · exact atPlaces_sources_ofLists hys w
  · split
    · exact atPlaces_extras hys
    · rfl

theorem lt_of_mem_places {keepExtra : Bool} : ∀ i ∈ places outputs inputs keepExtra,
    i < outputs.length +
      (unfed (outputs.map key) (inputs.map key)).length := by
  intro i hi
  rcases List.mem_append.mp hi with hi | hi
  · have hlen : ((List.range inputs.length).filter fun j =>
        ((ofLists outputs inputs).outputOf? j).isNone).length =
          (unfed (outputs.map key) (inputs.map key)).length := by
      have hinputs : (occurrences (inputs.map key)).length = inputs.length := by
        rw [length_occurrences, List.length_map]
      rw [← map_fst_leftover, range_eq_zipIdx hinputs, List.filter_map, List.length_map,
        List.length_map]
      rfl
    have hlt := lt_of_mem_sources (fun j i => lt_of_outputOf?) i hi
    rwa [hlen, Nat.zero_add] at hlt
  · split at hi
    · have hlt := List.mem_range.mp (List.mem_of_mem_filter hi)
      omega
    · cases hi

end Places

theorem meetsHole_of_solid {list : List (Symbol × Nat)} (houtput : output.isHole = false)
    (hlist : ∀ q ∈ list, q.1.isHole = false) : meetsHole taken output list = false := by
  induction list with
  | nil => rfl
  | cons q rest ih =>
      obtain ⟨hq, hrest⟩ := List.forall_mem_cons.mp hlist
      simp [meetsHole, hq, houtput, ih hrest]

theorem isClear_of_solid {m : NameMatch} {list : List (Symbol × Nat)}
    (houtputs : ∀ q ∈ list, q.1.isHole = false) (hinputs : ∀ s ∈ inputs, s.isHole = false) :
    isClear inputs m list = true := by
  have hzip : ∀ q ∈ inputs.zipIdx, q.1.isHole = false := fun q hq =>
    hinputs q.1 (List.fst_mem_of_mem_zipIdx hq)
  induction list generalizing m with
  | nil => rfl
  | cons q rest ih =>
      obtain ⟨hq, hrest⟩ := List.forall_mem_cons.mp houtputs
      rw [isClear, meetsHole_of_solid hq hzip, ih hrest]
      rfl

end NameMatch

end KernelAlgebra
