import KernelAlgebra.Proofs.Compose.Feeding

/-!
# Connected programs run one after the other

A run of the connected program goes through a run of the first program, whose wired outputs
become inputs of the second, and through a run of the second program.
-/

namespace KernelAlgebra.Connection

open Machine

variable {a b : Program} {taken bound : Nat} {ws : List Wire} {g g' : Supply} {u : Overrides}

/-! ## Symbols apart -/

theorem not_mem_inputs_first (h : Connection a b bound ws g g') {s : Symbol}
    (hs : s ∈ a.symbols) (hin : s ∉ a.inputs) : s ∉ (program a b taken bound ws).inputs := by
  rw [h.inputs_program]
  intro hmem
  obtain ⟨t, ht, heq⟩ := List.mem_map.mp hmem
  rcases h.entering_cases t with ⟨w, hw, _, he⟩ | ⟨hsame, _⟩
  · exact h.new_first hw (Wire.entrance_mem_news he) (heq ▸ hs)
  · obtain rfl : t = s := hsame.symm.trans heq
    rcases mem_inputs.mp ht with ht | ht
    · exact hin ht
    · have hlocal := mem_locals_of_mem_unfed ht
      exact h.apart t hlocal ((h.first.orderly.mem_locals_iff hs).mpr
        (h.second.orderly.isLocal_of_mem_locals hlocal))

theorem not_mem_inputs_second (h : Connection a b bound ws g g') {s : Symbol}
    (hs : s ∈ b.symbols) (hin : s ∉ b.inputs) : s ∉ (program a b taken bound ws).inputs := by
  rw [h.inputs_program]
  intro hmem
  obtain ⟨t, ht, heq⟩ := List.mem_map.mp hmem
  rcases h.entering_cases t with ⟨w, hw, _, he⟩ | ⟨hsame, _⟩
  · exact h.new_second hw (Wire.entrance_mem_news he) (heq ▸ hs)
  · obtain rfl : t = s := hsame.symm.trans heq
    rcases mem_inputs.mp ht with ht | ht
    · have hlocal : t ∈ a.locals := Interface.mem_locals.mpr (.inl ht)
      exact h.apart t ((h.second.orderly.mem_locals_iff hs).mpr
        (h.first.orderly.isLocal_of_mem_locals hlocal)) hlocal
    · exact hin ((unfed_sublist a b bound).subset ht)

theorem temp_not_mem_inputs (h : Connection a b bound ws g g') {w : Wire} (hw : w ∈ ws) :
    w.temp ∉ (program a b taken bound ws).inputs := by
  rw [h.inputs_program]
  intro hmem
  obtain ⟨t, ht, heq⟩ := List.mem_map.mp hmem
  rcases h.entering_cases t with ⟨w', hw', _, he⟩ | ⟨hsame, _⟩
  · exact h.temp_ne_entrance hw hw' he heq.symm
  · obtain rfl : t = w.temp := hsame.symm.trans heq
    exact h.not_new (mem_symbols_of_mem_inputs ht) hw w.temp_mem_news

theorem unwritten_by_first (h : Connection a b bound ws g g') {t : Symbol}
    (ht : t ∈ b.symbols) :
    ∀ s, s ∈ a.symbols ∧ s.isLocal = true → (Wire.merging ws).apply s ≠ t := by
  rintro s ⟨hs, hlocal⟩ heq
  rcases h.tapped_first.cases s hs with ⟨w, hw, _, htemp⟩ | ⟨_, hfixed⟩
  · exact h.new_second hw w.temp_mem_news (htemp ▸ heq ▸ ht)
  · obtain rfl : s = t := hfixed.symm.trans heq
    exact h.apart s ((h.second.orderly.mem_locals_iff ht).mpr hlocal)
      ((h.first.orderly.mem_locals_iff hs).mpr hlocal)

theorem unwritten_by_second (h : Connection a b bound ws g g') {t : Symbol}
    (ht : t ∈ a.symbols) :
    ∀ s, s ∈ b.symbols ∧ s.isLocal = true → (Wire.merging ws).apply s ≠ t := by
  rintro s ⟨hs, hlocal⟩ heq
  rcases h.tapped_second.cases s hs with ⟨w, hw, _, htemp⟩ | ⟨_, hfixed⟩
  · exact h.new_first hw w.temp_mem_news (htemp ▸ heq ▸ ht)
  · obtain rfl : s = t := hfixed.symm.trans heq
    exact h.apart s ((h.second.orderly.mem_locals_iff hs).mpr hlocal)
      ((h.first.orderly.mem_locals_iff ht).mpr hlocal)

theorem not_copied (h : Connection a b bound ws g g') {s : Symbol}
    (hs : s ∈ a.symbols ∨ s ∈ b.symbols) : s ∉ (Wire.entrances ws).map Prod.fst :=
  Wire.not_mem_entrances fun _ hw => h.not_new hs hw

theorem not_written_back (h : Connection a b bound ws g g') {s : Symbol}
    (hs : s ∈ a.symbols ∨ s ∈ b.symbols) : s ∉ (Wire.leavings ws).map Prod.fst :=
  Wire.not_mem_leavings fun _ hw => h.not_new hs hw

/-! ## The start -/

variable {ca cb xa xb fed : List (List Float)} {sta stb st : Store}

theorem start_program (h : Connection a b bound ws g g')
    (hfeed : Feeding a b taken bound ca cb xa xb fed)
    (ha : start a.toInterface (ca ++ xa) = .ok sta)
    (hb : start b.toInterface (cb ++ (fed ++ xb)) = .ok stb) :
    ∃ st, start (program a b taken bound ws).toInterface (ca ++ cb ++ xa ++ xb) = .ok st := by
  have hsizes_a := (start_eq_ok_iff.mp ⟨sta, ha⟩).2
  have hsizes_b := (start_eq_ok_iff.mp ⟨stb, hb⟩).2
  rw [start_eq_ok_iff, h.inputs_program]
  constructor
  · rw [List.length_map]
    simp [inputs, hfeed.ca, hfeed.cb, hfeed.xa, hfeed.xb]
  · intro t xs hmem
    obtain ⟨s, hs, rfl⟩ := Copies.zip_map_left_mem.mp hmem
    have hsize : s.isHole = false ∧ xs.length = s.size := by
      rcases hfeed.mem_cases hs with hs | hs
      · exact hsizes_a s xs hs
      · exact hsizes_b s xs hs
    rcases h.entering_cases s with ⟨w, hw, rfl, he⟩ | ⟨hsame, _⟩
    · refine ⟨h.solid_new hw (Wire.entrance_mem_news he), ?_⟩
      rw [h.entrance_size hw he, h.temp_size hw]
      exact hsize.2
    · rw [hsame]
      exact hsize

theorem get_start_program (h : Connection a b bound ws g g')
    (hst : start (program a b taken bound ws).toInterface (ca ++ cb ++ xa ++ xb) = .ok st)
    {s : Symbol} {xs : List Float}
    (hs : (s, xs) ∈ (inputs a b taken bound).zip (ca ++ cb ++ xa ++ xb)) :
    st.get u (Wire.entering ws s) = xs := by
  refine get_start_of_mem h.roleList_inputs.nodup hst ?_
  rw [h.inputs_program]
  exact Copies.zip_map_left_mem.mpr ⟨s, hs, rfl⟩

theorem startValue_temp (h : Connection a b bound ws g g') {w : Wire} (hw : w ∈ ws) :
    startValue u w.temp = startValue u w.output := by
  rw [startValue_of_isLocal (h.temp_local hw),
    startValue_of_isLocal (h.first.orderly.isLocal_of_mem_locals (h.output_mem_locals hw)),
    (h.drawn.shaped w hw).temp]

theorem entrance_none_of_not_mem (h : Connection a b bound ws g g') {w : Wire} (hw : w ∈ ws)
    (hin : w.output ∉ a.inputs) : w.entrance = none := by
  cases he : w.entrance with
  | none => rfl
  | some e =>
      have hinout : w.output.isInOut = true := by
        rw [← (h.drawn.shaped w hw).entrance_iff, he]
        rfl
      exact absurd (h.first.orderly.inout_input _ (h.output_mem hw) hinout) hin

theorem exists_entrance_of_mem (h : Connection a b bound ws g g') {w : Wire} (hw : w ∈ ws)
    (hin : w.output ∈ a.inputs) : ∃ e, w.entrance = some e := by
  apply Option.isSome_iff_exists.mp
  rw [(h.drawn.shaped w hw).entrance_iff]
  have hrole := h.first.orderly.inputs.role _ hin
  have hrole' := h.first.orderly.outputs.role _ (h.output_mem hw)
  simp only [List.mem_cons, List.not_mem_nil, or_false] at hrole hrole'
  rcases hrole' with hout | hinout
  · rw [hout] at hrole
    simp at hrole
  · simp [Symbol.isInOut, hinout]

theorem exists_leaving_of_mem (h : Connection a b bound ws g g') {w : Wire} (hw : w ∈ ws)
    (hout : w.input ∈ b.outputs) : ∃ l, w.leaving = some l := by
  apply Option.isSome_iff_exists.mp
  rw [(h.drawn.shaped w hw).leaving_iff]
  have hrole := h.second.orderly.outputs.role _ hout
  have hrole' := h.second.orderly.inputs.role _ (h.input_mem hw)
  simp only [List.mem_cons, List.not_mem_nil, or_false] at hrole hrole'
  rcases hrole' with hin | hinout
  · rw [hin] at hrole
    simp at hrole
  · simp [Symbol.isInOut, hinout]

/-! ## The two runs -/

variable {mid : Store}

theorem agree_behind_entrances (h : Connection a b bound ws g g')
    (hin : ∀ s ∈ a.inputs, st.get u (Wire.entering ws s) = sta.get u s)
    (hother : ∀ s ∈ a.symbols, s ∉ a.inputs →
      st.get u ((Wire.merging ws).apply s) = sta.get u s)
    (hcopied : ∀ q ∈ Wire.entrances ws, mid.get u q.1 = st.get u q.2)
    (hkept : ∀ s, s ∉ (Wire.entrances ws).map Prod.fst → mid.get u s = st.get u s) :
    Agree u (· ∈ a.symbols) (Wire.merging ws).apply sta mid := by
  intro s hs
  by_cases hinput : s ∈ a.inputs
  · rw [← hin s hinput]
    rcases h.tapped_first.cases s hs with ⟨w, hw, rfl, htemp⟩ | ⟨hne, hfixed⟩
    · obtain ⟨e, he⟩ := h.exists_entrance_of_mem hw hinput
      rw [htemp, hcopied (w.temp, e) (Wire.mem_entrances.mpr ⟨w, hw, he, rfl⟩)]
      rcases h.entering_cases w.output with ⟨w', hw', heq, he'⟩ | ⟨_, hnone⟩
      · rw [← h.separate.outputs w hw w' hw' heq, he] at he'
        rw [Option.some.inj he']
      · rw [hnone w hw rfl] at he
        cases he
    · rw [hfixed, hkept s (h.not_copied (.inl hs)),
        Wire.entering_of_ne fun w hw heq => absurd heq (hne w hw)]
  · rw [← hother s hs hinput]
    refine hkept _ ?_
    rcases h.tapped_first.cases s hs with ⟨w, hw, rfl, htemp⟩ | ⟨_, hfixed⟩
    · rw [htemp]
      intro hmem
      obtain ⟨q, hq, hq'⟩ := List.mem_map.mp hmem
      obtain ⟨w', hw', he, ht⟩ := Wire.mem_entrances.mp hq
      obtain rfl := h.temp_injective w hw w' hw' (hq'.symm.trans ht.symm)
      rw [h.entrance_none_of_not_mem hw hinput] at he
      cases he
    · rw [hfixed]
      exact h.not_copied (.inl hs)

theorem agree_first (h : Connection a b bound ws g g')
    (hfeed : Feeding a b taken bound ca cb xa xb fed)
    (ha : start a.toInterface (ca ++ xa) = .ok sta)
    (hst : start (program a b taken bound ws).toInterface (ca ++ cb ++ xa ++ xb) = .ok st)
    (hcopied : ∀ q ∈ Wire.entrances ws, mid.get u q.1 = st.get u q.2)
    (hkept : ∀ s, s ∉ (Wire.entrances ws).map Prod.fst → mid.get u s = st.get u s) :
    Agree u (· ∈ a.symbols) (Wire.merging ws).apply sta mid := by
  refine h.agree_behind_entrances ?_ ?_ hcopied hkept
  · intro s hin
    obtain ⟨xs, hvalue⟩ := exists_value_of_mem ha hin
    rw [get_start_of_mem h.first.orderly.inputs.nodup ha hvalue]
    exact h.get_start_program hst (hfeed.mem_of_mem_first hvalue)
  · intro s hs hin
    rw [get_start_of_not_mem ha hin]
    rcases h.tapped_first.cases s hs with ⟨w, hw, rfl, htemp⟩ | ⟨_, hfixed⟩
    · rw [htemp, get_start_of_not_mem hst (h.temp_not_mem_inputs hw), h.startValue_temp hw]
    · rw [hfixed, get_start_of_not_mem hst (h.not_mem_inputs_first hs hin)]

theorem agree_behind_first (h : Connection a b bound ws g g') {fina fin : Store}
    (hwired : ∀ w ∈ ws, stb.get u w.input = fina.get u w.output)
    (hother : ∀ s ∈ b.symbols, (∀ w ∈ ws, s ≠ w.input) → stb.get u s = st.get u s)
    (hkept : ∀ s, s ∉ (Wire.entrances ws).map Prod.fst → mid.get u s = st.get u s)
    (hfin : Agree u (· ∈ a.symbols) (Wire.merging ws).apply fina fin)
    (hframe : ∀ t, (∀ s, s ∈ a.symbols ∧ s.isLocal = true → (Wire.merging ws).apply s ≠ t) →
      fin.get u t = mid.get u t) :
    Agree u (· ∈ b.symbols) (Wire.merging ws).apply stb fin := by
  intro s hs
  rcases h.tapped_second.cases s hs with ⟨w, hw, rfl, htemp⟩ | ⟨hne, hfixed⟩
  · rw [hwired w hw, htemp, ← Wire.apply_merging_output h.separate hw]
    exact hfin _ (Interface.mem_symbols_of_mem_locals (h.output_mem_locals hw))
  · rw [hfixed, hframe s (h.unwritten_by_first hs), hkept s (h.not_copied (.inr hs)),
      hother s hs hne]

theorem agree_second (h : Connection a b bound ws g g') {fina fin : Store}
    (hfeed : Feeding a b taken bound ca cb xa xb
      ((a.outputs.map (fina.get u)).take (b.inputs.drop bound).length))
    (hb : start b.toInterface (cb ++ ((a.outputs.map (fina.get u)).take
      (b.inputs.drop bound).length ++ xb)) = .ok stb)
    (hst : start (program a b taken bound ws).toInterface (ca ++ cb ++ xa ++ xb) = .ok st)
    (hkept : ∀ s, s ∉ (Wire.entrances ws).map Prod.fst → mid.get u s = st.get u s)
    (hfin : Agree u (· ∈ a.symbols) (Wire.merging ws).apply fina fin)
    (hframe : ∀ t, (∀ s, s ∈ a.symbols ∧ s.isLocal = true → (Wire.merging ws).apply s ≠ t) →
      fin.get u t = mid.get u t) :
    Agree u (· ∈ b.symbols) (Wire.merging ws).apply stb fin := by
  refine h.agree_behind_first ?_ ?_ hkept hfin hframe
  · exact fun w hw =>
      get_start_of_mem h.second.orderly.inputs.nodup hb (Feeding.mem_of_wire h hfeed hw)
  · intro s hs hne
    by_cases hin : s ∈ b.inputs
    · obtain ⟨xs, hvalue⟩ := exists_value_of_mem hb hin
      rw [get_start_of_mem h.second.orderly.inputs.nodup hb hvalue]
      rcases hfeed.mem_of_mem_second h hvalue with ⟨w, hw, heq⟩ | hboth
      · exact absurd heq (hne w hw)
      · have hvalue' := h.get_start_program (u := u) hst hboth
        rw [h.entering_second (Interface.mem_locals.mpr (.inl hin))] at hvalue'
        exact hvalue'.symm
    · rw [get_start_of_not_mem hb hin,
        get_start_of_not_mem hst (h.not_mem_inputs_second hs hin)]

theorem outputs_agree (h : Connection a b bound ws g g') {fina finb fin₁ fin₂ fin₃ : Store}
    (hfirst : Agree u (· ∈ a.symbols) (Wire.merging ws).apply fina fin₁)
    (hsecond : Agree u (· ∈ b.symbols) (Wire.merging ws).apply finb fin₂)
    (hframe : ∀ t, (∀ s, s ∈ b.symbols ∧ s.isLocal = true → (Wire.merging ws).apply s ≠ t) →
      fin₂.get u t = fin₁.get u t)
    (hcopied : ∀ q ∈ Wire.leavings ws, fin₃.get u q.1 = fin₂.get u q.2)
    (hkept : ∀ s, s ∉ (Wire.leavings ws).map Prod.fst → fin₃.get u s = fin₂.get u s) :
    (program a b taken bound ws).outputs.map (fin₃.get u) =
      b.outputs.map (finb.get u) ++
        (a.outputs.map (fina.get u)).drop (b.inputs.drop bound).length := by
  rw [h.outputs_program, outputs, List.map_map, List.map_append, ← List.map_drop]
  congr 1
  · apply List.map_congr_left
    intro s hout
    have hs : s ∈ b.symbols := Interface.mem_symbols.mpr (.inr (.inl hout))
    rw [← hsecond s hs, Function.comp_apply]
    rcases h.tapped_second.cases s hs with ⟨w, hw, rfl, htemp⟩ | ⟨hne, hfixed⟩
    · obtain ⟨l, hl⟩ := h.exists_leaving_of_mem hw hout
      rw [htemp, ← hcopied (l, w.temp) (Wire.mem_leavings.mpr ⟨w, hw, hl, rfl⟩)]
      rcases h.leaving_cases w.input with ⟨w', hw', heq, hl'⟩ | ⟨_, hnone⟩
      · rw [← h.separate.inputs w hw w' hw' heq, hl] at hl'
        rw [Option.some.inj hl']
      · rw [hnone w hw rfl] at hl
        cases hl
    · rw [hfixed, Wire.leavingFor_of_ne fun w hw heq => absurd heq (hne w hw),
        hkept s (h.not_written_back (.inr hs))]
  · apply List.map_congr_left
    intro s hout
    have hlocal := mem_locals_of_mem_drop hout
    have hs := Interface.mem_symbols_of_mem_locals hlocal
    have hfixed : (Wire.merging ws).apply s = s :=
      Wire.apply_merging_of_ne fun w hw =>
        ⟨h.not_wired_of_mem_drop hout w hw, h.not_input_of_mem_first hlocal w hw⟩
    have hvalue := hfirst s hs
    rw [hfixed] at hvalue
    rw [Function.comp_apply, h.leaving_first hlocal, hkept s (h.not_written_back (.inl hs)),
      hframe s (h.unwritten_by_second hs), hvalue]

theorem feeding_of_starts (hca : ca.length = (a.inputs.take taken).length)
    (hcb : cb.length = (b.inputs.take bound).length) {value : Symbol → List Float}
    (ha : start a.toInterface (ca ++ xa) = .ok sta)
    (hb : start b.toInterface (cb ++ ((a.outputs.map value).take
      (b.inputs.drop bound).length ++ xb)) = .ok stb) :
    Feeding a b taken bound ca cb xa xb
      ((a.outputs.map value).take (b.inputs.drop bound).length) := by
  have hlen_a := (start_eq_ok_iff.mp ⟨sta, ha⟩).1
  have hlen_b := (start_eq_ok_iff.mp ⟨stb, hb⟩).1
  simp only [List.length_append, List.length_take, List.length_map, List.length_drop]
    at hca hcb hlen_a hlen_b
  constructor <;> simp only [List.length_take, List.length_map, List.length_drop] <;> omega

theorem computes_first (h : Connection a b bound ws g g') {fina : Store} (hsized : st.Sized u)
    (ha : Computes a.graph u sta fina false)
    (hfirst : ∀ mid : Store, (∀ q ∈ Wire.entrances ws, mid.get u q.1 = st.get u q.2) →
      (∀ s, s ∉ (Wire.entrances ws).map Prod.fst → mid.get u s = st.get u s) →
      Agree u (· ∈ a.symbols) (Wire.merging ws).apply sta mid) :
    ∃ mid fin₁, Computes (Graph.single (Wire.prologue ws)) u st mid false ∧ mid.Sized u ∧
      (∀ s, s ∉ (Wire.entrances ws).map Prod.fst → mid.get u s = st.get u s) ∧
      Computes ((Wire.merging ws).onGraph a.graph) u mid fin₁ false ∧
      Agree u (· ∈ a.symbols) (Wire.merging ws).apply fina fin₁ ∧
      ∀ t, (∀ s, s ∈ a.symbols ∧ s.isLocal = true → (Wire.merging ws).apply s ≠ t) →
        fin₁.get u t = mid.get u t := by
  obtain ⟨mid, hcomp₀, hsized₀, hcopied, hkept⟩ :=
    computes_copyBlock h.independent_entrances hsized
  obtain ⟨fin₁, hcomp₁, hfin₁, hframe₁⟩ :=
    (h.renders_first.embeds h.first.sound h.first.fits).computes
      (h.tapped_first.relabels.faithful h.tapped_first.injective) h.first.sound rfl rfl
      (hfirst mid hcopied hkept) ha
  rw [← Wire.prologue_eq] at hcomp₀
  exact ⟨mid, fin₁, hcomp₀, hsized₀, hkept, hcomp₁, hfin₁, hframe₁⟩

/-- Runs of both programs make a run of the connection, wherever it starts: the first program
finds its store behind the entrances, and the second one finds its store behind the first. -/
theorem computes_program (h : Connection a b bound ws g g') (taken : Nat) {fina finb : Store}
    (hsized : st.Sized u) (ha : Computes a.graph u sta fina false)
    (hb : Computes b.graph u stb finb false)
    (hfirst : ∀ mid : Store, (∀ q ∈ Wire.entrances ws, mid.get u q.1 = st.get u q.2) →
      (∀ s, s ∉ (Wire.entrances ws).map Prod.fst → mid.get u s = st.get u s) →
      Agree u (· ∈ a.symbols) (Wire.merging ws).apply sta mid)
    (hsecond : ∀ mid fin : Store,
      (∀ s, s ∉ (Wire.entrances ws).map Prod.fst → mid.get u s = st.get u s) →
      Agree u (· ∈ a.symbols) (Wire.merging ws).apply fina fin →
      (∀ t, (∀ s, s ∈ a.symbols ∧ s.isLocal = true → (Wire.merging ws).apply s ≠ t) →
        fin.get u t = mid.get u t) →
      Agree u (· ∈ b.symbols) (Wire.merging ws).apply stb fin) :
    ∃ fin, Computes (program a b taken bound ws).graph u st fin false ∧
      (program a b taken bound ws).outputs.map (fin.get u) =
        b.outputs.map (finb.get u) ++
          (a.outputs.map (fina.get u)).drop (b.inputs.drop bound).length ∧
      (∀ s ∈ a.symbols, (∀ w ∈ ws, s ≠ w.output) → fin.get u s = fina.get u s) ∧
      (∀ s ∈ b.symbols, (∀ w ∈ ws, s ≠ w.input) → fin.get u s = finb.get u s) ∧
      ∀ t, t ∉ a.symbols → t ∉ b.symbols → t ∉ ws.flatMap Wire.news →
        fin.get u t = st.get u t := by
  -- entrances, first program, second program, leavings
  obtain ⟨mid, fin₁, hcomp₀, hsized₀, hkept, hcomp₁, hfin₁, hframe₁⟩ :=
    h.computes_first hsized ha hfirst
  obtain ⟨fin₂, hcomp₂, hfin₂, hframe₂⟩ :=
    (h.renders_second.embeds h.second.sound h.second.fits).computes
      (h.tapped_second.relabels.faithful h.tapped_second.injective) h.second.sound rfl rfl
      (hsecond mid fin₁ hkept hfin₁ hframe₁) hb
  obtain ⟨fin₃, hcomp₃, _, hcopied₃, hkept₃⟩ :=
    computes_copyBlock h.independent_leavings (hcomp₂.sized (hcomp₁.sized hsized₀))
  obtain ⟨x, hx, hx'⟩ :=
    computes_sequel h.sequel_core h.sound_first h.sound_second hcomp₁ (fun _ => rfl) hcomp₂
  rw [← Wire.epilogue_eq] at hcomp₃
  obtain ⟨y, hy, hy'⟩ := computes_withPrologue h.sound_core hcomp₀ hx
  have hback : Alike u y fin₂ := fun s => by rw [hy' s, hx' s]
  obtain ⟨z, hz, hz'⟩ :=
    computes_withEpilogue (sound_withPrologue h.sound_core _) hy hback hcomp₃
  refine ⟨z, hz, ?_, ?_, ?_, ?_⟩
  · rw [← h.outputs_agree hfin₁ hfin₂ hframe₂ hcopied₃ hkept₃]
    exact List.map_congr_left fun s _ => hz' s
  · intro s hs hne
    rw [hz' s, hkept₃ s (h.not_written_back (.inl hs)), hframe₂ s (h.unwritten_by_second hs),
      ← hfin₁ s hs]
    rcases h.tapped_first.cases s hs with ⟨w, hw, heq, _⟩ | ⟨_, hfixed⟩
    · exact absurd heq (hne w hw)
    · rw [hfixed]
  · intro s hs hne
    rw [hz' s, hkept₃ s (h.not_written_back (.inr hs)), ← hfin₂ s hs]
    rcases h.tapped_second.cases s hs with ⟨w, hw, heq, _⟩ | ⟨_, hfixed⟩
    · exact absurd heq (hne w hw)
    · rw [hfixed]
  · intro t hta htb hnew
    have hnews : ∀ w ∈ ws, t ∉ w.news :=
      fun w hw hmem => hnew (List.mem_flatMap.mpr ⟨w, hw, hmem⟩)
    rw [hz' t, hkept₃ t (Wire.not_mem_leavings hnews),
      hframe₂ t fun s hs => h.tapped_second.apply_ne hs.1 htb hnews,
      hframe₁ t fun s hs => h.tapped_first.apply_ne hs.1 hta hnews,
      hkept t (Wire.not_mem_entrances hnews)]

theorem completes_program (h : Connection a b bound ws g g')
    (hca : ca.length = (a.inputs.take taken).length)
    (hcb : cb.length = (b.inputs.take bound).length) {ra rb : List (List Float)}
    (hruna : ∃ steps, Completes a (ca ++ xa) u ⟨ra, false, steps⟩)
    (hrunb : ∃ steps, Completes b (cb ++ ra.take (b.inputs.drop bound).length ++ xb) u
      ⟨rb, false, steps⟩) :
    ∃ steps, Completes (program a b taken bound ws) (ca ++ cb ++ xa ++ xb) u
      ⟨rb ++ ra.drop (b.inputs.drop bound).length, false, steps⟩ := by
  obtain ⟨sta, fina, ha, hcompa, _, rfl⟩ := completes_iff.mp hruna
  obtain ⟨stb, finb, hb, hcompb, _, rfl⟩ := completes_iff.mp hrunb
  rw [List.append_assoc] at hb
  have hfeed := feeding_of_starts hca hcb ha hb
  obtain ⟨st, hst⟩ := h.start_program hfeed ha hb
  obtain ⟨fin, hfin, houtputs, _⟩ := h.computes_program taken (sized_start (u := u) hst)
    hcompa hcompb (fun _ => h.agree_first hfeed ha hst) fun _ _ => h.agree_second hfeed hb hst
  refine completes_iff.mpr ⟨st, fin, hst, hfin, ?_, houtputs.symm⟩
  intro s hs
  simp [h.roleList_outputs.solid s hs]

end KernelAlgebra.Connection
