import KernelAlgebra.Proofs.Constants.Keys
import KernelAlgebra.Proofs.Symbol

/-!
# Constants are shared by equal requests

Over any calls the pool hands out one symbol for each request, and different symbols for different
requests.  The constants stand in the order of their first requests.
-/

namespace KernelAlgebra.ConstantPool

variable {pool : ConstantPool} {g : Supply} {r : ConstantRequest}

/-! ## One request -/

theorem declare_declaration (g : Supply) (hr : r.patterns ≠ []) :
    g.declare r.declaration = .ok (fresh g r, ⟨g.next + 1⟩) := by
  have hsize : ¬ (r.patterns.length : Int) < 1 := by
    have := List.length_pos_iff.mpr hr
    omega
  simp [Supply.declare, ConstantRequest.declaration, ConstantRequest.values, fresh, hsize]

theorem request_of_find?_some {s : Symbol} (h : pool.find? r = some s) :
    pool.request g r = .ok (s, pool, g) := by
  unfold request
  split <;> simp_all

theorem request_of_find?_none (hr : r.patterns ≠ []) (h : pool.find? r = none) :
    ∃ hanswer, pool.request g r =
      .ok (fresh g r, pool.add r (fresh g r) hanswer, ⟨g.next + 1⟩) := by
  have hdeclare := declare_declaration g hr
  refine ⟨ConstantRequest.isAnswer_of_declare hdeclare, ?_⟩
  unfold request
  split
  · rename_i hfind
    cases h.symm.trans hfind
  · split
    · rename_i he
      cases hdeclare.symm.trans he
    · rename_i hs
      cases hdeclare.symm.trans hs
      rfl

theorem find?_add {s : Symbol} (h : r.IsAnswer s) (r' : ConstantRequest) :
    (pool.add r s h).find? r' = if r' = r then some s else pool.find? r' := by
  unfold find? add
  rw [List.lookup_cons]
  by_cases heq : r' = r
  · simp [heq]
  · have hkey : r'.key ≠ r.key := fun hkey => heq (ConstantRequest.key_injective hkey)
    simp [heq, beq_eq_false_iff_ne.mpr hkey]

/-! ## Requests one after the other -/

/-- A request, and how many ids others draw before it is made. -/
structure Call where
  drawn : Nat
  request : ConstantRequest

def answerAll (pool : ConstantPool) (g : Supply) :
    List Call → Except DeclarationFault (List Symbol × ConstantPool × Supply)
  | [] => .ok ([], pool, g)
  | c :: rest =>
      match pool.request ⟨g.next + c.drawn⟩ c.request with
      | .error e => .error e
      | .ok (s, pool, g) =>
          (pool.answerAll g rest).map fun (answers, pool, g) => (s :: answers, pool, g)

/-- What the pool is like after some requests, and which symbols answered them. -/
structure Holds (past : List ConstantRequest) (answer : ConstantRequest → Symbol)
    (pool : ConstantPool) (g : Supply) : Prop where
  find : ∀ r, pool.find? r = if r ∈ past then some (answer r) else none
  listed : pool.constants = past.eraseDups.map answer
  below : ∀ r ∈ past, (answer r).id < g.next
  apart : ∀ r ∈ past, ∀ r' ∈ past, (answer r).id = (answer r').id → r = r'

variable {past : List ConstantRequest} {answer : ConstantRequest → Symbol}

theorem holds_empty (answer : ConstantRequest → Symbol) (g : Supply) : Holds [] answer empty g where
  find := by simp [find?, empty]
  listed := by simp [empty]
  below := by simp
  apart := by simp

theorem Holds.again (h : Holds past answer pool g) (hr : r ∈ past) (drawn : Nat) :
    Holds (past ++ [r]) answer pool ⟨g.next + drawn⟩ := by
  have hmem : ∀ r', r' ∈ past ++ [r] ↔ r' ∈ past := by
    intro r'
    constructor
    · intro hr'
      rcases List.mem_append.mp hr' with hr' | hr'
      · exact hr'
      · exact List.mem_singleton.mp hr' ▸ hr
    · exact fun hr' => List.mem_append.mpr (.inl hr')
  refine ⟨fun r' => ?_, ?_, fun r' hr' => ?_, fun r' hr' r'' hr'' => ?_⟩
  · simp only [h.find, hmem]
  · rw [eraseDups_concat, if_pos hr, h.listed]
  · exact Nat.lt_of_lt_of_le (h.below r' ((hmem r').mp hr')) (Nat.le_add_right _ _)
  · exact h.apart r' ((hmem r').mp hr') r'' ((hmem r'').mp hr'')

theorem Holds.first (h : Holds past answer pool g) (hr : r ∉ past) {g' : Supply}
    (hle : g.next ≤ g'.next) (hanswer : r.IsAnswer (fresh g' r)) :
    Holds (past ++ [r]) (Function.update answer r (fresh g' r)) (pool.add r (fresh g' r) hanswer)
      ⟨g'.next + 1⟩ := by
  have hold : ∀ r' ∈ past, Function.update answer r (fresh g' r) r' = answer r' :=
    fun r' hr' => Function.update_of_ne (fun heq : r' = r => hr (heq ▸ hr')) _ _
  have hid : (fresh g' r).id = g'.next := rfl
  refine ⟨fun r' => ?_, ?_, fun r' hr' => ?_, fun r' hr' r'' hr'' heq => ?_⟩
  · rw [find?_add, h.find]
    by_cases heq : r' = r <;> simp [heq]
  · have hpast : past.eraseDups.map (Function.update answer r (fresh g' r)) =
        past.eraseDups.map answer :=
      List.map_congr_left fun r' hr' => hold r' (List.mem_eraseDups.mp hr')
    rw [eraseDups_concat, if_neg hr, List.map_append, hpast, ← h.listed]
    simp [add]
  · rcases List.mem_append.mp hr' with hr' | hr'
    · rw [hold r' hr']
      exact Nat.lt_succ_of_lt (Nat.lt_of_lt_of_le (h.below r' hr') hle)
    · rw [List.mem_singleton.mp hr', Function.update_self, hid]
      exact Nat.lt_succ_self _
  · -- the ids that were handed out before are below that of the new symbol
    have hnew : ∀ r' ∈ past, (answer r').id ≠ g'.next := by
      intro r' hr' heq
      have hlt := Nat.lt_of_lt_of_le (h.below r' hr') hle
      exact Nat.lt_irrefl _ (heq ▸ hlt)
    rcases List.mem_append.mp hr' with hr' | hr' <;>
      rcases List.mem_append.mp hr'' with hr'' | hr''
    · rw [hold r' hr', hold r'' hr''] at heq
      exact h.apart r' hr' r'' hr'' heq
    · rw [hold r' hr', List.mem_singleton.mp hr'', Function.update_self, hid] at heq
      exact absurd heq (hnew r' hr')
    · rw [hold r'' hr'', List.mem_singleton.mp hr', Function.update_self, hid] at heq
      exact absurd heq.symm (hnew r'' hr'')
    · rw [List.mem_singleton.mp hr', List.mem_singleton.mp hr'']

theorem Holds.request (h : Holds past answer pool g) (hr : r.patterns ≠ []) (drawn : Nat) :
    ∃ answer' pool' g', pool.request ⟨g.next + drawn⟩ r = .ok (answer' r, pool', g') ∧
      Holds (past ++ [r]) answer' pool' g' ∧ ∀ r' ∈ past, answer' r' = answer r' := by
  have hfind := h.find r
  by_cases hmem : r ∈ past
  · rw [if_pos hmem] at hfind
    exact ⟨answer, pool, _, request_of_find?_some hfind, h.again hmem drawn, fun _ _ => rfl⟩
  · rw [if_neg hmem] at hfind
    obtain ⟨hanswer, hrequest⟩ := request_of_find?_none (g := ⟨g.next + drawn⟩) hr hfind
    refine ⟨Function.update answer r (fresh ⟨g.next + drawn⟩ r), _, _, ?_,
      h.first hmem (Nat.le_add_right _ _) hanswer, fun r' hr' => ?_⟩
    · rw [hrequest, Function.update_self]
    · exact Function.update_of_ne (fun heq : r' = r => hmem (heq ▸ hr')) _ _

theorem Holds.answerAll (h : Holds past answer pool g) {calls : List Call}
    (hcalls : ∀ c ∈ calls, c.request.patterns ≠ []) :
    ∃ answer' pool' g',
      pool.answerAll g calls = .ok (calls.map fun c => answer' c.request, pool', g') ∧
        Holds (past ++ calls.map Call.request) answer' pool' g' ∧
        ∀ r ∈ past, answer' r = answer r := by
  induction calls generalizing past answer pool g with
  | nil => exact ⟨answer, pool, g, rfl, by simpa using h, fun _ _ => rfl⟩
  | cons c rest ih =>
      obtain ⟨answer₁, pool₁, g₁, hfirst, h₁, hagree₁⟩ :=
        h.request (hcalls c (by simp)) c.drawn
      obtain ⟨answer₂, pool₂, g₂, hrest, h₂, hagree₂⟩ :=
        ih h₁ fun c' hc' => hcalls c' (by simp [hc'])
      refine ⟨answer₂, pool₂, g₂, ?_, by simpa using h₂, fun r hr => ?_⟩
      · -- the later calls do not change what the first one was answered
        have hsame : answer₂ c.request = answer₁ c.request := hagree₂ _ (by simp)
        simp only [ConstantPool.answerAll, hfirst, hrest, Except.map, List.map_cons, hsame]
      · rw [hagree₂ r (by simp [hr]), hagree₁ r hr]

theorem Holds.isAnswer (h : Holds past answer pool g) (hr : r ∈ past) : r.IsAnswer (answer r) :=
  (isAnswer_of_find? ((h.find r).trans (if_pos hr))).2

theorem Holds.count_eq (h : Holds past answer pool g) : pool.count = past.toFinset.card := by
  have hset : past.eraseDups.toFinset = past.toFinset := by
    ext r
    simp [List.mem_eraseDups]
  rw [count, h.listed, List.length_map, ← hset,
    List.toFinset_card_of_nodup (nodup_eraseDups past)]

/--
All calls are answered.  Two of them have the same answer when they ask for the same scalar type
and the same patterns, and otherwise their answers have different ids.
-/
theorem constants_shared_iff_equal (g : Supply) {calls : List Call}
    (hcalls : ∀ c ∈ calls, c.request.patterns ≠ []) :
    ∃ (answer : ConstantRequest → Symbol) (pool : ConstantPool) (g' : Supply),
      empty.answerAll g calls = .ok (calls.map fun c => answer c.request, pool, g') ∧
        (∀ c ∈ calls, ∀ c' ∈ calls, answer c.request = answer c'.request ↔
          c.request.scalar = c'.request.scalar ∧ c.request.patterns = c'.request.patterns) ∧
        (∀ c ∈ calls, ∀ c' ∈ calls, answer c.request ≠ answer c'.request →
          (answer c.request).id ≠ (answer c'.request).id) ∧
        (∀ c ∈ calls, c.request.IsAnswer (answer c.request)) ∧
        pool.count = (calls.map Call.request).toFinset.card ∧
        pool.constants = (calls.map Call.request).eraseDups.map answer := by
  -- the pool is empty, so that any answers will do to begin with
  obtain ⟨answer, pool, g', hrun, h, _⟩ :=
    (holds_empty (fun r => fresh g r) g).answerAll hcalls
  rw [List.nil_append] at h
  have hmem : ∀ c ∈ calls, c.request ∈ calls.map Call.request := fun _ => List.mem_map_of_mem
  refine ⟨answer, pool, g', hrun, fun c hc c' hc' => ⟨fun heq => ?_, fun ⟨hs, hp⟩ => ?_⟩,
    fun c hc c' hc' hne heq => ?_, fun c hc => h.isAnswer (hmem c hc), h.count_eq, h.listed⟩
  · have hrequest := h.apart _ (hmem c hc) _ (hmem c' hc') (congrArg Symbol.id heq)
    exact ⟨congrArg _ hrequest, congrArg _ hrequest⟩
  · rw [ConstantRequest.ext hs hp]
  · exact hne (congrArg answer (h.apart _ (hmem c hc) _ (hmem c' hc') heq))

/-- Zero, minus zero, two patterns that stand for no number, an integer, two scalar types without
names, and zero again. -/
def mixed : List Call :=
  [⟨0, ⟨.float32, [0]⟩⟩, ⟨3, ⟨.float32, [0x8000000000000000]⟩⟩,
    ⟨0, ⟨.float32, [0x7ff8000000000000]⟩⟩, ⟨1, ⟨.float32, [0x7ff8000000000001]⟩⟩,
    ⟨0, ⟨.int32, [0]⟩⟩, ⟨1, ⟨⟨12⟩, [0]⟩⟩, ⟨0, ⟨⟨255⟩, [0]⟩⟩, ⟨2, ⟨.float32, [0]⟩⟩]

theorem constants_shared_iff_equal_mixed : (∀ c ∈ mixed, c.request.patterns ≠ []) ∧
    ∃ (s t u v w x y : Symbol) (pool : ConstantPool) (g' : Supply),
      empty.answerAll .start mixed = .ok ([s, t, u, v, w, x, y, s], pool, g') ∧
        [s, t, u, v, w, x, y].Nodup ∧ pool.constants = [s, t, u, v, w, x, y] ∧
        pool.count = 7 := by
  have hcalls : ∀ c ∈ mixed, c.request.patterns ≠ [] := by decide
  obtain ⟨answer, pool, g', hrun, hshared, -, -, hcount, hlisted⟩ :=
    constants_shared_iff_equal .start hcalls
  have hdistinct : (mixed.map Call.request).eraseDups = mixed.dropLast.map Call.request := by
    decide
  rw [hdistinct] at hlisted
  have hnodup : ((mixed.dropLast.map Call.request).map answer).Nodup := by
    refine List.Nodup.map_on (fun r hr r' hr' heq => ?_) (by decide)
    obtain ⟨c, hc, rfl⟩ := List.mem_map.mp hr
    obtain ⟨c', hc', rfl⟩ := List.mem_map.mp hr'
    obtain ⟨hscalar, hpatterns⟩ :=
      (hshared c (List.dropLast_subset _ hc) c' (List.dropLast_subset _ hc')).mp heq
    exact ConstantRequest.ext hscalar hpatterns
  exact ⟨hcalls, _, _, _, _, _, _, _, pool, g', hrun, hnodup, hlisted, hcount.trans (by decide)⟩

end KernelAlgebra.ConstantPool
