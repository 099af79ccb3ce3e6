import KernelAlgebra.Proofs.Builder.Draft

/-!
# Steps of a builder as steps of its draft
-/

namespace KernelAlgebra.Builder

variable {b b' : Builder}

structure SameSymbols (b b' : Builder) : Prop where
  interface : b'.program.toInterface = b.program.toInterface
  pool : b'.pool = b.pool

theorem ifAlive_eq (h : b.ended = false) (k : Except BuilderError Builder) : b.ifAlive k = k := by
  simp [ifAlive, h]

theorem emit_cases (halive : b.ended = false) {op : Op} {dst : View} {srcs : List View}
    (h : b.emit op dst srcs = .ok b') :
    ∃ i, Instruction.make op dst srcs = .ok i ∧ b'.draft = b.draft.append i ∧
      SameSymbols b b' := by
  unfold emit at h
  rw [ifAlive_eq halive] at h
  split at h
  · cases h
  · rename_i i hi
    cases h
    exact ⟨i, hi, rfl, rfl, rfl⟩

theorem checkCondition_eq_ok_iff {v : View} :
    checkCondition v = .ok () ↔ v.isAbsent = false ∧ v.check false = .ok () := by
  unfold checkCondition
  cases v.isAbsent with
  | true => simp
  | false =>
      cases v.check false with
      | error e =>
          constructor
          · intro h
            cases h
          · rintro ⟨_, h⟩
            cases h
      | ok u => exact ⟨fun _ => ⟨rfl, rfl⟩, fun _ => rfl⟩

theorem openIf_cases (halive : b.ended = false) {v : View} (h : b.openIf v = .ok b') :
    v.check false = .ok () ∧ b'.draft = b.draft.openIf v ∧ SameSymbols b b' := by
  unfold openIf at h
  rw [ifAlive_eq halive] at h
  split at h
  · cases h
  · rename_i hcond
    cases h
    refine ⟨(checkCondition_eq_ok_iff.mp hcond).2, ?_, rfl, rfl⟩
    simp only [draft, Draft.openIf, withGraph, graph, Graph.newNode, Graph.size,
      List.length_append, List.length_cons, List.length_nil]

theorem openElse_cases (halive : b.ended = false) (h : b.openElse = .ok b') :
    ∃ head join outer, b.frames = ⟨.conditional, head, join⟩ :: outer ∧
      b'.draft = b.draft.openElse head join outer ∧ SameSymbols b b' := by
  unfold openElse at h
  rw [ifAlive_eq halive] at h
  split at h
  · rename_i head join outer hframes
    cases h
    exact ⟨head, join, outer, hframes, rfl, rfl, rfl⟩
  · cases h

theorem closeIf_cases (halive : b.ended = false) (h : b.closeIf = .ok b') :
    ∃ f outer, b.frames = f :: outer ∧ f.kind ≠ .loop ∧
      b'.draft = b.draft.close f.join f.join outer ∧ SameSymbols b b' := by
  unfold closeIf at h
  rw [ifAlive_eq halive] at h
  split at h
  · rename_i kind head join outer hframes
    split at h
    · cases h
    · rename_i hkind
      cases h
      exact ⟨⟨kind, head, join⟩, outer, hframes, hkind, rfl, rfl, rfl⟩
  · cases h

theorem openWhile_cases (halive : b.ended = false) {v : View} (h : b.openWhile v = .ok b') :
    v.check false = .ok () ∧ b'.draft = b.draft.openWhile v ∧ SameSymbols b b' := by
  unfold openWhile at h
  rw [ifAlive_eq halive] at h
  split at h
  · cases h
  · rename_i hcond
    cases h
    refine ⟨(checkCondition_eq_ok_iff.mp hcond).2, ?_, rfl, rfl⟩
    simp only [draft, Draft.openWhile, withGraph, graph, Graph.newNode, Graph.size,
      List.length_append, List.length_cons, List.length_nil]

theorem closeWhile_cases (halive : b.ended = false) (h : b.closeWhile = .ok b') :
    ∃ head join outer, b.frames = ⟨.loop, head, join⟩ :: outer ∧
      b'.draft = b.draft.close head join outer ∧ SameSymbols b b' := by
  unfold closeWhile at h
  rw [ifAlive_eq halive] at h
  split at h
  · rename_i head join outer hframes
    cases h
    exact ⟨head, join, outer, hframes, rfl, rfl, rfl⟩
  · cases h

theorem ready_start (target : String) : (start target).draft.Ready where
  alive := rfl
  current := ⟨[], rfl⟩
  waiting := by
    intro id hid
    obtain rfl : id = 1 := List.mem_singleton.mp hid
    rfl
  apart := by
    change [0, 1].Nodup
    decide
  heads := by
    intro f hf
    cases hf

theorem finish_cases {p : Program} (h : b.finish = .ok (p, b')) :
    b.frames = [] ∧
      p = { b.program with graph := b.graph.setFollower b.current (some b.graph.exit) }.collect := by
  unfold finish at h
  split at h
  · cases h
  · split at h
    · cases h
    · rename_i hframes
      cases h
      exact ⟨hframes, rfl⟩

end KernelAlgebra.Builder
