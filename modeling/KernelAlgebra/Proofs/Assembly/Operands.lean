import KernelAlgebra.Proofs.Assembly.Structured
import KernelAlgebra.Proofs.Machine.Views
import Mathlib.Data.List.Forall2
import Mathlib.Data.List.Nodup

/-!
# Operands and views

An operand denotes a view by way of the names that have been declared and the constants that
stand for literals.  Where a store holds what a memory says, reading the view gives the value of
the operand, and an instruction does to the store what the assignment does to the memory.
-/

namespace KernelAlgebra.Assembly

open Machine

structure Dictionary where
  entries : List Entry
  pool : List Symbol

namespace Dictionary

structure Proper (d : Dictionary) : Prop where
  named : ∀ e ∈ d.entries, e.sym.name = e.name
  solid : ∀ e ∈ d.entries, e.sym.isHole = false
  names : (d.entries.map Entry.name).Nodup
  const : ∀ s ∈ d.pool, s.role = .const
  present : ∀ s ∈ d.pool, s.isHole = false

theorem Proper.unique {d : Dictionary} (h : d.Proper) {e e' : Entry} (he : e ∈ d.entries)
    (he' : e' ∈ d.entries) (hname : e.name = e'.name) : e = e' :=
  List.inj_on_of_nodup_map h.names he he' hname

structure Extends (d d' : Dictionary) : Prop where
  entries : ∀ e ∈ d.entries, e ∈ d'.entries
  pool : ∀ s ∈ d.pool, s ∈ d'.pool

theorem Extends.trans {d d' d'' : Dictionary} (h : d.Extends d') (h' : d'.Extends d'') :
    d.Extends d'' :=
  ⟨fun e he => h'.entries e (h.entries e he), fun s hs => h'.pool s (h.pool s hs)⟩

end Dictionary

/-- The view that an operand becomes. -/
inductive Denotes (d : Dictionary) : Operand → View → Prop
  | literal {values : List Float} {span : Span} {s : Symbol} :
      s ∈ d.pool → s.value = values → Denotes d (.literal values span) (View.full s)
  | whole {neg : Bool} {span : Span} {e : Entry} :
      e ∈ d.entries → Denotes d (.ref e.name "" neg span) ⟨e.sym, none, neg⟩
  | picked {selector : String} {neg : Bool} {span : Span} {e : Entry} {idx : List Int} :
      e ∈ d.entries → selector ≠ "" → readSelector selector = .ok idx →
      Denotes d (.ref e.name selector neg span) ⟨e.sym, some idx, neg⟩

/-- The store holds what the memory says. -/
structure Shows (u : Overrides) (d : Dictionary) (st : Store) (m : Memory) : Prop where
  names : ∀ e ∈ d.entries, st.get u e.sym = m e.name
  literals : ∀ s ∈ d.pool, st.get u s = s.value
  sized : st.Sized u

variable {u : Overrides} {d d' : Dictionary} {st : Store} {m : Memory} {o : Operand} {v : View}

theorem Denotes.extend (h : Denotes d o v) (hext : d.Extends d') : Denotes d' o v := by
  cases h with
  | literal hs hvalue => exact .literal (hext.pool _ hs) hvalue
  | whole he => exact .whole (hext.entries _ he)
  | picked he hne hidx => exact .picked (hext.entries _ he) hne hidx

theorem Denotes.isAbsent (hd : d.Proper) (h : Denotes d o v) : v.isAbsent = false := by
  cases h with
  | literal hs _ => exact hd.present _ hs
  | whole he => exact hd.solid _ he
  | picked he _ _ => exact hd.solid _ he

structure Tests (d : Dictionary) (cond : Operand) (v : View) : Prop where
  denotes : Denotes d cond v
  check : v.check false = .ok ()

theorem Tests.extend (h : Tests d o v) (hext : d.Extends d') : Tests d' o v :=
  ⟨h.denotes.extend hext, h.check⟩

/-! ## Reading -/

theorem Denotes.read_eq (hd : d.Proper) (h : Denotes d o v) (hshows : Shows u d st m) :
    read u st v = o.value m := by
  have hpresent := h.isAbsent hd
  cases h with
  | literal hs hvalue =>
      rw [read_plain hshows.sized hpresent rfl, map_signed, Operand.value, ← hvalue,
        ← hshows.literals _ hs]
      rfl
  | @whole neg span e he =>
      rw [read_plain hshows.sized hpresent rfl, map_signed]
      simp only [Operand.value, Operand.pick, if_true, Option.map_some, hshows.names e he]
  | @picked selector neg span e idx he hne hidx =>
      rw [read_picked hpresent rfl]
      simp only [Operand.value, Operand.pick, hne, if_false, hidx, hshows.names e he]
      congr 1
      funext xs
      exact map_signed neg xs

theorem holds_eq (hd : d.Proper) (h : Denotes d o v) (hshows : Shows u d st m) (target : Nat) :
    holds u st ⟨v, target⟩ = o.holds m := by
  have hread := h.read_eq hd hshows
  cases hvalue : o.value m with
  | none => simp [holds, Operand.holds, hread, hvalue]
  | some xs => cases xs <;> simp [holds, Operand.holds, hread, hvalue]

theorem readAll_eq {os : List Operand} {vs : List View} (hd : d.Proper)
    (h : List.Forall₂ (Denotes d) os vs) (hshows : Shows u d st m) :
    readAll u st vs = os.mapM (Operand.value m) := by
  unfold readAll
  induction h with
  | nil => rfl
  | cons ho _ ih => rw [List.mapM_cons, List.mapM_cons, ih, ho.read_eq hd hshows]

theorem length_of_readSelector {text : String} {idx : List Int}
    (h : readSelector text = .ok idx) : idx.length = text.length := by
  unfold readSelector at h
  split at h
  · cases h
  · rename_i c rest htext
    cases hks : (c :: rest).mapM fun x => List.idxOf? x
        (if View.colorLetters.contains c then View.colorLetters else View.selectorLetters) with
    | none =>
        simp only [hks] at h
        cases h
    | some ks =>
        simp only [hks, Except.ok.injEq] at h
        rw [← h, List.length_map, length_of_mapM_eq_some hks, ← htext, String.length_toList]

theorem Denotes.size_eq (hd : d.Proper) (h : Denotes d o v) (hshows : Shows u d st m) :
    v.size = o.width m := by
  have hpresent := h.isAbsent hd
  cases h with
  | @literal values span s hs hvalue =>
      rw [View.size_full (hd.present s hs)]
      simp only [Operand.width, ← hvalue, ← hshows.literals s hs]
      exact (hshows.sized s).symm
  | @whole neg span e he =>
      simp only [View.size, hpresent, Operand.width, if_true, ← hshows.names e he]
      exact (hshows.sized e.sym).symm
  | @picked selector neg span e idx he hne hidx =>
      simp only [View.size, hpresent, Operand.width, hne, if_false, Bool.false_eq_true]
      exact length_of_readSelector hidx

/-! ## Writing -/

theorem Memory.set_eq (m : Memory) (name : String) (xs : List Float) :
    m.set name xs name = xs := if_pos rfl

theorem Memory.set_of_ne (m : Memory) {name other : String} (xs : List Float)
    (h : other ≠ name) : m.set name xs other = m other := if_neg h

theorem Shows.set (hd : d.Proper) (hshows : Shows u d st m) {e : Entry} (he : e ∈ d.entries)
    (hrole : e.sym.role.isReadOnly = false) {xs : List Float} (hxs : xs.length = e.sym.size) :
    Shows u d (st.set e.sym xs) (m.set e.name xs) where
  names := by
    intro e' he'
    rw [Store.get_set]
    by_cases hname : e'.name = e.name
    · rw [hd.unique he' he hname, if_pos rfl, m.set_eq]
    · have hsym : e'.sym ≠ e.sym := by
        intro heq
        exact hname (by rw [← hd.named e' he', heq, hd.named e he])
      rw [if_neg hsym, m.set_of_ne xs hname, hshows.names e' he']
  literals := by
    intro s hs
    have hsym : s ≠ e.sym := by
      rintro rfl
      rw [hd.const _ hs] at hrole
      cases hrole
    rw [Store.get_set, if_neg hsym, hshows.literals s hs]
  sized := hshows.sized.set hxs

theorem Denotes.place_eq (hd : d.Proper) (h : Denotes d o v) (hshows : Shows u d st m)
    (hcheck : v.check true = .ok ()) (hrole : v.sym.role.isReadOnly = false) {r : List Float}
    (hr : r.length = v.size) :
    ∃ ys m', place v (st.get u v.sym) 0 r = some ys ∧ o.update m r = some m' ∧
      Shows u d (st.set v.sym ys) m' := by
  have hpresent := h.isAbsent hd
  cases h with
  | @literal values span s hs hvalue =>
      rw [show (View.full s).sym.role = .const from hd.const s hs] at hrole
      cases hrole
  | @whole neg span e he =>
      have hsize : r.length = e.sym.size := by
        rw [hr, View.size, hpresent]
        rfl
      have hold : (st.get u e.sym).length = r.length := by rw [hshows.sized, hsize]
      refine ⟨r, m.set e.name r, ?_, ?_, hshows.set hd he hrole hsize⟩
      · exact @place_plain ⟨e.sym, none, neg⟩ [] _ _ rfl hold
      · simp [Operand.update, Operand.overwrite]
  | @picked selector neg span e idx he hne hidx =>
      have hlen : r.length = idx.length := by
        rw [hr, View.size, hpresent]
        rfl
      have hindices := (View.check_eq_ok_iff.mp hcheck).2.1
      have hbounds : ∀ k ∈ idx, 0 ≤ k ∧ k < (st.get u e.sym).length := by
        rw [hshows.sized]
        exact mem_bounds_of_checkIndices hindices
      have hplace := @place_picked ⟨e.sym, some idx, neg⟩ [] idx _ r rfl hlen hbounds
      refine ⟨_, m.set e.name _, hplace, ?_, hshows.set hd he hrole ?_⟩
      · simp [Operand.update, Operand.overwrite, hne, hidx, hshows.names e he]
      · rw [length_place hplace, hshows.sized]

/-! ## Instructions -/

structure Encodes (d : Dictionary) (op : Op) (dst : Operand) (srcs : List Operand)
    (i : Instruction) : Prop where
  op : i.op = op
  dst : Denotes d dst i.dst
  srcs : List.Forall₂ (Denotes d) srcs i.src
  writable : i.dst.sym.role.isReadOnly = false
  check : i.check = .ok ()

theorem Encodes.extend {op : Op} {dst : Operand} {srcs : List Operand} {i : Instruction}
    (h : Encodes d op dst srcs i) (hext : d.Extends d') : Encodes d' op dst srcs i :=
  ⟨h.op, h.dst.extend hext, h.srcs.imp fun _ _ ho => ho.extend hext, h.writable, h.check⟩

variable {op : Op} {dst : Operand} {srcs : List Operand} {i : Instruction}

theorem Encodes.dst_check (hd : d.Proper) (h : Encodes d op dst srcs i) :
    i.dst.check true = .ok () :=
  Instruction.check_dst_of_check h.check (h.dst.isAbsent hd)

theorem Encodes.hasDst (hd : d.Proper) (h : Encodes d op dst srcs i) : i.op.hasDst = true := by
  have habsent := Instruction.isAbsent_dst_of_check h.check
  rw [h.dst.isAbsent hd] at habsent
  simpa using habsent.symm

theorem Encodes.exec_of_assign (hd : d.Proper) (h : Encodes d op dst srcs i)
    (hshows : Shows u d st m) {m' : Memory} (hassign : dst.assign m op srcs = some m') :
    ∃ st', exec u st i = .ok ⟨st', false⟩ ∧ Shows u d st' m' := by
  simp only [Operand.assign, Option.bind_eq_bind, Option.bind_eq_some_iff] at hassign
  obtain ⟨xs, hxs, r, hr, hupdate⟩ := hassign
  have hread : readAll u st i.src = some xs := by rw [readAll_eq hd h.srcs hshows, hxs]
  have hcompute : compute i.op i.dst.size xs = some r := by
    rw [h.op, h.dst.size_eq hd hshows, hr]
  obtain ⟨ys, m₁, hplace, hm₁, hshows'⟩ := h.dst.place_eq hd hshows (h.dst_check hd) h.writable
    (length_compute h.check hread hcompute)
  cases hm₁.symm.trans hupdate
  exact ⟨_, exec_eq_ok_iff.mpr (.assignment hread hcompute (h.dst.isAbsent hd) hplace), hshows'⟩

theorem Encodes.assign_of_exec (hd : d.Proper) (h : Encodes d op dst srcs i)
    (hshows : Shows u d st m) {st' : Store} {killed : Bool}
    (hexec : exec u st i = .ok ⟨st', killed⟩) :
    killed = false ∧ ∃ m', dst.assign m op srcs = some m' ∧ Shows u d st' m' := by
  have hdst := h.hasDst hd
  cases exec_eq_ok_iff.mp hexec with
  | nothing hop =>
      rw [hop] at hdst
      cases hdst
  | test hop _ =>
      rw [hop] at hdst
      cases hdst
  | assignment hread hr _ hplace =>
      refine ⟨rfl, ?_⟩
      obtain ⟨ys, m₁, hplace', hm₁, hshows'⟩ := h.dst.place_eq hd hshows (h.dst_check hd)
        h.writable (length_compute h.check hread hr)
      cases hplace'.symm.trans hplace
      refine ⟨m₁, ?_, hshows'⟩
      rw [readAll_eq hd h.srcs hshows] at hread
      rw [h.op, h.dst.size_eq hd hshows] at hr
      simp [Operand.assign, hread, hr, hm₁]

structure Guards (d : Dictionary) (src : Operand) (i : Instruction) : Prop where
  op : i.op = .kil
  src : ∃ v, i.src = [v] ∧ Denotes d src v
  check : i.check = .ok ()

theorem Guards.extend {src : Operand} (h : Guards d src i) (hext : d.Extends d') :
    Guards d' src i := by
  obtain ⟨v, hv, hdenotes⟩ := h.src
  exact ⟨h.op, ⟨v, hv, hdenotes.extend hext⟩, h.check⟩

theorem Guards.exec_eq_ok_iff {src : Operand} (hd : d.Proper) (h : Guards d src i)
    (hshows : Shows u d st m) {st' : Store} {killed : Bool} :
    exec u st i = .ok ⟨st', killed⟩ ↔
      ∃ xs, src.value m = some xs ∧ st' = st ∧ killed = xs.any (· < 0) := by
  obtain ⟨v, hv, hdenotes⟩ := h.src
  have hread : readAll u st i.src = (src.value m).map fun xs => [xs] := by
    rw [hv, ← hdenotes.read_eq hd hshows]
    simp only [readAll, List.mapM_cons, List.mapM_nil]
    cases read u st v <;> rfl
  unfold exec
  rw [h.op, hread]
  cases src.value m with
  | none => simp
  | some xs =>
      simp only [Option.map_some, Except.ok.injEq, Outcome.mk.injEq, Option.some.injEq]
      constructor
      · rintro ⟨rfl, rfl⟩
        exact ⟨xs, rfl, rfl, rfl⟩
      · rintro ⟨ys, rfl, rfl, rfl⟩
        exact ⟨rfl, rfl⟩

end KernelAlgebra.Assembly
