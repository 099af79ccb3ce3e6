import KernelAlgebra.Assembly.Compile
import KernelAlgebra.Proofs.Assembly.Lowering

/-!
# What is lowered is valid

Lowering checks operands and names as it meets them.  What validation asks for beyond that comes
from how a draft grows: its edges stay inside, its nodes are reached, and its symbols are among
the names that were declared and the constants that stand for literals.
-/

namespace KernelAlgebra.Assembly

open Draft (finished grows_finished)

/-! ## Symbols of the code -/

def Dictionary.symbols (d : Dictionary) : List Symbol := d.entries.map Entry.sym ++ d.pool

section Fits

variable {d : Dictionary} {o : Operand} {v : View} {i : Instruction}

theorem Denotes.sym_mem (h : Denotes d o v) : v.sym ∈ d.symbols := by
  cases h with
  | literal hs _ => exact List.mem_append.mpr (.inr hs)
  | whole he => exact List.mem_append.mpr (.inl (List.mem_map_of_mem he))
  | picked he _ _ => exact List.mem_append.mpr (.inl (List.mem_map_of_mem he))

theorem Tests.fits (hd : d.Proper) (h : Tests d o v) (target : Nat) :
    Branch.Fits d.symbols ⟨v, target⟩ :=
  ⟨h.denotes.isAbsent hd, h.check, h.denotes.sym_mem⟩

theorem sym_mem_of_denotes {os : List Operand} {vs : List View}
    (h : List.Forall₂ (Denotes d) os vs) : ∀ w ∈ vs, w.sym ∈ d.symbols := by
  induction h with
  | nil => simp
  | cons ho _ ih => exact List.forall_mem_cons.mpr ⟨ho.sym_mem, ih⟩

theorem mem_of_mem_uses {symbols : List Symbol} {s : Symbol}
    (h : ∀ w ∈ i.src, w.sym ∈ symbols) (hs : s ∈ i.uses) : s ∈ symbols := by
  obtain ⟨w, hw, rfl⟩ := List.mem_map.mp hs
  exact h w (List.mem_of_mem_filter hw)

theorem Encodes.fits {op : Op} {dst : Operand} {srcs : List Operand} (hd : d.Proper)
    (h : Encodes d op dst srcs i) : i.Fits d.symbols where
  checked := h.check
  uses := fun _ hs => mem_of_mem_uses (sym_mem_of_denotes h.srcs) hs
  defines := by
    intro s hs
    simp only [Instruction.defines, h.dst.isAbsent hd, Bool.false_eq_true, if_false,
      Option.some.injEq] at hs
    subst hs
    exact ⟨h.dst.sym_mem, by simpa [Symbol.isLocal, Role.isReadOnly] using h.writable⟩

theorem Guards.fits {src : Operand} (h : Guards d src i) : i.Fits d.symbols where
  checked := h.check
  uses := by
    intro s hs
    obtain ⟨v, hv, hdenotes⟩ := h.src
    refine mem_of_mem_uses ?_ hs
    rw [hv]
    exact List.forall_mem_singleton.mpr hdenotes.sym_mem
  defines := by
    intro s hs
    have habsent := Instruction.isAbsent_dst_of_check h.check
    rw [h.op] at habsent
    simp [Instruction.defines, habsent, Op.hasDst] at hs

end Fits

/-! ## Statements -/

section Steps

variable {d : Dictionary} {b b' : Draft} {g : Graph} {stmts : List Statement}

theorem Advances.tidy {s : Statement} (hd : d.Proper) (h : Advances b b' d s)
    (hready : b.Ready) (htidy : b.Tidy d.symbols) : b'.Tidy d.symbols := by
  cases h with
  | decl hb => exact hb ▸ htidy
  | instr hi hb => exact hb ▸ htidy.append hready (hi.fits hd)
  | kill hi hb => exact hb ▸ htidy.append hready hi.fits
  | openIf hv hb => exact hb ▸ htidy.openIf hready (hv.fits hd)
  | openElse hframes hb => exact hb ▸ htidy.openElse hready hframes
  | closeIf hframes _ hb =>
      have hjoin := hready.lt_size (List.mem_cons_of_mem _ (Draft.join_mem_waiting hframes))
      exact hb ▸ htidy.close hready hframes hjoin
  | openWhile hv hb => exact hb ▸ htidy.openWhile hready (hv.fits hd)
  | closeWhile hframes hb =>
      have hhead := htidy.heads_lt _ (hframes ▸ List.mem_cons_self)
      exact hb ▸ htidy.close hready hframes hhead

theorem Advances.reached {s : Statement} (h : Advances b b' d s) (hready : b.Ready)
    (hgrows : b'.Grows g) (hreached : b.Reached g) : b'.Reached g := by
  cases h with
  | decl hb => exact hb ▸ hreached
  | instr _ hb => exact hb ▸ hreached.append _
  | kill _ hb => exact hb ▸ hreached.append _
  | openIf _ hb => exact hb ▸ hreached.openIf hready (hb ▸ hgrows)
  | openElse hframes hb => exact hb ▸ hreached.openElse hready hframes (hb ▸ hgrows)
  | closeIf hframes _ hb => exact hb ▸ hreached.close hready hframes (hb ▸ hgrows)
  | openWhile _ hb => exact hb ▸ hreached.openWhile hready (hb ▸ hgrows)
  | closeWhile hframes hb => exact hb ▸ hreached.close hready hframes (hb ▸ hgrows)

theorem Progress.tidy (hd : d.Proper) (h : Progress d stmts b b') (hready : b.Ready)
    (htidy : b.Tidy d.symbols) : b'.Tidy d.symbols := by
  induction h with
  | nil => exact htidy
  | cons hs _ ih => exact ih (hs.ready hready) (hs.tidy hd hready htidy)

theorem Progress.reached (h : Progress d stmts b b') (hready : b.Ready) (hgrows : b'.Grows g)
    (hreached : b.Reached g) : b'.Reached g := by
  induction h with
  | nil => exact hreached
  | cons hs hrest ih =>
      have hready' := hs.ready hready
      exact ih hready' hgrows (hs.reached hready (hrest.grows hready' hgrows) hreached)

end Steps

/-! ## Files -/

theorem tidy_start (target : String) (declared : List Symbol) :
    (Lowering.start target).builder.draft.Tidy declared where
  entry_lt := Nat.zero_lt_two
  heads_lt := by simp [Lowering.start, Builder.start, Builder.draft]
  nodes := by
    intro id n hn
    have hlt : id < 2 := Graph.lt_of_node? hn
    obtain rfl | rfl : id = 0 ∨ id = 1 := by omega
    · cases hn
      exact Draft.placed_empty List.mem_cons_self
    · cases hn
      exact Draft.placed_empty (List.mem_cons_of_mem _ List.mem_cons_self)

theorem reached_start {target : String} {g : Graph}
    (hgrows : (Lowering.start target).builder.draft.Grows g) :
    (Lowering.start target).builder.draft.Reached g where
  current := by
    have hlt : g.entry < g.size := by
      rw [hgrows.entry]
      exact hgrows.lt_size (n := Node.empty) rfl
    have hentry := Graph.Reaches.entry hlt
    rwa [hgrows.entry] at hentry
  heads := by simp [Lowering.start, Builder.start, Builder.draft]
  joins := by simp [Lowering.start, Builder.start, Builder.draft]

theorem valid_of_lower {source : Text} {f : File} {g g' : Supply} {r : Lowered}
    (hg : 0 < g.next) (h : lower source f g = (.ok r, g')) : r.program.Valid := by
  obtain ⟨l, hstmts, hframes, hprogram⟩ := lower_cases h
  have hready := ready_start f.target
  obtain ⟨hprogress, hwidens⟩ := progress_of_accepts hready hstmts
  have hkept := hwidens.kept [] (kept_start f.target hg)
  have hready' := hprogress.ready hready
  have htidy := hprogress.tidy hkept.proper hready (tidy_start f.target _)
  have hgrows := grows_finished hready'
  have hreached := hprogress.reached hready hgrows (reached_start (hprogress.grows hready hgrows))
  obtain ⟨hsound, hfits⟩ := Draft.sound_finished hready' htidy hframes hreached
  rw [hprogram]
  exact Program.valid_collect hkept.collectable hsound hfits

/--
Whatever text compiles, validation finds nothing in the program: its lists are orderly, its graph
is sound, and the code of every reachable node fits the declared symbols.
-/
theorem compileWithWarnings_valid {source : Text} {g g' : Supply} {l : Lowered}
    (hg : 0 < g.next) (h : compileWithWarnings source g = (.ok l, g')) :
    l.program.issues = [] ∧ l.program.Valid := by
  have hvalid : l.program.Valid := by
    unfold compileWithWarnings at h
    split at h
    · cases h
    · split at h
      · rename_i hlower
        cases h
        exact valid_of_lower hg hlower
      · cases h
  exact ⟨Program.issues_eq_nil_iff.mpr hvalid, hvalid⟩

/-- A conditional inside a loop, with a literal and a test that may discard. -/
def nestedSource : Text :=
  Text.ofString "input x:2
output y:2
while x
  if x.y
    x = add x, -1
  else
    kil x
  endif
endwhile
y = x
"

theorem valid_nestedSource : ∃ l g', compileWithWarnings nestedSource Supply.start = (.ok l, g') ∧
    l.program.issues = [] ∧ l.program.Valid := by
  have haccepted : (compileWithWarnings nestedSource Supply.start).1.isOk = true := by
    decide +kernel
  cases hcompile : compileWithWarnings nestedSource Supply.start with
  | mk result g' =>
      rw [hcompile] at haccepted
      cases result with
      | error e => cases haccepted
      | ok l => exact ⟨l, g', rfl, compileWithWarnings_valid (by decide) hcompile⟩

end KernelAlgebra.Assembly
