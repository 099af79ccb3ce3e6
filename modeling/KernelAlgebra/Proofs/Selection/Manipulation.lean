import KernelAlgebra.Proofs.Compose.Routing
import KernelAlgebra.Selection.Fixed
import KernelAlgebra.Selection.Manipulator

/-!
# Manipulation keeps handles in order

A manipulator that is made of handles in order stands for a program in order, whatever channels
it consumes.
-/

namespace KernelAlgebra

open Compose

namespace Selection.Fixed

mutual

def handles : Fixed → List Handle
  | keep _ => []
  | lose _ => []
  | dup _ => []
  | wrap h => h.toList
  | tree children => handlesOf children

def handlesOf : List Fixed → List Handle
  | [] => []
  | f :: rest => f.handles ++ handlesOf rest

end

variable {P : Binding → Prop} {c : Composer} {env : Env} {side : Side} {vars : List Symbol}
  {cursor : Nat}

theorem ensures_before {x : Compose Handle} (hx : Ensures x env fun h g => h.InOrder P g) :
    Ensures (do return (← x, cursor)) env fun r g => r.1.InOrder P g :=
  hx.bind fun _ _ _ hh => ensures_pure hh

theorem ensures_take {n : Int} {name : String} (hvars : env.supply.Above vars) :
    Ensures (take vars cursor n name) env fun taken g => g.Above taken := by
  unfold take
  split
  · exact ensures_refuse
  simp only
  split
  · exact ensures_refuse
  split
  · exact ensures_throw
  · exact ensures_pure fun s hs => hvars s (List.mem_of_mem_drop (List.mem_of_mem_take hs))

theorem ensures_dupProgram {n : Int} (hvars : env.supply.Above vars) :
    Ensures (dupProgram side vars cursor n) env fun r g => r.1.InOrder P g := by
  cases side with
  | inputs =>
      refine (ensures_take hvars).bind fun taken env₁ hle₁ htaken => ?_
      cases taken with
      | nil =>
          exact ensures_before (Channels.ensures_passThrough htaken)
      | cons s rest =>
          refine (ensures_ofExcept (Q := fun _ _ => True) (by simp)).bind fun _ env₂ hle₂ _ => ?_
          have hid := htaken.mono hle₂ s (by simp)
          exact ensures_before (Channels.ensures_fanOut hid)
  | outputs =>
      refine (ensures_take hvars).bind fun taken env₁ hle₁ htaken => ?_
      cases taken with
      | nil => exact ensures_throw
      | cons s rest => exact ensures_before (Channels.ensures_fanOut (htaken s (by simp)))

theorem ensures_wrapProgram {oh : Option Handle} (hvars : env.supply.Above vars)
    (hh : ∀ h ∈ oh, h.InOrder P env.supply) :
    Ensures (wrapProgram side vars cursor oh) env fun r g => r.1.InOrder P g := by
  cases oh with
  | none => exact ensures_throw
  | some h =>
      refine (ensures_take hvars).bind fun taken env₁ hle₁ _ => ?_
      exact ensures_pure ((hh h rfl).mono hle₁)

mutual

theorem ensures_program (f : Fixed) (env : Env) (cursor : Nat) (hvars : env.supply.Above vars)
    (hwrapped : ∀ h ∈ f.handles, h.InOrder P env.supply) :
    Ensures (program c side vars cursor f) env fun r g => r.1.InOrder P g := by
  match f with
  | keep n =>
      refine (ensures_take hvars).bind fun taken env₁ hle₁ htaken => ?_
      exact ensures_before (Channels.ensures_passThrough htaken)
  | lose n =>
      refine (ensures_take hvars).bind fun taken env₁ hle₁ htaken => ?_
      cases side with
      | inputs => exact ensures_before (Channels.ensures_source htaken)
      | outputs => exact ensures_before (Channels.ensures_sink htaken)
  | dup n => exact ensures_dupProgram hvars
  | wrap oh => exact ensures_wrapProgram hvars fun h hh => hwrapped h (by simpa [handles] using hh)
  | tree children =>
      refine (Channels.ensures_passThrough (P := P) (by simp [Supply.Above])).bind
        fun start env₁ hle₁ hstart => ?_
      refine ensures_combined children env₁ cursor (hvars.mono hle₁) hstart fun h hh => ?_
      exact (hwrapped h (by simpa [handles] using hh)).mono hle₁

theorem ensures_combined (children : List Fixed) (env : Env) (cursor : Nat) {done : Handle}
    (hvars : env.supply.Above vars) (hdone : done.InOrder P env.supply)
    (hwrapped : ∀ h ∈ handlesOf children, h.InOrder P env.supply) :
    Ensures (combined c side vars cursor done children) env fun r g => r.1.InOrder P g := by
  match children with
  | [] => exact ensures_pure hdone
  | f :: rest =>
      have hfirst : ∀ h ∈ f.handles, h.InOrder P env.supply :=
        fun h hh => hwrapped h (by simp [handlesOf, hh])
      refine (ensures_program f env cursor hvars hfirst).bind fun r env₁ hle₁ hr => ?_
      have hdone := hdone.mono hle₁
      refine (Composer.ensures_combine hdone.of_some hr.of_some).bind
        fun wider env₂ hle₂ hwider => ?_
      refine ensures_combined rest env₂ r.2 (hvars.mono (Nat.le_trans hle₁ hle₂)) hwider ?_
      exact fun h hh => (hwrapped h (by simp [handlesOf, hh])).mono (Nat.le_trans hle₁ hle₂)

end

end Selection.Fixed

namespace Composer

variable {P : Binding → Prop} {c : Composer} {env : Env} {oh : Option Handle}

theorem ensures_fixInputs {f : Selection.Fixed} (hh : ∀ h ∈ oh, h.InOrder P env.supply)
    (hwrapped : ∀ h ∈ f.handles, h.InOrder P env.supply) :
    Ensures (fixInputs c oh f) env fun h g => h.InOrder P g := by
  cases oh with
  | none => exact ensures_refuse
  | some h =>
      refine Handle.ensures_freeInputs.bind ?_
      rintro _ env₁ hle₁ rfl
      have hh := (hh h rfl).mono hle₁
      have hwrapped : ∀ h ∈ f.handles, h.InOrder P env₁.supply :=
        fun h hh => (hwrapped h hh).mono hle₁
      refine (Selection.Fixed.ensures_program f env₁ 0 hh.above_free hwrapped).bind
        fun r env₂ hle₂ hr => ?_
      exact ensures_connect hr.of_some (hh.mono hle₂).of_some

theorem ensures_fixOutputs {f : Selection.Fixed} (hh : ∀ h ∈ oh, h.InOrder P env.supply)
    (hwrapped : ∀ h ∈ f.handles, h.InOrder P env.supply) :
    Ensures (fixOutputs c oh f) env fun h g => h.InOrder P g := by
  cases oh with
  | none => exact ensures_refuse
  | some h =>
      have hh := hh h rfl
      refine (Selection.Fixed.ensures_program f env 0 hh.above_outputs hwrapped).bind
        fun r env₁ hle₁ hr => ?_
      exact ensures_connect (hh.mono hle₁).of_some hr.of_some

theorem ensures_selectedPositions {vars : List Symbol} {m : Selection.Manipulator} :
    Ensures (selectedPositions vars m) env fun _ _ => True := by
  unfold selectedPositions
  split
  · exact ensures_pure trivial
  · exact ensures_refuse
  · exact ensures_throw

theorem ensures_selectInputs {m : Selection.Manipulator} (hh : ∀ h ∈ oh, h.InOrder P env.supply) :
    Ensures (selectInputs c oh m) env fun h g => h.InOrder P g := by
  cases oh with
  | none => exact ensures_refuse
  | some h =>
      refine Handle.ensures_freeInputs.bind fun free env₁ hle₁ _ => ?_
      refine ensures_selectedPositions.bind fun places env₂ hle₂ _ => ?_
      exact ensures_permuteInputs fun h hmem => (hh h hmem).mono (Nat.le_trans hle₁ hle₂)

theorem ensures_selectOutputsBy {m : Selection.Manipulator}
    (hh : ∀ h ∈ oh, h.InOrder P env.supply) :
    Ensures (selectOutputsBy c oh m) env fun h g => h.InOrder P g := by
  cases oh with
  | none => exact ensures_refuse
  | some h =>
      refine ensures_selectedPositions.bind fun places env₁ hle₁ _ => ?_
      exact ensures_permuteOutputs fun h hmem => (hh h hmem).mono hle₁

end Composer

end KernelAlgebra
