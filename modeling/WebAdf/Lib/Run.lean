import Mathlib.Logic.Relation

/-!
# Runs and invariants

What one step keeps, every run keeps.
-/

namespace WebAdf.Lib

open Relation (ReflTransGen)

/-- An invariant of the step holds along every run. -/
theorem invariant_run {I : α → Prop} {R : α → α → Prop} (hstep : ∀ s t, R s t → I s → I t)
    (h : ReflTransGen R s t) (hs : I s) : I t := by
  induction h with
  | refl => exact hs
  | tail _ hr ih => exact hstep _ _ hr ih

/-- A reflexive, transitive relation that one step satisfies under an
invariant relates the ends of every run. -/
theorem related_run {I : α → Prop} {P : α → α → Prop} {R : α → α → Prop}
    (hrefl : ∀ s, P s s) (htrans : ∀ s t u, P s t → P t u → P s u)
    (hstep : ∀ s t, R s t → I s → I t) (hone : ∀ s t, R s t → I s → P s t)
    (h : ReflTransGen R s t) (hs : I s) : P s t := by
  induction h with
  | refl => exact hrefl _
  | tail hst hr ih =>
    exact htrans _ _ _ ih (hone _ _ hr (invariant_run hstep hst hs))

/-- Two loops whose turns agree under what every turn keeps. -/
theorem foldl_congr_of {f g : β → α → β} {P : β → Prop} {xs : List α}
    (hstep : ∀ b x, P b → x ∈ xs → f b x = g b x ∧ P (g b x)) (hb : P b) :
    xs.foldl f b = xs.foldl g b := by
  induction xs generalizing b with
  | nil => rfl
  | cons x xs ih =>
    obtain ⟨heq, hP⟩ := hstep b x hb (by simp)
    rw [List.foldl_cons, List.foldl_cons, heq]
    exact ih (fun b y hb hy => hstep b y hb (by simp [hy])) hP

/-- A loop none of whose turns fails is a fold; `P` is what every turn keeps. -/
theorem foldlM_ok {f : β → α → Except ε β} {g : β → α → β} {P : β → Prop} {xs : List α}
    (hstep : ∀ b x, P b → x ∈ xs → f b x = .ok (g b x) ∧ P (g b x)) (hb : P b) :
    xs.foldlM f b = .ok (xs.foldl g b) := by
  induction xs generalizing b with
  | nil => rfl
  | cons x xs ih =>
    obtain ⟨hok, hP⟩ := hstep b x hb (by simp)
    rw [List.foldlM_cons, hok, List.foldl_cons]
    exact ih (fun b y hb hy => hstep b y hb (by simp [hy])) hP

/-- A loop whose turns lose nothing of the state. -/
theorem foldl_ne {f : β → α → β} (hstate : ∀ x b b', f b x = f b' x → b = b') (xs : List α)
    (hb : b ≠ b') : xs.foldl f b ≠ xs.foldl f b' := by
  induction xs generalizing b b' with
  | nil => exact hb
  | cons x xs ih =>
    rw [List.foldl_cons, List.foldl_cons]
    exact ih fun heq => hb (hstate x b b' heq)

/-- Where the turns lose nothing of what they read either, one changed element shows. -/
theorem foldl_changed {f : β → α → β} (hstate : ∀ x b b', f b x = f b' x → b = b')
    (hread : ∀ b x y, f b x = f b y → x = y) (xs ys : List α) (hx : x ≠ y) (b : β) :
    (xs ++ x :: ys).foldl f b ≠ (xs ++ y :: ys).foldl f b := by
  rw [List.foldl_append, List.foldl_append, List.foldl_cons, List.foldl_cons]
  exact foldl_ne hstate ys fun heq => hx (hread _ x y heq)

end WebAdf.Lib
