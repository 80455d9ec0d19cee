import Mathlib.Algebra.BigOperators.Group.List.Basic
import Mathlib.Algebra.Order.BigOperators.Group.List
import Mathlib.Algebra.Order.Field.Basic
import Mathlib.Tactic.FieldSimp
import Mathlib.Tactic.Linarith
import Mathlib.Tactic.Ring

/-!
# A line fitted to samples

`covar x y S` is the sum, over all pairs of the samples of `S`, of the product of
their differences in `x` and in `y`: the slope of the least-squares line through
the samples is `covar x y S / covar x x S`. Samples that lie near a line, at
whole numbers that differ more than the errors do, give its slope.
-/

namespace WebAdf.Lib

variable {ι K : Type} [Field K]

/-- The number of samples times the sum of products, less the product of the sums. -/
def covar (x y : ι → K) (S : List ι) : K :=
  S.length * (S.map fun a => x a * y a).sum - (S.map x).sum * (S.map y).sum

@[simp] theorem covar_nil (x y : ι → K) : covar x y [] = 0 := by simp [covar]

theorem sum_pairs (x y : ι → K) (a : ι) (S : List ι) :
    (S.map fun b => (x a - x b) * (y a - y b)).sum =
      S.length * (x a * y a) + (S.map fun b => x b * y b).sum - x a * (S.map y).sum
        - y a * (S.map x).sum := by
  induction S with
  | nil => simp
  | cons b S ih =>
    simp only [List.map_cons, List.sum_cons, List.length_cons, Nat.cast_add, Nat.cast_one, ih]
    ring

/-- A further sample adds its pairs with the others. -/
theorem covar_cons (x y : ι → K) (a : ι) (S : List ι) :
    covar x y (a :: S) = covar x y S + (S.map fun b => (x a - x b) * (y a - y b)).sum := by
  rw [sum_pairs]
  simp only [covar, List.map_cons, List.sum_cons, List.length_cons, Nat.cast_add, Nat.cast_one]
  ring

/-- What is on a line of slope `c` but for `e`. -/
theorem covar_line {x y e : ι → K} {c d : K} {S : List ι} (h : ∀ a ∈ S, y a = c * x a + d + e a) :
    covar x y S = c * covar x x S + covar x e S := by
  induction S with
  | nil => simp
  | cons a S ih =>
    have hpair : ∀ T : List ι, (∀ b ∈ T, y b = c * x b + d + e b) →
        (T.map fun b => (x a - x b) * (y a - y b)).sum =
          c * (T.map fun b => (x a - x b) * (x a - x b)).sum +
            (T.map fun b => (x a - x b) * (e a - e b)).sum := by
      intro T hT
      induction T with
      | nil => simp
      | cons b T ihT =>
        have ha := h a (List.mem_cons_self ..)
        have hb := hT b (List.mem_cons_self ..)
        have hrest := ihT fun b hb => hT b (List.mem_cons_of_mem _ hb)
        simp only [List.map_cons, List.sum_cons]
        rw [hrest, ha, hb]
        ring
    have hS : ∀ b ∈ S, y b = c * x b + d + e b := fun b hb => h b (List.mem_cons_of_mem _ hb)
    rw [covar_cons, covar_cons, covar_cons, ih hS, hpair S hS]
    ring

variable [LinearOrder K] [IsStrictOrderedRing K]

theorem sum_abs_le {f g : ι → K} {S : List ι} (h : ∀ b ∈ S, |f b| ≤ g b) :
    |(S.map f).sum| ≤ (S.map g).sum := by
  induction S with
  | nil => simp
  | cons b S ih =>
    simp only [List.map_cons, List.sum_cons]
    calc |f b + (S.map f).sum| ≤ |f b| + |(S.map f).sum| := abs_add_le _ _
      _ ≤ g b + (S.map g).sum :=
        add_le_add (h b (List.mem_cons_self ..)) (ih fun b hb => h b (List.mem_cons_of_mem _ hb))

/-- Errors whose differences the differences in `x` outweigh. -/
theorem abs_covar_le {x e : ι → K} {S : List ι}
    (h : ∀ a ∈ S, ∀ b ∈ S, |(x a - x b) * (e a - e b)| ≤ (x a - x b) * (x a - x b)) :
    |covar x e S| ≤ covar x x S := by
  induction S with
  | nil => simp
  | cons a S ih =>
    rw [covar_cons, covar_cons]
    have hpairs := sum_abs_le (S := S) fun b hb =>
      h a (List.mem_cons_self ..) b (List.mem_cons_of_mem _ hb)
    calc |covar x e S + (S.map fun b => (x a - x b) * (e a - e b)).sum|
        ≤ |covar x e S| + |(S.map fun b => (x a - x b) * (e a - e b)).sum| := abs_add_le _ _
      _ ≤ covar x x S + (S.map fun b => (x a - x b) * (x a - x b)).sum := by
        refine add_le_add (ih ?_) hpairs
        exact fun b hb c hc => h b (List.mem_cons_of_mem _ hb) c (List.mem_cons_of_mem _ hc)

theorem squares_nonneg (x : ι → K) (a : ι) (S : List ι) :
    ∀ q ∈ S.map (fun b => (x a - x b) * (x a - x b)), 0 ≤ q := by
  simp only [List.mem_map]
  rintro _ ⟨b, -, rfl⟩
  exact mul_self_nonneg _

theorem covar_self_nonneg (x : ι → K) (S : List ι) : 0 ≤ covar x x S := by
  induction S with
  | nil => simp
  | cons a S ih =>
    rw [covar_cons]
    exact add_nonneg ih (List.sum_nonneg (squares_nonneg x a S))

theorem squares_pos {x : ι → K} {a b : ι} {S : List ι} (hb : b ∈ S) (hne : x a ≠ x b) :
    0 < (S.map fun b => (x a - x b) * (x a - x b)).sum :=
  (mul_self_pos.mpr (sub_ne_zero.mpr hne)).trans_le
    (List.single_le_sum (squares_nonneg x a S) _ (List.mem_map_of_mem hb))

/-- Two samples that differ in `x` are enough for a slope. -/
theorem covar_self_pos {x : ι → K} {a b : ι} {S : List ι} (ha : a ∈ S) (hb : b ∈ S)
    (hne : x a ≠ x b) : 0 < covar x x S := by
  induction S with
  | nil => simp at ha
  | cons c S ih =>
    rw [covar_cons]
    have hnn := covar_self_nonneg x S
    obtain rfl | haS := List.mem_cons.mp ha
    · obtain rfl | hbS := List.mem_cons.mp hb
      · exact absurd rfl hne
      · exact add_pos_of_nonneg_of_pos hnn (squares_pos hbS hne)
    · obtain rfl | hbS := List.mem_cons.mp hb
      · exact add_pos_of_nonneg_of_pos hnn (squares_pos haS hne.symm)
      · exact add_pos_of_pos_of_nonneg (ih haS hbS) (List.sum_nonneg (squares_nonneg x c S))

/-- The slope fitted to samples near a line, their errors outweighed. -/
theorem slope_near {x y e : ι → K} {c d : K} {S : List ι} (h : ∀ a ∈ S, y a = c * x a + d + e a)
    (he : ∀ a ∈ S, ∀ b ∈ S, |(x a - x b) * (e a - e b)| ≤ (x a - x b) * (x a - x b)) :
    (c - 1) * covar x x S ≤ covar x y S ∧ covar x y S ≤ (c + 1) * covar x x S := by
  obtain ⟨hlo, hhi⟩ := abs_le.mp (abs_covar_le he)
  rw [covar_line h]
  constructor <;> linarith

end WebAdf.Lib
