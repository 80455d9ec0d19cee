import Mathlib.Data.Fintype.Card
import Mathlib.Data.Finset.Card
import Mathlib.Data.Fintype.EquivFin
import Mathlib.Tactic.Common

/-!
# Slots given by last use

A few slots, each for one key and with the time of its last use. A key is given the
slot it has, or a free one, or the one used longest ago; it keeps its slot until as
many other keys have asked as there are slots.
-/

namespace WebAdf.Lib

structure Slots (n : Nat) (α : Type) where
  key : Fin n → Option α
  stamp : Fin n → Nat
  clock : Nat

namespace Slots

/-- No key stands in two slots. -/
def Apart (key : Fin n → Option α) : Prop := ∀ i j a, key i = some a → key j = some a → i = j

/-- And no use is to come. -/
structure Ok (t : Slots n α) : Prop where
  apart : Apart t.key
  past : ∀ i, t.stamp i ≤ t.clock

/-- A slot `a` can be given. -/
inductive Gives (t : Slots n α) (a : α) (i : Fin n) : Prop where
  | own (h : t.key i = some a)
  | free (hnew : ∀ j, t.key j ≠ some a) (h : t.key i = none)
  | oldest (hnew : ∀ j, t.key j ≠ some a) (hfull : ∀ j, t.key j ≠ none)
      (h : ∀ j, t.stamp i ≤ t.stamp j)

def give (t : Slots n α) (a : α) (i : Fin n) : Slots n α where
  key := Function.update t.key i (some a)
  stamp := Function.update t.stamp i (t.clock + 1)
  clock := t.clock + 1

theorem key_given (t : Slots n α) (a : α) (i : Fin n) : (t.give a i).key i = some a :=
  Function.update_self ..

theorem stamp_given (t : Slots n α) (a : α) (i : Fin n) : (t.give a i).stamp i = t.clock + 1 :=
  Function.update_self ..

theorem key_other (t : Slots n α) (a : α) (h : j ≠ i) : (t.give a i).key j = t.key j :=
  Function.update_of_ne h ..

theorem stamp_other (t : Slots n α) (a : α) (h : j ≠ i) : (t.give a i).stamp j = t.stamp j :=
  Function.update_of_ne h ..

/-- Keys that ask one after another. -/
inductive Asks : Slots n α → List α → Slots n α → Prop where
  | nil : Asks t [] t
  | snoc : Asks t as u → Gives u a i → Asks t (as ++ [a]) (u.give a i)

/-- Nobody else has the slot's key. -/
theorem Gives.new (h : Apart t.key) (hg : Gives t a i) (hj : j ≠ i) : t.key j ≠ some a := by
  intro hkey
  cases hg with
  | own hi => exact hj (h j i a hkey hi)
  | free hnew _ => exact hnew j hkey
  | oldest hnew _ _ => exact hnew j hkey

theorem Gives.apart (h : Apart t.key) (hg : Gives t a i) : Apart (t.give a i).key := by
  intro j k b hj hk
  by_cases hji : j = i
  · subst hji
    by_cases hkj : k = j
    · exact hkj.symm
    · rw [key_given] at hj
      rw [key_other t a hkj, ← hj] at hk
      exact absurd hk (hg.new h hkj)
  · rw [key_other t a hji] at hj
    by_cases hki : k = i
    · subst hki
      rw [key_given] at hk
      exact absurd (hj.trans hk.symm) (hg.new h hji)
    · rw [key_other t a hki] at hk
      exact h j k b hj hk

/-- A key that has a slot is given it. -/
theorem Gives.same (h : Apart t.key) (hi : t.key i = some a) (hg : Gives t a j) : j = i := by
  cases hg with
  | own hj => exact h j i a hj hi
  | free hnew _ => exact absurd hi (hnew i)
  | oldest hnew _ _ => exact absurd hi (hnew i)

theorem Ok.give (h : Ok t) (hg : Gives t a i) : Ok (t.give a i) := by
  refine ⟨hg.apart h.apart, fun j => ?_⟩
  have hpast := h.past j
  by_cases hji : j = i
  · subst hji
    exact Nat.le_of_eq (stamp_given t a j)
  · rw [stamp_other t a hji]
    exact Nat.le_succ_of_le hpast

theorem Ok.asks (h : Ok t) (has : Asks t as u) : Ok u := by
  induction has with
  | nil => exact h
  | snoc _ hg ih => exact ih.give hg

/-- `a` has slot `i`, used at `s` or later, and whoever else was is one of `as`. -/
structure Holds (t : Slots n α) (a : α) (i : Fin n) (s : Nat) (as : List α) : Prop where
  has : t.key i = some a
  late : s ≤ t.stamp i
  now : s ≤ t.clock
  others : ∀ j b, j ≠ i → t.key j = some b → s ≤ t.stamp j → b ∈ as

theorem Ok.holds (h : Ok t) : Holds (t.give a i) a i (t.clock + 1) [] := by
  refine ⟨key_given t a i, Nat.le_of_eq (stamp_given t a i).symm, Nat.le_refl _,
    fun j b hj _ hlate => ?_⟩
  have hpast := h.past j
  rw [stamp_other t a hj] at hlate
  omega

variable {α : Type} [DecidableEq α] {t u : Slots n α} {a b : α} {as : List α}

/-- A slot used longest ago leaves as many keys used since as there are slots. -/
theorem Holds.not_oldest (h : Holds t a i s as) (hok : Ok t) (hnew : ∀ j, t.key j ≠ some b)
    (hfull : ∀ j, t.key j ≠ none) (holdest : ∀ j, t.stamp i ≤ t.stamp j) :
    n ≤ ((as ++ [b]).toFinset.erase a).card := by
  have hba : b ≠ a := by
    rintro rfl
    exact hnew i h.has
  let f : Fin n → α := fun j => if j = i then b else (t.key j).getD b
  have hkey : ∀ j, j ≠ i → t.key j = some (f j) := by
    rintro j hj
    obtain ⟨c, hc⟩ := Option.ne_none_iff_exists'.mp (hfull j)
    simp only [f, if_neg hj, hc, Option.getD_some]
  have hself : f i = b := if_pos rfl
  have hmem : ∀ j, f j ∈ (as ++ [b]).toFinset.erase a := by
    rintro j
    rw [Finset.mem_erase, List.mem_toFinset, List.mem_append, List.mem_singleton]
    by_cases hj : j = i
    · subst hj
      exact ⟨by rwa [hself], .inr hself⟩
    · refine ⟨fun heq => hj (hok.apart j i a ?_ h.has), .inl ?_⟩
      · rw [hkey j hj, heq]
      · exact h.others j _ hj (hkey j hj) (Nat.le_trans h.late (holdest j))
  have hinj : Function.Injective f := by
    rintro j k heq
    by_cases hj : j = i
    · by_cases hk : k = i
      · rw [hj, hk]
      · rw [hj, hself] at heq
        exact absurd (heq ▸ hkey k hk) (hnew k)
    · by_cases hk : k = i
      · rw [hk, hself] at heq
        exact absurd (heq ▸ hkey j hj) (hnew j)
      · exact hok.apart j k (f j) (hkey j hj) (heq ▸ hkey k hk)
  have hcard := Finset.card_le_card_of_injOn (s := Finset.univ) f (fun j _ => hmem j)
    (fun j _ k _ heq => hinj heq)
  rwa [Finset.card_univ, Fintype.card_fin] at hcard

theorem Holds.give (h : Holds t a i s as) (hok : Ok t) (hg : Gives t b j)
    (hfew : ((as ++ [b]).toFinset.erase a).card < n) :
    Holds (t.give b j) a i s (as ++ [b]) := by
  by_cases hji : j = i
  · subst hji
    obtain rfl : b = a := by
      cases hg with
      | own hj => exact Option.some.inj (hj.symm.trans h.has)
      | free _ hj => rw [h.has] at hj; cases hj
      | oldest hnew hfull holdest =>
        have hmany := h.not_oldest hok hnew hfull holdest
        omega
    refine ⟨key_given t b j, ?_, Nat.le_succ_of_le h.now, fun k c hk hkey hlate => ?_⟩
    · rw [stamp_given]
      exact Nat.le_succ_of_le h.now
    · rw [key_other t b hk] at hkey
      rw [stamp_other t b hk] at hlate
      exact List.mem_append_left _ (h.others k c hk hkey hlate)
  · have hij : i ≠ j := Ne.symm hji
    refine ⟨?_, ?_, Nat.le_succ_of_le h.now, fun k c hk hkey hlate => ?_⟩
    · rw [key_other t b hij]
      exact h.has
    · rw [stamp_other t b hij]
      exact h.late
    · by_cases hkj : k = j
      · subst hkj
        rw [key_given] at hkey
        rw [← Option.some.inj hkey]
        exact List.mem_append_right _ (List.mem_singleton_self b)
      · rw [key_other t b hkj] at hkey
        rw [stamp_other t b hkj] at hlate
        exact List.mem_append_left _ (h.others k c hk hkey hlate)

/-- A key that asks again has its slot, when fewer others than slots have asked since. -/
theorem Ok.kept (h : Ok t) (hg : Gives t a i) (has : Asks (t.give a i) as u)
    (hfew : (as.toFinset.erase a).card < n) : u.key i = some a := by
  have hokay := h.give hg
  have hholds : Holds u a i (t.clock + 1) as := by
    induction has with
    | nil => exact h.holds
    | @snoc bs v b j hbs hgb ih =>
      have hless : (bs.toFinset.erase a).card ≤ ((bs ++ [b]).toFinset.erase a).card := by
        apply Finset.card_le_card
        apply Finset.erase_subset_erase
        rw [List.toFinset_append]
        exact Finset.subset_union_left
      exact (ih (by omega)).give (hokay.asks hbs) hgb hfew
  exact hholds.has

end Slots

end WebAdf.Lib
