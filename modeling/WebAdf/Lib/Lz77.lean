import Mathlib.Data.List.GetD

/-!
# Copies from the output so far

`copyMatch` appends `n` elements to a list, each the one `off` back, so a copy
may overlap what it appends. Where a list agrees with itself `off` back, the
copy turns a prefix of it into a longer one.
-/

namespace WebAdf.Lib

variable [Inhabited α]

def copyMatch (out : List α) (off : Nat) : Nat → List α
  | 0 => out
  | n + 1 => copyMatch (out ++ [out.getD (out.length - off) default]) off n

@[simp] theorem length_copyMatch (out : List α) (off n : Nat) :
    (copyMatch out off n).length = out.length + n := by
  induction n generalizing out with
  | zero => rfl
  | succ n ih =>
    rw [copyMatch, ih, List.length_append, List.length_singleton, Nat.add_assoc, Nat.add_comm 1]

/-- A match that was compared element by element extends the prefix. -/
theorem copyMatch_take {xs : List α} (hoff : 0 < off ∧ off ≤ pos) (hend : pos + n ≤ xs.length)
    (hsame : ∀ k < n, xs.getD (pos - off + k) default = xs.getD (pos + k) default) :
    copyMatch (xs.take pos) off n = xs.take (pos + n) := by
  induction n generalizing pos with
  | zero => rfl
  | succ n ih =>
    have hpos : pos < xs.length := by omega
    have hback : pos - off < xs.length := by omega
    have hzero := hsame 0 (by omega)
    have hnext : xs.take pos ++ [(xs.take pos).getD ((xs.take pos).length - off) default] =
        xs.take (pos + 1) := by
      rw [List.length_take, Nat.min_eq_left (Nat.le_of_lt hpos), List.getD_eq_getElem?_getD,
        List.getElem?_take_of_lt (by omega), ← List.getD_eq_getElem?_getD,
        show pos - off = pos - off + 0 from rfl, hzero, Nat.add_zero, List.take_add_one,
        List.getD_eq_getElem _ _ hpos, List.getElem?_eq_getElem hpos, Option.toList_some]
    rw [copyMatch, hnext]
    have hrest : copyMatch (xs.take (pos + 1)) off n = xs.take (pos + 1 + n) := by
      apply ih (by omega) (by omega)
      intro k hk
      have h := hsame (k + 1) (by omega)
      rwa [show pos + 1 - off + k = pos - off + (k + 1) by omega,
        show pos + 1 + k = pos + (k + 1) by omega]
    rw [hrest, Nat.add_assoc, Nat.add_comm 1]

end WebAdf.Lib
