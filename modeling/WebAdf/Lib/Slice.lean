import Mathlib.Data.List.Induction
import Mathlib.Tactic.Ring

/-!
# Slices of byte strings

`slice` is a subarray, `blit` a block written over a byte string in place, and
`patch` a run of blocks of one size written at block numbers. The last write to
a block is the one that stays.
-/

namespace WebAdf.Lib

/-- The `n` elements from `off` on, fewer where the list ends. -/
def slice (xs : List α) (off n : Nat) : List α := (xs.drop off).take n

/-- `xs` with `ys` written over it from `off` on. -/
def blit (xs : List α) (off : Nat) (ys : List α) : List α :=
  xs.take off ++ ys ++ xs.drop (off + ys.length)

@[simp] theorem length_slice (xs : List α) (off n : Nat) :
    (slice xs off n).length = min n (xs.length - off) := by
  simp [slice]

theorem getElem?_slice (xs : List α) (off n i : Nat) :
    (slice xs off n)[i]? = if i < n then xs[off + i]? else none := by
  simp [slice, List.getElem?_take]

theorem getD_slice (xs : List α) (h : i < n) (d : α) :
    (slice xs off n).getD i d = xs.getD (off + i) d := by
  rw [List.getD_eq_getElem?_getD, List.getD_eq_getElem?_getD, getElem?_slice, if_pos h]

theorem length_blit {xs ys : List α} (h : off + ys.length ≤ xs.length) :
    (blit xs off ys).length = xs.length := by
  simp [blit]
  omega

theorem getElem?_blit {xs ys : List α} (h : off + ys.length ≤ xs.length) (i : Nat) :
    (blit xs off ys)[i]? =
      if off ≤ i ∧ i < off + ys.length then ys[i - off]? else xs[i]? := by
  have ht : (xs.take off).length = off := by simp; omega
  by_cases hlt : i < off
  · rw [if_neg (by omega), blit, List.append_assoc, List.getElem?_append_left (by omega),
      List.getElem?_take_of_lt hlt]
  · by_cases hin : i < off + ys.length
    · rw [if_pos ⟨by omega, hin⟩, blit, List.append_assoc,
        List.getElem?_append_right (by omega), List.getElem?_append_left (by omega), ht]
    · rw [if_neg (by omega), blit, List.getElem?_append_right (by simp; omega),
        List.getElem?_drop]
      congr 1
      simp
      omega

theorem slice_blit_self {xs ys : List α} (h : off + ys.length ≤ xs.length) :
    slice (blit xs off ys) off ys.length = ys := by
  apply List.ext_getElem?
  intro i
  rw [getElem?_slice, getElem?_blit h]
  by_cases hi : i < ys.length
  · rw [if_pos hi, if_pos ⟨by omega, by omega⟩, Nat.add_sub_cancel_left]
  · rw [if_neg hi, List.getElem?_eq_none (by omega)]

theorem slice_blit_disjoint {xs ys : List α} (h : off + ys.length ≤ xs.length)
    (hd : at' + n ≤ off ∨ off + ys.length ≤ at') :
    slice (blit xs off ys) at' n = slice xs at' n := by
  apply List.ext_getElem?
  intro i
  rw [getElem?_slice, getElem?_slice, getElem?_blit h]
  by_cases hi : i < n
  · rw [if_pos hi, if_pos hi, if_neg (by omega)]
  · rw [if_neg hi, if_neg hi]

theorem take_blit {xs ys : List α} (h : off + ys.length ≤ xs.length) (hn : n ≤ off) :
    (blit xs off ys).take n = xs.take n := by
  have hslice : slice (blit xs off ys) 0 n = slice xs 0 n :=
    slice_blit_disjoint h (.inl (by omega))
  exact hslice

/-- Block `i` of `n` ends within them. -/
theorem block_le {i n : Nat} (h : i < n) : i * w + w ≤ n * w := by
  rw [← Nat.succ_mul]
  exact Nat.mul_le_mul_right w h

/-- Two lists of `k` whole blocks are equal when each block is. -/
theorem ext_slice {xs ys : List α} (hx : xs.length = k * n) (hy : ys.length = k * n)
    (h : ∀ s < k, slice xs (s * n) n = slice ys (s * n) n) : xs = ys := by
  apply List.ext_getElem?
  intro i
  by_cases hi : i < k * n
  · have hn : 0 < n := by
      rcases Nat.eq_zero_or_pos n with rfl | hn
      · simp at hi
      · exact hn
    have hs : i / n < k := (Nat.div_lt_iff_lt_mul hn).mpr hi
    have hm : i % n < n := Nat.mod_lt _ hn
    have he : i / n * n + i % n = i := Nat.div_add_mod' i n
    have hb := congrArg (·[i % n]?) (h _ hs)
    simpa only [getElem?_slice, if_pos hm, he] using hb
  · rw [List.getElem?_eq_none (by omega), List.getElem?_eq_none (by omega)]

theorem slice_append_left {xs ys : List α} (h : off + n ≤ xs.length) :
    slice (xs ++ ys) off n = slice xs off n := by
  apply List.ext_getElem?
  intro i
  rw [getElem?_slice, getElem?_slice]
  split
  · rw [List.getElem?_append_left (by omega)]
  · rfl

theorem slice_append_right {xs ys : List α} (h : xs.length ≤ off) :
    slice (xs ++ ys) off n = slice ys (off - xs.length) n := by
  rw [slice, slice, List.drop_append, List.drop_eq_nil_of_le h, List.nil_append]

theorem slice_self (xs : List α) : slice xs 0 xs.length = xs := by
  simp [slice]

/-- Block `i` of a run of blocks of one size. -/
theorem slice_flatMap {bs : List β} {f : β → List α} (hf : ∀ b ∈ bs, (f b).length = n) (hi : i < bs.length) :
    slice (bs.flatMap f) (i * n) n = f bs[i] := by
  induction bs generalizing i with
  | nil => simp at hi
  | cons b bs ih =>
    have hb : (f b).length = n := hf b (by simp)
    rw [List.flatMap_cons]
    cases i with
    | zero =>
      rw [slice_append_left (by omega), Nat.zero_mul, List.getElem_cons_zero, ← hb, slice_self]
    | succ i =>
      rw [slice_append_right (by rw [hb, Nat.succ_mul]; omega), hb, Nat.succ_mul,
        Nat.add_sub_cancel, List.getElem_cons_succ]
      exact ih (fun c hc => hf c (by simp [hc])) (by simpa using hi)

theorem length_flatMap_block {bs : List β} {f : β → List α} (hf : ∀ b ∈ bs, (f b).length = n) :
    (bs.flatMap f).length = bs.length * n := by
  induction bs with
  | nil => simp
  | cons b bs ih =>
    rw [List.flatMap_cons, List.length_append, hf b (by simp),
      ih (fun c hc => hf c (by simp [hc])), List.length_cons, Nat.succ_mul, Nat.add_comm]

theorem slice_slice (xs : List α) (h : b + m ≤ n) :
    slice (slice xs a n) b m = slice xs (a + b) m := by
  apply List.ext_getElem?
  intro i
  rw [getElem?_slice, getElem?_slice, getElem?_slice]
  split
  · rw [if_pos (by omega), Nat.add_assoc]
  · rfl

theorem slice_append_at {xs ys zs : List α} (hx : xs.length = off) (hy : ys.length = n) :
    slice (xs ++ (ys ++ zs)) off n = ys := by
  subst hx hy
  rw [slice_append_right (Nat.le_refl _), Nat.sub_self, slice_append_left (by omega), slice_self]

/-- A whole slice of a list is still there in a longer list. -/
theorem slice_longer {xs ys : List α} (h : xs <+: ys) (hwhole : (slice xs off n).length = n) :
    slice ys off n = slice xs off n := by
  obtain ⟨zs, rfl⟩ := h
  rw [length_slice] at hwhole
  rcases Nat.eq_zero_or_pos n with rfl | hn
  · simp [slice]
  · exact slice_append_left (by omega)

/-- A list of whole blocks is its blocks put end to end. -/
theorem flatMap_slices {xs : List α} (hx : xs.length = k * n) :
    (List.range k).flatMap (fun s => slice xs (s * n) n) = xs := by
  have hblock : ∀ s ∈ List.range k, (slice xs (s * n) n).length = n := by
    intro s hs
    have h := block_le (w := n) (List.mem_range.mp hs)
    rw [length_slice, hx]
    omega
  apply ext_slice (k := k) (n := n) (by rw [length_flatMap_block hblock, List.length_range]) hx
  intro s hs
  rw [slice_flatMap hblock (by simpa using hs), List.getElem_range]

-- ---------------------------------------------------------------------------
-- Blocks laid one after another
-- ---------------------------------------------------------------------------

theorem blit_append {xs ys zs : List α} (h : off + ys.length ≤ xs.length)
    (hoff : off' = off + ys.length) : blit (blit xs off ys) off' zs = blit xs off (ys ++ zs) := by
  subst hoff
  have ht : (xs.take off ++ ys).length = off + ys.length := by simp; omega
  simp only [blit]
  rw [List.take_append_of_le_length (by omega), List.take_of_length_le (by omega),
    List.drop_append, List.drop_eq_nil_of_le (by omega), ht, List.drop_drop, List.length_append]
  simp only [List.nil_append, List.append_assoc]
  congr 4
  omega

theorem blit_at {xs ys zs : List α} (hx : xs.length = off) :
    blit (xs ++ zs) off ys = xs ++ ys ++ zs.drop ys.length := by
  subst hx
  simp [blit]

/-- Blocks written one after another over a filler, each followed by `pad` of
the filler that it leaves alone. -/
theorem foldl_blit_fill (lead pad : Nat) (z : α) (rest : List α) {f : Nat → List α}
    (hf : ∀ i < k, (f i).length + pad = w) (t : Nat) :
    (List.range k).foldl (fun xs i => blit xs (lead + i * w) (f i))
        (List.replicate (lead + (k * w + t)) z ++ rest) =
      List.replicate lead z ++ (List.range k).flatMap (fun i => f i ++ List.replicate pad z) ++
        (List.replicate t z ++ rest) := by
  induction k generalizing t with
  | zero => simp [← List.replicate_append_replicate]
  | succ k ih =>
    have hk : (f k).length + pad = w := hf k (by omega)
    have hlen : (List.replicate lead z ++
        (List.range k).flatMap (fun i => f i ++ List.replicate pad z)).length = lead + k * w := by
      rw [List.length_append, length_flatMap_block (n := w)
        (fun i hi => by simpa using hf i (by have := List.mem_range.mp hi; omega))]
      simp
    have hrest : w + t - (f k).length = pad + t := by omega
    rw [List.range_succ, List.foldl_append, show (k + 1) * w + t = k * w + (w + t) by ring,
      ih (fun i hi => hf i (by omega)), List.foldl_cons, List.foldl_nil, blit_at hlen,
      List.drop_append_of_le_length (by simp; omega), List.drop_replicate, hrest]
    simp [← List.replicate_append_replicate]

-- ---------------------------------------------------------------------------
-- Blocks written by number
-- ---------------------------------------------------------------------------

/-- Each block written at its number times `n`, first to last. -/
def patch (n : Nat) (xs : List α) (ps : List (Nat × List α)) : List α :=
  ps.foldl (fun xs p => blit xs (p.1 * n) p.2) xs

/-- The block last written at `s`, if any. -/
def lastWrite (s : Nat) (ps : List (Nat × List α)) : Option (List α) :=
  ps.foldl (fun acc p => if p.1 = s then some p.2 else acc) none

theorem patch_concat (n : Nat) (xs : List α) (ps : List (Nat × List α)) (p : Nat × List α) :
    patch n xs (ps ++ [p]) = blit (patch n xs ps) (p.1 * n) p.2 := by
  simp [patch]

theorem lastWrite_concat (s : Nat) (ps : List (Nat × List α)) (p : Nat × List α) :
    lastWrite s (ps ++ [p]) = if p.1 = s then some p.2 else lastWrite s ps := by
  simp [lastWrite]

theorem lastWrite_none {ps : List (Nat × List α)} (h : ∀ p ∈ ps, p.1 ≠ s) :
    lastWrite s ps = none := by
  induction ps using List.reverseRecOn with
  | nil => rfl
  | append_singleton ps p ih =>
    rw [lastWrite_concat, if_neg (h p (by simp)), ih fun q hq => h q (by simp [hq])]

/-- Every block has the block size and a number below `k`. -/
def Blocks (k n : Nat) (ps : List (Nat × List α)) : Prop :=
  ∀ p ∈ ps, p.1 < k ∧ p.2.length = n

theorem Blocks.of_concat (h : Blocks k n (ps ++ [p])) :
    Blocks k n ps ∧ p.1 < k ∧ p.2.length = n :=
  ⟨fun q hq => h q (by simp [hq]), h p (by simp)⟩

theorem block_fits {p : Nat × List α} (hp : p.1 < k ∧ p.2.length = n) (hx : xs.length = k * n) :
    p.1 * n + p.2.length ≤ (xs : List α).length := by
  have h := block_le (w := n) hp.1
  omega

theorem length_patch {xs : List α} (hx : xs.length = k * n) (hp : Blocks k n ps) :
    (patch n xs ps).length = k * n := by
  induction ps using List.reverseRecOn with
  | nil => exact hx
  | append_singleton ps p ih =>
    obtain ⟨hps, hp⟩ := hp.of_concat
    rw [patch_concat, length_blit (block_fits hp (ih hps)), ih hps]

theorem slice_patch {xs : List α} (hx : xs.length = k * n) (hp : Blocks k n ps) (s : Nat) :
    slice (patch n xs ps) (s * n) n = (lastWrite s ps).getD (slice xs (s * n) n) := by
  induction ps using List.reverseRecOn with
  | nil => rfl
  | append_singleton ps p ih =>
    obtain ⟨hps, hp⟩ := hp.of_concat
    have hfit := block_fits hp (length_patch hx hps)
    rw [patch_concat, lastWrite_concat]
    by_cases hs : p.1 = s
    · subst hs
      rw [if_pos rfl, Option.getD_some]
      have h := slice_blit_self hfit
      rwa [hp.2] at h
    · rw [if_neg hs, ← ih hps]
      apply slice_blit_disjoint hfit
      rw [hp.2]
      rcases Nat.lt_or_gt_of_ne hs with h | h
      · exact .inr (block_le h)
      · exact .inl (block_le h)

end WebAdf.Lib
