import Mathlib.Data.List.TakeWhile
import WebAdf.Firmware.PnetMfm

/-!
# The network link's run-length encoder

The encoder works on the source left. Its blocks decode, one after another, to
the source; a literal block that is not full is followed by a run, which pays
for the block's control byte, so the bound counts full blocks only.
-/

namespace WebAdf.Firmware

def pnetRleBound (n : Nat) : Nat := n + n / 127 + 2

/-- Equal bytes at the start, at most 127. -/
def runAt : Bytes → Nat
  | [] => 0
  | b :: src => 1 + ((src.take 126).takeWhile (· == b)).length

theorem runAt_pos (h : src ≠ []) : 0 < runAt src := by
  cases src with
  | nil => exact absurd rfl h
  | cons b src => exact Nat.lt_of_lt_of_le Nat.zero_lt_one (Nat.le_add_right _ _)

theorem runAt_le (src : Bytes) : runAt src ≤ 127 ∧ runAt src ≤ src.length := by
  cases src with
  | nil => exact ⟨Nat.zero_le _, Nat.le_refl _⟩
  | cons b src =>
    have h := (List.takeWhile_sublist (l := src.take 126) (· == b)).length_le
    rw [List.length_take] at h
    rw [runAt, List.length_cons]
    omega

/-- A run is one byte over and over. -/
theorem take_runAt (b : UInt8) (src : Bytes) :
    (b :: src).take (runAt (b :: src)) = List.replicate (runAt (b :: src)) b := by
  have hall : ∀ c ∈ (src.take 126).takeWhile (· == b), c = b := by
    intro c hc
    simpa using List.mem_takeWhile_imp hc
  have hpre : (src.take 126).takeWhile (· == b) <+: src :=
    (List.takeWhile_prefix _).trans (List.take_prefix _ _)
  rw [runAt, Nat.add_comm, List.take_succ_cons, List.replicate_succ,
    ← List.prefix_iff_eq_take.mp hpre]
  exact congrArg (b :: ·) (List.eq_replicate_of_mem hall)

/-- What is copied to a literal block that holds `lit` bytes, and the source after it. -/
def literalBlock (src : Bytes) (lit : Nat) : Bytes × Bytes :=
  if 0 < src.length ∧ lit < 127 then
    let r := runAt src
    if 3 ≤ r then ([], src)
    else
      -- A pair split by the block limit.
      let r := if lit + r > 127 then 127 - lit else r
      let (lits, rest) := literalBlock (src.drop r) (lit + r)
      (src.take r ++ lits, rest)
  else ([], src)
termination_by src.length
decreasing_by
  have hne : src ≠ [] := by
    rintro rfl
    simp_all
  have := runAt_pos hne
  rw [List.length_drop]
  split <;> omega

/-- The block copies the source's start, and stops when it is full, at the
source's end or before a run. -/
theorem literalBlock_spec (src : Bytes) (lit : Nat) (hlit : lit ≤ 127) :
    (literalBlock src lit).1 ++ (literalBlock src lit).2 = src ∧
      lit + (literalBlock src lit).1.length ≤ 127 ∧
      (lit + (literalBlock src lit).1.length = 127 ∨ (literalBlock src lit).2 = [] ∨
        3 ≤ runAt (literalBlock src lit).2) := by
  fun_induction literalBlock src lit with
  | case1 src lit hgo r hrun =>
    exact ⟨rfl, hlit, Or.inr (Or.inr hrun)⟩
  | case2 src lit hgo r0 hrun r lits rest hrec ih =>
    have hle := (runAt_le src).2
    have hr : lit + r ≤ 127 ∧ r ≤ src.length := by
      simp only [r]
      split <;> omega
    obtain ⟨happ, hfull, hstop⟩ := ih hr.1
    rw [hrec] at happ hfull hstop
    simp only at happ hfull hstop ⊢
    refine ⟨?_, ?_, ?_⟩
    · rw [List.append_assoc, happ, List.take_append_drop]
    · rw [List.length_append, List.length_take]
      omega
    · rw [List.length_append, List.length_take, Nat.min_eq_left hr.2, ← Nat.add_assoc]
      exact hstop
  | case3 src lit hstop =>
    refine ⟨rfl, hlit, ?_⟩
    by_cases hsrc : src = []
    · exact Or.inr (Or.inl hsrc)
    · have := List.length_pos_iff.mpr hsrc
      exact Or.inl (by simp only [List.length_nil]; omega)

/-- A block that starts where no run does takes something. -/
theorem literalBlock_pos (hsrc : src ≠ []) (hrun : ¬3 ≤ runAt src) :
    0 < (literalBlock src 0).1.length := by
  obtain ⟨happ, -, hstop⟩ := literalBlock_spec src 0 (by decide)
  rcases hstop with h | h | h
  · omega
  · rw [h, List.append_nil] at happ
    rw [happ]
    exact List.length_pos_iff.mpr hsrc
  · by_contra hzero
    have hnil : (literalBlock src 0).1 = [] := List.eq_nil_of_length_eq_zero (by omega)
    rw [hnil, List.nil_append] at happ
    rw [happ] at h
    exact hrun h

def rleBlocks (src : Bytes) : Bytes :=
  if hsrc : src = [] then []
  else if hrun : 3 ≤ runAt src then
    UInt8.ofNat (runAt src) :: src.head hsrc :: rleBlocks (src.drop (runAt src))
  else
    UInt8.ofNat (0x80 ||| (literalBlock src 0).1.length) ::
      ((literalBlock src 0).1 ++ rleBlocks (literalBlock src 0).2)
termination_by src.length
decreasing_by
  · have := List.length_pos_iff.mpr hsrc
    rw [List.length_drop]
    omega
  · have hpos := literalBlock_pos hsrc hrun
    have happ := congrArg List.length (literalBlock_spec src 0 (by decide)).1
    rw [List.length_append] at happ
    omega

/-- The blocks, to an even length with one control byte that counts nothing. -/
def pnetRleEncode (src : Bytes) : Bytes :=
  let out := rleBlocks src
  if out.length &&& 1 ≠ 0 then out ++ [0] else out

-- ---------------------------------------------------------------------------
-- The blocks decode
-- ---------------------------------------------------------------------------

theorem control_count (h : k ≤ 127) : (UInt8.ofNat k).toNat &&& 0x7f = k ∧
    (UInt8.ofNat (0x80 ||| k)).toNat &&& 0x7f = k ∧ UInt8.ofNat k &&& 0x80 = 0 ∧
    UInt8.ofNat (0x80 ||| k) &&& 0x80 ≠ 0 := by
  have hall : ∀ k < 128, (UInt8.ofNat k).toNat &&& 0x7f = k ∧
      (UInt8.ofNat (0x80 ||| k)).toNat &&& 0x7f = k ∧ UInt8.ofNat k &&& 0x80 = 0 ∧
      UInt8.ofNat (0x80 ||| k) &&& 0x80 ≠ 0 := by decide
  exact hall k (by omega)

theorem rleDecodeFrom_run (hk : 0 < k ∧ k ≤ 127) (hcap : written.length + k ≤ cap) (b : UInt8)
    (rest : Bytes) : rleDecodeFrom cap written (UInt8.ofNat k :: b :: rest) =
      rleDecodeFrom cap (written ++ List.replicate k b) rest := by
  obtain ⟨hcount, -, hrun, -⟩ := control_count hk.2
  rw [rleDecodeFrom.eq_def]
  dsimp only
  rw [hcount, if_neg (by omega), if_neg (by omega), if_neg (by simp [hrun])]

theorem rleDecodeFrom_literals (hk : 0 < lits.length ∧ lits.length ≤ 127)
    (hcap : written.length + lits.length ≤ cap) (rest : Bytes) :
    rleDecodeFrom cap written (UInt8.ofNat (0x80 ||| lits.length) :: (lits ++ rest)) =
      rleDecodeFrom cap (written ++ lits) rest := by
  obtain ⟨-, hcount, -, hlits⟩ := control_count hk.2
  rw [rleDecodeFrom.eq_def]
  dsimp only
  rw [hcount, if_neg (by omega), if_neg (by omega), if_pos hlits, if_neg (by simp),
    List.take_left' rfl, List.drop_left' rfl]

theorem rleDecodeFrom_blocks (hcap : written.length + src.length ≤ cap) (tail : Bytes) :
    rleDecodeFrom cap written (rleBlocks src ++ tail) =
      rleDecodeFrom cap (written ++ src) tail := by
  fun_induction rleBlocks src generalizing written with
  | case1 => rw [List.nil_append, List.append_nil]
  | case2 src hsrc hrun ih =>
    obtain ⟨b, src, rfl⟩ := List.exists_cons_of_ne_nil hsrc
    have hle := runAt_le (b :: src)
    have htake := take_runAt b src
    generalize runAt (b :: src) = r at *
    rw [List.cons_append, List.cons_append, List.head_cons,
      rleDecodeFrom_run ⟨by omega, hle.1⟩ (by omega), ih, List.append_assoc, ← htake,
      List.take_append_drop]
    rw [List.length_append, List.length_replicate, List.length_drop]
    omega
  | case3 src hsrc hrun ih =>
    have hpos := literalBlock_pos hsrc hrun
    obtain ⟨happ, hfull, -⟩ := literalBlock_spec src 0 (by decide)
    generalize (literalBlock src 0).1 = lits at *
    generalize (literalBlock src 0).2 = rest at *
    subst happ
    rw [List.length_append] at hcap
    rw [List.cons_append, List.append_assoc, rleDecodeFrom_literals ⟨hpos, by omega⟩ (by omega),
      ih (by rw [List.length_append]; omega), List.append_assoc]

theorem rleDecodeFrom_pad (written : Bytes) : rleDecodeFrom cap written [0] = (true, written) := by
  rw [rleDecodeFrom.eq_def]
  dsimp only
  rw [if_pos (by decide), rleDecodeFrom]

theorem rleDecodeFrom_encode (hcap : src.length ≤ cap) :
    rleDecodeFrom cap [] (pnetRleEncode src) = (true, src) := by
  have hblocks := fun tail => rleDecodeFrom_blocks (show ([] : Bytes).length + src.length ≤ cap by
    simpa using hcap) tail
  rw [pnetRleEncode]
  split
  · rw [hblocks, List.nil_append, rleDecodeFrom_pad]
  · rw [← List.append_nil (rleBlocks src), hblocks, List.nil_append, rleDecodeFrom]

/-- What was encoded decodes, into any room it fits. -/
theorem pnetRleDecode_encode (hcap : src.length ≤ cap) :
    pnetRleDecode (pnetRleEncode src) cap = (some src.length, src) := by
  rw [pnetRleDecode, rleDecodeFrom_encode hcap]
  rfl

-- ---------------------------------------------------------------------------
-- The bound
-- ---------------------------------------------------------------------------

/-- Each full literal block costs its control byte, and so may the last one. -/
theorem length_rleBlocks (src : Bytes) :
    (rleBlocks src).length ≤ src.length + src.length / 127 + (if 3 ≤ runAt src then 0 else 1) := by
  fun_induction rleBlocks src with
  | case1 => exact Nat.zero_le _
  | case2 src hsrc hrun ih =>
    have hle := (runAt_le src).2
    have hdiv : (src.length - runAt src) / 127 ≤ src.length / 127 :=
      Nat.div_le_div_right (Nat.sub_le _ _)
    have hone : (if 3 ≤ runAt (src.drop (runAt src)) then 0 else 1) ≤ 1 := by
      split <;> decide
    rw [List.length_drop] at ih
    rw [if_pos hrun, List.length_cons, List.length_cons]
    omega
  | case3 src hsrc hrun ih =>
    have hpos := literalBlock_pos hsrc hrun
    obtain ⟨happ, hfull, hstop⟩ := literalBlock_spec src 0 (by decide)
    rw [if_neg hrun]
    clear hrun
    generalize (literalBlock src 0).1 = lits at *
    generalize (literalBlock src 0).2 = rest at *
    subst happ
    rw [List.length_cons, List.length_append, List.length_append]
    rcases hstop with hstop | rfl | hstop
    · have hone : (if 3 ≤ runAt rest then 0 else 1) ≤ 1 := by
        split <;> decide
      omega
    · rw [rleBlocks, dif_pos rfl, List.length_nil]
      omega
    · rw [if_pos hstop] at ih
      omega

theorem length_pnetRleEncode_le (src : Bytes) :
    (pnetRleEncode src).length ≤ pnetRleBound src.length := by
  have hblocks := length_rleBlocks src
  have hone : (if 3 ≤ runAt src then 0 else 1) ≤ 1 := by
    split <;> decide
  rw [pnetRleEncode, pnetRleBound]
  split
  · rw [List.length_append, List.length_singleton]
    omega
  · omega

theorem pnetRleEncode_even (src : Bytes) : (pnetRleEncode src).length % 2 = 0 := by
  have hmod := Nat.and_one_is_mod (rleBlocks src).length
  rw [pnetRleEncode]
  split
  · rw [List.length_append, List.length_singleton]
    omega
  · omega

end WebAdf.Firmware
