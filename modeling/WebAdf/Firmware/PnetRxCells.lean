import Mathlib.Algebra.Order.Round
import Mathlib.Data.Real.Archimedean
import Mathlib.Tactic.Positivity
import WebAdf.Firmware.PnetRxSafe
import WebAdf.Lib.LeastSquares

/-!
# The raw decoder counts an Amiga's cells

An Amiga's cell is `c` nanoseconds and its pulse is low for `p`, which the board
does not see: a gap of `n` cells reads as `n * c - p`, to the nanosecond. Counted
at the nominal cell, with the low time the sync gives, a gap of up to 23 cells is
`n` and a longer one at least 24. The cell fitted to the samples is `c`, to
seventeen sixteenths of a nanosecond, and counts up to 64.
-/

namespace WebAdf.Firmware

open Lib

/-- An Amiga's cell and the low time of its pulse. -/
structure AmigaCell (c p : ℝ) : Prop where
  cell : 1955 ≤ c ∧ c ≤ 2005
  low : 150 ≤ p ∧ p ≤ 1700

/-- The time of a gap of `n` cells, rounded to a nanosecond. -/
def Reads (c p : ℝ) (n t : Nat) : Prop := |(t : ℝ) - (n * c - p)| ≤ 1 / 2

theorem Reads.bounds (h : Reads c p n t) :
    n * c - p - 1 / 2 ≤ (t : ℝ) ∧ (t : ℝ) ≤ n * c - p + 1 / 2 := by
  obtain ⟨hlo, hhi⟩ := abs_le.mp h
  constructor <;> linarith

/-- The whole number nearest to a time is a reading of it. -/
theorem reads_round {c p : ℝ} {n : Nat} (hp : p ≤ n * c) : Reads c p n (round (n * c - p)).toNat := by
  have hnn : 0 ≤ round ((n : ℝ) * c - p) := by
    rw [round_eq]
    exact Int.floor_nonneg.mpr (by linarith)
  have hcast : (((round ((n : ℝ) * c - p)).toNat : Nat) : ℝ) = (round ((n : ℝ) * c - p) : Int) := by
    exact_mod_cast congrArg (fun z : Int => (z : ℝ)) (Int.toNat_of_nonneg hnn)
  rw [Reads, hcast, abs_sub_comm]
  exact abs_sub_round _

namespace PnetRx

-- ---------------------------------------------------------------------------
-- At the nominal cell
-- ---------------------------------------------------------------------------

/-- The low time is what a gap of 16 cells, or of 2, leaves. -/
structure Synced (r : PnetRx) (c p : ℝ) : Prop where
  low : ∃ m s : Nat, (m = 2 ∨ m = 16) ∧ r.pwNs = (m * 2000 : Nat) - (s : Int) ∧ Reads c p m s

theorem clamped_reads (ha : AmigaCell c p) (hn : n ≤ 64) (ht : Reads c p n t) : clamped t = t := by
  have hc := ha.cell
  have hp := ha.low
  have hn' : (n : ℝ) ≤ 64 := by exact_mod_cast hn
  have hnc : (n : ℝ) * c ≤ 64 * 2005 := mul_le_mul hn' hc.2 (by linarith) (by norm_num)
  have hreal : (t : ℝ) ≤ 132000 := by linarith [ht.bounds.2]
  have hnat : t ≤ 132000 := by exact_mod_cast hreal
  rw [clamped, if_neg (by omega)]

/-- How far the time of a gap is from that of its cells at the nominal cell. -/
theorem nominal_time {r : PnetRx} {m n s t : Nat} (hm : r.pwNs = (m * 2000 : Nat) - (s : Int)) (hs : Reads c p m s)
    (ht : Reads c p n t) :
    |((t + r.pwNs + 1000 : Int) : ℝ) - (2000 * n + 1000 + (n - m) * (c - 2000))| ≤ 1 := by
  have hs' := hs.bounds
  have ht' := ht.bounds
  rw [hm]
  push_cast
  rw [abs_le]
  constructor <;> linarith

theorem nominal_eq {r : PnetRx} (ha : AmigaCell c p) (hr : r.Synced c p) (hn : 1 ≤ n ∧ n ≤ 23)
    (ht : Reads c p n t) : r.nominal t = n := by
  obtain ⟨m, s, hm, hpw, hs⟩ := hr.low
  have hc := ha.cell
  obtain ⟨hlo, hhi⟩ := abs_le.mp (nominal_time hpw hs ht)
  have hn' : (1 : ℝ) ≤ n ∧ (n : ℝ) ≤ 23 := by exact_mod_cast hn
  have hm' : (m : ℝ) = 2 ∨ (m : ℝ) = 16 := by exact_mod_cast hm
  have hdev : -945 ≤ ((n : ℝ) - m) * (c - 2000) ∧ ((n : ℝ) - m) * (c - 2000) ≤ 675 := by
    obtain hle | hge := le_total (n : ℝ) m
    · constructor
      · have h := mul_le_mul_of_nonneg_left (show c - 2000 ≤ 5 by linarith) (sub_nonneg.mpr hle)
        obtain hm' | hm' := hm' <;> linarith
      · have h := mul_le_mul_of_nonneg_left (show -45 ≤ c - 2000 by linarith) (sub_nonneg.mpr hle)
        obtain hm' | hm' := hm' <;> linarith
    · constructor
      · have h := mul_le_mul_of_nonneg_left (show -45 ≤ c - 2000 by linarith) (sub_nonneg.mpr hge)
        obtain hm' | hm' := hm' <;> linarith
      · have h := mul_le_mul_of_nonneg_left (show c - 2000 ≤ 5 by linarith) (sub_nonneg.mpr hge)
        obtain hm' | hm' := hm' <;> linarith
  have hreal : ((2000 * n : Int) : ℝ) ≤ ((t + r.pwNs + 1000 : Int) : ℝ) ∧
      ((t + r.pwNs + 1000 : Int) : ℝ) < ((2000 * n + 2000 : Int) : ℝ) := by
    have hcast : ((2000 * n : Int) : ℝ) = 2000 * n := by push_cast; ring
    have hcast' : ((2000 * n + 2000 : Int) : ℝ) = 2000 * n + 2000 := by push_cast; ring
    rw [hcast, hcast']
    constructor <;> linarith
  have hint : (2000 * n : Int) ≤ t + r.pwNs + 1000 ∧ (t + r.pwNs + 1000 : Int) < 2000 * n + 2000 :=
    ⟨Int.cast_le.mp hreal.1, Int.cast_lt.mp hreal.2⟩
  rw [nominal, clamped_reads ha (by omega) ht]
  omega

theorem nominal_long {r : PnetRx} (ha : AmigaCell c p) (hr : r.Synced c p) (hn : 24 ≤ n ∧ n ≤ 64)
    (ht : Reads c p n t) : 24 ≤ r.nominal t := by
  obtain ⟨m, s, hm, hpw, hs⟩ := hr.low
  have hc := ha.cell
  obtain ⟨hlo, hhi⟩ := abs_le.mp (nominal_time hpw hs ht)
  have hn' : (24 : ℝ) ≤ n := by exact_mod_cast hn.1
  have hm' : (m : ℝ) = 2 ∨ (m : ℝ) = 16 := by exact_mod_cast hm
  have hdev : -45 * ((n : ℝ) - 2) ≤ ((n : ℝ) - m) * (c - 2000) := by
    have h := mul_le_mul_of_nonneg_left (show -45 ≤ c - 2000 by linarith)
      (show (0 : ℝ) ≤ n - m by obtain hm' | hm' := hm' <;> linarith)
    obtain hm' | hm' := hm' <;> linarith
  have hreal : ((48000 : Int) : ℝ) ≤ ((t + r.pwNs + 1000 : Int) : ℝ) := by
    have hcast : ((48000 : Int) : ℝ) = 48000 := by norm_num
    rw [hcast]
    linarith
  have hint : (48000 : Int) ≤ t + r.pwNs + 1000 := Int.cast_le.mp hreal
  rw [nominal, clamped_reads ha hn.2 ht]
  omega

-- ---------------------------------------------------------------------------
-- By the fit
-- ---------------------------------------------------------------------------

/-- The decoder's samples are `S`, and its fit, when there is one, is theirs. -/
structure Cal (r : PnetRx) (S : List (Nat × Nat)) : Prop where
  k : r.calK = S.length
  sn : r.calSn = (S.map fun a => a.1).sum
  snn : r.calSnn = (S.map fun a => a.1 * a.1).sum
  st : r.calSt = (S.map fun a => a.2).sum
  snt : r.calSnt = (S.map fun a => a.1 * a.2).sum
  fit : r.calC16 = 0 ∨ (r.calC16 = r.calCell.toNat ∧ r.calP16 = r.calLow)

theorem cast_sum (f : Nat × Nat → Nat) (S : List (Nat × Nat)) :
    ((S.map f).sum : ℝ) = (S.map fun a => (f a : ℝ)).sum := by
  induction S with
  | nil => simp
  | cons a S ih => simp [ih]

def cellsOf (a : Nat × Nat) : ℝ := a.1

def timeOf (a : Nat × Nat) : ℝ := a.2

theorem Cal.den {r : PnetRx} (h : r.Cal S) : (r.calDen : ℝ) = covar cellsOf cellsOf S := by
  rw [calDen, h.k, h.snn, h.sn, covar]
  simp only [Int.cast_sub, Int.cast_mul, Int.cast_natCast, cast_sum, Nat.cast_mul]
  rfl

theorem Cal.num {r : PnetRx} (h : r.Cal S) : (r.calNum : ℝ) = covar cellsOf timeOf S := by
  rw [calNum, h.k, h.snt, h.sn, h.st, covar]
  simp only [Int.cast_sub, Int.cast_mul, Int.cast_natCast, cast_sum, Nat.cast_mul]
  rfl

/-- Samples as an Amiga gives them. -/
def Samples16 (c p : ℝ) (S : List (Nat × Nat)) : Prop := ∀ a ∈ S, a.1 ≤ 16 ∧ Reads c p a.1 a.2

/-- Whole numbers of cells differ more than the rounding does. -/
theorem outweigh (h : Samples16 c p S) : ∀ a ∈ S, ∀ b ∈ S,
    |(cellsOf a - cellsOf b) * ((timeOf a - (cellsOf a * c - p)) - (timeOf b - (cellsOf b * c - p)))| ≤
      (cellsOf a - cellsOf b) * (cellsOf a - cellsOf b) := by
  intro a ha b hb
  have hea := (h a ha).2
  have heb := (h b hb).2
  have hdiff : |(timeOf a - (cellsOf a * c - p)) - (timeOf b - (cellsOf b * c - p))| ≤ 1 := by
    have htri := abs_sub (timeOf a - (cellsOf a * c - p)) (timeOf b - (cellsOf b * c - p))
    simp only [Reads] at hea heb
    simp only [timeOf, cellsOf] at htri ⊢
    linarith
  have hint : |cellsOf a - cellsOf b| ≤ (cellsOf a - cellsOf b) * (cellsOf a - cellsOf b) := by
    have hz : |(a.1 : Int) - b.1| ≤ ((a.1 : Int) - b.1) * ((a.1 : Int) - b.1) := by
      rw [← abs_mul_abs_self ((a.1 : Int) - b.1)]
      obtain h0 | h1 := (abs_nonneg ((a.1 : Int) - b.1)).eq_or_lt
      · rw [← h0, mul_zero]
      · exact le_mul_of_one_le_left h1.le h1
    simp only [cellsOf]
    exact_mod_cast hz
  rw [abs_mul]
  calc _ ≤ |cellsOf a - cellsOf b| * 1 := mul_le_mul_of_nonneg_left hdiff (abs_nonneg _)
    _ ≤ _ := by rw [mul_one]; exact hint

/-- The slope of the samples is the Amiga's cell, to a nanosecond. -/
theorem slope_bounds {r : PnetRx} (hcal : r.Cal S) (hS : Samples16 c p S) :
    (c - 1) * r.calDen ≤ r.calNum ∧ (r.calNum : ℝ) ≤ (c + 1) * r.calDen := by
  rw [hcal.den, hcal.num]
  refine slope_near (d := -p) (e := fun a => timeOf a - (cellsOf a * c - p)) ?_ (outweigh hS)
  intro a _
  ring

theorem den_pos {r : PnetRx} (hcal : r.Cal S) (ha : a ∈ S) (hb : b ∈ S) (hne : a.1 ≠ b.1) :
    0 < r.calDen := by
  have hpos : 0 < covar cellsOf cellsOf S :=
    covar_self_pos ha hb (by simpa [cellsOf] using hne)
  rw [← hcal.den] at hpos
  exact_mod_cast hpos

/-- The fitted cell is within 17 sixteenths of the Amiga's. -/
theorem calCell_near {r : PnetRx} (ha : AmigaCell c p) (hcal : r.Cal S) (hS : Samples16 c p S)
    (hden : 0 < r.calDen) : 16 * c - 17 ≤ r.calCell ∧ (r.calCell : ℝ) ≤ 16 * c + 16 := by
  have hc := ha.cell
  obtain ⟨hlo, hhi⟩ := slope_bounds hcal hS
  have hdenR : (0 : ℝ) < r.calDen := by exact_mod_cast hden
  have hnum : (0 : ℝ) ≤ r.calNum := by
    have h := mul_nonneg (show 0 ≤ c - 1 by linarith) hdenR.le
    linarith
  have hnumZ : 0 ≤ 16 * r.calNum := by
    have h : 0 ≤ r.calNum := by exact_mod_cast hnum
    omega
  have hq : r.calCell = 16 * r.calNum / r.calDen := Int.tdiv_eq_ediv_of_nonneg hnumZ
  have hle : r.calCell * r.calDen ≤ 16 * r.calNum := by
    rw [hq]
    exact Int.ediv_mul_le _ hden.ne'
  have hlt : 16 * r.calNum < (r.calCell + 1) * r.calDen := by
    rw [hq]
    exact Int.lt_ediv_add_one_mul_self _ hden
  have hleR : (r.calCell : ℝ) * r.calDen ≤ 16 * r.calNum := by exact_mod_cast hle
  have hltR : 16 * (r.calNum : ℝ) < (r.calCell + 1) * r.calDen := by exact_mod_cast hlt
  constructor
  · have h : (16 * (c - 1)) * (r.calDen : ℝ) < (r.calCell + 1) * r.calDen := by linarith
    have h' := lt_of_mul_lt_mul_right h hdenR.le
    linarith
  · have h : (r.calCell : ℝ) * r.calDen ≤ (16 * (c + 1)) * r.calDen := by linarith
    have h' := le_of_mul_le_mul_right h hdenR
    linarith

/-- What the low time is fitted from, sample by sample. -/
theorem low_sum (q : Int) (hS : Samples16 c p S) (hq : 16 * c - 17 ≤ q ∧ (q : ℝ) ≤ 16 * c + 16) :
    |(q : ℝ) * (S.map cellsOf).sum - 16 * (S.map timeOf).sum - S.length * (16 * p)| ≤
      S.length * 280 := by
  induction S with
  | nil => simp
  | cons a S ih =>
    have hrest := ih fun b hb => hS b (List.mem_cons_of_mem _ hb)
    obtain ⟨hn, ht⟩ := hS a (List.mem_cons_self ..)
    have hb := ht.bounds
    have hn' : (0 : ℝ) ≤ a.1 ∧ (a.1 : ℝ) ≤ 16 := by exact_mod_cast And.intro (Nat.zero_le _) hn
    have hdev : |((q : ℝ) - 16 * c) * a.1| ≤ 17 * 16 := by
      rw [abs_mul, abs_of_nonneg hn'.1]
      have hqc : |(q : ℝ) - 16 * c| ≤ 17 := abs_le.mpr ⟨by linarith, by linarith⟩
      exact mul_le_mul hqc hn'.2 hn'.1 (by norm_num)
    obtain ⟨hdlo, hdhi⟩ := abs_le.mp hdev
    obtain ⟨hrlo, hrhi⟩ := abs_le.mp hrest
    simp only [List.map_cons, List.sum_cons, List.length_cons, cellsOf, timeOf] at hrlo hrhi ⊢
    push_cast
    rw [abs_le]
    constructor <;> nlinarith

/-- The fitted low time is within 281 sixteenths of the pulse's. -/
theorem calLow_near {r : PnetRx} (hcal : r.Cal S) (hS : Samples16 c p S) (hk : 0 < r.calK)
    (hq : 16 * c - 17 ≤ r.calCell ∧ (r.calCell : ℝ) ≤ 16 * c + 16) :
    |(r.calLow : ℝ) - 16 * p| ≤ 281 := by
  have hsum := low_sum r.calCell hS hq
  have hsn : (S.map cellsOf).sum = (r.calSn : ℝ) := by
    rw [hcal.sn]
    exact (cast_sum _ _).symm
  have hst : (S.map timeOf).sum = (r.calSt : ℝ) := by
    rw [hcal.st]
    exact (cast_sum _ _).symm
  rw [hsn, hst, ← hcal.k] at hsum
  have hkZ : (0 : Int) < r.calK := by omega
  have hdiv : |r.calCell * r.calSn - 16 * r.calSt - r.calK * r.calLow| ≤ r.calK := by
    have hsplit := Int.tmod_add_mul_tdiv (r.calCell * r.calSn - 16 * r.calSt) r.calK
    have hlow : (r.calCell * r.calSn - 16 * r.calSt).tdiv r.calK = r.calLow := rfl
    rw [hlow] at hsplit
    have hlt := Int.tmod_lt_of_pos (r.calCell * r.calSn - 16 * r.calSt) hkZ
    have hgt := Int.lt_tmod_of_pos (r.calCell * r.calSn - 16 * r.calSt) hkZ
    rw [abs_le]
    constructor <;> linarith
  have hdivR : |(r.calCell : ℝ) * r.calSn - 16 * r.calSt - r.calK * r.calLow| ≤ r.calK := by
    exact_mod_cast hdiv
  have hkR : (0 : ℝ) < r.calK := by exact_mod_cast hk
  have htri : |(r.calK : ℝ) * (r.calLow - 16 * p)| ≤ r.calK * 281 := by
    obtain ⟨h1, h2⟩ := abs_le.mp hsum
    obtain ⟨h3, h4⟩ := abs_le.mp hdivR
    rw [abs_le]
    constructor <;> linarith
  rw [abs_mul, abs_of_pos hkR] at htri
  exact le_of_mul_le_mul_left htri hkR

/-- A cell and a low time this near count up to 64 cells. -/
theorem byFit_eq {r : PnetRx} (ha : AmigaCell c p) (hn : n ≤ 64) (ht : Reads c p n t)
    (hq : 16 * c - 17 ≤ r.calC16 ∧ (r.calC16 : ℝ) ≤ 16 * c + 16)
    (hp : |(r.calP16 : ℝ) - 16 * p| ≤ 281) : r.byFit t = n := by
  have hc := ha.cell
  have hb := ht.bounds
  have hn' : (0 : ℝ) ≤ n ∧ (n : ℝ) ≤ 64 := by exact_mod_cast And.intro (Nat.zero_le _) hn
  have hdev : |((r.calC16 : ℝ) - 16 * c) * n| ≤ 17 * 64 := by
    rw [abs_mul, abs_of_nonneg hn'.1]
    have hqc : |(r.calC16 : ℝ) - 16 * c| ≤ 17 := abs_le.mpr ⟨by linarith, by linarith⟩
    exact mul_le_mul hqc hn'.2 hn'.1 (by norm_num)
  obtain ⟨hdlo, hdhi⟩ := abs_le.mp hdev
  obtain ⟨hplo, hphi⟩ := abs_le.mp hp
  have hreal : |((t * 16 + r.calP16 - n * r.calC16 : Int) : ℝ)| ≤ ((1377 : Int) : ℝ) := by
    have hcast : ((1377 : Int) : ℝ) = 1377 := by norm_num
    rw [hcast]
    push_cast
    rw [abs_le]
    constructor <;> linarith
  have hint : |(t * 16 + r.calP16 - n * r.calC16 : Int)| ≤ 1377 := by exact_mod_cast hreal
  obtain ⟨hilo, hihi⟩ := abs_le.mp hint
  have hcell : 30000 ≤ r.calC16 := by
    have h : ((30000 : Nat) : ℝ) ≤ r.calC16 := by
      push_cast
      linarith
    exact_mod_cast h
  have hquot : (((t : Int) * 16 + r.calP16 + (r.calC16 / 2 : Nat)).tdiv r.calC16) = n := by
    have hprod : (0 : Int) ≤ n * r.calC16 := by positivity
    rw [Int.tdiv_eq_ediv_of_nonneg (by omega)]
    rw [show (t : Int) * 16 + r.calP16 + (r.calC16 / 2 : Nat) =
      (t * 16 + r.calP16 - n * r.calC16 + (r.calC16 / 2 : Nat)) + n * r.calC16 by ring,
      Int.add_mul_ediv_right _ _ (by omega), Int.ediv_eq_zero_of_lt (by omega) (by omega), zero_add]
  rw [byFit, clamped_reads ha hn ht, hquot, Int.toNat_natCast]

end PnetRx

end WebAdf.Firmware
