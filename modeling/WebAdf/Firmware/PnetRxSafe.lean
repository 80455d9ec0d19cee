import WebAdf.Firmware.FluxBits
import WebAdf.Firmware.PnetRx

/-!
# The raw decoder leaves no type and no buffer

Whatever values a capture holds, every sum and product of the decoder fits its
type and every store its buffer: the samples are at most 64, of at most 16 cells
and of bounded times, and the fit is kept only near the nominal cell. The bytes
reported are the bytes cleared, and hold the bits decoded and zeros after them.
-/

namespace WebAdf.Firmware

open Lib

namespace PnetRx

-- ---------------------------------------------------------------------------
-- The samples
-- ---------------------------------------------------------------------------

/-- At most 64 samples, each of at most 16 cells and of the time of a 17-cell gap;
the fit, when there is one, near the nominal cell. -/
structure CalOk (r : PnetRx) : Prop where
  k : r.calK ≤ 64
  sn : r.calSn ≤ 16 * r.calK
  snn : r.calSnn ≤ 256 * r.calK
  st : r.calSt ≤ 34130 * r.calK
  snt : r.calSnt ≤ 546080 * r.calK
  fit : r.calC16 = 0 ∨ (30400 ≤ r.calC16 ∧ r.calC16 ≤ 32160 ∧ -546080 ≤ r.calP16 ∧ r.calP16 ≤ 514560)

/-- A sample taken, with no check. -/
def sampled (r : PnetRx) (n t : Nat) : PnetRx :=
  if r.calK ≥ 64 ∨ n > 16 then r
  else
    { r with
      calK := r.calK + 1, calSn := r.calSn + n, calSnn := r.calSnn + n * n, calSt := r.calSt + t,
      calSnt := r.calSnt + n * t, calC16 := 0 }

theorem product_le (hn : n ≤ 16) (ht : t ≤ 34130) : n * n ≤ 256 ∧ n * t ≤ 546080 :=
  ⟨Nat.mul_le_mul hn hn, Nat.mul_le_mul hn ht⟩

theorem calAdd_eq {r : PnetRx} (h : r.CalOk) (ht : t ≤ 34130) :
    r.calAdd n t = some (r.sampled n t) := by
  obtain ⟨hk, hsn, hsnn, hst, hsnt, -⟩ := h
  by_cases hfull : r.calK ≥ 64 ∨ n > 16
  · simp [calAdd, sampled, pnetRxCalMax, pnetSyncCells, hfull]
  · obtain ⟨hnn, hnt⟩ := product_le (n := n) (t := t) (by omega) ht
    simp [calAdd, sampled, pnetRxCalMax, pnetSyncCells, hfull,
      u32_ok (show r.calK + 1 < 2 ^ 32 by omega), u32_ok (show r.calSn + n < 2 ^ 32 by omega),
      u32_ok (show n * n < 2 ^ 32 by omega), u32_ok (show r.calSnn + n * n < 2 ^ 32 by omega),
      u32_ok (show r.calSt + t < 2 ^ 32 by omega), u32_ok (show n * t < 2 ^ 32 by omega),
      u32_ok (show r.calSnt + n * t < 2 ^ 32 by omega)]

theorem CalOk.sampled {r : PnetRx} (h : r.CalOk) (ht : t ≤ 34130) : (r.sampled n t).CalOk := by
  rw [PnetRx.sampled]
  split
  · exact h
  · obtain ⟨hk, hsn, hsnn, hst, hsnt, -⟩ := h
    obtain ⟨hnn, hnt⟩ := product_le (n := n) (t := t) (by omega) ht
    constructor
    case fit => exact .inl rfl
    all_goals
      simp only
      omega

theorem calReset_ok (r : PnetRx) : r.calReset.CalOk := by
  constructor <;> simp [calReset]

/-- What the fit divides, and by what. -/
def calNum (r : PnetRx) : Int := r.calK * r.calSnt - r.calSn * r.calSt

def calDen (r : PnetRx) : Int := r.calK * r.calSnn - r.calSn * r.calSn

/-- The cell the fit finds, in sixteenths. -/
def calCell (r : PnetRx) : Int := (16 * r.calNum).tdiv r.calDen

def calLow (r : PnetRx) : Int := (r.calCell * r.calSn - 16 * r.calSt).tdiv r.calK

/-- The fit, with no check. -/
def refit (r : PnetRx) : PnetRx × Bool :=
  if r.calC16 ≠ 0 then (r, true)
  else if (r.calK : Int) < 2 ∨ r.calDen ≤ 0 then (r, false)
  else if r.calCell < 16 * 1900 ∨ r.calCell > 16 * 2010 then (r, false)
  else ({ r with calC16 := r.calCell.toNat, calP16 := r.calLow }, true)

theorem tdiv_bounds {a k lo hi : Int} (hk : 0 < k) (hlo : lo * k ≤ a) (hhi : a ≤ hi * k)
    (h0 : lo ≤ 0) (h1 : 0 ≤ hi) : lo ≤ a.tdiv k ∧ a.tdiv k ≤ hi := by
  constructor
  · obtain ha | ha := Int.le_total 0 a
    · exact h0.trans (Int.tdiv_nonneg ha hk.le)
    · have hneg : (-a).tdiv k ≤ -lo := by
        rw [Int.tdiv_eq_ediv_of_nonneg (by omega)]
        exact Int.ediv_le_of_le_mul hk (by linarith)
      rw [Int.neg_tdiv] at hneg
      omega
  · obtain ha | ha := Int.le_total 0 a
    · rw [Int.tdiv_eq_ediv_of_nonneg ha]
      exact Int.ediv_le_of_le_mul hk hhi
    · have hneg : 0 ≤ (-a).tdiv k := Int.tdiv_nonneg (by omega) hk.le
      rw [Int.neg_tdiv] at hneg
      omega

/-- The low time fitted with a cell near the nominal one. -/
theorem calLow_bounds {r : PnetRx} (h : r.CalOk) (hk : 2 ≤ r.calK)
    (hc : 30400 ≤ r.calCell ∧ r.calCell ≤ 32160) :
    (-546080 ≤ r.calLow ∧ r.calLow ≤ 514560) ∧ 0 ≤ r.calCell * r.calSn ∧
      r.calCell * r.calSn ≤ 514560 * r.calK := by
  have hsn := h.sn
  have hst := h.st
  have hpos : 0 ≤ r.calCell * r.calSn := mul_nonneg (by omega) (by omega)
  have hcell : r.calCell * r.calSn ≤ 32160 * r.calSn :=
    Int.mul_le_mul_of_nonneg_right hc.2 (by omega)
  exact ⟨tdiv_bounds (by omega) (by omega) (by omega) (by decide) (by decide), hpos, by omega⟩

/-- The products of the fit. -/
theorem CalOk.products {r : PnetRx} (h : r.CalOk) :
    r.calK * r.calSnn ≤ 1048576 ∧ r.calSn * r.calSn ≤ 1048576 ∧
      r.calK * r.calSnt ≤ 2236743680 ∧ r.calSn * r.calSt ≤ 2236743680 := by
  obtain ⟨hk, hsn, hsnn, hst, hsnt, -⟩ := h
  exact ⟨Nat.mul_le_mul (show r.calK ≤ 64 by omega) (show r.calSnn ≤ 16384 by omega),
    Nat.mul_le_mul (show r.calSn ≤ 1024 by omega) (show r.calSn ≤ 1024 by omega),
    Nat.mul_le_mul (show r.calK ≤ 64 by omega) (show r.calSnt ≤ 34949120 by omega),
    Nat.mul_le_mul (show r.calSn ≤ 1024 by omega) (show r.calSt ≤ 2184320 by omega)⟩

theorem calFit_eq {r : PnetRx} (h : r.CalOk) : r.calFit = some r.refit := by
  rw [calFit, refit]
  by_cases hc : r.calC16 ≠ 0
  · rw [if_pos hc, if_pos hc]
  obtain ⟨hksnn, hsnsn, hksnt, hsnst⟩ := h.products
  zify at hksnn hsnsn hksnt hsnst
  have h1 : (0 : Int) ≤ r.calK * r.calSnn := by positivity
  have h2 : (0 : Int) ≤ r.calSn * r.calSn := by positivity
  have h3 : (0 : Int) ≤ r.calK * r.calSnt := by positivity
  have h4 : (0 : Int) ≤ r.calSn * r.calSt := by positivity
  have hnum : r.calNum = r.calK * r.calSnt - r.calSn * r.calSt := rfl
  have hden : r.calDen = r.calK * r.calSnn - r.calSn * r.calSn := rfl
  have e1 := i64_ok (z := (r.calK * r.calSnn : Int)) (by omega)
  have e2 := i64_ok (z := (r.calSn * r.calSn : Int)) (by omega)
  have e3 := i64_ok (z := r.calDen) (by omega)
  simp only [if_neg hc, e1, e2, ← hden, e3, Option.bind_eq_bind, Option.bind_some]
  split
  · rfl
  rename_i hk
  have e4 := i64_ok (z := (r.calK * r.calSnt : Int)) (by omega)
  have e5 := i64_ok (z := (r.calSn * r.calSt : Int)) (by omega)
  have e6 := i64_ok (z := r.calNum) (by omega)
  have e7 := i64_ok (z := 16 * r.calNum) (by omega)
  have hcell : (16 * r.calNum).tdiv r.calDen = r.calCell := rfl
  simp only [e4, e5, ← hnum, e6, e7, Option.bind_some, hcell]
  split
  · rfl
  rename_i hrange
  obtain ⟨⟨hlo, hhi⟩, hpos, hmax⟩ := calLow_bounds h (by omega) (by omega)
  have hst := h.st
  have hkk := h.k
  have hlow : (r.calCell * r.calSn - 16 * r.calSt).tdiv r.calK = r.calLow := rfl
  have e8 := i64_ok (z := r.calCell * r.calSn) (by omega)
  have e9 := i64_ok (z := 16 * (r.calSt : Int)) (by omega)
  have e10 := i64_ok (z := r.calCell * r.calSn - 16 * r.calSt) (by omega)
  have e11 := i32_ok (z := r.calLow) (by omega)
  simp only [e8, e9, e10, hlow, e11, Option.bind_some]

theorem CalOk.refit {r : PnetRx} (h : r.CalOk) :
    r.refit.1.CalOk ∧ (r.refit.2 = true → r.refit.1.calC16 ≠ 0) := by
  rw [PnetRx.refit]
  split
  · rename_i hc
    exact ⟨h, fun _ => hc⟩
  split
  · exact ⟨h, by simp⟩
  split
  · exact ⟨h, by simp⟩
  · rename_i hk hrange
    obtain ⟨hlow, -, -⟩ := calLow_bounds h (by omega) (by omega)
    refine ⟨⟨h.k, h.sn, h.snn, h.st, h.snt, .inr ⟨?_, ?_, hlow⟩⟩, fun _ => ?_⟩
    all_goals
      simp only
      omega

-- ---------------------------------------------------------------------------
-- The count
-- ---------------------------------------------------------------------------

/-- The time an interval is counted by. -/
def clamped (ns : Nat) : Nat := if ns > 132000 then 132000 else ns

theorem clamped_le (ns : Nat) : clamped ns ≤ 132000 := by
  rw [clamped]
  split <;> omega

/-- The cells of an interval at the nominal cell. -/
def nominal (r : PnetRx) (ns : Nat) : Nat := max 1 ((clamped ns + r.pwNs + 1000).toNat / 2000)

/-- The cells of an interval with the fit. -/
def byFit (r : PnetRx) (ns : Nat) : Nat :=
  ((clamped ns * 16 + r.calP16 + (r.calC16 / 2 : Nat)).tdiv r.calC16).toNat

/-- The count, with no check. -/
def counted (r : PnetRx) (ns : Nat) : PnetRx × Nat :=
  let cells := r.nominal ns
  if cells ≤ 16 then (r.sampled cells (clamped ns), cells)
  else if cells ≥ 24 then (r.refit.1, if r.refit.2 then r.refit.1.byFit ns else cells)
  else (r, cells)

/-- The low time the sync leaves. -/
def LowOk (r : PnetRx) : Prop := -130 ≤ r.pwNs ∧ r.pwNs ≤ 1980

theorem refit_fst (r : PnetRx) :
    r.refit.1 = { r with calC16 := r.refit.1.calC16, calP16 := r.refit.1.calP16 } := by
  rw [refit]
  split
  · rfl
  split
  · rfl
  split <;> rfl

theorem fitted_eq {r : PnetRx} (h : r.CalOk) (hc : r.calC16 ≠ 0) (hns : 40000 ≤ clamped ns) :
    r.fitted (clamped ns) = some (r.byFit ns) := by
  obtain h0 | ⟨hlo, hhi, hplo, hphi⟩ := h.fit
  · exact absurd h0 hc
  have hmax := clamped_le ns
  have hnn : 0 ≤ (clamped ns * 16 + r.calP16 + (r.calC16 / 2 : Nat)).tdiv r.calC16 :=
    Int.tdiv_nonneg (by omega) (by omega)
  have e1 := i32_ok (z := (clamped ns : Int) * 16) (by omega)
  have e2 := i32_ok (z := (clamped ns : Int) * 16 + r.calP16) (by omega)
  have e3 := i32_ok (z := (clamped ns : Int) * 16 + r.calP16 + (r.calC16 / 2 : Nat)) (by omega)
  simp only [fitted, e1, e2, e3, Option.bind_eq_bind, Option.bind_some, toUnsigned_ok hnn, byFit]

theorem count_eq {r : PnetRx} (h : r.CalOk) (hpw : r.LowOk) : r.count ns = some (r.counted ns) := by
  obtain ⟨hlo, hhi⟩ := hpw
  have hmax := clamped_le ns
  have e1 := i32_ok (z := (clamped ns : Int) + r.pwNs) (by omega)
  have e2 := i32_ok (z := (clamped ns : Int) + r.pwNs + 1000) (by omega)
  have hclamp : (if ns > (pnetRxMaxCells + 2) * pnetCellNs then (pnetRxMaxCells + 2) * pnetCellNs
      else ns) = clamped ns := rfl
  have hhalf : ((pnetCellNs / 2 : Nat) : Int) = 1000 := rfl
  have hnom : (if (if (clamped ns : Int) + r.pwNs + 1000 > 0 then
        ((clamped ns : Int) + r.pwNs + 1000).toNat / pnetCellNs else 0) < 1 then 1
      else if (clamped ns : Int) + r.pwNs + 1000 > 0 then
        ((clamped ns : Int) + r.pwNs + 1000).toNat / pnetCellNs else 0) = r.nominal ns := by
    have hpos : (clamped ns : Int) + r.pwNs + 1000 > 0 := by omega
    have hcell : pnetCellNs = 2000 := rfl
    simp only [if_pos hpos, nominal, hcell]
    split <;> omega
  simp only [count, hclamp, e1, hhalf, e2, Option.bind_eq_bind, Option.bind_some, hnom, counted,
    pnetSyncCells, pnetRxCalCells]
  by_cases hshort : r.nominal ns ≤ 16
  · rw [if_pos hshort, if_pos hshort]
    have ht : clamped ns ≤ 34130 := by
      rw [nominal] at hshort
      omega
    rw [calAdd_eq h ht, Option.bind_some]
  rw [if_neg hshort, if_neg hshort]
  by_cases hlong : r.nominal ns ≥ 24
  · rw [if_pos hlong, if_pos hlong, calFit_eq h, Option.bind_some]
    obtain ⟨hok, hfit⟩ := h.refit
    cases hf : r.refit.2 with
    | false => simp
    | true =>
      have hns : 40000 ≤ clamped ns := by
        rw [nominal] at hlong
        omega
      simp only [if_true, fitted_eq hok (hfit hf) hns, Option.bind_some]
  · rw [if_neg hlong, if_neg hlong]

/-- The count only changes the samples and the fit. -/
theorem counted_frame (r : PnetRx) (ns : Nat) :
    ∃ k sn snn st snt c p, (r.counted ns).1 =
      { r with
        calK := k, calSn := sn, calSnn := snn, calSt := st, calSnt := snt, calC16 := c, calP16 := p } := by
  rw [counted]
  split
  · rw [sampled]
    split
    · exact ⟨_, _, _, _, _, _, _, rfl⟩
    · exact ⟨_, _, _, _, _, _, _, rfl⟩
  split
  · exact ⟨_, _, _, _, _, _, _, refit_fst r⟩
  · exact ⟨_, _, _, _, _, _, _, rfl⟩

theorem counted_ok {r : PnetRx} (h : r.CalOk) (hpw : r.LowOk) :
    (r.counted ns).1.CalOk := by
  obtain ⟨hlo, hhi⟩ := hpw
  rw [counted]
  split
  · rename_i hshort
    refine h.sampled ?_
    rw [nominal] at hshort
    omega
  split
  · exact h.refit.1
  · exact h

-- ---------------------------------------------------------------------------
-- The buffer
-- ---------------------------------------------------------------------------

/-- An interval of `g` cells: its empty cells and the one after them. -/
def gapBits (g : Nat) : List Bool := List.replicate (g - 1) false ++ [true]

theorem gapBits_length (h : 1 ≤ g) : (gapBits g).length = g := by
  simp [gapBits]
  omega

theorem getD_append_gapBits (bits : List Bool) (h : 1 ≤ g) (b : Nat) :
    (bits ++ gapBits g).getD b false =
      (bits.getD b false || decide (b = bits.length + g - 1)) := by
  simp only [List.getD_eq_getElem?_getD, gapBits, List.getElem?_append, List.length_replicate]
  by_cases hold : b < bits.length
  · rw [if_pos hold, decide_eq_false (by omega), Bool.or_false]
  · rw [if_neg hold, List.getElem?_eq_none (by omega : bits.length ≤ b)]
    by_cases hzero : b - bits.length < g - 1
    · rw [if_pos hzero, decide_eq_false (by omega), List.getElem?_replicate, if_pos hzero]
      rfl
    · rw [if_neg hzero]
      obtain hone | hpast : b - bits.length = g - 1 ∨ g - 1 < b - bits.length := by omega
      · rw [decide_eq_true (by omega), hone, Nat.sub_self]
        rfl
      · rw [decide_eq_false (by omega), List.getElem?_eq_none (by simp; omega)]
        rfl

/-- The first `cleared` bytes hold `bits`, and zeros after them. -/
structure Inv (r : PnetRx) (bits : List Bool) : Prop where
  room : 8 * r.buf.length + 64 < 2 ^ 32
  cap : r.capBits = 8 * r.buf.length
  bit : r.bit = bits.length
  fits : bits.length ≤ r.capBits
  cleared : r.cleared = (bits.length + 7) / 8
  holds : ∀ b < 8 * r.cleared, bitAt r.buf b = bits.getD b false
  low : r.LowOk
  cal : r.CalOk

/-- The same but for the buffer and what is told of it. -/
def Beside (r r' : PnetRx) : Prop :=
  r' = { r with
    buf := r'.buf, bit := r'.bit, cleared := r'.cleared, overflowed := r'.overflowed,
    outOfRange := r'.outOfRange }

theorem store_ok {r : PnetRx} {b : UInt8} (h : i < r.buf.length) :
    r.store i b = some { r with buf := r.buf.set i b } := if_pos h

/-- Rounds of the clear leave zeros, and nothing else changed. -/
theorem clear_ok (n : Nat) {r : PnetRx} (hn : r.cleared + n ≤ r.buf.length)
    (hlen : r.buf.length < 2 ^ 32) :
    ∃ buf, r.clear n = some { r with buf := buf, cleared := r.cleared + n } ∧
      buf.length = r.buf.length ∧
      ∀ i, buf.getD i 0 = if r.cleared ≤ i ∧ i < r.cleared + n then 0 else r.buf.getD i 0 := by
  induction n generalizing r with
  | zero =>
    refine ⟨r.buf, rfl, rfl, ?_⟩
    intro i
    rw [if_neg (by omega)]
  | succ n ih =>
    obtain ⟨buf, hrest, hbuf, hzero⟩ :=
      ih (r := { r with buf := r.buf.set r.cleared 0, cleared := r.cleared + 1 })
        (by simp only [List.length_set]; omega) (by simpa using hlen)
    refine ⟨buf, ?_, by simpa using hbuf, ?_⟩
    · rw [clear, store_ok (show r.cleared < r.buf.length by omega)]
      simp only [Option.bind_eq_bind, Option.bind_some, u32_ok (show r.cleared + 1 < 2 ^ 32 by omega),
        hrest, Option.some.injEq]
      rw [Nat.add_right_comm, Nat.add_assoc]
    · intro i
      rw [hzero]
      simp only [List.getD_eq_getElem?_getD, List.getElem?_set]
      by_cases hi : r.cleared = i
      · rw [if_neg (by omega), if_pos hi, if_pos (by omega), if_pos (by omega)]
        rfl
      · rw [if_neg hi]
        by_cases hin : r.cleared + 1 ≤ i ∧ i < r.cleared + 1 + n
        · rw [if_pos hin, if_pos (by omega)]
        · rw [if_neg hin, if_neg (by omega)]

theorem cleared_bitAt {buf buf' : Bytes} {lo n : Nat} {bits : List Bool}
    (hzero : ∀ i, buf'.getD i 0 = if lo ≤ i ∧ i < lo + n then 0 else buf.getD i 0)
    (hold : ∀ b < 8 * lo, bitAt buf b = bits.getD b false) (hbits : bits.length ≤ 8 * lo)
    (hb : b < 8 * (lo + n)) : bitAt buf' b = bits.getD b false := by
  rw [bitAt, hzero]
  by_cases hlo : lo ≤ b / 8
  · rw [if_pos ⟨hlo, by omega⟩, List.getD_eq_getElem?_getD, List.getElem?_eq_none (by omega)]
    simp
  · rw [if_neg (fun h => hlo h.1), ← bitAt]
    exact hold b (by omega)

/-- What does not fit is left out, for good. -/
theorem emit_ok {r : PnetRx} (h : r.Inv bits) (hc : 1 ≤ cells) :
    ∃ r', r.emit cells = some r' ∧ r.Beside r' ∧ r'.outOfRange ≤ r.outOfRange + 1 ∧
      if bits.length + min cells 64 ≤ r.capBits then
        r'.Inv (bits ++ gapBits (min cells 64)) ∧ r'.overflowed = r.overflowed
      else r'.Inv bits ∧ r'.overflowed = true := by
  obtain ⟨hroom, hcap, hbit, hfits, hcleared, hholds, hlow, hcal⟩ := h
  have hmin : (if cells > pnetRxMaxCells then pnetRxMaxCells else cells) = min cells 64 := by
    rw [pnetRxMaxCells]
    split <;> omega
  obtain ⟨oor, hoor, hr⟩ : ∃ oor, oor ≤ r.outOfRange + 1 ∧
      (if cells > pnetRxMaxCells then { r with outOfRange := bump r.outOfRange } else r) =
        { r with outOfRange := oor } := by
    split
    · exact ⟨_, bump_le _, rfl⟩
    · exact ⟨r.outOfRange, Nat.le_succ _, rfl⟩
  generalize hg : min cells 64 = g at hmin ⊢
  have hg1 : 1 ≤ g ∧ g ≤ 64 := by omega
  simp only [emit, hr, hmin, u32_ok (show r.bit + g < 2 ^ 32 by omega),
    minus_ok (show 1 ≤ r.bit + g by omega), Option.bind_eq_bind, Option.bind_some]
  by_cases hfit : bits.length + g ≤ r.capBits
  · rw [if_neg (by omega)]
    simp only [if_pos hfit]
    obtain ⟨buf, hclear, hlen, hzero⟩ :=
      clear_ok ((r.bit + g - 1) / 8 + 1 - r.cleared) (r := { r with outOfRange := oor })
        (by simp only; omega) (by simp only; omega)
    simp only at hzero hlen
    have hat : (r.bit + g - 1) / 8 < buf.length := by omega
    have hnow : r.cleared + ((r.bit + g - 1) / 8 + 1 - r.cleared) = (r.bit + g - 1) / 8 + 1 := by
      omega
    rw [hclear, Option.bind_some]
    simp only [List.getElem?_eq_getElem hat, Option.bind_some,
      store_ok (r := { r with buf := buf, outOfRange := oor, cleared := _ }) hat,
      u32_ok (show r.bit + g - 1 + 1 < 2 ^ 32 by omega)]
    refine ⟨_, rfl, rfl, hoor, ?_, rfl⟩
    have hset : buf.set ((r.bit + g - 1) / 8) (buf[(r.bit + g - 1) / 8] |||
        (0x80 >>> UInt8.ofNat ((r.bit + g - 1) % 8))) = setBit buf (r.bit + g - 1) := by
      rw [setBit, List.getD_eq_getElem?_getD, List.getElem?_eq_getElem hat, Option.getD_some]
    have hlast : (bits ++ gapBits g).length = bits.length + g := by
      rw [List.length_append, gapBits_length hg1.1]
    rw [hset]
    refine ⟨?_, ?_, ?_, ?_, ?_, ?_, hlow, ?_⟩
    · simpa [setBit, hlen] using hroom
    · simpa [setBit, hlen] using hcap
    · simp only [hlast]
      omega
    · simpa only [hlast] using hfit
    · simp only [hlast, hnow]
      omega
    · intro b hb
      simp only [hnow] at hb ⊢
      rw [bitAt_setBit (by omega), getD_append_gapBits _ hg1.1, ← hbit,
        cleared_bitAt hzero hholds (by omega) (by omega)]
    · exact ⟨hcal.k, hcal.sn, hcal.snn, hcal.st, hcal.snt, hcal.fit⟩
  · rw [if_pos (by omega)]
    simp only [if_neg hfit]
    refine ⟨_, rfl, rfl, hoor, ⟨hroom, hcap, hbit, hfits, hcleared, hholds, hlow, ?_⟩, rfl⟩
    exact ⟨hcal.k, hcal.sn, hcal.snn, hcal.st, hcal.snt, hcal.fit⟩

-- ---------------------------------------------------------------------------
-- A value
-- ---------------------------------------------------------------------------

/-- A long interval is never counted as none. -/
theorem byFit_pos {r : PnetRx} (h : r.CalOk) (hc : r.calC16 ≠ 0) (hns : 40000 ≤ clamped ns) :
    1 ≤ r.byFit ns := by
  obtain h0 | ⟨hlo, hhi, hplo, hphi⟩ := h.fit
  · exact absurd h0 hc
  have hq : 1 ≤ (clamped ns * 16 + r.calP16 + (r.calC16 / 2 : Nat)).tdiv r.calC16 := by
    rw [Int.tdiv_eq_ediv_of_nonneg (by omega)]
    exact Int.le_ediv_of_mul_le (by omega) (by omega)
  rw [byFit]
  omega

theorem counted_pos {r : PnetRx} (h : r.CalOk) (hpw : r.LowOk) : 1 ≤ (r.counted ns).2 := by
  obtain ⟨hlo, hhi⟩ := hpw
  rw [counted]
  split
  · exact Nat.le_max_left ..
  split
  · rename_i hlong
    obtain ⟨hok, hfit⟩ := h.refit
    have hns : 40000 ≤ clamped ns := by
      rw [nominal] at hlong
      omega
    dsimp only
    split
    · rename_i hf
      exact byFit_pos hok (hfit hf) hns
    · omega
  · exact Nat.le_max_left ..

/-- What one value does to the counters. -/
structure Ticked (r r' : PnetRx) : Prop where
  size : r'.buf.length = r.buf.length
  huntN : r'.huntN ≤ r.huntN + 1
  outOfRange : r'.outOfRange ≤ r.outOfRange + 1

theorem Beside.words {r r' : PnetRx} (h : r.Beside r') : r'.words = r.words := by
  rw [Beside] at h
  rw [h]

theorem Beside.huntN {r r' : PnetRx} (h : r.Beside r') : r'.huntN = r.huntN := by
  rw [Beside] at h
  rw [h]

theorem Beside.capBits {r r' : PnetRx} (h : r.Beside r') : r'.capBits = r.capBits := by
  rw [Beside] at h
  rw [h]

theorem inRange_iff : inRange ns lo hi = true ↔ lo ≤ ns ∧ ns ≤ hi := by simp [inRange]

/-- Nothing of the buffer and no counter changed. -/
structure Samples (r r' : PnetRx) : Prop where
  same : ∃ k sn snn st snt c p, r' =
    { r with
      calK := k, calSn := sn, calSnn := snn, calSt := st, calSnt := snt, calC16 := c, calP16 := p }

theorem Inv.samples {r r' : PnetRx} (h : r.Inv bits) (hs : r.Samples r') (hcal : r'.CalOk) :
    r'.Inv bits := by
  obtain ⟨k, sn, snn, st, snt, c, p, rfl⟩ := hs.same
  exact ⟨h.room, h.cap, h.bit, h.fits, h.cleared, h.holds, h.low, hcal⟩

theorem counted_samples (r : PnetRx) (ns : Nat) : r.Samples (r.counted ns).1 := ⟨counted_frame r ns⟩

theorem sampled_samples (r : PnetRx) (n t : Nat) : r.Samples (r.sampled n t) := by
  rw [sampled]
  split
  · exact ⟨_, _, _, _, _, _, _, rfl⟩
  · exact ⟨_, _, _, _, _, _, _, rfl⟩

/-- An interval after the sync adds at most its bits. -/
theorem Inv.decode_ok {r : PnetRx} (h : r.Inv bits) (ns : Nat) :
    ∃ r' bits', r.decode ns = some r' ∧ r'.Inv bits' ∧ r'.words = r.words ∧ r.Ticked r' := by
  rw [decode]
  split
  · exact ⟨r, bits, rfl, h, rfl, rfl, Nat.le_succ _, Nat.le_succ _⟩
  rw [count_eq h.cal h.low]
  have hcount := h.samples (counted_samples r ns) (counted_ok h.cal h.low)
  have hpos : 1 ≤ (r.counted ns).2 := counted_pos h.cal h.low
  obtain ⟨r', hemit, hbeside, hoor, hfit⟩ := emit_ok hcount hpos
  obtain ⟨bits', hinv⟩ : ∃ bits', r'.Inv bits' := by
    split at hfit
    · exact ⟨_, hfit.1⟩
    · exact ⟨_, hfit.1⟩
  obtain ⟨k, sn, snn, st, snt, c, p, hsame⟩ := (counted_samples r ns).same
  have hsize : r'.buf.length = r.buf.length := by
    have hcap := hinv.cap
    rw [hbeside.capBits, hsame] at hcap
    have hcap' := h.cap
    simp only at hcap
    omega
  refine ⟨r', bits', hemit, hinv, ?_, hsize, ?_, ?_⟩
  · rw [hbeside.words, hsame]
  · rw [hbeside.huntN, hsame]
    exact Nat.le_succ _
  · rw [hsame] at hoor
    exact hoor

/-- An interval of the hunt, or a sync that takes the place of another. -/
theorem Inv.hunt_ok {r : PnetRx} (h : r.Inv bits) (ns : Nat) :
    ∃ r', r.hunt ns (inRange ns pnetRxSyncMinNs pnetRxSyncMaxNs) = some r' ∧ r'.Inv bits ∧
      r'.words = r.words ∧ r'.overflowed = r.overflowed ∧ r.Ticked r' := by
  obtain ⟨hroom, hcap, hbit, hfits, hcleared, hholds, hlow, hcal⟩ := h
  cases hsync : inRange ns pnetRxSyncMinNs pnetRxSyncMaxNs with
  | false =>
    rw [hunt]
    simp only [Bool.false_eq_true, if_false]
    split
    · refine ⟨_, rfl, ⟨hroom, hcap, hbit, hfits, hcleared, hholds, hlow, ?_⟩, rfl, rfl, rfl, bump_le _,
        Nat.le_succ _⟩
      exact ⟨hcal.k, hcal.sn, hcal.snn, hcal.st, hcal.snt, hcal.fit⟩
    · refine ⟨_, rfl, ⟨hroom, hcap, hbit, hfits, hcleared, hholds, hlow, ?_⟩, rfl, rfl, rfl, bump_le _,
        Nat.le_succ _⟩
      exact ⟨hcal.k, hcal.sn, hcal.snn, hcal.st, hcal.snt, hcal.fit⟩
  | true =>
    have hwin : 30020 ≤ ns ∧ ns ≤ 32130 := inRange_iff.mp hsync
    obtain ⟨n, hn, hr⟩ : ∃ n, n ≤ r.huntN + 1 ∧ (if r.syncOk = true then
        { r with syncNs := ns, huntN := bump r.huntN } else { r with syncNs := ns }) =
          { r with syncNs := ns, huntN := n } := by
      split
      · exact ⟨_, bump_le _, rfl⟩
      · exact ⟨r.huntN, Nat.le_succ _, rfl⟩
    have hpw := i32_ok (z := ((pnetSyncCells * pnetCellNs : Nat) : Int) - ns) (by
      simp only [pnetSyncCells, pnetCellNs]
      omega)
    have hadd := fun q : PnetRx => calAdd_eq (n := pnetSyncCells) (calReset_ok q)
      (show ns ≤ 34130 by omega)
    have hlow' : -130 ≤ ((pnetSyncCells * pnetCellNs : Nat) : Int) - ns ∧
        ((pnetSyncCells * pnetCellNs : Nat) : Int) - ns ≤ 1980 := by
      simp only [pnetSyncCells, pnetCellNs]
      omega
    have hreset : ({ r with
        syncNs := ns, huntN := n, syncOk := true,
        pwNs := ((pnetSyncCells * pnetCellNs : Nat) : Int) - ns }.calReset).Inv bits :=
      ⟨hroom, hcap, hbit, hfits, hcleared, hholds, hlow', calReset_ok _⟩
    rw [hunt]
    simp only [if_true, hr, hpw, Option.bind_eq_bind, Option.bind_some, hadd]
    refine ⟨_, rfl, hreset.samples (sampled_samples _ _ _) (hreset.cal.sampled (by omega)), ?_, ?_, ?_⟩
    · simp [PnetRx.sampled, calReset, pnetSyncCells]
    · simp [PnetRx.sampled, calReset, pnetSyncCells]
    · constructor <;> simp [PnetRx.sampled, calReset, pnetSyncCells, hn]

end PnetRx

/-- Changes that touch neither the buffer, the samples nor the low time. -/
theorem PnetRx.Inv.told {r : PnetRx} (h : r.Inv bits) (words leadNs syncNs : Nat)
    (syncOk implied : Bool) :
    { r with
      words := words, leadNs := leadNs, syncNs := syncNs, syncOk := syncOk,
      implied := implied : PnetRx }.Inv bits :=
  ⟨h.room, h.cap, h.bit, h.fits, h.cleared, h.holds, h.low,
    ⟨h.cal.k, h.cal.sn, h.cal.snn, h.cal.st, h.cal.snt, h.cal.fit⟩⟩

/-- One value, whatever it is. -/
theorem pnetRxFeed_ok {r : PnetRx} (h : r.Inv bits) (ns : Nat) :
    ∃ r' bits', pnetRxFeed r ns = some r' ∧ r'.Inv bits' ∧ r'.words = bump r.words ∧ r.Ticked r' := by
  have hcount := h.told (bump r.words) r.leadNs r.syncNs r.syncOk r.implied
  have hstay : r.Ticked { r with words := bump r.words } := ⟨rfl, Nat.le_succ _, Nat.le_succ _⟩
  rw [pnetRxFeed]
  dsimp only
  split
  · exact ⟨_, bits, rfl, h.told (bump r.words) ns r.syncNs r.syncOk r.implied, rfl, rfl,
      Nat.le_succ _, Nat.le_succ _⟩
  split
  · exact ⟨_, bits, rfl, hcount, rfl, hstay⟩
  split
  · rename_i himplied
    have htwo : 2020 ≤ ns ∧ ns ≤ 4130 := PnetRx.inRange_iff.mp himplied.2.2.2
    have hpw := i32_ok (z := ((2 * pnetCellNs : Nat) : Int) - ns) (by
      simp only [pnetCellNs]
      omega)
    have hlow : -130 ≤ ((2 * pnetCellNs : Nat) : Int) - ns ∧
        ((2 * pnetCellNs : Nat) : Int) - ns ≤ 1980 := by
      simp only [pnetCellNs]
      omega
    have htold := h.told (bump r.words) r.leadNs ns true true
    have hsync : ({ r with
        words := bump r.words, syncNs := ns, syncOk := true, implied := true,
        pwNs := ((2 * pnetCellNs : Nat) : Int) - ns } : PnetRx).Inv bits :=
      { htold with low := hlow, cal := ⟨h.cal.k, h.cal.sn, h.cal.snn, h.cal.st, h.cal.snt, h.cal.fit⟩ }
    rw [hpw]
    simp only [Option.bind_eq_bind, Option.bind_some]
    obtain ⟨r', bits', hdec, hinv, hwords, htick⟩ := hsync.decode_ok ns
    exact ⟨r', bits', hdec, hinv, hwords, htick.size, htick.huntN, htick.outOfRange⟩
  split
  · obtain ⟨r', hhunt, hinv, hwords, -, htick⟩ := hcount.hunt_ok ns
    exact ⟨r', bits, hhunt, hinv, hwords, htick.size, htick.huntN, htick.outOfRange⟩
  · obtain ⟨r', bits', hdec, hinv, hwords, htick⟩ := hcount.decode_ok ns
    exact ⟨r', bits', hdec, hinv, hwords, htick.size, htick.huntN, htick.outOfRange⟩

theorem pnetRxInit_inv (buf : Bytes) (prearmed : Bool) (h : 8 * buf.length + 64 < 2 ^ 32) :
    (pnetRxInit buf prearmed).Inv [] where
  room := h
  cap := Nat.mul_comm ..
  bit := rfl
  fits := Nat.zero_le _
  cleared := rfl
  holds := by simp [pnetRxInit]
  low := by constructor <;> simp [pnetRxInit]
  cal := by constructor <;> simp [pnetRxInit]

/-- A whole capture, whatever its values. -/
theorem pnetRxFeeds_ok (values : List Nat) {r : PnetRx} (h : r.Inv bits) :
    ∃ r' bits', pnetRxFeeds r values = some r' ∧ r'.Inv bits' ∧ r'.buf.length = r.buf.length ∧
      r'.huntN ≤ r.huntN + values.length ∧ r'.outOfRange ≤ r.outOfRange + values.length ∧
      (r.words + values.length < 2 ^ 32 → r'.words = r.words + values.length) := by
  induction values generalizing r bits with
  | nil => exact ⟨r, bits, rfl, h, rfl, Nat.le_refl _, Nat.le_refl _, fun _ => rfl⟩
  | cons ns rest ih =>
    obtain ⟨r₁, bits₁, hfeed, hinv, hwords, hsize, hhunt, hoor⟩ := pnetRxFeed_ok h ns
    obtain ⟨r', bits', hrest, hinv', hsize', hhunt', hoor', hwords'⟩ := ih hinv
    refine ⟨r', bits', ?_, hinv', hsize'.trans hsize, ?_, ?_, ?_⟩
    · rw [pnetRxFeeds, hfeed, Option.bind_some, hrest]
    · rw [List.length_cons]
      omega
    · rw [List.length_cons]
      omega
    · intro hlt
      rw [List.length_cons] at hlt ⊢
      rw [bump_of_lt (by omega)] at hwords
      rw [hwords' (by omega)]
      omega

end WebAdf.Firmware
