import WebAdf.Lib.Clocking

/-!
# The cells between flux changes

A one is a flux change. In MFM two are never next to each other and at most
three empty cells lie between them: `CellRule` says so of the bits of a string.
`Clocked` bytes have no longer gaps, `Sparse` ones no neighbours.
-/

namespace WebAdf.Lib

/-- No two ones in a row and no four zeros, among the first `n` bits. -/
structure CellRule (bit : Nat → Bool) (n : Nat) : Prop where
  apart : ∀ b, b + 1 < n → ¬(bit b = true ∧ bit (b + 1) = true)
  near : ∀ b, b + 3 < n → ∃ k < 4, bit (b + k) = true

/-- No two bits of `x` in a row are set, nor its first and the last of `y`. -/
def Sparse (y x : UInt8) : Prop := x &&& ((x >>> 1) ||| (y <<< 7)) = 0

instance : Decidable (Sparse y x) :=
  inferInstanceAs (Decidable (x &&& ((x >>> 1) ||| (y <<< 7)) = 0))

theorem Sparse.first (h : Sparse y x) :
    ¬(y.toBitVec.getMsbD 7 = true ∧ x.toBitVec.getMsbD 0 = true) := by
  rintro ⟨hy, hx⟩
  have hb := congrArg (fun x : UInt8 => x.toBitVec.getMsbD 0) h
  simp_all [BitVec.getMsbD]

theorem Sparse.inner (h : Sparse y x) (hj : j < 7) :
    ¬(x.toBitVec.getMsbD j = true ∧ x.toBitVec.getMsbD (j + 1) = true) := by
  rintro ⟨hy, hx⟩
  have hb := congrArg (fun x : UInt8 => x.toBitVec.getMsbD (j + 1)) h
  interval_cases j <;> simp_all [BitVec.getMsbD]

/-- A clock is only set where no bit beside it is. -/
theorem sparse_clockByte (y : UInt8) (h : Unclocked x) : Sparse y (clockByte y x) := by
  have h0 := h.bit (j := 0) (by decide)
  have h2 := h.bit (j := 2) (by decide)
  have h4 := h.bit (j := 4) (by decide)
  have h6 := h.bit (j := 6) (by decide)
  rw [clockByte, if_pos (show x &&& 0xaa = 0 from h)]
  apply byte_ext
  intro j hj
  interval_cases j <;> simp_all [BitVec.getMsbD] <;> grind

-- ---------------------------------------------------------------------------
-- Strings
-- ---------------------------------------------------------------------------

/-- Bits read from bytes that are sparse one after another. -/
theorem apart_of_sparse {bit : Nat → Bool} {byte : Nat → UInt8}
    (hbit : ∀ i j, j < 8 → bit (8 * i + j) = (byte i).toBitVec.getMsbD j)
    (hsparse : ∀ i, 8 * i < n → Sparse (if i = 0 then y else byte (i - 1)) (byte i))
    (hb : b + 1 < n) : ¬(bit b = true ∧ bit (b + 1) = true) := by
  obtain ⟨i, j, rfl, hj⟩ : ∃ i j, b = 8 * i + j ∧ j < 8 := ⟨b / 8, b % 8, by omega, by omega⟩
  rw [hbit i j hj]
  by_cases hlast : j = 7
  · obtain rfl := hlast
    have hs := hsparse (i + 1) (by omega)
    rw [if_neg (Nat.succ_ne_zero i), Nat.add_sub_cancel] at hs
    rw [show 8 * i + 7 + 1 = 8 * (i + 1) + 0 by omega, hbit (i + 1) 0 (by decide)]
    exact hs.first
  · rw [Nat.add_assoc, hbit i (j + 1) (by omega)]
    exact (hsparse i (by omega)).inner (by omega)

theorem cyclicBit_lt (zs : List UInt8) (hb : b < 8 * zs.length) : cyclicBit zs b = bitAt zs b := by
  rw [cyclicBit, Nat.mod_eq_of_lt hb]

/-- A missing clock is between two ones of its byte. -/
theorem Legal.near (h : Legal zs marks) (hpos : 0 < zs.length) (b : Nat) :
    ∃ k < 4, cyclicBit zs (b + k) = true := by
  by_contra hno
  have hzero : ∀ k < 4, cyclicBit zs (b + k) = false := by
    intro k hk
    by_contra hone
    exact hno ⟨k, hk, by simpa using hone⟩
  -- The clock among the middle cells, and the ones at the ends of its byte's half.
  have hclock : ∀ q, (q + 1) % 2 = 0 → cyclicBit zs q = false → cyclicBit zs (q + 1) = false →
      cyclicBit zs (q + 2) = false →
      cyclicBit zs (q + 3) = true ∧ ∀ p, q = p + 1 → cyclicBit zs p = true := by
    intro q heven h0 h1 h2
    obtain ⟨m, hm, hat⟩ := h.missing_clock heven h0 h1 h2 hpos
    obtain ⟨hfit, -, hb1, -, hb3⟩ := h.sync m hm
    obtain ⟨i, hi, hbyte, hq⟩ : ∃ i, i < zs.length ∧ zs.getD i 0 = 0x89 ∧
        (q + 1) % (8 * zs.length) = 8 * i + 2 := by
      rcases hat with hat | hat
      · exact ⟨m + 1, by omega, hb1, hat⟩
      · exact ⟨m + 3, by omega, hb3, hat⟩
    constructor
    · have hnext : (q + 1 + 2) % (8 * zs.length) = 8 * i + 2 + 2 := cyclic_add hq (by omega)
      rw [cyclicBit, show q + 3 = q + 1 + 2 by omega, hnext, Nat.add_assoc,
        bitAt_byte _ _ (by decide), hbyte]
      rfl
    · rintro p rfl
      have hq1 : (p + 1) % (8 * zs.length) = 8 * i + 1 := by
        rw [cyclic_pred hq (by omega), if_neg (by omega)]
        omega
      have hq0 : p % (8 * zs.length) = 8 * i + 0 := by
        rw [cyclic_pred hq1 (by omega), if_neg (by omega)]
        omega
      rw [cyclicBit, hq0, bitAt_byte _ _ (by decide), hbyte]
      rfl
  rcases Nat.mod_two_eq_zero_or_one b with heven | hodd
  · obtain ⟨-, hone⟩ := hclock (b + 1) (by omega) (hzero 1 (by decide)) (hzero 2 (by decide))
      (hzero 3 (by decide))
    have h0 := hzero 0 (by decide)
    rw [Nat.add_zero, hone b rfl] at h0
    cases h0
  · obtain ⟨hone, -⟩ := hclock b (by omega) (hzero 0 (by decide)) (hzero 1 (by decide))
      (hzero 2 (by decide))
    rw [hzero 3 (by decide)] at hone
    cases hone

/-- Only the last data bit of the byte before matters. -/
theorem Sparse.last (h : Sparse y x) (hy : y.toBitVec.getMsbD 7 = y'.toBitVec.getMsbD 7) :
    Sparse y' x := by
  apply byte_ext
  intro j hj
  have hc := congrArg (fun x : UInt8 => x.toBitVec.getMsbD j) h
  interval_cases j <;> simp_all [BitVec.getMsbD]

theorem Marked.sparse (h : Marked xs marks) (hi : i < xs.length) :
    Sparse (byteBefore (clock 0 xs) i) ((clock 0 xs).getD i 0) := by
  by_cases hu : Unclocked (xs.getD i 0)
  · rw [getD_clock 0 xs hi]
    refine (sparse_clockByte _ hu).last ?_
    rw [byteBefore, length_clock]
    by_cases hz : i = 0
    · rw [if_pos hz, if_pos hz, getD_clock 0 xs (by omega), clockByte_data _ _ (by simp), h.last]
      rfl
    · rw [if_neg hz, if_neg hz, getD_clock 0 xs (by omega), clockByte_data _ _ (by simp)]
  · obtain ⟨m, hm, hat⟩ := h.clear i hi hu
    obtain ⟨hfit, ha, hb, hc, hd⟩ := h.legal.sync m hm
    rw [byteBefore]
    rcases hat with rfl | rfl
    · rw [if_neg (by omega), Nat.add_sub_cancel, ha, hb]
      decide
    · rw [if_neg (by omega), show m + 3 - 1 = m + 2 by omega, hc, hd]
      decide

/-- A clocked track keeps the rule round and round. -/
theorem Marked.cellRule (h : Marked xs marks) (hpos : 0 < xs.length) (n : Nat) :
    CellRule (cyclicBit (clock 0 xs)) n := by
  have hlen := length_clock 0 xs
  constructor
  · intro b hb
    have hbit : ∀ i j, j < 8 → cyclicBit (clock 0 xs) (8 * i + j) =
        ((clock 0 xs).getD (i % xs.length) 0).toBitVec.getMsbD j := by
      intro i j hj
      have hmod : (8 * i + j) % (8 * xs.length) = 8 * (i % xs.length) + j := by
        have hi : i % xs.length < xs.length := Nat.mod_lt _ hpos
        have h8 : 8 * i % (8 * xs.length) = 8 * (i % xs.length) := Nat.mul_mod_mul_left 8 i _
        exact cyclic_add h8 (by omega)
      rw [cyclicBit, hlen, hmod, bitAt_byte _ _ hj]
    refine apart_of_sparse (y := byteBefore (clock 0 xs) 0) hbit (fun i _ => ?_) hb
    have hat := h.sparse (Nat.mod_lt i hpos)
    rw [byteBefore] at hat
    by_cases hz : i = 0
    · subst hz
      rw [Nat.zero_mod] at hat ⊢
      exact hat
    · obtain ⟨i, rfl⟩ := Nat.exists_eq_succ_of_ne_zero hz
      rw [if_neg hz, show i.succ - 1 = i from rfl, Nat.succ_eq_add_one] at *
      by_cases hwrap : (i + 1) % xs.length = 0
      · have hi : i % xs.length = xs.length - 1 := by
          by_cases hone : xs.length = 1
          · rw [hone, Nat.mod_one]
          · rw [cyclic_pred hwrap (by omega), if_pos rfl]
        rw [if_pos hwrap, hlen] at hat
        rw [hi]
        exact hat
      · have hi : i % xs.length = (i + 1) % xs.length - 1 := by
          have hone : 1 < xs.length := by
            by_contra hle
            exact hwrap (by rw [show xs.length = 1 by omega, Nat.mod_one])
          rw [cyclic_pred rfl hone, if_neg hwrap]
        rw [if_neg hwrap] at hat
        rw [hi]
        exact hat
  · intro b _
    exact h.legal.near (by rwa [hlen]) b

-- ---------------------------------------------------------------------------
-- Intervals
-- ---------------------------------------------------------------------------

/-- `n` bits from `off` on. -/
def window (bit : Nat → Bool) (off n : Nat) : List Bool := (List.range n).map fun i => bit (off + i)

/-- The intervals of the bits after a one and `k - 1` zeros, the last one to the end. -/
def gapsFrom (k : Nat) : List Bool → List Nat
  | [] => [k]
  | true :: bits => k :: gapsFrom 1 bits
  | false :: bits => gapsFrom (k + 1) bits

/-- From each one to the next, of bits that start with a one. -/
def gaps : List Bool → List Nat
  | [] => []
  | _ :: bits => gapsFrom 1 bits

/-- A one and the empty cells after it, for each interval. -/
def spread (ks : List Nat) : List Bool := ks.flatMap fun k => true :: List.replicate (k - 1) false

@[simp] theorem length_window (bit : Nat → Bool) (off n : Nat) : (window bit off n).length = n := by
  simp [window]

theorem window_succ (bit : Nat → Bool) (off n : Nat) :
    window bit off (n + 1) = bit off :: window bit (off + 1) n := by
  rw [window, List.range_succ_eq_map, List.map_cons, List.map_map, Nat.add_zero, window]
  congr 1
  apply List.map_congr_left
  intro i _
  simp only [Function.comp_apply, Nat.add_assoc, Nat.add_comm 1 i]

theorem spread_gapsFrom (hk : 0 < k) (bits : List Bool) :
    spread (gapsFrom k bits) = true :: (List.replicate (k - 1) false ++ bits) := by
  induction bits generalizing k with
  | nil => simp [gapsFrom, spread]
  | cons b bits ih =>
    cases b with
    | true =>
      have hrest := ih (k := 1) Nat.zero_lt_one
      rw [gapsFrom, spread, List.flatMap_cons, ← spread, hrest]
      rfl
    | false =>
      obtain ⟨k, rfl⟩ := Nat.exists_eq_add_of_lt hk
      rw [gapsFrom, ih (Nat.succ_pos _), List.append_cons, ← List.replicate_succ']
      rfl

/-- The intervals stand for the bits. -/
theorem spread_gaps (h : bits.head? = some true) : spread (gaps bits) = bits := by
  cases bits with
  | nil => cases h
  | cons b bits =>
    obtain rfl : b = true := Option.some.inj h
    rw [gaps, spread_gapsFrom Nat.zero_lt_one]
    rfl

/-- Where the rule holds, from a one to the next are two, three or four cells. -/
theorem CellRule.gap (h : CellRule bit m) (hk : 0 < k) (hm : p + k + 4 ≤ m) (hp : bit p = true)
    (hzero : ∀ i, p < i → i < p + k → bit i = false) (hnext : bit (p + k) = true) :
    2 ≤ k ∧ k ≤ 4 := by
  constructor
  · by_contra hlt
    obtain rfl : k = 1 := by omega
    exact h.apart p (by omega) ⟨hp, hnext⟩
  · by_contra hlt
    obtain ⟨i, hi, hone⟩ := h.near (p + 1) (by omega)
    rw [hzero (p + 1 + i) (by omega) (by omega)] at hone
    cases hone

theorem gapsFrom_rule (h : ∀ m, CellRule bit m) (hk : 0 < k) (hp : bit p = true)
    (hzero : ∀ i, p < i → i < p + k → bit i = false) (hend : bit (p + k + n) = true) :
    ∀ g ∈ gapsFrom k (window bit (p + k) n), 2 ≤ g ∧ g ≤ 4 := by
  induction n generalizing p k with
  | zero =>
    intro g hg
    obtain rfl : g = k := by simpa [window, gapsFrom] using hg
    exact (h _).gap hk (Nat.le_refl _) hp hzero hend
  | succ n ih =>
    rw [window_succ]
    cases hb : bit (p + k) with
    | true =>
      intro g hg
      rw [gapsFrom, List.mem_cons] at hg
      rcases hg with rfl | hg
      · exact (h _).gap hk (Nat.le_refl _) hp hzero hb
      · refine ih (p := p + k) (k := 1) Nat.zero_lt_one hb (fun i _ _ => by omega) ?_ g hg
        rwa [show p + k + 1 + n = p + k + (n + 1) by omega]
    | false =>
      rw [gapsFrom]
      refine ih (p := p) (k := k + 1) (Nat.succ_pos k) hp ?_ ?_
      · intro i hlo hhi
        by_cases heq : i = p + k
        · rw [heq, hb]
        · exact hzero i hlo (by omega)
      · rwa [show p + (k + 1) + n = p + k + (n + 1) by omega]

/-- The intervals of a stretch from a one to a one. -/
theorem gaps_rule (h : ∀ m, CellRule bit m) (hp : bit off = true) (hend : bit (off + n) = true) :
    ∀ g ∈ gaps (window bit off n), 2 ≤ g ∧ g ≤ 4 := by
  cases n with
  | zero => simp [window, gaps]
  | succ n =>
    rw [window_succ, gaps]
    refine gapsFrom_rule h Nat.zero_lt_one hp (fun i _ _ => by omega) ?_
    rwa [show off + 1 + n = off + (n + 1) by omega]

end WebAdf.Lib
