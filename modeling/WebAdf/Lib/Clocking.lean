import Mathlib.Tactic.Ring
import WebAdf.Lib.Bits

/-!
# MFM clocking

Bytes carry data in their odd bits (from the high end) and clocks in the even
ones. `clock` fills the clocks of a byte string: a clock is set where neither
data bit beside it is. A byte that already has a clock bit is left alone, which
is how a sync word with a missing clock is written.

`sync_at_mark`: where no other byte lacks a clock, a sync word of two 0x4489 is
found at the written ones and at no other bit of the repeating stream, whatever
the data.
-/

namespace WebAdf.Lib

/-- One byte's clocks, after the byte `y`. -/
def clockByte (y x : UInt8) : UInt8 :=
  if x &&& 0xaa = 0 then x ||| (~~~((y <<< 7) ||| (x >>> 1) ||| (x <<< 1)) &&& 0xaa) else x

def clock (y : UInt8) : List UInt8 → List UInt8
  | [] => []
  | x :: xs => clockByte y x :: clock (clockByte y x) xs

@[simp] theorem length_clock (y : UInt8) (xs : List UInt8) : (clock y xs).length = xs.length := by
  induction xs generalizing y with
  | nil => rfl
  | cons x xs ih => simp [clock, ih]

-- ---------------------------------------------------------------------------
-- One byte
-- ---------------------------------------------------------------------------

/-- A byte with no clock bit set. -/
def Unclocked (x : UInt8) : Prop := x &&& 0xaa = 0

instance : DecidablePred Unclocked := fun x => inferInstanceAs (Decidable (x &&& 0xaa = 0))

theorem Unclocked.bit (h : Unclocked x) (hj : j = 0 ∨ j = 2 ∨ j = 4 ∨ j = 6) :
    x.toBitVec.getMsbD j = false := by
  have hb := congrArg (fun x : UInt8 => x.toBitVec.getMsbD j) h
  rcases hj with rfl | rfl | rfl | rfl <;> simpa using hb

theorem clockByte_data (y x : UInt8) (hj : j = 1 ∨ j = 3 ∨ j = 5 ∨ j = 7) :
    (clockByte y x).toBitVec.getMsbD j = x.toBitVec.getMsbD j := by
  unfold clockByte
  split
  · rcases hj with rfl | rfl | rfl | rfl <;> simp
  · rfl

/-- The two bytes of a sync word are kept, whatever comes before them. -/
theorem clockByte_sync (y : UInt8) : clockByte y 0x44 = 0x44 ∧ clockByte y 0x89 = 0x89 := by
  refine ⟨?_, if_neg (by decide)⟩
  rw [clockByte, if_pos (by decide)]
  apply UInt8.toBitVec_inj.mp
  ext i hi
  interval_cases i <;> simp

theorem clockByte_last (h : y.toBitVec.getMsbD 7 = y'.toBitVec.getMsbD 7) (x : UInt8) :
    clockByte y x = clockByte y' x := by
  unfold clockByte
  split
  · apply byte_ext
    intro j hj
    interval_cases j <;> simp_all [BitVec.getMsbD]
  · rfl

/-- The clocks of a byte depend on the data before it alone. -/
theorem getD_clock (y : UInt8) (xs : List UInt8) (hi : i < xs.length) :
    (clock y xs).getD i 0 =
      clockByte (if i = 0 then y else xs.getD (i - 1) 0) (xs.getD i 0) := by
  induction xs generalizing y i with
  | nil => simp at hi
  | cons x xs ih =>
    cases i with
    | zero => simp [clock]
    | succ i =>
      have hi' : i < xs.length := by simpa using hi
      have h := ih (clockByte y x) hi'
      simp only [clock, List.getD_cons_succ, Nat.succ_ne_zero, if_false, Nat.add_sub_cancel]
      rw [h]
      cases i with
      | zero => exact clockByte_last (clockByte_data y x (by simp)) _
      | succ i => simp

-- ---------------------------------------------------------------------------
-- Bytes that lack no clock
-- ---------------------------------------------------------------------------

/-- Each clock bit of `x`, after the byte `y`, is set or has a data bit beside it. -/
def Clocked (y x : UInt8) : Prop := (x ||| (x <<< 1) ||| (x >>> 1) ||| (y <<< 7)) &&& 0xaa = 0xaa

instance : Decidable (Clocked y x) :=
  inferInstanceAs (Decidable ((x ||| (x <<< 1) ||| (x >>> 1) ||| (y <<< 7)) &&& 0xaa = 0xaa))

theorem Clocked.first (h : Clocked y x) (hy : y.toBitVec.getMsbD 7 = false)
    (hx : x.toBitVec.getMsbD 1 = false) : x.toBitVec.getMsbD 0 = true := by
  have hb := congrArg (fun x : UInt8 => x.toBitVec.getMsbD 0) h
  simp_all [BitVec.getMsbD]

theorem Clocked.inner (h : Clocked y x) (hj : j = 2 ∨ j = 4 ∨ j = 6)
    (hb : x.toBitVec.getMsbD (j - 1) = false) (ha : x.toBitVec.getMsbD (j + 1) = false) :
    x.toBitVec.getMsbD j = true := by
  have hc := congrArg (fun x : UInt8 => x.toBitVec.getMsbD j) h
  rcases hj with rfl | rfl | rfl <;> simp_all [BitVec.getMsbD]

theorem clocked_clockByte (y : UInt8) (h : Unclocked x) : Clocked y (clockByte y x) := by
  rw [clockByte, if_pos (show x &&& 0xaa = 0 from h)]
  apply byte_ext
  intro j hj
  have hc := h.bit (j := j)
  interval_cases j <;> simp_all [BitVec.getMsbD] <;> grind

/-- The bits of 0x44894489, high bit first. -/
def syncBit (k : Nat) : Bool := (0x44894489#32).getMsbD k

/-- The byte before byte `i` of a repeating byte string. -/
def byteBefore (zs : List UInt8) (i : Nat) : UInt8 := zs.getD (if i = 0 then zs.length - 1 else i - 1) 0

/-- Sync words start at the marks, and no byte but their second and fourth lacks
a clock, also where the string repeats. -/
structure Legal (zs : List UInt8) (marks : Nat → Prop) : Prop where
  sync : ∀ m, marks m → m + 6 ≤ zs.length ∧ zs.getD m 0 = 0x44 ∧ zs.getD (m + 1) 0 = 0x89 ∧
    zs.getD (m + 2) 0 = 0x44 ∧ zs.getD (m + 3) 0 = 0x89
  clear : ∀ i < zs.length, ¬ Clocked (byteBefore zs i) (zs.getD i 0) →
    ∃ m, marks m ∧ (i = m + 1 ∨ i = m + 3)
  apart : ∀ m m', marks m → marks m' → m < m' → m + 6 ≤ m'

/-- Every byte of `xs` is unclocked data, but for the second and fourth byte of
each sync word, which start at the marks. -/
structure Marked (xs : List UInt8) (marks : Nat → Prop) : Prop where
  last : (xs.getD (xs.length - 1) 0).toBitVec.getMsbD 7 = false
  sync : ∀ m, marks m → m + 6 ≤ xs.length ∧ xs.getD m 0 = 0x44 ∧ xs.getD (m + 1) 0 = 0x89 ∧
    xs.getD (m + 2) 0 = 0x44 ∧ xs.getD (m + 3) 0 = 0x89
  clear : ∀ i < xs.length, ¬ Unclocked (xs.getD i 0) → ∃ m, marks m ∧ (i = m + 1 ∨ i = m + 3)
  apart : ∀ m m', marks m → marks m' → m < m' → m + 6 ≤ m'

/-- Only the last data bit of the byte before matters. -/
theorem Clocked.last (h : Clocked y x) (hy : y.toBitVec.getMsbD 7 = y'.toBitVec.getMsbD 7) :
    Clocked y' x := by
  apply byte_ext
  intro j hj
  have hc := congrArg (fun x : UInt8 => x.toBitVec.getMsbD j) h
  interval_cases j <;> simp_all [BitVec.getMsbD]

theorem Marked.legal (h : Marked xs marks) : Legal (clock 0 xs) marks := by
  refine ⟨?_, ?_, h.apart⟩
  · intro m hm
    obtain ⟨hfit, ha, hb, hc, hd⟩ := h.sync m hm
    refine ⟨by rwa [length_clock], ?_, ?_, ?_, ?_⟩
    · rw [getD_clock 0 xs (by omega), ha, (clockByte_sync _).1]
    · rw [getD_clock 0 xs (by omega), hb, (clockByte_sync _).2]
    · rw [getD_clock 0 xs (by omega), hc, (clockByte_sync _).1]
    · rw [getD_clock 0 xs (by omega), hd, (clockByte_sync _).2]
  · intro i hi hno
    rw [length_clock] at hi
    refine h.clear i hi fun hu => hno ?_
    rw [getD_clock 0 xs hi]
    refine (clocked_clockByte _ hu).last ?_
    rw [byteBefore, length_clock]
    by_cases hz : i = 0
    · rw [if_pos hz, if_pos hz, getD_clock 0 xs (by omega), clockByte_data _ _ (by simp), h.last]
      rfl
    · rw [if_neg hz, if_neg hz, getD_clock 0 xs (by omega), clockByte_data _ _ (by simp)]

-- ---------------------------------------------------------------------------
-- Runs of clocked bytes
-- ---------------------------------------------------------------------------

/-- Every byte of a run that follows the byte `y` is clocked. -/
def ClockedFrom (y : UInt8) : List UInt8 → Prop
  | [] => True
  | x :: xs => Clocked y x ∧ ClockedFrom x xs

/-- After a data bit of zero is the hardest place for a clock. -/
theorem Clocked.after (h : Clocked 0 x) (y : UInt8) : Clocked y x := by
  apply byte_ext
  intro j hj
  have hc := congrArg (fun x : UInt8 => x.toBitVec.getMsbD j) h
  interval_cases j <;> simp_all [BitVec.getMsbD]

theorem ClockedFrom.after (h : ClockedFrom 0 xs) (y : UInt8) : ClockedFrom y xs := by
  cases xs with
  | nil => trivial
  | cons x xs => exact ⟨h.1.after y, h.2⟩

theorem ClockedFrom.append (hx : ClockedFrom y xs) (hz : ClockedFrom 0 zs) :
    ClockedFrom y (xs ++ zs) := by
  induction xs generalizing y with
  | nil => exact hz.after y
  | cons x xs ih => exact ⟨hx.1, ih hx.2⟩

theorem ClockedFrom.flatMap {as : List α} {f : α → List UInt8}
    (h : ∀ a ∈ as, ClockedFrom 0 (f a)) : ClockedFrom 0 (as.flatMap f) := by
  induction as with
  | nil => trivial
  | cons a as ih =>
    rw [List.flatMap_cons]
    exact (h a (by simp)).append (ih fun b hb => h b (by simp [hb]))

theorem ClockedFrom.replicate (h : Clocked 0 x) (y : UInt8) (n : Nat) :
    ClockedFrom y (List.replicate n x) := by
  induction n generalizing y with
  | zero => trivial
  | succ n ih => exact ⟨h.after y, ih x⟩

theorem ClockedFrom.getD (h : ClockedFrom y xs) (hi : i < xs.length) :
    Clocked (if i = 0 then y else xs.getD (i - 1) 0) (xs.getD i 0) := by
  induction xs generalizing y i with
  | nil => simp at hi
  | cons x xs ih =>
    cases i with
    | zero => exact h.1
    | succ i =>
      have hrest := ih h.2 (i := i) (by simpa using hi)
      rw [if_neg (Nat.succ_ne_zero i), Nat.add_sub_cancel, List.getD_cons_succ]
      cases i with
      | zero => exact hrest
      | succ i => exact hrest

/-- One sync word between two clocked runs. -/
theorem Legal.of_parts (hpre : ClockedFrom 0 pre) (hpost : ClockedFrom 0 post)
    (hlen : 2 ≤ post.length) :
    Legal (pre ++ ([0x44, 0x89, 0x44, 0x89] ++ post)) (· = pre.length) := by
  have hin (k : Nat) (hk : k < 4) : (pre ++ ([0x44, 0x89, 0x44, 0x89] ++ post)).getD
      (pre.length + k) 0 = ([0x44, 0x89, 0x44, 0x89] : List UInt8).getD k 0 := by
    rw [List.getD_append_right _ _ _ _ (by omega), Nat.add_sub_cancel_left,
      List.getD_append _ _ _ _ hk]
  have hpast (k : Nat) : (pre ++ ([0x44, 0x89, 0x44, 0x89] ++ post)).getD
      (pre.length + 4 + k) 0 = post.getD k 0 := by
    rw [Nat.add_assoc, List.getD_append_right _ _ _ _ (by omega), Nat.add_sub_cancel_left,
      List.getD_append_right _ _ _ _ (by simp), List.length_cons, List.length_cons,
      List.length_cons, List.length_cons, List.length_nil, Nat.add_sub_cancel_left]
  refine ⟨?_, ?_, ?_⟩
  · rintro m rfl
    refine ⟨by simp; omega, hin 0 (by decide), hin 1 (by decide), hin 2 (by decide),
      hin 3 (by decide)⟩
  · intro i hi hno
    by_contra hmark
    apply hno
    rcases Nat.lt_or_ge i pre.length with hlt | hge
    · have hc := hpre.getD hlt
      rw [List.getD_append _ _ _ _ hlt]
      by_cases hz : i = 0
      · rw [if_pos hz] at hc
        exact hc.after _
      · rw [if_neg hz] at hc
        rwa [byteBefore, if_neg hz, List.getD_append _ _ _ _ (by omega)]
    · obtain ⟨k, rfl⟩ : ∃ k, i = pre.length + k := ⟨i - pre.length, by omega⟩
      rcases Nat.lt_or_ge k 4 with hk | hk
      · have hone : k ≠ 1 := by
          rintro rfl
          exact hmark ⟨_, rfl, .inl rfl⟩
        have hthree : k ≠ 3 := by
          rintro rfl
          exact hmark ⟨_, rfl, .inr rfl⟩
        rw [hin k hk]
        have hcase : k = 0 ∨ k = 2 := by omega
        rcases hcase with rfl | rfl
        · exact Clocked.after (by decide) _
        · exact Clocked.after (by decide) _
      · obtain ⟨j, rfl⟩ : ∃ j, k = 4 + j := ⟨k - 4, by omega⟩
        rw [← Nat.add_assoc] at hi ⊢
        have hj : j < post.length := by simp at hi; omega
        have hc := hpost.getD hj
        rw [hpast]
        by_cases hz : j = 0
        · rw [if_pos hz] at hc
          exact hc.after _
        · rw [if_neg hz] at hc
          rwa [byteBefore, if_neg (by omega), show pre.length + 4 + j - 1 = pre.length + 4 + (j - 1) by
            omega, hpast]
  · rintro m m' rfl rfl hlt
    omega

-- ---------------------------------------------------------------------------
-- The repeating stream
-- ---------------------------------------------------------------------------

theorem cyclic_add {q M c d : Nat} (h : q % M = c) (hc : c + d < M) : (q + d) % M = c + d := by
  rw [Nat.add_mod, h, Nat.mod_eq_of_lt (by omega : d < M), Nat.mod_eq_of_lt hc]

/-- Every place of the repeating stream comes by once in a period. -/
theorem cyclic_phase (off : Nat) (hm : m < M) : ∃ q < M, (off + q) % M = m := by
  have hoff : off % M < M := Nat.mod_lt _ (by omega)
  refine ⟨(m + (M - off % M)) % M, Nat.mod_lt _ (by omega), ?_⟩
  calc (off + (m + (M - off % M)) % M) % M
      = (off % M + (m + (M - off % M))) % M := by rw [Nat.add_mod_mod, Nat.mod_add_mod]
    _ = (m + M) % M := by rw [show off % M + (m + (M - off % M)) = m + M by omega]
    _ = m := by rw [Nat.add_mod_right, Nat.mod_eq_of_lt hm]

/-- The bit before bit `c`, on the repeating stream. -/
theorem cyclic_pred (h : (q + 1) % M = c) (hM : 1 < M) :
    q % M = if c = 0 then M - 1 else c - 1 := by
  have hq : q % M < M := Nat.mod_lt _ (by omega)
  by_cases hlast : q % M + 1 = M
  · have hz : (q + 1) % M = 0 := by
      rw [Nat.add_mod, Nat.mod_eq_of_lt hM, hlast, Nat.mod_self]
    rw [if_pos (by omega)]
    omega
  · have hs := cyclic_add (q := q) (M := M) (d := 1) rfl (by omega)
    rw [if_neg (by omega)]
    omega

section
variable {zs : List UInt8} {marks : Nat → Prop}

theorem Legal.sync_bits (h : Legal zs marks) (hm : marks m) (hk : k < 32) :
    bitAt zs (8 * m + k) = syncBit k := by
  obtain ⟨-, ha, hb, hc, hd⟩ := h.sync m hm
  obtain ⟨i, j, rfl, hi, hj⟩ : ∃ i j, k = 8 * i + j ∧ i < 4 ∧ j < 8 :=
    ⟨k / 8, k % 8, by omega, by omega, by omega⟩
  rw [← Nat.add_assoc, ← Nat.mul_add, bitAt_byte _ _ hj]
  interval_cases i
  · rw [Nat.add_zero, ha]
    interval_cases j <;> rfl
  · rw [hb]
    interval_cases j <;> rfl
  · rw [hc]
    interval_cases j <;> rfl
  · rw [hd]
    interval_cases j <;> rfl

theorem Legal.missing_clock (h : Legal zs marks) (heven : (q + 1) % 2 = 0)
    (h0 : cyclicBit zs q = false) (h1 : cyclicBit zs (q + 1) = false)
    (h2 : cyclicBit zs (q + 2) = false) (hpos : 0 < zs.length) :
    ∃ m, marks m ∧ ((q + 1) % (8 * zs.length) = 8 * (m + 1) + 2 ∨
      (q + 1) % (8 * zs.length) = 8 * (m + 3) + 2) := by
  simp only [cyclicBit] at h0 h1 h2
  obtain ⟨c, hc⟩ : ∃ c, (q + 1) % (8 * zs.length) = c := ⟨_, rfl⟩
  have hlt : c < 8 * zs.length := hc ▸ Nat.mod_lt _ (by omega)
  have hceven : c % 2 = 0 := by
    rw [← hc, Nat.mod_mod_of_dvd _ ⟨4 * zs.length, by ring⟩]
    exact heven
  have hnext : (q + 2) % (8 * zs.length) = c + 1 := cyclic_add (d := 1) hc (by omega)
  have hprev := cyclic_pred hc (by omega)
  obtain ⟨i, j, rfl, hj⟩ : ∃ i j, c = 8 * i + j ∧ (j = 0 ∨ j = 2 ∨ j = 4 ∨ j = 6) :=
    ⟨c / 8, c % 8, by omega, by omega⟩
  have hi : i < zs.length := by omega
  rw [hc, bitAt_byte _ _ (by omega)] at h1
  rw [hnext, Nat.add_assoc, bitAt_byte _ _ (by omega)] at h2
  rw [hc]
  by_cases hcl : Clocked (byteBefore zs i) (zs.getD i 0)
  · -- a clocked byte has the clock
    exfalso
    rcases hj with rfl | hj
    · have hb : (byteBefore zs i).toBitVec.getMsbD 7 = false := by
        rw [byteBefore]
        by_cases hz : i = 0
        · rw [hprev, if_pos (by omega), show 8 * zs.length - 1 = 8 * (zs.length - 1) + 7 by omega,
            bitAt_byte _ _ (by decide)] at h0
          rw [if_pos hz, h0]
        · rw [hprev, if_neg (by omega), show 8 * i + 0 - 1 = 8 * (i - 1) + 7 by omega,
            bitAt_byte _ _ (by decide)] at h0
          rw [if_neg hz, h0]
      rw [hcl.first hb h2] at h1
      cases h1
    · rw [hprev, if_neg (by omega), show 8 * i + j - 1 = 8 * i + (j - 1) by omega,
        bitAt_byte _ _ (by omega)] at h0
      rw [hcl.inner hj h0 h2] at h1
      cases h1
  · obtain ⟨m, hm, hor⟩ := h.clear i hi hcl
    have hbyte : zs.getD i 0 = 0x89 := by
      obtain ⟨-, -, hb, -, hd⟩ := h.sync m hm
      rcases hor with rfl | rfl
      · exact hb
      · exact hd
    rw [hbyte] at h1 h2
    rcases hj with rfl | rfl | rfl | rfl
    · exact absurd h1 (by decide)
    · exact ⟨m, hm, by omega⟩
    · exact absurd h1 (by decide)
    · exact absurd h2 (by decide)

/-- Two missing clocks sixteen bits apart are the two of one sync word: sync
words are too far apart for a second and a first. -/
theorem Legal.missing_pair (h : Legal zs marks) (heven : (q + 1) % 2 = 0) (hpos : 0 < zs.length)
    (h0 : cyclicBit zs q = false) (h1 : cyclicBit zs (q + 1) = false)
    (h2 : cyclicBit zs (q + 2) = false)
    (h16 : cyclicBit zs (q + 16) = false)
    (h17 : cyclicBit zs (q + 16 + 1) = false)
    (h18 : cyclicBit zs (q + 16 + 2) = false) :
    ∃ m, marks m ∧ (q + 1) % (8 * zs.length) = 8 * (m + 1) + 2 := by
  obtain ⟨m, hm, hfirst | hsecond⟩ := h.missing_clock heven h0 h1 h2 hpos
  · exact ⟨m, hm, hfirst⟩
  · exfalso
    obtain ⟨hfit, -⟩ := h.sync m hm
    have hnext : (q + 1 + 16) % (8 * zs.length) = 8 * (m + 3) + 2 + 16 :=
      cyclic_add hsecond (by omega)
    rw [show q + 1 + 16 = q + 16 + 1 by omega] at hnext
    obtain ⟨m', hm', hor⟩ := h.missing_clock (by omega) h16 h17 h18 hpos
    rw [hnext] at hor
    have hfar := h.apart m m' hm hm' (by omega)
    omega

/-- Bits 1 to 31 of a sync word are found at a mark and nowhere else. -/
theorem Legal.sync_at_mark (h : Legal zs marks) (hpos : 0 < zs.length)
    (hbits : ∀ k, 1 ≤ k → k < 32 → cyclicBit zs (p + k) = syncBit k) :
    ∃ m, marks m ∧ p % (8 * zs.length) = 8 * m := by
  have hzero {k : Nat} (hk : 1 ≤ k ∧ k < 32) (hs : syncBit k = false) :
      cyclicBit zs (p + k) = false := (hbits k hk.1 hk.2).trans hs
  have hlt : p % (8 * zs.length) < 8 * zs.length := Nat.mod_lt _ (by omega)
  rcases Nat.mod_two_eq_zero_or_one p with heven | hodd
  · -- the missing clocks are bits 10 and 26
    obtain ⟨m, hm, hat⟩ := h.missing_pair (q := p + 9) (by omega) hpos
      (hzero (by decide) rfl) (hzero (k := 10) (by decide) rfl) (hzero (k := 11) (by decide) rfl)
      (hzero (k := 25) (by decide) rfl) (hzero (k := 26) (by decide) rfl)
      (hzero (k := 27) (by decide) rfl)
    obtain ⟨hfit, -⟩ := h.sync m hm
    refine ⟨m, hm, ?_⟩
    by_cases hwrap : p % (8 * zs.length) + 10 < 8 * zs.length
    · have hp : (p + 10) % (8 * zs.length) = p % (8 * zs.length) + 10 := cyclic_add rfl hwrap
      rw [show p + 9 + 1 = p + 10 by omega, hp] at hat
      omega
    · have hp : (p + 10) % (8 * zs.length) = p % (8 * zs.length) + 10 - 8 * zs.length := by
        rw [Nat.add_mod, Nat.mod_eq_of_lt (by omega : 10 < 8 * zs.length),
          Nat.mod_eq_sub_mod (by omega), Nat.mod_eq_of_lt (by omega)]
      rw [show p + 9 + 1 = p + 10 by omega, hp] at hat
      omega
  · -- bits 3 and 19 would be the missing clocks, and bit 10 a data bit of the second word
    exfalso
    obtain ⟨m, hm, hat⟩ := h.missing_pair (q := p + 2) (by omega) hpos
      (hzero (by decide) rfl) (hzero (k := 3) (by decide) rfl) (hzero (k := 4) (by decide) rfl)
      (hzero (k := 18) (by decide) rfl) (hzero (k := 19) (by decide) rfl)
      (hzero (k := 20) (by decide) rfl)
    obtain ⟨hfit, -, -, hword, -⟩ := h.sync m hm
    have hten : (p + 2 + 1 + 7) % (8 * zs.length) = 8 * (m + 1) + 2 + 7 :=
      cyclic_add hat (by omega)
    have hbit := hbits 10 (by decide) (by decide)
    rw [cyclicBit, show p + 10 = p + 2 + 1 + 7 by omega, hten,
      show 8 * (m + 1) + 2 + 7 = 8 * (m + 2) + 1 by omega, bitAt_byte _ _ (by decide),
      hword] at hbit
    exact absurd hbit (by decide)

end

end WebAdf.Lib
