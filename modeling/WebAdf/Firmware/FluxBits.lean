import WebAdf.Constants
import WebAdf.Lib.Cells

/-!
# Flux intervals to bits

The accumulator that turns the time from one flux change to the next into a one
and its empty cells. A time within a microsecond of an interval's nominal length
is taken for that interval, so the bits fed in are the bits that were read.
-/

namespace WebAdf.Firmware

open Lib

/-- The cells an interval of `ns` nanoseconds spans. -/
def mfmIntervalToBits (ns : UInt32) : Nat := if ns < 5000 then 2 else if ns < 7000 then 3 else 4

structure FluxBits where
  buf : Bytes
  capBits : Nat
  bit : Nat
  overflowed : Bool
  intervals : UInt32
  outOfRange : UInt32

def fluxBitsInit (cap : Nat) : FluxBits where
  buf := List.replicate cap 0
  capBits := cap * 8
  bit := 0
  overflowed := false
  intervals := 0
  outOfRange := 0

/-- Bit `b` of the buffer set. -/
def setBit (buf : Bytes) (b : Nat) : Bytes :=
  buf.set (b / 8) (buf.getD (b / 8) 0 ||| (0x80 >>> UInt8.ofNat (b % 8)))

def fluxBitsFeed (f : FluxBits) (ns : UInt32) : FluxBits :=
  let f := { f with intervals := f.intervals + 1 }
  let f := if ns ≥ 9000 then { f with outOfRange := f.outOfRange + 1 } else f
  let cells := mfmIntervalToBits ns
  if f.bit ≥ f.capBits then { f with overflowed := true }
  else
    let f := { f with buf := setBit f.buf f.bit, bit := f.bit + 1 }
    let zeros := cells - 1
    if f.bit + zeros > f.capBits then { f with overflowed := true, bit := f.bit + (f.capBits - f.bit) }
    else { f with bit := f.bit + zeros }

def fluxBitsBytes (f : FluxBits) : Nat := (f.bit + 7) / 8

-- ---------------------------------------------------------------------------
-- One interval
-- ---------------------------------------------------------------------------

/-- Within the margin of an interval of `k` cells of two microseconds. -/
def NearCells (ns : UInt32) (k : Nat) : Prop :=
  2000 * k < ns.toNat + 1000 ∧ ns.toNat < 2000 * k + 1000

theorem mfmIntervalToBits_near (h : NearCells ns k) (hk : 2 ≤ k ∧ k ≤ 4) :
    mfmIntervalToBits ns = k ∧ ¬ns ≥ 9000 := by
  obtain ⟨hlo, hhi⟩ := h
  have h5 : ns < 5000 ↔ ns.toNat < 5000 := UInt32.lt_iff_toNat_lt
  have h7 : ns < 7000 ↔ ns.toNat < 7000 := UInt32.lt_iff_toNat_lt
  have h9 : ns ≥ 9000 ↔ 9000 ≤ ns.toNat := UInt32.le_iff_toNat_le
  simp only [mfmIntervalToBits, h5, h7, h9]
  obtain rfl | rfl | rfl : k = 2 ∨ k = 3 ∨ k = 4 := by omega
  · exact ⟨if_pos (by omega), by omega⟩
  · exact ⟨by rw [if_neg (by omega), if_pos (by omega)], by omega⟩
  · exact ⟨by rw [if_neg (by omega), if_neg (by omega)], by omega⟩

theorem getMsbD_mark (hj : j < 8) (hi : i < 8) :
    (0x80 >>> UInt8.ofNat i : UInt8).toBitVec.getMsbD j = decide (j = i) := by
  have hall : ∀ i < 8, ∀ j < 8,
      (0x80 >>> UInt8.ofNat i : UInt8).toBitVec.getMsbD j = decide (j = i) := by decide
  exact hall i hi j hj

theorem bitAt_setBit {buf : Bytes} (hb : b < 8 * buf.length) (c : Nat) :
    bitAt (setBit buf b) c = (bitAt buf c || decide (c = b)) := by
  rw [bitAt, setBit, List.getD_eq_getElem?_getD, List.getElem?_set]
  by_cases hbyte : b / 8 = c / 8
  · rw [if_pos hbyte, if_pos (by omega), Option.getD_some, UInt8.toBitVec_or, BitVec.getMsbD_or,
      getMsbD_mark (Nat.mod_lt _ (by decide)) (Nat.mod_lt _ (by decide)), bitAt, hbyte]
    congr 1
    simp only [decide_eq_decide]
    omega
  · rw [if_neg hbyte, ← List.getD_eq_getElem?_getD, ← bitAt]
    have hne : c ≠ b := fun h => hbyte (by rw [h])
    rw [decide_eq_false hne, Bool.or_false]

/-- The buffer holds `bits` bits and only zeros after them. -/
structure FluxBits.Clear (f : FluxBits) : Prop where
  size : f.capBits = 8 * f.buf.length
  room : f.bit ≤ f.capBits
  clear : ∀ b, f.bit ≤ b → bitAt f.buf b = false

theorem fluxBitsInit_clear (cap : Nat) : (fluxBitsInit cap).Clear where
  size := by simp [fluxBitsInit, Nat.mul_comm]
  room := Nat.zero_le _
  clear := by
    intro b _
    have hzero : (List.replicate cap (0 : UInt8)).getD (b / 8) 0 = 0 := by
      rw [List.getD_eq_getElem?_getD, List.getElem?_getD_replicate_default_eq]
    rw [bitAt, show (fluxBitsInit cap).buf = List.replicate cap 0 from rfl, hzero]
    simp

/-- `g` is `f` with `bits` appended. -/
structure FluxBits.Took (f g : FluxBits) (bits : List Bool) : Prop where
  bit : g.bit = f.bit + bits.length
  cap : g.capBits = f.capBits
  clear : g.Clear
  kept : ∀ b < f.bit, bitAt g.buf b = bitAt f.buf b
  appended : ∀ i < bits.length, bitAt g.buf (f.bit + i) = bits.getD i false
  overflowed : g.overflowed = f.overflowed
  outOfRange : g.outOfRange = f.outOfRange

/-- One interval adds its one and its empty cells. -/
theorem fluxBitsFeed_took {f : FluxBits} (h : f.Clear) (hns : NearCells ns k) (hk : 2 ≤ k ∧ k ≤ 4)
    (hroom : f.bit + k ≤ f.capBits) :
    f.Took (fluxBitsFeed f ns) (true :: List.replicate (k - 1) false) := by
  obtain ⟨hcells, hrange⟩ := mfmIntervalToBits_near hns hk
  have hsize := h.size
  have hfeed : fluxBitsFeed f ns =
      { f with
        intervals := f.intervals + 1, buf := setBit f.buf f.bit, bit := f.bit + k } := by
    rw [fluxBitsFeed, hcells]
    simp only [if_neg hrange]
    rw [if_neg (by omega), if_neg (by omega), show f.bit + 1 + (k - 1) = f.bit + k by omega]
  have hset := fun c => bitAt_setBit (show f.bit < 8 * f.buf.length by omega) c
  have hlen : (true :: List.replicate (k - 1) false).length = k := by simp; omega
  rw [hfeed]
  refine ⟨by rw [hlen], rfl, ⟨?_, hroom, ?_⟩, ?_, ?_, rfl, rfl⟩
  · simpa [setBit] using hsize
  · intro b hb
    simp only at hb ⊢
    rw [hset, h.clear b (by omega), decide_eq_false (by omega), Bool.or_false]
  · intro b hb
    simp only
    rw [hset, decide_eq_false (by omega), Bool.or_false]
  · intro i hi
    simp only
    rw [hset, h.clear _ (Nat.le_add_right _ _), Bool.false_or]
    cases i with
    | zero => simp
    | succ i =>
      rw [decide_eq_false (by omega), List.getD_cons_succ, List.getD_replicate _ (by simp at hi; omega)]

theorem FluxBits.Took.trans {f g k : FluxBits} (h : f.Took g xs) (h' : g.Took k ys) : f.Took k (xs ++ ys) where
  bit := by rw [h'.bit, h.bit, List.length_append, Nat.add_assoc]
  cap := h'.cap.trans h.cap
  clear := h'.clear
  kept := by
    intro b hb
    rw [h'.kept b (by rw [h.bit]; omega), h.kept b hb]
  appended := by
    intro i hi
    by_cases hin : i < xs.length
    · rw [h'.kept _ (by rw [h.bit]; omega), h.appended i hin, List.getD_append _ _ _ _ hin]
    · rw [List.length_append] at hi
      obtain ⟨j, rfl⟩ := Nat.exists_eq_add_of_le (Nat.le_of_not_lt hin)
      rw [← Nat.add_assoc, ← h.bit, h'.appended j (by omega),
        List.getD_append_right _ _ _ _ (Nat.le_add_right _ _), Nat.add_sub_cancel_left]
  overflowed := h'.overflowed.trans h.overflowed
  outOfRange := h'.outOfRange.trans h.outOfRange

/-- Every interval of a run, each within the margin, adds its cells. -/
theorem foldl_fluxBitsFeed_took {f : FluxBits} (h : f.Clear) (hns : List.Forall₂ NearCells ns ks)
    (hk : ∀ k ∈ ks, 2 ≤ k ∧ k ≤ 4) (hroom : f.bit + (spread ks).length ≤ f.capBits) :
    f.Took (ns.foldl fluxBitsFeed f) (spread ks) := by
  induction hns generalizing f with
  | nil =>
    exact ⟨rfl, rfl, h, fun _ _ => rfl, nofun, rfl, rfl⟩
  | @cons n k ns ks hn hrest ih =>
    have hk1 := hk k (by simp)
    rw [spread, List.flatMap_cons, List.length_append, ← spread] at hroom
    have hfirst : (true :: List.replicate (k - 1) false).length = k := by simp; omega
    have hone := fluxBitsFeed_took h hn hk1 (by omega)
    have hmore := ih hone.clear (fun k' hk' => hk k' (by simp [hk'])) (by
      rw [hone.bit, hone.cap]
      omega)
    rw [List.foldl_cons, spread, List.flatMap_cons, ← spread]
    exact hone.trans hmore

end WebAdf.Firmware
