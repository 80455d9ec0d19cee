import WebAdf.Constants
import WebAdf.Lib.Clocking
import WebAdf.Lib.Slice

/-!
# MFM primitives

The odd/even split, the Amiga checksum and the clock fill. The server and the
board each have their own copy of these loops; the loop is one definition here
and every copy is that definition at its own lengths.
-/

namespace WebAdf.Adfmfm

def trackBytes : Nat := 12668
def trackBits : Nat := 101344
def sectorMfmBytes : Nat := 1088
def gapLeadBytes : Nat := 256
def sync : Bytes := [0x44, 0x89, 0x44, 0x89]

/-- What the server's codec throws. -/
inductive Thrown
  | mfmFormat (message : String)
  | adfFormat (message : String)
  | trackDecode (message : String)
  deriving DecidableEq, Repr

-- ---------------------------------------------------------------------------
-- The loops
-- ---------------------------------------------------------------------------

/-- Odd bits of each byte, then even bits. -/
def splitLanes (src : Bytes) : Bytes :=
  src.map (fun x : UInt8 => (x >>> 1) &&& 0x55) ++ src.map (fun x : UInt8 => x &&& 0x55)

/-- `n` bytes from the `2 * n` of a split field. -/
def joinLanes (src : Bytes) (n : Nat) : Bytes :=
  (List.range n).map fun i => ((src.getD i 0 <<< 1) &&& 0xaa) ||| (src.getD (n + i) 0 &&& 0x55)

/-- A big-endian long. -/
def long (a b c d : UInt8) : UInt32 :=
  (a.toUInt32 <<< 24) ||| (b.toUInt32 <<< 16) ||| (c.toUInt32 <<< 8) ||| d.toUInt32

def longBytes (v : UInt32) : Bytes :=
  [(v >>> 24).toUInt8, (v >>> 16).toUInt8, (v >>> 8).toUInt8, v.toUInt8]

/-- The XOR of the whole longs. -/
def xorLongs : UInt32 → Bytes → UInt32
  | acc, a :: b :: c :: d :: rest => xorLongs (acc ^^^ long a b c d) rest
  | acc, _ => acc

/-- The XOR of the longs, folded into the 0x55555555 lanes. -/
def foldedXor (src : Bytes) : UInt32 :=
  let c := xorLongs 0 src
  (c ^^^ (c >>> 1)) &&& 0x55555555

/-- One turn of the clock fill: the window `y` moves on by the byte `x`. -/
def clockWindow (y : UInt32) (x : UInt8) : UInt32 :=
  let y := ((y <<< 8) ||| x.toUInt32) &&& 0xffff
  let y := if x &&& 0xaa = 0 then y ||| (~~~((y >>> 1) ||| (y <<< 1)) &&& 0xaaaa) else y
  y &&& 0xff

def fillClocks : UInt32 → Bytes → Bytes
  | _, [] => []
  | y, x :: xs => (clockWindow y x).toUInt8 :: fillClocks (clockWindow y x) xs

-- ---------------------------------------------------------------------------
-- The server's primitives
-- ---------------------------------------------------------------------------

def splitOddEven (src : Bytes) : Bytes := splitLanes src

def joinOddEven (src : Bytes) : Bytes := joinLanes src (src.length / 2)

def checksum (src : Bytes) : Except Thrown UInt32 :=
  if src.length % 4 ≠ 0 then
    .error (.mfmFormat s!"checksum needs a multiple of 4 bytes, got {src.length}")
  else .ok (foldedXor src)

def fillClockBits (track : Bytes) : Bytes := fillClocks 0 track

end WebAdf.Adfmfm

/-!
# The MFM primitives undone

A split field joins back to its bytes, also after the clocks were filled in,
since joining reads data bits only. The window of the clock fill keeps nothing
but the byte before, so the fill is `clock`.
-/

namespace WebAdf.Adfmfm

open Lib

@[simp] theorem length_splitLanes (src : Bytes) : (splitLanes src).length = 2 * src.length := by
  simp [splitLanes]
  omega

@[simp] theorem length_joinLanes (src : Bytes) (n : Nat) : (joinLanes src n).length = n := by
  simp [joinLanes]

@[simp] theorem length_longBytes (v : UInt32) : (longBytes v).length = 4 := rfl

theorem long_longBytes (v : UInt32) :
    long (v >>> 24).toUInt8 (v >>> 16).toUInt8 (v >>> 8).toUInt8 v.toUInt8 = v := by
  apply UInt32.toBitVec_inj.mp
  ext i hi
  interval_cases i <;> simp [long, -UInt32.toUInt32_toUInt8]

-- ---------------------------------------------------------------------------
-- The split
-- ---------------------------------------------------------------------------

theorem unclocked_splitLanes (src : Bytes) : ∀ x ∈ splitLanes src, Unclocked x := by
  have hlane (x : UInt8) : Unclocked (x &&& 0x55) := by
    apply UInt8.toBitVec_inj.mp
    ext i hi
    interval_cases i <;> simp
  intro x hx
  obtain h | h := List.mem_append.mp hx
  · obtain ⟨y, -, rfl⟩ := List.mem_map.mp h
    exact hlane _
  · obtain ⟨y, -, rfl⟩ := List.mem_map.mp h
    exact hlane _

theorem lanes_join (x : UInt8) :
    ((((x >>> 1) &&& 0x55) <<< 1) &&& 0xaa) ||| ((x &&& 0x55) &&& 0x55) = x := by
  apply UInt8.toBitVec_inj.mp
  ext i hi
  interval_cases i <;> simp

theorem joinLanes_splitLanes (src : Bytes) : joinLanes (splitLanes src) src.length = src := by
  apply List.ext_getElem (by simp)
  intro i hi hi'
  have hodd : (splitLanes src).getD i 0 = (src[i] >>> 1) &&& 0x55 := by
    rw [splitLanes, List.getD_append _ _ _ _ (by simpa using hi')]
    simp [List.getD_eq_getElem?_getD, hi']
  have heven : (splitLanes src).getD (src.length + i) 0 = src[i] &&& 0x55 := by
    rw [splitLanes, List.getD_append_right _ _ _ _ (by simp)]
    simp [List.getD_eq_getElem?_getD, hi']
  simp only [joinLanes, List.getElem_map, List.getElem_range, hodd, heven]
  exact lanes_join src[i]

/-- Joining reads no further than the field. -/
theorem joinLanes_take (xs : Bytes) (n : Nat) : joinLanes (xs.take (2 * n)) n = joinLanes xs n := by
  have htake {i : Nat} (hi : i < 2 * n) : (xs.take (2 * n)).getD i 0 = xs.getD i 0 := by
    rw [List.getD_eq_getElem?_getD, List.getElem?_take_of_lt hi, List.getD_eq_getElem?_getD]
  apply List.map_congr_left
  intro i hi
  have hi := List.mem_range.mp hi
  rw [htake (by omega), htake (by omega)]

-- ---------------------------------------------------------------------------
-- Data bits
-- ---------------------------------------------------------------------------

/-- The data bits of every byte. -/
def dataBits (xs : Bytes) : Bytes := xs.map fun x : UInt8 => x &&& 0x55

theorem getD_dataBits (xs : Bytes) (i : Nat) : (dataBits xs).getD i 0 = xs.getD i 0 &&& (0x55 : UInt8) := by
  rcases Nat.lt_or_ge i xs.length with hi | hi
  · simp [dataBits, List.getD_eq_getElem?_getD, hi]
  · simp [dataBits, List.getD_eq_getElem?_getD, hi]

theorem joinLanes_dataBits (xs : Bytes) (n : Nat) : joinLanes (dataBits xs) n = joinLanes xs n := by
  have hodd (x : UInt8) : ((x &&& (0x55 : UInt8)) <<< (1 : UInt8)) &&& (0xaa : UInt8) =
      (x <<< 1) &&& 0xaa := by
    apply UInt8.toBitVec_inj.mp
    ext i hi
    interval_cases i <;> simp
  have heven (x : UInt8) : (x &&& 0x55) &&& 0x55 = x &&& 0x55 := by
    apply UInt8.toBitVec_inj.mp
    ext i hi
    interval_cases i <;> simp
  apply List.map_congr_left
  intro i _
  rw [getD_dataBits, getD_dataBits, hodd, heven]

theorem clockByte_dataBits (y x : UInt8) : clockByte y x &&& 0x55 = x &&& 0x55 := by
  apply byte_ext
  intro j hj
  have h := clockByte_data y x (j := j)
  interval_cases j <;> simp_all

theorem dataBits_clock (y : UInt8) (xs : Bytes) : dataBits (clock y xs) = dataBits xs := by
  induction xs generalizing y with
  | nil => rfl
  | cons x xs ih =>
    have hx := clockByte_dataBits y x
    have hxs := ih (clockByte y x)
    simp only [dataBits] at hxs
    simp [dataBits, clock, hx, hxs]

theorem dataBits_slice (xs : Bytes) (off n : Nat) :
    dataBits (slice xs off n) = slice (dataBits xs) off n := by
  simp [dataBits, slice]

/-- A field of a clocked track joins to what was split into it. -/
theorem joinLanes_clocked (h : slice raw off (2 * n) = splitLanes src) (hn : src.length = n) :
    joinLanes (slice (clock 0 raw) off (2 * n)) n = src := by
  subst hn
  calc joinLanes (slice (clock 0 raw) off (2 * src.length)) src.length
      = joinLanes (dataBits (slice (clock 0 raw) off (2 * src.length))) src.length := by
        rw [joinLanes_dataBits]
    _ = joinLanes (dataBits (slice raw off (2 * src.length))) src.length := by
        rw [dataBits_slice, dataBits_clock, ← dataBits_slice]
    _ = src := by rw [h, joinLanes_dataBits, joinLanes_splitLanes]

-- ---------------------------------------------------------------------------
-- The clock fill
-- ---------------------------------------------------------------------------

theorem clockWindow_byte (y : UInt32) (x : UInt8) :
    (clockWindow y x).toUInt8 = clockByte y.toUInt8 x := by
  unfold clockWindow clockByte
  split
  · apply UInt8.toBitVec_inj.mp
    ext i hi
    interval_cases i <;> simp
  · apply UInt8.toBitVec_inj.mp
    ext i hi
    interval_cases i <;> simp

theorem fillClocks_eq (y : UInt32) (xs : Bytes) : fillClocks y xs = clock y.toUInt8 xs := by
  induction xs generalizing y with
  | nil => rfl
  | cons x xs ih => rw [fillClocks, clock, ih, clockWindow_byte]

end WebAdf.Adfmfm
