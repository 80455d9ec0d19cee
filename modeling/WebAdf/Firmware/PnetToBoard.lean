import WebAdf.Firmware.PnetMfmLaws
import WebAdf.Firmware.PnetLz4Iter
import WebAdf.Firmware.PnetLink
import WebAdf.Firmware.PnetRle
import WebAdf.Lib.Cells

/-!
# The network link from the Amiga to the board

`pnetBuildToBoard` is the Amiga's side: a raw header, the frames' headers in MFM
and the frames run-length encoded. The board parses the header and reads the
frames one by one; it gets the frames that were sent.
-/

namespace WebAdf.Firmware

open Lib

def pnetFromDriver : UInt8 := 0x40
def pnetCompressedMfm : UInt8 := 2

/-- The room for one frame's bytes. -/
def frameBound (dir : PnetDir) (len : Nat) : Nat :=
  if dir = .toAmiga then 2 * len else pnetRleBound len

/-- The room for a payload, none when a frame is unsendable. -/
def refsBound (dir : PnetDir) (f : List Bytes) : Option Nat :=
  if f.length > pnetMaxFrames then none
  else if f = [] then some 0
  else if f.any fun f => f.length == 0 || pnetEthMtu < f.length then none
  else some (4 + (f.map fun f => 8 + frameBound dir f.length).sum)

/-- One frame of a payload: its headers, then MFM or run lengths. -/
def putRef (dir : PnetDir) (f : Bytes) : Bytes :=
  let mfm := dir = .toAmiga
  let r := if mfm then 2 * f.length else (pnetRleEncode f).length
  let (head, last) := pnetMfmEncode 0 (put16 (0x8000 ||| r % 65536) ++ put16 f.length)
  head ++ if mfm then (pnetMfmEncode last f).1 else pnetRleEncode f

def putRefs (dir : PnetDir) (flags : UInt8) (f : List Bytes) : Bytes :=
  (pnetMfmEncode 0 [UInt8.ofNat f.length, flags]).1 ++ f.flatMap (putRef dir)

/-- The bytes written, none when they might not fit `cap`. -/
def pnetBuildToBoard (cap : Nat) (amigaCtr picoCtr : UInt8) (f : List Bytes) : Bytes :=
  match refsBound .toBoard f with
  | none => []
  | some pb =>
    if 4 + pnetHdrBytes + pb + 2 > cap then []
    else
      let pay := if f = [] then [] else putRefs .toBoard 0 f
      let h : PnetHdr :=
        { checksum := pnetChecksum pay, dataSize := UInt16.ofNat pay.length
          compressedSize := UInt16.ofNat pay.length, mode := pnetModeEthernet
          compressed := pnetCompressedMfm ||| pnetFromDriver
          amigaCtr := amigaCtr, picoCtr := picoCtr }
      [0x00, 0x01, 0x00, 0x01] ++ hdrPack h ++ pay ++ [0xaa, 0xaa]

/-- `k` frames, back to back in `cap` bytes. -/
def parseFrames (it : FrameIter) (cap : Nat) : Nat → Except PnetErr (List Bytes)
  | 0 => .ok []
  | k + 1 =>
    let r := pnetFrameIterNext it cap
    match r.err with
    | some e => .error e
    | none => (parseFrames r.it (cap - r.out.length) k).map (r.out :: ·)

def pnetParseFrames (p : Bytes) (dir : PnetDir) (cap max : Nat) : Except PnetErr (List Bytes) := do
  let it ← pnetFrameIterInit p dir
  if it.count > max then throw .frames
  parseFrames it cap it.count

-- ---------------------------------------------------------------------------
-- The payload
-- ---------------------------------------------------------------------------

/-- A frame the builders take. -/
def Sendable (f : Bytes) : Prop := 0 < f.length ∧ f.length ≤ pnetEthMtu

theorem Sendable.rle (h : Sendable f) : (pnetRleEncode f).length ≤ 1531 := by
  have hle := length_pnetRleEncode_le f
  have hmtu := h.2
  rw [pnetRleBound] at hle
  rw [pnetEthMtu] at hmtu
  omega

theorem putRef_toBoard (h : Sendable f) : putRef .toBoard f =
    (pnetMfmEncode 0 (put16 (0x8000 ||| (pnetRleEncode f).length) ++ put16 f.length)).1 ++
      pnetRleEncode f := by
  have hrle := h.rle
  rw [putRef]
  dsimp only
  rw [if_neg (by decide), if_neg (by decide), Nat.mod_eq_of_lt (by omega)]

theorem length_putRef (h : Sendable f) :
    (putRef .toBoard f).length = 8 + (pnetRleEncode f).length := by
  rw [putRef_toBoard h, List.length_append, length_pnetMfmEncode, List.length_append,
    length_put16, length_put16]

theorem length_putRefs_le (h : ∀ f ∈ fs, Sendable f) :
    (putRefs .toBoard 0 fs).length ≤ 4 + fs.length * 1539 := by
  rw [putRefs, List.length_append, length_pnetMfmEncode]
  have hbody : (fs.flatMap (putRef .toBoard)).length ≤ fs.length * 1539 := by
    induction fs with
    | nil => exact Nat.zero_le _
    | cons f fs ih =>
      have hf := h f (by simp)
      have hrle := hf.rle
      have hrest := ih fun g hg => h g (by simp [hg])
      rw [List.flatMap_cons, List.length_append, length_putRef hf, List.length_cons]
      omega
  simp only [List.length_cons, List.length_nil]
  omega

theorem putRefs_even (h : ∀ f ∈ fs, Sendable f) : (putRefs .toBoard 0 fs).length % 2 = 0 := by
  rw [putRefs, List.length_append, length_pnetMfmEncode]
  have hbody : (fs.flatMap (putRef .toBoard)).length % 2 = 0 := by
    induction fs with
    | nil => rfl
    | cons f fs ih =>
      have hf := h f (by simp)
      have heven := pnetRleEncode_even f
      have hrest := ih fun g hg => h g (by simp [hg])
      rw [List.flatMap_cons, List.length_append, length_putRef hf]
      omega
  omega

-- ---------------------------------------------------------------------------
-- The frames read
-- ---------------------------------------------------------------------------

/-- The iterator gives these frames, one a call, and then no more. -/
def FrameIter.Yields (it : FrameIter) : List Bytes → Prop
  | [] => ∀ cap, (pnetFrameIterNext it cap).err = some .frames
  | f :: fs => ∃ it', (∀ cap, f.length ≤ cap → pnetFrameIterNext it cap = ⟨none, it', f⟩) ∧ it'.Yields fs

/-- The next frame of a payload toward the board. -/
theorem pnetFrameIterNext_putRef (hf : Sendable f) (hdir : it.dir = .toBoard) (hmore : it.i < it.count)
    (hnext : it.p.drop it.pos = putRef .toBoard f ++ rest) (hcap : f.length ≤ cap) :
    pnetFrameIterNext it cap =
      ⟨none, { it with pos := it.pos + (putRef .toBoard f).length, i := it.i + 1 }, f⟩ := by
  have hrle := hf.rle
  have hmtu := hf.2
  rw [pnetEthMtu] at hmtu
  obtain ⟨hword, -, hsize, hbit⟩ := mfm_word (n := (pnetRleEncode f).length) (by omega)
  obtain ⟨hfield, hos⟩ := get16_words hword (show f.length < 2 ^ 16 by omega)
  have hlen := congrArg List.length hnext
  rw [List.length_drop, List.length_append, length_putRef hf] at hlen
  have hhead : pnetMfmDecode (it.p.drop it.pos) 4 =
      put16 (0x8000 ||| (pnetRleEncode f).length) ++ put16 f.length := by
    rw [hnext, putRef_toBoard hf, List.append_assoc]
    exact pnetMfmDecode_encode 0 _ _
  have hbody : slice it.p (it.pos + 8) (pnetRleEncode f).length = pnetRleEncode f := by
    rw [slice, ← List.drop_drop, hnext, putRef_toBoard hf, List.append_assoc,
      List.drop_left' (by simp), List.take_left' rfl]
  have heven : (pnetRleEncode f).length &&& 1 = 0 := by
    rw [Nat.and_one_is_mod, pnetRleEncode_even]
  have hadvance : it.advance (it.pos + 8) (pnetRleEncode f).length =
      { it with pos := it.pos + (putRef .toBoard f).length, i := it.i + 1 } := by
    rw [FrameIter.advance, heven, length_putRef hf, if_neg (by omega), Nat.add_zero, Nat.add_assoc]
  rw [pnetFrameIterNext, hhead]
  dsimp only
  rw [hfield, hos, hsize, hbody, pnetRleDecode_encode (Nat.le_refl _), hadvance]
  dsimp only
  rw [if_neg (by omega), if_neg (by omega), if_neg (by omega), if_neg (by
    have := hf.1
    rw [pnetEthMtu]
    omega), if_neg (by omega), if_pos (by rw [if_pos hdir]; exact hbit), if_neg (by simp)]

theorem yields_putRefs {it : FrameIter} {fs : List Bytes} (h : ∀ f ∈ fs, Sendable f) (hdir : it.dir = .toBoard)
    (hcount : it.i + fs.length = it.count)
    (hnext : it.p.drop it.pos = fs.flatMap (putRef .toBoard)) : it.Yields fs := by
  induction fs generalizing it with
  | nil =>
    intro cap
    rw [List.length_nil, Nat.add_zero] at hcount
    rw [pnetFrameIterNext, if_pos (Nat.le_of_eq hcount.symm)]
    rfl
  | cons f fs ih =>
    rw [List.length_cons] at hcount
    rw [List.flatMap_cons] at hnext
    have hf := h f (by simp)
    refine ⟨_, fun cap hcap => pnetFrameIterNext_putRef hf hdir (by omega) hnext hcap, ?_⟩
    refine ih (fun g hg => h g (by simp [hg])) hdir ?_ ?_
    · exact (Nat.add_right_comm _ _ _).trans hcount
    · rw [← List.drop_drop, hnext, List.drop_left' rfl]

theorem parseFrames_yields {it : FrameIter} {fs : List Bytes} (h : it.Yields fs) (hcap : fs.flatten.length ≤ cap) :
    parseFrames it cap fs.length = .ok fs := by
  induction fs generalizing it cap with
  | nil => rfl
  | cons f fs ih =>
    obtain ⟨it', hnext, hrest⟩ := h
    rw [List.flatten_cons, List.length_append] at hcap
    rw [List.length_cons, parseFrames, hnext cap (by omega)]
    dsimp only
    rw [ih hrest (by omega)]
    rfl

/-- What a payload's frames are, read from the start. -/
theorem pnetFrameIterInit_putRefs (h : ∀ f ∈ fs, Sendable f) (hn : fs.length ≤ pnetMaxFrames) :
    ∃ it, pnetFrameIterInit (if fs = [] then [] else putRefs .toBoard 0 fs) .toBoard = .ok it ∧
      it.count = fs.length ∧ it.Yields fs := by
  rw [pnetMaxFrames] at hn
  rw [pnetFrameIterInit]
  by_cases hfs : fs = []
  · subst hfs
    exact ⟨_, rfl, rfl, fun cap => rfl⟩
  · have hlen : 4 ≤ (putRefs .toBoard 0 fs).length := by
      rw [putRefs, List.length_append, length_pnetMfmEncode]
      exact Nat.le_add_right _ _
    have hhead : (pnetMfmEncode 0 [UInt8.ofNat fs.length, 0]).1.length = 4 := length_pnetMfmEncode _ _
    have hdec : pnetMfmDecode (putRefs .toBoard 0 fs) 2 = [UInt8.ofNat fs.length, 0] :=
      pnetMfmDecode_encode 0 [UInt8.ofNat fs.length, 0] _
    have hcount : (UInt8.ofNat fs.length).toNat = fs.length := by
      rw [UInt8.toNat_ofNat']
      omega
    rw [if_neg hfs]
    dsimp only
    rw [if_neg (by omega), if_neg (by omega), hdec]
    refine ⟨_, rfl, hcount, ?_⟩
    apply yields_putRefs h rfl
    · exact (Nat.zero_add _).trans hcount.symm
    · simp only
      rw [putRefs, List.drop_left' hhead]

-- ---------------------------------------------------------------------------
-- The batch
-- ---------------------------------------------------------------------------

theorem refsBound_eq (h : ∀ f ∈ fs, Sendable f) (hn : fs.length ≤ pnetMaxFrames) :
    ∃ pb, refsBound .toBoard fs = some pb ∧
      (if fs = [] then [] else putRefs .toBoard 0 fs).length ≤ pb := by
  rw [refsBound, if_neg (Nat.not_lt.mpr hn)]
  by_cases hfs : fs = []
  · exact ⟨0, by rw [if_pos hfs], by rw [if_pos hfs]; exact Nat.le_refl _⟩
  · have hany : (fs.any fun f => f.length == 0 || pnetEthMtu < f.length) = false := by
      rw [List.any_eq_false]
      intro f hf
      have hpos := (h f hf).1
      have hmtu := (h f hf).2
      simp only [Bool.or_eq_true, beq_iff_eq, decide_eq_true_eq]
      omega
    have hbody : (fs.flatMap (putRef .toBoard)).length ≤
        (fs.map fun f => 8 + frameBound .toBoard f.length).sum := by
      clear hn hfs hany
      induction fs with
      | nil => exact Nat.zero_le _
      | cons f fs ih =>
        have hle := length_pnetRleEncode_le f
        have hrest := ih fun g hg => h g (by simp [hg])
        rw [List.flatMap_cons, List.length_append, length_putRef (h f (by simp)), List.map_cons,
          List.sum_cons, frameBound, if_neg (by decide)]
        omega
    refine ⟨_, by rw [if_neg hfs, if_neg (by simpa using hany)], ?_⟩
    rw [if_neg hfs, putRefs, List.length_append, length_pnetMfmEncode]
    exact Nat.add_le_add_left hbody 4

theorem pnetParseHdrFromAmiga_put (h : PnetHdr) (pay rest : Bytes)
    (hmode : h.mode = pnetModeEthernet) (hsize : h.compressedSize.toNat = pay.length)
    (heven : pay.length % 2 = 0) (hsum : h.checksum = pnetChecksum pay) (hrest : rest ≠ []) :
    pnetParseHdrFromAmiga (hdrPack h ++ (pay ++ rest)) = .ok h := by
  have hpos := List.length_pos_iff.mpr hrest
  have hpack := length_hdrPack h
  have hpay : slice (hdrPack h ++ (pay ++ rest)) pnetHdrBytes pay.length = pay :=
    slice_append_at hpack rfl
  have hunpack : hdrUnpack (hdrPack h ++ (pay ++ rest)) = (h, true) := hdrUnpack_hdrPack h
  have hlen : (hdrPack h ++ (pay ++ rest)).length = pnetHdrBytes + (pay.length + rest.length) := by
    rw [List.length_append, List.length_append, hpack]
  have hand : h.compressedSize &&& 1 = 0 := by
    apply UInt16.toNat_inj.mp
    rw [UInt16.toNat_and, hsize]
    exact (Nat.and_one_is_mod _).trans heven
  have hfits : ¬pnetHdrBytes + (pay.length + rest.length) < pnetHdrBytes := by omega
  have hwhole : ¬(¬h.compressedSize &&& 1 = 0 ∨
      pnetHdrBytes + pay.length ≥ pnetHdrBytes + (pay.length + rest.length)) := by
    rintro (hodd | hbig)
    · exact hodd hand
    · omega
  simp only [pnetParseHdrFromAmiga, hunpack, hsize, hmode, hsum, hlen, hfits, hwhole, ne_eq,
    not_true_eq_false, if_false, Bool.not_true, Bool.false_eq_true, hpay]
  rfl

theorem toBoard_round_trip (amigaCtr picoCtr : UInt8) (after : Bytes)
    (h : ∀ f ∈ fs, Sendable f) (hn : fs.length ≤ pnetMaxFrames)
    (hroom : ∀ pb, refsBound .toBoard fs = some pb → 4 + pnetHdrBytes + pb + 2 ≤ cap) :
    let out := pnetBuildToBoard cap amigaCtr picoCtr fs
    out.length ≤ cap ∧ out.take 4 = [0x00, 0x01, 0x00, 0x01] ∧
      ∃ h it, pnetParseHdrFromAmiga (out.drop 4 ++ after) = .ok h ∧ h.amigaCtr = amigaCtr ∧
        h.picoCtr = picoCtr ∧
        pnetFrameIterInit (slice (out.drop 4 ++ after) pnetHdrBytes h.compressedSize.toNat) .toBoard =
          .ok it ∧ it.count = fs.length ∧ it.Yields fs := by
  obtain ⟨pb, hpb, hle⟩ := refsBound_eq h hn
  obtain ⟨it, hinit, hcount, hyields⟩ := pnetFrameIterInit_putRefs h hn
  have hcap := hroom pb hpb
  rw [pnetBuildToBoard, hpb]
  dsimp only
  rw [if_neg (by omega)]
  have hshort : (if fs = [] then [] else putRefs .toBoard 0 fs).length < 2 ^ 16 := by
    rw [pnetMaxFrames] at hn
    split
    · decide
    · have := length_putRefs_le h
      omega
  have heven : (if fs = [] then [] else putRefs .toBoard 0 fs).length % 2 = 0 := by
    split
    · rfl
    · exact putRefs_even h
  generalize (if fs = [] then [] else putRefs .toBoard 0 fs) = pay at *
  generalize hhd : ({ checksum := pnetChecksum pay, dataSize := UInt16.ofNat pay.length
                      compressedSize := UInt16.ofNat pay.length, mode := pnetModeEthernet
                      compressed := pnetCompressedMfm ||| pnetFromDriver
                      amigaCtr := amigaCtr, picoCtr := picoCtr } : PnetHdr) = hd
  have hpack := length_hdrPack hd
  have hsize : hd.compressedSize.toNat = pay.length := by
    rw [← hhd, UInt16.toNat_ofNat']
    omega
  have hparse := pnetParseHdrFromAmiga_put hd pay ([0xaa, 0xaa] ++ after) (by rw [← hhd]) hsize heven
    (by rw [← hhd]) (by simp)
  have hdrop : ([0x00, 0x01, 0x00, 0x01] ++ hdrPack hd ++ pay ++ [0xaa, 0xaa]).drop 4 ++ after =
      hdrPack hd ++ (pay ++ ([0xaa, 0xaa] ++ after)) := by
    simp
  refine ⟨?_, ?_, hd, it, ?_, by rw [← hhd], by rw [← hhd], ?_, hcount, hyields⟩
  · simp only [List.length_append, hpack, List.length_cons, List.length_nil]
    omega
  · simp
  · rw [hdrop, hparse]
  · rw [hdrop, hsize, slice_append_at hpack rfl, hinit]

/-- What the Amiga sends is what the board reads, and run lengths come back. -/
theorem toBoard_exact (amigaCtr picoCtr : UInt8) (after : Bytes)
    (h : ∀ f ∈ fs, Sendable f) (hn : fs.length ≤ pnetMaxFrames)
    (hroom : ∀ pb, refsBound .toBoard fs = some pb → 4 + pnetHdrBytes + pb + 2 ≤ cap) :
    let out := pnetBuildToBoard cap amigaCtr picoCtr fs
    out.length ≤ cap ∧ out.take 4 = [0x00, 0x01, 0x00, 0x01] ∧
      (∃ h, pnetParseHdrFromAmiga (out.drop 4 ++ after) = .ok h ∧ h.amigaCtr = amigaCtr ∧
        h.picoCtr = picoCtr ∧
        let pay := slice (out.drop 4 ++ after) pnetHdrBytes h.compressedSize.toNat
        (∃ it, pnetFrameIterInit pay .toBoard = .ok it ∧ it.count = fs.length ∧ it.Yields fs) ∧
        ∀ room max, fs.flatten.length ≤ room → fs.length ≤ max →
          pnetParseFrames pay .toBoard room max = .ok fs) ∧
      ∀ x : Bytes, (∀ room, x.length ≤ room →
          pnetRleDecode (pnetRleEncode x) room = (some x.length, x)) ∧
        (pnetRleEncode x).length ≤ pnetRleBound x.length ∧ (pnetRleEncode x).length % 2 = 0 := by
  obtain ⟨hlen, hsync, hd, it, hparse, hactr, hpctr, hinit, hcount, hyields⟩ :=
    toBoard_round_trip amigaCtr picoCtr after h hn hroom
  refine ⟨hlen, hsync, ⟨hd, hparse, hactr, hpctr, ⟨it, hinit, hcount, hyields⟩, ?_⟩, ?_⟩
  · intro room max hfits hmax
    have hread := parseFrames_yields hyields hfits
    rw [pnetParseFrames, hinit]
    simp only [bind, Except.bind, hcount, if_neg (Nat.not_lt.mpr hmax), hread]
  · intro x
    exact ⟨fun room hx => pnetRleDecode_encode hx, length_pnetRleEncode_le x, pnetRleEncode_even x⟩

theorem toBoard_exact_two : (pnetBuildToBoard 64 1 2 [[7, 7, 7, 7], [9]]).length ≤ 64 :=
  (toBoard_exact 1 2 [] (show ∀ f ∈ [[7, 7, 7, 7], [9]], Sendable f by
      intro f hf
      rcases List.mem_cons.mp hf with rfl | hf
      · exact ⟨by decide, by decide⟩
      · rw [List.mem_singleton.mp hf]
        exact ⟨by decide, by decide⟩) (by decide) (by
      intro pb hpb
      obtain rfl : 29 = pb := Option.some.inj (by rw [← hpb]; rfl)
      decide)).1

-- ---------------------------------------------------------------------------
-- The cells
-- ---------------------------------------------------------------------------

theorem sparse_mfmWord (prev : UInt16) (b : UInt8) :
    Sparse prev.toUInt8 (mfmWord prev b >>> 8).toUInt8 ∧
      Sparse (mfmWord prev b >>> 8).toUInt8 (mfmWord prev b).toUInt8 := by
  constructor
  · apply UInt8.toBitVec_inj.mp
    ext i hi
    interval_cases i <;> simp [mfmWord] <;> grind
  · apply UInt8.toBitVec_inj.mp
    ext i hi
    interval_cases i <;> simp [mfmWord] <;> grind

theorem sparse_pnetMfmEncode (last : UInt16) (src : Bytes) (hi : i < 2 * src.length) :
    Sparse (if i = 0 then last.toUInt8 else (pnetMfmEncode last src).1.getD (i - 1) 0)
      ((pnetMfmEncode last src).1.getD i 0) := by
  induction src generalizing last i with
  | nil => simp at hi
  | cons b src ih =>
    obtain ⟨hfirst, hsecond⟩ := sparse_mfmWord last b
    rw [List.length_cons] at hi
    rcases i with _ | _ | i
    · exact hfirst
    · exact hsecond
    · have hrest := ih (mfmWord last b) (i := i) (by omega)
      cases i with
      | zero => exact hrest
      | succ i => exact hrest

/-- MFM keeps the cell rule, from a clean start. -/
theorem pnetMfmEncode_cellRule (src : Bytes) :
    CellRule (bitAt (pnetMfmEncode 0 src).1) (16 * src.length) := by
  have hlen := length_pnetMfmEncode 0 src
  constructor
  · intro b hb
    exact apart_of_sparse (fun i j hj => bitAt_byte _ i hj)
      (fun i hi => sparse_pnetMfmEncode 0 src (by omega)) hb
  · intro b hb
    have hclocked := clockedFrom_pnetMfmEncode 0 src
    have hlegal : Legal (pnetMfmEncode 0 src).1 (fun _ => False) := by
      refine ⟨nofun, ?_, nofun⟩
      intro i hi hno
      refine absurd ?_ hno
      have hat := hclocked.getD hi
      rw [byteBefore]
      by_cases hz : i = 0
      · rw [if_pos hz] at hat ⊢
        exact hat.after _
      · rw [if_neg hz] at hat ⊢
        exact hat
    obtain ⟨k, hk, hone⟩ := hlegal.near (by omega) b
    refine ⟨k, hk, ?_⟩
    rwa [cyclicBit_lt _ (by omega)] at hone

/-- Run lengths do not: the two zero bytes of this one are sixteen empty cells. -/
theorem rle_breaks_cellRule :
    ∃ x : Bytes, x.length % 2 = 0 ∧
      ¬CellRule (bitAt (pnetRleEncode x)) (8 * (pnetRleEncode x).length) := by
  have henc : pnetRleEncode [0, 0] = [0x82, 0, 0, 0] := by decide +kernel
  refine ⟨[0, 0], rfl, ?_⟩
  rw [henc]
  intro hrule
  obtain ⟨k, hk, hone⟩ := hrule.near 8 (by decide)
  interval_cases k <;> exact absurd hone (by decide)

end WebAdf.Firmware
