import WebAdf.Firmware.PnetMfm
import WebAdf.Firmware.PnetLz4
import WebAdf.Firmware.PnetMfmLaws

/-!
# Frames linked through a window

Every frame of a batch is decoded into one window, at even offsets, so that a
later frame's LZ4 block may copy from an earlier frame.
-/

namespace WebAdf.Firmware

open Lib

def pnetLz4Window : Nat := 16128
def pnetLz4BlockMax : Nat := 1540
def pnetSizeLz4 : Nat := 0x4000

/-- A frame's bytes in the window, its pad counted. -/
def winBytes (len : Nat) : Nat := len + (len &&& 1)

/-- The window after a frame of `len` bytes at `pos`, and where the next starts:
the pad after an odd frame is written as zero. -/
def pnetLz4WinAdvance (win : Bytes) (pos len : Nat) : Bytes × Nat :=
  if len &&& 1 ≠ 0 then (blit win (pos + len) [0], pos + len + 1) else (win, pos + len)

/-- `pos` is `none` once a frame did not fit. -/
structure Lz4Win where
  win : Bytes
  pos : Option Nat

/-- One call's result: `out` is the caller's frame, empty on an error. -/
structure Lz4Read where
  err : Option PnetErr
  it : FrameIter
  w : Lz4Win
  out : Bytes
  wasLz4 : Bool

def Lz4Win.fail (w : Lz4Win) (it : FrameIter) (err : PnetErr) (wasLz4 : Bool) : Lz4Read :=
  ⟨some err, it, w, [], wasLz4⟩

/-- The frame is whole in the window at `pos`. -/
def Lz4Win.took (win : Bytes) (pos : Nat) (it : FrameIter) (frame : Bytes) (wasLz4 : Bool) :
    Lz4Read :=
  let (win, pos) := pnetLz4WinAdvance win pos frame.length
  ⟨none, it, ⟨win, some pos⟩, frame, wasLz4⟩

/-- Where a frame of `os` bytes goes in the window, if it fits with its pad. -/
def Lz4Win.place (w : Lz4Win) (os : Nat) : Option Nat :=
  match w.pos with
  | some pos => if pos ≤ pnetLz4Window ∧ winBytes os ≤ pnetLz4Window - pos then some pos else none
  | none => none

/-- A frame that is not LZ4: the plain iterator, into the window. Outside the
window, nothing later may link to it. -/
def plainNext (it : FrameIter) (w : Lz4Win) (os cap : Nat) : Lz4Read :=
  match if os > cap then none else w.place os with
  | none =>
    let r := pnetFrameIterNext it cap
    ⟨r.err, r.it, { w with pos := none }, if r.err = none then r.out else [], false⟩
  | some pos =>
    let r := pnetFrameIterNext it (pnetLz4Window - pos)
    let win := blit w.win pos r.out
    if r.err ≠ none then ⟨r.err, r.it, { w with win := win }, [], false⟩
    else Lz4Win.took win pos r.it r.out false

/-- An LZ4 frame of the size word `field` and the original size `os`. -/
def lz4Next (it : FrameIter) (w : Lz4Win) (field os cap : Nat) : Lz4Read :=
  let wrapped := field &&& 0x8000 ≠ 0
  if it.dir = .toAmiga ∧ ¬ wrapped then w.fail it .lz4 true
  else
    let off := it.pos + 8
    let blk := field &&& 0x3fff
    let wire := if wrapped then 2 * blk else blk
    if wire > it.p.length - off then w.fail it .frames true
    else if os = 0 ∨ os > pnetEthMtu then w.fail it .frameSize true
    else if os > cap then w.fail it .full true
    else
      match w.place os with
      | none => w.fail it .lz4 true
      | some pos =>
        if blk = 0 ∨ blk > pnetLz4BlockMax then w.fail it .lz4 true
        else
          let src := if wrapped then pnetMfmDecode (it.p.drop off) blk else slice it.p off blk
          let (len, written) := pnetLz4Decode src (w.win.take pos) os
          let win := blit w.win pos written
          if len ≠ some os then ⟨some .lz4, it, { w with win := win }, [], true⟩
          else Lz4Win.took win pos (it.advance off wire) written true

def pnetLz4IterNext (it : FrameIter) (w : Lz4Win) (cap : Nat) : Lz4Read :=
  if it.i ≥ it.count ∨ 8 > it.p.length - it.pos then w.fail it .frames false
  else
    let ch := pnetMfmDecode (it.p.drop it.pos) 4
    let field := get16 ch 0
    let os := get16 ch 2
    if field &&& pnetSizeLz4 = 0 then plainNext it w os cap else lz4Next it w field os cap

/-- Frame after frame until none is left, `none` at the first error. -/
def readFrames (it : FrameIter) (w : Lz4Win) (cap : Nat) : Nat → Option (List Bytes)
  | 0 => if it.i < it.count then none else some []
  | n + 1 =>
    if it.i < it.count then
      let r := pnetLz4IterNext it w cap
      if r.err = none then (readFrames r.it r.w cap n).map (r.out :: ·) else none
    else some []

end WebAdf.Firmware

/-!
# One frame read through the window

`Laid` is a window that holds the frames read so far. A frame's headers and
bytes, next in the payload, come out as the frame, and the window then holds it
too, its pad as zero.
-/

namespace WebAdf.Firmware

open Lib

/-- A frame in the window, its pad after it. -/
def padded (data : Bytes) : Bytes := if data.length &&& 1 ≠ 0 then data ++ [0] else data

theorem length_padded (data : Bytes) : (padded data).length = winBytes data.length := by
  have hmod := Nat.and_one_is_mod data.length
  rw [padded, winBytes]
  split
  · rw [List.length_append, List.length_singleton]
    omega
  · omega

theorem le_winBytes (len : Nat) : len ≤ winBytes len := Nat.le_add_right _ _

/-- The window holds the bytes `ws`, and the next frame goes after them. -/
structure Laid (win : Bytes) (pos : Nat) (ws : Bytes) : Prop where
  offset : pos = ws.length
  size : win.length = pnetLz4Window
  held : win.take ws.length = ws

theorem Laid.start (h : win.length = pnetLz4Window) : Laid win 0 [] := ⟨rfl, h, rfl⟩

theorem Laid.write (h : Laid win pos ws) (hfits : pos + ys.length ≤ pnetLz4Window) :
    Laid (blit win pos ys) (pos + ys.length) (ws ++ ys) := by
  obtain ⟨rfl, hsize, hheld⟩ := h
  refine ⟨by simp, ?_, ?_⟩
  · rw [length_blit (by omega), hsize]
  · rw [blit, hheld]
    exact List.take_left' (by simp)

/-- A frame copied into the window, and the window moved past it. -/
theorem Laid.advance (h : Laid win pos ws) (hfits : pos + winBytes data.length ≤ pnetLz4Window) :
    Laid (pnetLz4WinAdvance (blit win pos data) pos data.length).1
      (pnetLz4WinAdvance (blit win pos data) pos data.length).2 (ws ++ padded data) := by
  have hmod := Nat.and_one_is_mod data.length
  have hsize := h.size
  rw [winBytes] at hfits
  rw [pnetLz4WinAdvance, padded]
  split
  · rw [blit_append (by omega) rfl, Nat.add_assoc, ← List.length_singleton (a := (0 : UInt8)),
      ← List.length_append]
    exact h.write (by simp; omega)
  · exact h.write (by omega)

-- ---------------------------------------------------------------------------
-- A frame in the payload
-- ---------------------------------------------------------------------------

/-- A frame's two header words and its bytes, MFM from a clean start. -/
def wireFrame (field os : Nat) (body : Bytes) : Bytes :=
  (pnetMfmEncode 0 (put16 field ++ put16 os ++ body)).1

@[simp] theorem length_wireFrame (field os : Nat) (body : Bytes) :
    (wireFrame field os body).length = 8 + 2 * body.length := by
  simp [wireFrame]
  omega

/-- The iterator stands before a frame of `field`, `os` and `body`. -/
structure Before (it : FrameIter) (field os : Nat) (body rest : Bytes) : Prop where
  more : it.i < it.count
  next : it.p.drop it.pos = wireFrame field os body ++ rest

section
variable {it : FrameIter} {field os : Nat} {body rest : Bytes}

theorem Before.left (h : Before it field os body rest) :
    it.p.length - it.pos = 8 + 2 * body.length + rest.length := by
  have hl := congrArg List.length h.next
  rwa [List.length_drop, List.length_append, length_wireFrame] at hl

theorem Before.header (h : Before it field os body rest) :
    pnetMfmDecode (it.p.drop it.pos) 4 = put16 field ++ put16 os := by
  rw [h.next, wireFrame, pnetMfmEncode_append, List.append_assoc]
  exact pnetMfmDecode_encode 0 (put16 field ++ put16 os) _

theorem Before.decoded (h : Before it field os body rest) :
    pnetMfmDecode (it.p.drop (it.pos + 8)) body.length = body := by
  have hhead : (pnetMfmEncode 0 (put16 field ++ put16 os)).1.length = 8 := by simp
  rw [← List.drop_drop, h.next, wireFrame, pnetMfmEncode_append, List.append_assoc,
    List.drop_left' hhead]
  exact pnetMfmDecode_encode _ _ _

theorem Before.past (h : Before it field os body rest) :
    it.p.drop (it.pos + (8 + 2 * body.length)) = rest := by
  rw [← List.drop_drop, h.next, List.drop_left' (length_wireFrame _ _ _)]

theorem Before.advance (h : Before it field os body rest) :
    it.advance (it.pos + 8) (2 * body.length) =
      { it with pos := it.pos + (8 + 2 * body.length), i := it.i + 1 } := by
  have hleft := h.left
  have heven : 2 * body.length &&& 1 = 0 := by
    rw [Nat.and_one_is_mod]
    omega
  rw [FrameIter.advance, heven, if_neg (by omega), Nat.add_zero, Nat.add_assoc]

end

theorem get16_words (ha : a < 2 ^ 16) (hb : b < 2 ^ 16) :
    get16 (put16 a ++ put16 b) 0 = a ∧ get16 (put16 a ++ put16 b) 2 = b :=
  ⟨be16_put ha, be16_put hb⟩

theorem and_two_pow_eq (x i : Nat) : x &&& 2 ^ i = x / 2 ^ i % 2 * 2 ^ i := by
  rw [Nat.and_two_pow, Nat.testBit_eq_decide_div_mod_eq]
  rcases Nat.mod_two_eq_zero_or_one (x / 2 ^ i) with h | h <;> simp [h]

theorem mfm_word (h : n < 2 ^ 14) :
    0x8000 ||| n < 2 ^ 16 ∧ (0x8000 ||| n) &&& pnetSizeLz4 = 0 ∧ (0x8000 ||| n) &&& 0x7fff = n ∧
      (0x8000 ||| n) &&& 0x8000 ≠ 0 := by
  have hor : 0x8000 ||| n = 0x8000 + n :=
    (Nat.two_pow_add_eq_or_of_lt (i := 15) (by omega) 1).symm
  have h14 : (0x8000 + n) &&& pnetSizeLz4 = _ := and_two_pow_eq _ 14
  have h15 : (0x8000 + n) &&& 0x8000 = _ := and_two_pow_eq _ 15
  have hlow : (0x8000 + n) &&& 0x7fff = _ := Nat.and_two_pow_sub_one_eq_mod _ 15
  rw [hor, h14, h15, hlow]
  refine ⟨?_, ?_, ?_, ?_⟩ <;> omega

theorem lz4_word (h : n < 2 ^ 14) :
    0x8000 ||| pnetSizeLz4 ||| n < 2 ^ 16 ∧ (0x8000 ||| pnetSizeLz4 ||| n) &&& pnetSizeLz4 ≠ 0 ∧
      (0x8000 ||| pnetSizeLz4 ||| n) &&& 0x3fff = n ∧
      (0x8000 ||| pnetSizeLz4 ||| n) &&& 0x8000 ≠ 0 := by
  have hor : 0x8000 ||| pnetSizeLz4 ||| n = 0xc000 + n :=
    (Nat.two_pow_add_eq_or_of_lt h 3).symm
  have h14 : (0xc000 + n) &&& pnetSizeLz4 = _ := and_two_pow_eq _ 14
  have h15 : (0xc000 + n) &&& 0x8000 = _ := and_two_pow_eq _ 15
  have hlow : (0xc000 + n) &&& 0x3fff = _ := Nat.and_two_pow_sub_one_eq_mod _ 14
  rw [hor, h14, h15, hlow]
  refine ⟨?_, ?_, ?_, ?_⟩ <;> omega

-- ---------------------------------------------------------------------------
-- One read
-- ---------------------------------------------------------------------------

/-- The frame `data` was read from a frame of `n` body bytes: the iterator is
past it, and the window holds it. -/
structure Took (r : Lz4Read) (it : FrameIter) (n : Nat) (ws data : Bytes) : Prop where
  err : r.err = none
  out : r.out = data
  it : r.it = { it with pos := it.pos + (8 + 2 * n), i := it.i + 1 }
  laid : ∃ pos, r.w.pos = some pos ∧ Laid r.w.win pos (ws ++ padded data)

section
variable {it : FrameIter} {data ws rest win : Bytes} {cap pos : Nat}

theorem Laid.place (h : Laid win pos ws) (hwindow : (ws ++ padded data).length ≤ pnetLz4Window) :
    Lz4Win.place ⟨win, some pos⟩ data.length = some pos ∧
      pos + winBytes data.length ≤ pnetLz4Window := by
  rw [List.length_append, length_padded, ← h.offset] at hwindow
  exact ⟨if_pos ⟨by omega, by omega⟩, hwindow⟩

/-- The window's bookkeeping after a frame that went in at `pos`. -/
theorem Laid.took (h : Laid win pos ws) (hwindow : (ws ++ padded data).length ≤ pnetLz4Window)
    (hit : it' = { it with pos := it.pos + (8 + 2 * n), i := it.i + 1 }) :
    Took (Lz4Win.took (blit win pos data) pos it' data z) it n ws data := by
  obtain ⟨-, hfits⟩ := h.place hwindow
  exact ⟨rfl, rfl, hit, _, rfl, h.advance hfits⟩

/-- A frame sent as MFM. -/
theorem pnetLz4IterNext_mfm (hit : Before it (0x8000 ||| 2 * data.length) data.length data rest)
    (hlaid : Laid win pos ws) (hwindow : (ws ++ padded data).length ≤ pnetLz4Window)
    (hdir : it.dir = .toAmiga) (hlen : 0 < data.length ∧ data.length ≤ pnetEthMtu)
    (hcap : data.length ≤ cap) :
    Took (pnetLz4IterNext it ⟨win, some pos⟩ cap) it data.length ws data := by
  obtain ⟨hpos, hmtu⟩ := hlen
  have hsmall : data.length ≤ 1518 := hmtu
  obtain ⟨hplace, hfits⟩ := hlaid.place hwindow
  have hroom := le_winBytes data.length
  have hleft := hit.left
  have hmore := hit.more
  obtain ⟨hword, hplain, hsize, hmfm⟩ := mfm_word (n := 2 * data.length) (by omega)
  obtain ⟨hfield, hos⟩ := get16_words hword (b := data.length) (by omega)
  have hmtu' : ¬ (data.length = 0 ∨ data.length > pnetEthMtu) := by omega
  have hread : pnetFrameIterNext it (pnetLz4Window - pos) =
      ⟨none, it.advance (it.pos + 8) (2 * data.length), data⟩ := by
    rw [pnetFrameIterNext, if_neg (by omega), if_neg (by omega)]
    simp only [hit.header, hfield, hos, hsize, hdir]
    rw [if_neg (by omega), if_neg hmtu', if_neg (by omega), if_neg (by simpa using hmfm),
      if_neg (by omega), hit.decoded]
  rw [pnetLz4IterNext, if_neg (by omega)]
  simp only [hit.header, hfield, hos, hplain, if_true]
  rw [plainNext, if_neg (by omega), hplace]
  simp only [hread]
  exact hlaid.took hwindow hit.advance

/-- A frame sent as an LZ4 block against the window. -/
theorem pnetLz4IterNext_lz4 {blk : Bytes}
    (hit : Before it (0x8000 ||| pnetSizeLz4 ||| blk.length) data.length blk rest)
    (hlaid : Laid win pos ws) (hwindow : (ws ++ padded data).length ≤ pnetLz4Window)
    (hlen : 0 < data.length ∧ data.length ≤ pnetEthMtu) (hcap : data.length ≤ cap)
    (hblk : 0 < blk.length ∧ blk.length < data.length)
    (hdec : pnetLz4Decode blk ws data.length = (some data.length, data)) :
    Took (pnetLz4IterNext it ⟨win, some pos⟩ cap) it blk.length ws data := by
  obtain ⟨hpos, hmtu⟩ := hlen
  have hsmall : data.length ≤ 1518 := hmtu
  obtain ⟨hplace, hfits⟩ := hlaid.place hwindow
  have hleft := hit.left
  have hmore := hit.more
  obtain ⟨hword, hlz4, hsize, hwrapped⟩ := lz4_word (n := blk.length) (by omega)
  obtain ⟨hfield, hos⟩ := get16_words hword (b := data.length) (by omega)
  have hmtu' : ¬ (data.length = 0 ∨ data.length > pnetEthMtu) := by omega
  have hmax : ¬ (blk.length = 0 ∨ blk.length > pnetLz4BlockMax) := by
    rw [pnetLz4BlockMax]
    omega
  have hwin : win.take pos = ws := by rw [hlaid.offset, hlaid.held]
  rw [pnetLz4IterNext, if_neg (by omega)]
  simp only [hit.header, hfield, hos, if_neg hlz4]
  rw [lz4Next, if_neg (fun h => h.2 hwrapped)]
  simp only [hsize, if_pos hwrapped, hplace]
  rw [if_neg (by omega), if_neg hmtu', if_neg (by omega), if_neg hmax, hit.decoded, hwin, hdec]
  dsimp only
  rw [if_neg (by simp)]
  exact hlaid.took hwindow hit.advance

end

end WebAdf.Firmware
