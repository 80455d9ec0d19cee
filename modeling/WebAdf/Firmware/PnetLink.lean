import WebAdf.Firmware.PnetLz4Iter
import WebAdf.Firmware.PnetMfmLaws
import WebAdf.Firmware.PnetRing

/-!
# The link

The counters by which each side takes the other's batch once, the batch out, and
the taking of a batch: its frames go into the ring while there is room, and every
frame that does not is counted.
-/

namespace WebAdf.Firmware

open Lib

def pnetDriverLz4 : UInt8 := 0x10

structure PnetLink where
  lastAmiga : UInt8
  pico : UInt8
  backup : Bool
  nframes : UInt8
  fresh : UInt32
  dup : UInt32
  acked : UInt32
  queued : UInt32
  over_ : UInt32
  malformed : UInt32
  lz4In : UInt32
  lz4Bad : UInt32
  amigaLz4 : Bool

/-- A header from the Amiga whose checks hold. -/
def pnetParseHdrFromAmiga (b : Bytes) : Except PnetErr PnetHdr := do
  if b.length < pnetHdrBytes then throw .short
  let (h, good) := hdrUnpack b
  if !good then throw .magic
  if h.mode ≠ pnetModeEthernet then throw .mode
  if h.compressedSize &&& 1 ≠ 0 ∨ pnetHdrBytes + h.compressedSize.toNat ≥ b.length then throw .size
  if pnetChecksum (slice b pnetHdrBytes h.compressedSize.toNat) ≠ h.checksum then throw .checksum
  return h

namespace PnetLink

def init : PnetLink where
  lastAmiga := 0xff
  pico := 0x7f
  backup := false
  nframes := 0
  fresh := 0
  dup := 0
  acked := 0
  queued := 0
  over_ := 0
  malformed := 0
  lz4In := 0
  lz4Bad := 0
  amigaLz4 := false

/-- The frames an acknowledgement frees, none where it is no echo of the batch out. -/
def ack (s : PnetLink) (h : PnetHdr) : UInt8 × PnetLink :=
  if !s.backup ∨ h.picoCtr ≠ s.pico then (0, s)
  else (s.nframes, { s with backup := false, nframes := 0, acked := s.acked + 1 })

def isNew (s : PnetLink) (h : PnetHdr) : Bool := h.amigaCtr != s.lastAmiga

/-- The next frame, linked through the window or plain. -/
def nextFrame (linked : Bool) (it : FrameIter) (w : Lz4Win) : Lz4Read :=
  if linked then pnetLz4IterNext it w pnetRingMtu
  else
    let r := pnetFrameIterNext it pnetRingMtu
    ⟨r.err, r.it, w, r.out, false⟩

/-- The loop of `take`, `n` frames at most. -/
def takeFrames (linked : Bool) : Nat → FrameIter → Lz4Win → PnetLink → PnetRing → PnetLink × PnetRing
  | 0, _, _, s, tx => (s, tx)
  | n + 1, it, w, s, tx =>
    if it.i < it.count then
      let rest := UInt32.ofNat (it.count - it.i)
      if tx.space = 0 then ({ s with over_ := s.over_ + rest }, tx)
      else
        let r := nextFrame linked it w
        match r.err with
        | some e =>
          ({ s with
              lz4Bad := if e = .lz4 ∨ r.wasLz4 then s.lz4Bad + 1 else s.lz4Bad
              malformed := s.malformed + rest }, tx)
        | none =>
          let s := { s with queued := s.queued + 1, lz4In := if r.wasLz4 then s.lz4In + 1 else s.lz4In }
          takeFrames linked n r.it r.w s (tx.commit r.out)
    else (s, tx)

/-- A batch whose header checked out, with the window `win` where there is one. False
for one already taken. -/
def takeLz4 (s : PnetLink) (h : PnetHdr) (payload : Bytes) (tx : PnetRing) (win : Option Bytes) :
    Bool × PnetLink × PnetRing :=
  let s := { s with amigaLz4 := h.compressed &&& pnetDriverLz4 ≠ 0 }
  if !s.isNew h then (false, { s with dup := s.dup + 1 }, tx)
  else
    let s := { s with lastAmiga := h.amigaCtr, fresh := s.fresh + 1 }
    match pnetFrameIterInit payload .toBoard with
    | .error _ => (true, { s with malformed := s.malformed + 1 }, tx)
    | .ok it => (true, takeFrames (s.amigaLz4 && win.isSome) it.count it ⟨win.getD [], some 0⟩ s tx)

def take (s : PnetLink) (h : PnetHdr) (payload : Bytes) (tx : PnetRing) : Bool × PnetLink × PnetRing :=
  s.takeLz4 h payload tx none

/-- The batch out is `n` frames from now on, where that is fewer and not none. -/
def shrink (s : PnetLink) (n : Nat) : PnetLink :=
  if s.backup ∧ n ≠ 0 ∧ n < s.nframes.toNat then { s with nframes := UInt8.ofNat n } else s

def start (s : PnetLink) (n : Nat) : PnetLink :=
  if n = 0 ∨ s.backup then s
  else { s with pico := s.pico + 1, backup := true, nframes := UInt8.ofNat (min n pnetMaxFrames) }

-- ---------------------------------------------------------------------------
-- What a batch holds
-- ---------------------------------------------------------------------------

/-- The frames up to the first that cannot be read. -/
def readable (linked : Bool) : Nat → FrameIter → Lz4Win → List Bytes
  | 0, _, _ => []
  | n + 1, it, w =>
    if it.i < it.count then
      let r := nextFrame linked it w
      if r.err = none then r.out :: readable linked n r.it r.w else []
    else []

/-- How many frames a payload says it has; one that says nothing readable counts as one. -/
def batchCount (payload : Bytes) : Nat :=
  match pnetFrameIterInit payload .toBoard with
  | .error _ => 1
  | .ok it => it.count

/-- The frames of a payload, read as the header's `compressed` and the window say. -/
def batchFrames (compressed : UInt8) (win : Option Bytes) (payload : Bytes) : List Bytes :=
  match pnetFrameIterInit payload .toBoard with
  | .error _ => []
  | .ok it =>
    readable (decide (compressed &&& pnetDriverLz4 ≠ 0) && win.isSome) it.count it ⟨win.getD [], some 0⟩

/-- Of `n` frames, the first `k` of the readable ones `fs` went into the ring; the rest
are counted as dropped. -/
structure Passed (fs : List Bytes) (n k : Nat) (s s' : PnetLink) (tx tx' : PnetRing) : Prop where
  readable : k ≤ fs.length
  within : k ≤ n
  frames : tx'.frames = tx.frames ++ fs.take k
  ok : tx'.Ok
  queued : s'.queued = s.queued + UInt32.ofNat k
  dropped : s'.over_ + s'.malformed = s.over_ + s.malformed + UInt32.ofNat (n - k)

/-- The two states have the same counters and the same batch out. -/
def Same (s s' : PnetLink) : Prop :=
  s'.lastAmiga = s.lastAmiga ∧ s'.pico = s.pico ∧ s'.backup = s.backup ∧ s'.nframes = s.nframes

end PnetLink

-- ---------------------------------------------------------------------------
-- The iterators go frame by frame
-- ---------------------------------------------------------------------------

/-- One frame further, in the same batch. -/
def FrameIter.Steps (it it' : FrameIter) : Prop := it'.i = it.i + 1 ∧ it'.count = it.count

theorem FrameIter.advance_steps (it : FrameIter) (off size : Nat) : it.Steps (it.advance off size) := ⟨rfl, rfl⟩

theorem pnetFrameIterNext_steps (it : FrameIter) (cap : Nat) :
    (pnetFrameIterNext it cap).err = none → it.Steps (pnetFrameIterNext it cap).it := by
  unfold pnetFrameIterNext
  dsimp only [FrameIter.fail]
  repeat' split
  all_goals first
    | exact fun _ => it.advance_steps _ _
    | exact nofun

theorem Lz4Win.took_steps {it it' : FrameIter} (h : it.Steps it') (win : Bytes) (pos : Nat) (out : Bytes) (z : Bool) :
    it.Steps (Lz4Win.took win pos it' out z).it := h

theorem plainNext_steps (it : FrameIter) (w : Lz4Win) (os cap : Nat) :
    (plainNext it w os cap).err = none → it.Steps (plainNext it w os cap).it := by
  unfold plainNext
  split
  · exact pnetFrameIterNext_steps it cap
  · next pos _ =>
    intro h
    dsimp only at h ⊢
    split at h
    · next hne => exact absurd h hne
    · next hok =>
      rw [if_neg hok]
      exact Lz4Win.took_steps (pnetFrameIterNext_steps it _ (by simpa using hok)) _ _ _ _

theorem lz4Next_steps (it : FrameIter) (w : Lz4Win) (field os cap : Nat) :
    (lz4Next it w field os cap).err = none → it.Steps (lz4Next it w field os cap).it := by
  unfold lz4Next
  dsimp only [Lz4Win.fail]
  repeat' split
  all_goals first
    | exact fun _ => Lz4Win.took_steps (it.advance_steps _ _) _ _ _ _
    | exact nofun

theorem pnetLz4IterNext_steps (it : FrameIter) (w : Lz4Win) (cap : Nat) :
    (pnetLz4IterNext it w cap).err = none → it.Steps (pnetLz4IterNext it w cap).it := by
  unfold pnetLz4IterNext
  dsimp only [Lz4Win.fail]
  split
  · exact nofun
  · split
    · exact plainNext_steps it w _ cap
    · exact lz4Next_steps it w _ _ cap

namespace PnetLink

theorem nextFrame_steps (linked : Bool) (it : FrameIter) (w : Lz4Win) :
    (nextFrame linked it w).err = none → it.Steps (nextFrame linked it w).it := by
  unfold nextFrame
  split
  · exact pnetLz4IterNext_steps it w _
  · exact pnetFrameIterNext_steps it _

-- ---------------------------------------------------------------------------
-- What the operations do
-- ---------------------------------------------------------------------------

theorem takeFrames_passed (linked : Bool) {tx : PnetRing} (htx : tx.Ok) (hn : it.i + n = it.count)
    (w : Lz4Win) (s : PnetLink) :
    ∃ k, Passed (readable linked n it w) n k s (takeFrames linked n it w s tx).1 tx (takeFrames linked n it w s tx).2 ∧
      Same s (takeFrames linked n it w s tx).1 := by
  induction n generalizing it w s tx with
  | zero => exact ⟨0, ⟨Nat.zero_le _, Nat.le_refl _, by simp [takeFrames], htx, by simp [takeFrames], by simp [takeFrames]⟩, rfl, rfl, rfl, rfl⟩
  | succ n ih =>
    have hmore : it.i < it.count := by omega
    have hrest : it.count - it.i = n + 1 := by omega
    rw [takeFrames, readable, if_pos hmore, if_pos hmore, hrest]
    dsimp only
    by_cases hfull : tx.space = 0
    · rw [if_pos hfull]
      refine ⟨0, ⟨Nat.zero_le _, Nat.zero_le _, by simp, htx, by simp, ?_⟩, rfl, rfl, rfl, rfl⟩
      dsimp only
      rw [Nat.sub_zero, UInt32.add_assoc, UInt32.add_comm _ s.malformed, ← UInt32.add_assoc]
    · rw [if_neg hfull]
      cases herr : (nextFrame linked it w).err with
      | some e =>
        dsimp only
        refine ⟨0, ⟨Nat.zero_le _, Nat.zero_le _, by simp, htx, by simp, ?_⟩, rfl, rfl, rfl, rfl⟩
        dsimp only
        rw [Nat.sub_zero, UInt32.add_assoc]
      | none =>
        dsimp only
        obtain ⟨hi, hcount⟩ := nextFrame_steps linked it w herr
        obtain ⟨k, hk, hsame⟩ := ih (PnetRing.commit_ok htx hfull (nextFrame linked it w).out)
          (by rw [hi, hcount]; omega) (nextFrame linked it w).w
          { s with queued := s.queued + 1
                   lz4In := if (nextFrame linked it w).wasLz4 then s.lz4In + 1 else s.lz4In }
        refine ⟨k + 1, ⟨?_, Nat.succ_le_succ hk.within, ?_, hk.ok, ?_, ?_⟩, hsame⟩
        · rw [if_pos rfl, List.length_cons]
          exact Nat.succ_le_succ hk.readable
        · rw [hk.frames, PnetRing.commit_frames htx hfull, if_pos rfl, List.take_succ_cons, List.append_assoc,
            List.singleton_append]
        · rw [hk.queued, UInt32.ofNat_add, UInt32.add_assoc, UInt32.add_comm 1]
          rfl
        · rw [hk.dropped, Nat.add_sub_add_right]

theorem take_dup (s : PnetLink) (h : PnetHdr) (payload : Bytes) (tx : PnetRing) (win : Option Bytes)
    (hdup : h.amigaCtr = s.lastAmiga) :
    ∃ s', s.takeLz4 h payload tx win = (false, s', tx) ∧ Same s s' ∧ s'.queued = s.queued ∧
      s'.over_ + s'.malformed = s.over_ + s.malformed := by
  refine ⟨_, if_pos ?_, ⟨rfl, rfl, rfl, rfl⟩, rfl, rfl⟩
  simp [isNew, hdup]

/-- A batch with another counter is taken, its frames passed on or counted. -/
theorem take_new (s : PnetLink) (h : PnetHdr) (payload : Bytes) {tx : PnetRing} (htx : tx.Ok) (win : Option Bytes)
    (hnew : h.amigaCtr ≠ s.lastAmiga) :
    ∃ s' tx' k, s.takeLz4 h payload tx win = (true, s', tx') ∧ s'.lastAmiga = h.amigaCtr ∧ s'.pico = s.pico ∧
      s'.backup = s.backup ∧ s'.nframes = s.nframes ∧
      Passed (batchFrames h.compressed win payload) (batchCount payload) k s s' tx tx' := by
  have hno : ¬ (!({ s with amigaLz4 := decide (h.compressed &&& pnetDriverLz4 ≠ 0) } : PnetLink).isNew h) = true := by
    simp [isNew, hnew]
  rw [takeLz4]
  dsimp only
  rw [if_neg hno, batchFrames, batchCount]
  cases hit : pnetFrameIterInit payload .toBoard with
  | error e =>
    refine ⟨_, _, 0, rfl, rfl, rfl, rfl, rfl, Nat.zero_le _, Nat.zero_le _, by simp, htx, by simp, ?_⟩
    rw [Nat.sub_zero, ← UInt32.add_assoc]
    rfl
  | ok it =>
    have hi : it.i = 0 := by
      rw [pnetFrameIterInit] at hit
      split at hit
      · cases hit
        rfl
      · split at hit
        · cases hit
        · cases hit
          rfl
    dsimp only
    obtain ⟨k, hk, hsame⟩ := takeFrames_passed (decide (h.compressed &&& pnetDriverLz4 ≠ 0) && win.isSome) htx
      (show it.i + it.count = it.count by rw [hi, Nat.zero_add]) ⟨win.getD [], some 0⟩
      { s with amigaLz4 := decide (h.compressed &&& pnetDriverLz4 ≠ 0), lastAmiga := h.amigaCtr, fresh := s.fresh + 1 }
    exact ⟨_, _, k, rfl, hsame.1, hsame.2.1, hsame.2.2.1, hsame.2.2.2,
      ⟨hk.readable, hk.within, hk.frames, hk.ok, hk.queued, hk.dropped⟩⟩

end PnetLink

/-- A checked header is the one in the bytes. -/
theorem pnetParseHdrFromAmiga_hdr (hb : pnetParseHdrFromAmiga b = .ok h) : h = (hdrUnpack b).1 := by
  rw [pnetParseHdrFromAmiga] at hb
  simp only [bind, Except.bind, throw, throwThe, MonadExceptOf.throw, pure, Except.pure] at hb
  repeat' split at hb
  all_goals first
    | cases hb
      done
    | exact (Except.ok.inj hb).symm

end WebAdf.Firmware
