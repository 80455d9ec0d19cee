import WebAdf.Adfmfm.Mfm
import WebAdf.Lib.Endian

/-!
# The containers the server writes

A WFMF holds 160 encoded tracks, each behind its bit count and padded to a whole
word. A WFAD holds an ADF as it is. `parseLikeFirmware` reads a WFMF the way the
server takes the board to read it.
-/

namespace WebAdf.Adfmfm

open Lib

def wfmfMagic : Nat := 0x464d4657
def wfmfVersion : Nat := 1
def wfmfHeaderBytes : Nat := 16
def firmwareAcceptTrackBits : Nat := 114688
def wfadMagic : Nat := 0x44414657
def wfadVersion : Nat := 1

inductive ContainerError
  | wfmfFormat (message : String)
  | wfadFormat (message : String)
  deriving DecidableEq, Repr

-- ---------------------------------------------------------------------------
-- Writers
-- ---------------------------------------------------------------------------

/-- The four words a container starts with. -/
def containerHeader (magic version fourth : Nat) : Bytes :=
  putLe32 magic ++ putLe32 version ++ putLe32 tracks ++ putLe32 fourth

def eachTrack (check : Nat → α → Except ContainerError Unit) :
    Nat → List α → Except ContainerError Unit
  | _, [] => pure ()
  | t, a :: rest => do
    check t a
    eachTrack check (t + 1) rest

def writeWfmf (ts : List Bytes) : Except ContainerError Bytes := do
  if ts.length ≠ tracks then
    throw (.wfmfFormat s!"expected {tracks} tracks, got {ts.length}")
  eachTrack (fun t (track : Bytes) => do
    if track.length ≠ trackBytes then
      throw (.wfmfFormat s!"track {t} must be {trackBytes} bytes, got {track.length}")) 0 ts
  return containerHeader wfmfMagic wfmfVersion 0 ++
    ts.flatMap fun track => putLe32 trackBits ++ track

/-- A track that came from flux: its own bit count, as the caller has it. -/
structure FluxTrack where
  bits : Int
  bytes : Bytes
  deriving DecidableEq, Repr

def padBytes (n : Nat) : Nat := (4 - n % 4) % 4

def writeWfmfTracks (ts : List FluxTrack) : Except ContainerError Bytes := do
  if ts.length ≠ tracks then
    throw (.wfmfFormat s!"expected {tracks} tracks, got {ts.length}")
  eachTrack (fun t (tr : FluxTrack) => do
    if tr.bits ≤ 0 ∨ tr.bits > (firmwareAcceptTrackBits : Int) then
      throw (.wfmfFormat s!"track {t} has {tr.bits} bits, outside 1..{firmwareAcceptTrackBits}")
    if tr.bytes.length ≠ (tr.bits.toNat + 7) / 8 then
      throw (.wfmfFormat s!"track {t}: {tr.bits} bits but {tr.bytes.length} bytes")) 0 ts
  return containerHeader wfmfMagic wfmfVersion 0 ++ ts.flatMap fun tr =>
    putLe32 tr.bits.toNat ++ (tr.bytes ++ List.replicate (padBytes tr.bytes.length) 0)

def writeWfad (adf : Bytes) : Except ContainerError Bytes := do
  if adf.length ≠ adfHdBytes then
    throw (.wfadFormat s!"an HD ADF is {adfHdBytes} bytes, got {adf.length}")
  return containerHeader wfadMagic wfadVersion hdSectors ++ adf

def writeWfadDd (adf : Bytes) : Except ContainerError Bytes := do
  if adf.length ≠ adfBytes then
    throw (.wfadFormat s!"a DD ADF is {adfBytes} bytes, got {adf.length}")
  return containerHeader wfadMagic wfadVersion sectors ++ adf

-- ---------------------------------------------------------------------------
-- What the writers check
-- ---------------------------------------------------------------------------

theorem eachTrack_ok {check : Nat → α → Except ContainerError Unit} {i : Nat} {ts : List α}
    (h : eachTrack check i ts = .ok ()) : ∀ a ∈ ts, ∃ t, check t a = .ok () := by
  induction ts generalizing i with
  | nil => exact fun a ha => absurd ha List.not_mem_nil
  | cons b ts ih =>
    rw [eachTrack] at h
    cases hb : check i b with
    | error e =>
      rw [hb] at h
      cases h
    | ok u =>
      rw [hb] at h
      intro a ha
      rcases List.mem_cons.1 ha with rfl | ha
      · exact ⟨i, hb⟩
      · exact ih h a ha

theorem writeWfmf_ok (h : writeWfmf ts = .ok blob) :
    ts.length = tracks ∧ (∀ track ∈ ts, track.length = trackBytes) ∧
      blob = containerHeader wfmfMagic wfmfVersion 0 ++
        ts.flatMap fun track => putLe32 trackBits ++ track := by
  unfold writeWfmf at h
  by_cases hlen : ts.length = tracks
  · rw [if_neg (by simp [hlen])] at h
    cases heach : eachTrack (fun t (track : Bytes) => do
        if track.length ≠ trackBytes then
          throw (.wfmfFormat s!"track {t} must be {trackBytes} bytes, got {track.length}")) 0 ts with
    | error e =>
      rw [heach] at h
      cases h
    | ok u =>
      rw [heach] at h
      cases h
      refine ⟨hlen, fun track ht => ?_, rfl⟩
      obtain ⟨t, hcheck⟩ := eachTrack_ok heach track ht
      by_contra hne
      rw [if_pos hne] at hcheck
      cases hcheck
  · rw [if_pos hlen] at h
    cases h

theorem writeWfmfTracks_ok (h : writeWfmfTracks ts = .ok blob) :
    ts.length = tracks ∧
      (∀ tr ∈ ts, 0 < tr.bits ∧ tr.bits ≤ firmwareAcceptTrackBits ∧
        tr.bytes.length = (tr.bits.toNat + 7) / 8) ∧
      blob = containerHeader wfmfMagic wfmfVersion 0 ++ ts.flatMap fun tr =>
        putLe32 tr.bits.toNat ++ (tr.bytes ++ List.replicate (padBytes tr.bytes.length) 0) := by
  unfold writeWfmfTracks at h
  by_cases hlen : ts.length = tracks
  · rw [if_neg (by simp [hlen])] at h
    cases heach : eachTrack (fun t (tr : FluxTrack) => do
        if tr.bits ≤ 0 ∨ tr.bits > (firmwareAcceptTrackBits : Int) then
          throw (.wfmfFormat s!"track {t} has {tr.bits} bits, outside 1..{firmwareAcceptTrackBits}")
        if tr.bytes.length ≠ (tr.bits.toNat + 7) / 8 then
          throw (.wfmfFormat s!"track {t}: {tr.bits} bits but {tr.bytes.length} bytes")) 0 ts with
    | error e =>
      rw [heach] at h
      cases h
    | ok u =>
      rw [heach] at h
      cases h
      refine ⟨hlen, fun tr ht => ?_, rfl⟩
      obtain ⟨t, hcheck⟩ := eachTrack_ok heach tr ht
      by_cases hbits : tr.bits ≤ 0 ∨ tr.bits > (firmwareAcceptTrackBits : Int)
      · rw [if_pos hbits] at hcheck
        cases hcheck
      · rw [if_neg hbits] at hcheck
        by_cases hbytes : tr.bytes.length = (tr.bits.toNat + 7) / 8
        · rw [not_or] at hbits
          exact ⟨by omega, by omega, hbytes⟩
        · change (if ¬ tr.bytes.length = (tr.bits.toNat + 7) / 8 then _ else _) = _ at hcheck
          rw [if_pos hbytes] at hcheck
          cases hcheck
  · rw [if_pos hlen] at h
    cases h

theorem writeWfad_ok (h : writeWfad adf = .ok blob) :
    adf.length = adfHdBytes ∧ blob = containerHeader wfadMagic wfadVersion hdSectors ++ adf := by
  unfold writeWfad at h
  by_cases hlen : adf.length = adfHdBytes
  · rw [if_neg (by simp [hlen])] at h
    cases h
    exact ⟨hlen, rfl⟩
  · rw [if_pos hlen] at h
    cases h

theorem writeWfadDd_ok (h : writeWfadDd adf = .ok blob) :
    adf.length = adfBytes ∧ blob = containerHeader wfadMagic wfadVersion sectors ++ adf := by
  unfold writeWfadDd at h
  by_cases hlen : adf.length = adfBytes
  · rw [if_neg (by simp [hlen])] at h
    cases h
    exact ⟨hlen, rfl⟩
  · rw [if_pos hlen] at h
    cases h

-- ---------------------------------------------------------------------------
-- The mirror of the board's parser
-- ---------------------------------------------------------------------------

structure FirmwareParseResult where
  ok : Bool
  tracks : List (Option Bytes)
  reason : Option String
  deriving DecidableEq, Repr

namespace FirmwareParser

def imageMagic : Nat := 0x464d4657
def imageVersion : Nat := 1
def numTracks : Nat := 160
def trackMaxBytes : Nat := 14336

def fail (ts : List (Option Bytes)) (reason : String) : FirmwareParseResult :=
  ⟨false, ts, some reason⟩

/-- The tracks that are left, from track `t` and byte `place` on. -/
def scan (flat : Bytes) : Nat → Nat → Nat → List (Option Bytes) →
    Except FirmwareParseResult (List (Option Bytes))
  | 0, _, _, ts => .ok ts
  | n + 1, t, place, ts =>
    if place + 4 > flat.length then .error (fail ts s!"truncated before track {t} length")
    else
      let bits := le32 (flat.drop place)
      let place := place + 4
      if bits > trackMaxBytes * 8 then
        .error (fail ts s!"track {t} has {bits} bits, over the {trackMaxBytes * 8}-bit ceiling")
      else
        let bytes := (bits + 7) / 8
        if bytes > trackMaxBytes then
          .error (fail ts s!"track {t} is {bytes} bytes, over the {trackMaxBytes}-byte slot")
        else if place + bytes > flat.length then .error (fail ts s!"truncated inside track {t}")
        else
          let ts := ts.set t (some (slice flat place bytes))
          let place := place + bytes
          let pad := (4 - bytes % 4) % 4
          if place + pad > flat.length then .error (fail ts s!"truncated in track {t} padding")
          else scan flat n (t + 1) (place + pad) ts

end FirmwareParser

open FirmwareParser in
def parseLikeFirmware (chunks : List Bytes) : FirmwareParseResult :=
  let ts := List.replicate numTracks none
  let flat := chunks.flatten
  if flat.length < 16 then fail ts "short header"
  else if le32 flat ≠ imageMagic then fail ts "bad magic"
  else if le32 (flat.drop 4) ≠ imageVersion then fail ts "bad version"
  else
    let count := le32 (flat.drop 8)
    if count ≤ 0 ∨ count > numTracks then fail ts s!"bad track count {count}"
    else
      match scan flat count 0 16 ts with
      | .error r => r
      | .ok ts => if ts.any Option.isNone then fail ts "image incomplete" else ⟨true, ts, none⟩

end WebAdf.Adfmfm
