import WebAdf.Constants
import WebAdf.DiskHistory.Chain
import WebAdf.DiskHistory.Diff
import WebAdf.Lib.Slice

/-!
# Staged tracks over an image

A board's uploads are whole tracks. `overlayTracks` writes them over the image
they were made on; a track that was not staged keeps the image's bytes.
-/

namespace WebAdf.DiskHistory

open Lib

def trackBytesForImage (imageBytes : Nat) : Option Nat :=
  if imageBytes = adfBytes then some trackDataBytes
  else if imageBytes = adfHdBytes then some hdTrackDataBytes
  else none

def isTrackUpload (track : Nat) (data : Bytes) (trackBytes : Nat) : Bool :=
  track < tracks && data.length == trackBytes

/-- `none` where it throws. -/
def overlayTracks (head : Bytes) (staged : List (Nat × Bytes)) : Option Bytes :=
  match trackBytesForImage head.length with
  | none => none
  | some n =>
    if staged.all fun t => isTrackUpload t.1 t.2 n then some (patch n head staged) else none

theorem trackBytesForImage_some (h : trackBytesForImage len = some n) : len = tracks * n := by
  rw [trackBytesForImage] at h
  split at h
  · rename_i hdd
    rw [hdd, ← Option.some.inj h]
    rfl
  · split at h
    · rename_i hhd
      rw [hhd, ← Option.some.inj h]
      rfl
    · cases h

/-- Each track of the overlaid image is the staged one, or the head's. -/
theorem overlayTracks_some (h : overlayTracks head staged = some next) :
    ∃ n, trackBytesForImage head.length = some n ∧ next.length = head.length ∧
      ∀ t, slice next (t * n) n = (lastWrite t staged).getD (slice head (t * n) n) := by
  rw [overlayTracks] at h
  split at h
  · cases h
  · rename_i n hn
    have hlen := trackBytesForImage_some hn
    split at h
    · rename_i hall
      have hblocks : Blocks tracks n staged := by
        intro p hp
        simpa [isTrackUpload] using List.all_eq_true.mp hall p hp
      obtain rfl := Option.some.inj h
      refine ⟨n, hn, ?_, slice_patch hlen hblocks⟩
      rw [length_patch hlen hblocks, hlen]
    · cases h

/-- A table of tracks as rows, one for each track it has. -/
def rowsOf (table : Nat → Option Bytes) : List (Nat × Bytes) :=
  (List.range tracks).filterMap fun t => (table t).map (t, ·)

theorem lastWrite_filterMap (table : Nat → Option Bytes) (n t : Nat) :
    lastWrite t ((List.range n).filterMap fun t => (table t).map (t, ·)) =
      if t < n then table t else none := by
  induction n with
  | zero => rfl
  | succ n ih =>
    rw [List.range_succ, List.filterMap_append]
    cases hn : table n with
    | none =>
      simp only [List.filterMap_cons, hn, Option.map_none, List.filterMap_nil, List.append_nil, ih]
      by_cases ht : t = n
      · rw [ht, if_neg (by omega), if_pos (by omega), hn]
      · by_cases hlt : t < n
        · rw [if_pos hlt, if_pos (by omega)]
        · rw [if_neg hlt, if_neg (by omega)]
    | some data =>
      simp only [List.filterMap_cons, hn, Option.map_some, List.filterMap_nil, lastWrite_concat, ih]
      by_cases ht : n = t
      · rw [if_pos ht, ← ht, if_pos (by omega), hn]
      · rw [if_neg ht]
        by_cases hlt : t < n
        · rw [if_pos hlt, if_pos (by omega)]
        · rw [if_neg hlt, if_neg (by omega)]

theorem lastWrite_rowsOf (table : Nat → Option Bytes) (t : Nat) :
    lastWrite t (rowsOf table) = if t < tracks then table t else none :=
  lastWrite_filterMap table tracks t

end WebAdf.DiskHistory

/-!
# The list of versions a page shows

`loadHistory` walks the chain once, oldest to newest, with one image and one tree in
hand. It reads bytes only from the snapshot its detail window needs; older rows show
the sector count that was stored with them.
-/

namespace WebAdf.DiskHistory

open Lib Adffs

inductive VersionSource
  | original
  | browser
  | amiga
  | rewind
  deriving DecidableEq, Repr

structure VersionMeta where
  source : VersionSource
  deviceId : Option String
  rewindOf : Option Nat
  sectorCount : Nat
  createdAt : Int

structure HistoryVersion (σ : Type) where
  seq : Nat
  kind : VersionKind
  source : VersionSource
  label : String
  createdAt : Int
  imageSha256 : σ
  sectorCount : Nat
  rewindOf : Option Nat
  changes : List TreeChange
  sectorNote : Option String
  isHead : Bool := false

def labelFor (meta_ : VersionMeta) (deviceNames : String → Option String) : String :=
  match meta_.source with
  | .original => "As uploaded"
  | .browser => "Edited in browser"
  | .rewind =>
    match meta_.rewindOf with
    | some seq => s!"Restored to version {seq}"
    | none => "Restored"
  | .amiga =>
    match meta_.deviceId.bind deviceNames with
    | some name => if name = "" then "Amiga" else s!"Amiga: {name}"
    | none => "Amiga"

section

variable {σ : Type}

/-- The newest versions that get their file-level changes. -/
def detailed : Nat := 25

/-- The last snapshot at or before `i`, or the first entry. -/
def backToSnapshot (entries : List (VersionEntry σ)) : Nat → Nat
  | 0 => 0
  | i + 1 => if (entries[i + 1]?.map (·.kind)) = some .snapshot then i + 1 else backToSnapshot entries i

/-- Where the walk starts to read bytes. -/
def detailStart (entries : List (VersionEntry σ)) : Nat := backToSnapshot entries (entries.length - (detailed + 1))

/-- The previous version: its bytes, its tree and its number. -/
structure Previous where
  raw : Option Bytes := none
  volume : Option (Except NoVolume Volume) := none
  seq : Option Nat := none

/-- The image of the next version: read as it is, or one delta over the last. -/
def nextImage (read : σ → Except Thrown Bytes) (prev : Previous) (entry : VersionEntry σ) : Except Thrown Bytes :=
  match entry.kind with
  | .snapshot => do
    let image ← read entry.blobSha256
    if !isHistoryImage image then
      throw (.history s!"snapshot {entry.seq} is {image.length} bytes, not a disk image")
    return image
  | .delta =>
    match prev.raw with
    | none => .error (.history s!"version {entry.seq} has no snapshot to replay from")
    | some raw =>
      if prev.seq.any fun last => entry.seq ≠ last + 1 then
        .error (.history s!"version {entry.seq} follows {prev.seq.getD 0}: the chain has a gap")
      else replayDelta read raw entry

/-- The changes against the tree before, or the note that stands in for them. -/
def changesFrom (localeCompare : Units → Units → Int) (prevVolume : Option (Except NoVolume Volume))
    (volume : Except NoVolume Volume) (index sectorCount : Nat) : List TreeChange × Option String :=
  match prevVolume, volume with
  | none, _ => ([], if 0 < index then some (sectorSummary sectorCount) else none)
  | some (.ok before), .ok after => (diffTrees localeCompare before.root after.root, none)
  | some _, _ => ([], some (sectorSummary sectorCount))

def versionRow (deviceNames : String → Option String) (entry : VersionEntry σ) (meta_ : VersionMeta)
    (shown : List TreeChange × Option String) : HistoryVersion σ where
  seq := entry.seq
  kind := entry.kind
  source := meta_.source
  label := labelFor meta_ deviceNames
  createdAt := meta_.createdAt
  imageSha256 := entry.imageSha256
  sectorCount := meta_.sectorCount
  rewindOf := meta_.rewindOf
  changes := shown.1
  sectorNote := shown.2

/-- One entry of the walk. -/
def historyStep (localeCompare : Units → Units → Int) (read : σ → Except Thrown Bytes) (metaBySeq : Nat → Option VersionMeta)
    (deviceNames : String → Option String) (start index : Nat) (prev : Previous) (entry : VersionEntry σ) :
    Except Thrown (HistoryVersion σ × Previous) :=
  match metaBySeq entry.seq with
  | none => .error (.history s!"no metadata recorded for version {entry.seq}")
  | some meta_ =>
    if index < start then
      .ok (versionRow deviceNames entry meta_ ([], some (sectorSummary meta_.sectorCount)), { prev with seq := some entry.seq })
    else do
      let image ← nextImage read prev entry
      let volume := readVolume image
      let shown := changesFrom localeCompare prev.volume volume index meta_.sectorCount
      return (versionRow deviceNames entry meta_ shown, ⟨some image, some volume, some entry.seq⟩)

def historyFrom (localeCompare : Units → Units → Int) (read : σ → Except Thrown Bytes) (metaBySeq : Nat → Option VersionMeta)
    (deviceNames : String → Option String) (start : Nat) :
    Nat → Previous → List (VersionEntry σ) → Except Thrown (List (HistoryVersion σ))
  | _, _, [] => .ok []
  | index, prev, entry :: entries => do
    let (row, prev) ← historyStep localeCompare read metaBySeq deviceNames start index prev entry
    let rows ← historyFrom localeCompare read metaBySeq deviceNames start (index + 1) prev entries
    return row :: rows

/-- The last row is the head. -/
def markHead : List (HistoryVersion σ) → List (HistoryVersion σ)
  | [] => []
  | [row] => [{ row with isHead := true }]
  | row :: rows => row :: markHead rows

/-- Every version, newest first. -/
def loadHistory (localeCompare : Units → Units → Int) (read : σ → Except Thrown Bytes) (metaBySeq : Nat → Option VersionMeta)
    (deviceNames : String → Option String) (entries : List (VersionEntry σ)) : Except Thrown (List (HistoryVersion σ)) := do
  let rows ← historyFrom localeCompare read metaBySeq deviceNames (detailStart entries) 0 {} entries
  return (markHead rows).reverse

end

end WebAdf.DiskHistory
