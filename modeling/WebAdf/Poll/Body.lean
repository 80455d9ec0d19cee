import Mathlib
import WebAdf.Lib.Json

/-!
# The poll's answer

What the poll route answers a board with, from the rows it reads: the disk to
mount, the next one, the cursors the board keeps, a tag to write and an update.
Each read is a value of its own, so that what others write between two of them
is covered.
-/

namespace WebAdf.Poll

open Lib

def dcTitleMax : Nat := 48
def dcLabelMax : Nat := 24
def dcPollBodyBytes : Nat := 1664

-- ---------------------------------------------------------------------------
-- A disk's label
-- ---------------------------------------------------------------------------

/-- What `trim` takes off. -/
def isWhite (u : UInt16) : Bool :=
  (0x09 ≤ u && u ≤ 0x0d) || u == 0x20 || u == 0xa0 || u == 0x1680 || (0x2000 ≤ u && u ≤ 0x200a) ||
    u == 0x2028 || u == 0x2029 || u == 0x202f || u == 0x205f || u == 0x3000 || u == 0xfeff

def trim (s : Units) : Units := ((s.dropWhile isWhite).reverse.dropWhile isWhite).reverse

def lower (u : UInt16) : UInt16 := if 0x41 ≤ u && u ≤ 0x5a then u + 0x20 else u

def imageExts : List Units :=
  [units ".adf", units ".adz", units ".dms", units ".dmz", units ".hfe", units ".ipf"]

/-- Only a disk image's own extension. -/
def stripImageExt (name : Units) : Units :=
  if imageExts.contains ((name.drop (name.length - 4)).map lower) then trim (name.take (name.length - 4))
  else trim name

def boardDiskLabel (label sourceFilename : Option Units) : Units :=
  let own := (label.map trim).getD []
  let file := (sourceFilename.map stripImageExt).getD []
  (if own ≠ [] then own else file).take dcLabelMax

-- ---------------------------------------------------------------------------
-- Rows
-- ---------------------------------------------------------------------------

inductive SecondDriveMode
  | off
  | df1
  | net
  deriving DecidableEq, Repr

def SecondDriveMode.text : SecondDriveMode → Units
  | .off => units "off"
  | .df1 => units "df1"
  | .net => units "net"

structure PollTick where
  version : Int
  instructionVersion : Int
  instructionAck : Int
  nfcWriteSeq : Int
  displayVersion : Int
  secondDriveVersion : Int
  secondDrive : SecondDriveMode
  secondDriveReported : Option SecondDriveMode
  secondDriveAppliedVersion : Option Int
  netNextSentVersion : Option Int
  df1Version : Int
  sendVersion : Int
  reqVersion : Int
  netAmigaIpLast : Option Units
  df1Sha256 : Option Units
  netDriverSeenAt : Option Int

/-- The board's row with its disk, its title and its file's name. -/
structure DesiredRow where
  version : Int
  sha256 : Option Units
  diskId : Option Units
  gameId : Option Units
  diskNo : Option Int
  title : Option Units
  label : Option Units
  sourceFilename : Option Units
  writeProtected : Option Bool
  diskCount : Option Int

structure NextRow where
  diskId : Units
  sha256 : Units
  diskNo : Int

structure Df1Row where
  v : Int
  sha256 : Option Units

structure Release where
  version : Units
  sequence : Int
  sha256 : Units
  sizeBytes : Int
  signature : Units
  keyId : Units
  signatureFormat : Int

/-- What the board should run, and the release of that name. -/
structure FirmwareRow where
  want : Option Units
  release : Option Release

inductive NfcKind
  | disk
  | next
  deriving DecidableEq, Repr

structure NfcRow where
  nfcWriteSeq : Int
  nfcWriteDiskId : Option Units
  nfcWriteKind : NfcKind
  nfcWriteExpiresAt : Option Int
  nfcWriteResultSeq : Option Int
  title : Option Units

/-- What the route's queries find, in the order it asks. -/
structure Reads where
  tick : PollTick
  desired : DesiredRow
  next : Option NextRow
  df1 : Df1Row
  firmware : FirmwareRow
  nfc : Option NfcRow

-- ---------------------------------------------------------------------------
-- Parameters
-- ---------------------------------------------------------------------------

structure Query where
  since : Option Units
  nfcAck : Option Units
  displayAck : Option Units
  driveAck : Option Units
  df1Ack : Option Units
  netPick : Option Units
  xferAck : Option Units
  reqAck : Option Units

def digitsValue (s : Units) : Nat := s.foldl (fun n u => 10 * n + (u.toNat - 48)) 0

/-- A whole number of digits that is represented exactly, or 0. -/
def wholeNumber (raw : Units) : Nat :=
  if raw ≠ [] ∧ (raw.all fun u => 48 ≤ u && u ≤ 57) ∧ digitsValue raw < 2 ^ 53 then digitsValue raw
  else 0

def cursor (raw : Option Units) : Option Nat := raw.map wholeNumber

def Query.picksNet (q : Query) : Bool := (cursor q.df1Ack).isSome && q.netPick == some (units "1")

-- ---------------------------------------------------------------------------
-- The driver disk
-- ---------------------------------------------------------------------------

def paulanetDiskSha256 : Units :=
  units "d485a4a2482974f714c70b9fb6a8c7bb23c26afcb9210fa34b36152bb9c61ad2"

def paulanetDiskOlder : List Units := [
  units "6003773e42651f89f0c165d6111039f46b462d929f4a8877fe07187b73963439",
  units "49d45f6ebf2fb4182db9844422905b9769030cfd238e7481502e1c0e69d65dab",
  units "2a5a80e574cc1e483a8adb2fb995dea47ed94c2ed18ad0ef0134a3a607fbc288",
  units "4ad243e909b3df3b5ccde80e345ec3537871bb091c5f55a4dbd65b7e303a6c7e",
  units "e427a3d780b4aaf80b1fe5baf307bbb30608c53c0d7b5ffd1d83e1b2c4d30865",
  units "d480590e6ed2b791be3ad9ef9f7c3972c72321cd2035a1ef18d38f78e3adb2cb",
  units "184ca84b8fb9b158e84ae0199ee658a2d2946a8b48800a7a4b91f21763a50306",
  units "026ed784c18d9709ab52cdfa0f25b30f9b21198ce82fa00794f5196aa7c17698",
  units "3c8c037d471cebfff2078b7952d400b46fb3a0ab69b57518ca62aa0916264a98",
  units "4b1cc536e5ca9347c322eccbc191f3af14d295195c3210ec04735d922a5159da",
  units "7b0c7ed5557f72d84e21f03fd7c54eccc773fd1d3dc4d749e60eede081b4fc12",
  units "05a898caa137cb2e24f1aa0f30784126a3e88276aaf80387af446d1e204bbb45",
  units "9f58337d1a8bde3da2cce4fc26e97eed9ca77f9c16b12c58fea0373e898699fa",
  units "36bce70c114ad2eff6cdbb720ffaeabdbf79856592211080b437f7ac3110f796",
  units "6e799db55e95a52900bff0ea6e3155b7787a44bcd5c5371510522cff0d5820f9",
  units "1ca4f4cb402042e9c842bcf7af91fb86cf5587125ba64134b26f4d25d35a352d",
  units "fb363d45c3b6c26592ada627c1cddc68b32c93c003a82328617a487dce5aa287",
  units "05170a83c279157fc50a2a9a595f4caf1ec194253127d93232f6fd5bfc008c9e"]

def rolloutQuietMs : Int := 2 * (5 * 60000)

def netApplied (t : PollTick) : Bool :=
  t.secondDrive == .net && t.secondDriveReported == some .net &&
    t.secondDriveAppliedVersion == some t.secondDriveVersion

def netKeepsDriverDisk (t : PollTick) : Bool :=
  t.secondDrive == .net && t.secondDriveReported == some .net

/-- An older driver disk stays while the Amiga's driver was heard of late. -/
def driverDiskFor (t : PollTick) (now : Int) : Units :=
  match t.df1Sha256, t.netDriverSeenAt with
  | some held, some seen =>
    if paulanetDiskOlder.contains held ∧ now - seen ≤ rolloutQuietMs then held else paulanetDiskSha256
  | _, _ => paulanetDiskSha256

-- ---------------------------------------------------------------------------
-- The parts
-- ---------------------------------------------------------------------------

def jsonOf (value : Option Units) : Json := (value.map Json.str).getD .null

/-- The whole desired object, unless a part it needs is missing. -/
def desiredJson (r : DesiredRow) : Option Json :=
  match r.sha256, r.gameId, r.diskNo, r.diskId with
  | some sha256, some gameId, some diskNo, some diskId =>
    if sha256 = [] ∨ gameId = [] ∨ diskId = [] then none
    else some (.obj (.of [
      ("sha256", .str sha256), ("diskId", .str diskId), ("gameId", .str gameId),
      ("game", .str ((r.title.getD (units "Unknown")).take dcTitleMax)),
      ("diskNo", .num diskNo), ("diskCount", .num (max (r.diskCount.getD 1) 1)),
      ("label", .str (boardDiskLabel r.label r.sourceFilename)),
      ("writeProtected", .bool (r.writeProtected.getD true))]))
  | _, _, _, _ => none

def nextJson : Option NextRow → Json
  | none => .null
  | some n => .obj (.of [("diskId", .str n.diskId), ("sha256", .str n.sha256), ("diskNo", .num n.diskNo)])

def paulanetNext (sha256 : Units) : NextRow := ⟨units "paulanet", sha256, 1⟩

def buildXfer (v : Int) (ip : Option Units) : Json :=
  match ip with
  | some ip => if ip = [] then .obj (.of [("v", .num v)]) else .obj (.of [("v", .num v), ("ip", .str ip)])
  | none => .obj (.of [("v", .num v)])

def buildReq (v : Int) : Json := .obj (.of [("v", .num v)])

/-- What there is to say about a tag: its sequence, the disk and the kind. -/
def nfcWriteForPoll (row : NfcRow) (ack : Nat) (now : Int) : Option (Int × Option Units × NfcKind) :=
  if row.nfcWriteSeq ≤ ack then none
  else
    let next := row.nfcWriteKind == .next
    let live := (next || row.nfcWriteDiskId.isSome) && row.nfcWriteExpiresAt.any (now ≤ ·) &&
      row.nfcWriteResultSeq != some row.nfcWriteSeq
    if !live then some (row.nfcWriteSeq, none, .disk)
    else if next then some (row.nfcWriteSeq, none, .next)
    else some (row.nfcWriteSeq, row.nfcWriteDiskId, .disk)

/-- The tag's title, where a disk is named. -/
def nfcTitle (row : NfcRow) (diskId : Option Units) : Option Units :=
  match diskId with
  | some id => if id = [] then none else row.title.map (·.take dcTitleMax)
  | none => none

def nfcWriteJson (row : NfcRow) : Int × Option Units × NfcKind → Json
  | (seq, diskId, kind) => .obj (.of ([("seq", .num seq), ("diskId", jsonOf diskId),
      ("title", jsonOf (nfcTitle row diskId))] ++
      if kind = .next then [("kind", .str (units "next"))] else []))

/-- A release the board can verify. -/
def firmwareInstruction (row : FirmwareRow) : Option Release :=
  match row.want, row.release with
  | some want, some r => if want = [] ∨ r.signatureFormat ≠ 2 then none else some r
  | _, _ => none

def updateJson (r : Release) : Json := .obj (.of [
  ("version", .str r.version), ("sequence", .num r.sequence), ("sha256", .str r.sha256),
  ("sizeBytes", .num r.sizeBytes), ("signature", .str r.signature), ("keyId", .str r.keyId)])

-- ---------------------------------------------------------------------------
-- The body
-- ---------------------------------------------------------------------------

/-- A cursor the board sent that is not where the row is. -/
def differs (ack : Option Nat) (v : Int) : Bool := ack.any fun a => (a : Int) != v

def Query.netNow (q : Query) (t : PollTick) : Bool := (cursor q.driveAck).isSome && netApplied t

/-- The poll is answered now. -/
def moved (q : Query) (t : PollTick) : Bool :=
  let since : Int := ((cursor q.since).getD 0 : Nat)
  let clampedFrom := min since t.version
  decide (t.version > clampedFrom) || clampedFrom != since ||
    decide (t.instructionVersion > t.instructionAck) ||
    (cursor q.nfcAck).any (fun a => decide (t.nfcWriteSeq > a)) ||
    differs (cursor q.displayAck) t.displayVersion || differs (cursor q.driveAck) t.secondDriveVersion ||
    (q.netNow t && t.netNextSentVersion != some t.secondDriveVersion) ||
    differs (cursor q.df1Ack) t.df1Version || differs (cursor q.xferAck) t.sendVersion ||
    differs (cursor q.reqAck) t.reqVersion

/-- Network mode's driver disk takes the place of the next disk. -/
def Query.netNext (q : Query) (t : PollTick) : Bool :=
  q.netNow t || ((cursor q.driveAck).isSome && netKeepsDriverDisk t)

def nextPart (r : Reads) (q : Query) (now : Int) : Option Json :=
  if q.netNext r.tick && !q.picksNet then some (nextJson (some (paulanetNext (driverDiskFor r.tick now))))
  else if (desiredJson r.desired).isSome then some (nextJson r.next)
  else none

def df1Part (r : Reads) (q : Query) (now : Int) : Option Json :=
  if (cursor q.df1Ack).isSome then
    let sha256 := if q.picksNet && q.netNext r.tick then some (driverDiskFor r.tick now) else r.df1.sha256
    some (.obj (.of [("v", .num r.df1.v), ("sha256", jsonOf sha256)]))
  else none

def nfcPart (r : Reads) (q : Query) (now : Int) : Option (NfcRow × Int × Option Units × NfcKind) :=
  match cursor q.nfcAck, r.nfc with
  | some ack, some row =>
    if r.tick.nfcWriteSeq > ack then (nfcWriteForPoll row ack now).map fun say => (row, say) else none
  | _, _ => none

def updatePart (r : Reads) : Option Release :=
  if r.tick.instructionVersion > r.tick.instructionAck then firmwareInstruction r.firmware else none

/-- A key that is there only with its value. -/
def member (key : String) (value : Option Json) : List (String × Json) :=
  match value with
  | some value => [(key, value)]
  | none => []

def body (r : Reads) (q : Query) (now : Int) : Json :=
  .obj (.of ([("version", .num r.desired.version),
    ("desired", (desiredJson r.desired).getD .null)] ++
    member "next" (nextPart r q now) ++
    [("instructionVersion", .num r.tick.instructionVersion)] ++
    member "displayVersion" ((cursor q.displayAck).map fun _ => .num r.tick.displayVersion) ++
    member "secondDrive" ((cursor q.driveAck).map fun _ =>
      .obj (.of [("seq", .num r.tick.secondDriveVersion), ("mode", .str r.tick.secondDrive.text)])) ++
    member "df1" (df1Part r q now) ++
    member "xfer" ((cursor q.xferAck).map fun _ => buildXfer r.tick.sendVersion r.tick.netAmigaIpLast) ++
    member "req" ((cursor q.reqAck).map fun _ => buildReq r.tick.reqVersion) ++
    member "nfcWrite" ((nfcPart r q now).map fun (row, say) => nfcWriteJson row say) ++
    member "update" ((updatePart r).map updateJson)))

/-- The answer's bytes, where there is one. -/
def answer (r : Reads) (q : Query) (now : Int) : Option (List UInt8) :=
  if moved q r.tick then some (utf8 (body r q now).stringify) else none

-- ---------------------------------------------------------------------------
-- The board's buffer
-- ---------------------------------------------------------------------------

structure BodyBuf where
  buf : List UInt8
  truncated : Bool
  deriving DecidableEq, Repr

/-- A piece of the body; one byte of the buffer is the NUL's. -/
def bodySink (b : BodyBuf) (piece : List UInt8) : BodyBuf :=
  if piece = [] then b
  else
    let space := dcPollBodyBytes - 1 - b.buf.length
    if space = 0 then { b with truncated := true }
    else ⟨b.buf ++ piece.take space, b.truncated || decide (space < piece.length)⟩

def received (pieces : List (List UInt8)) : BodyBuf := pieces.foldl bodySink ⟨[], false⟩

end WebAdf.Poll
