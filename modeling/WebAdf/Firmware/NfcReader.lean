import Mathlib.Logic.Relation
import WebAdf.Lib.Ascii

/-!
# The tag payload

The 48 bytes of a disk tag and of the "next" card, and what a read of 48 bytes
means.
-/

namespace WebAdf.Firmware.Nfc

open Lib

abbrev Bytes := List UInt8

def nfcTagBytes : Nat := 48
def nfcDiskIdLen : Nat := 36

inductive NfcTagResult
  | ok
  | notOurs
  | badData
  | next
  deriving DecidableEq, Repr

def crcShift (crc : UInt16) : UInt16 := if crc &&& 0x8000 ≠ 0 then (crc <<< 1) ^^^ 0x1021 else crc <<< 1

/-- CRC-16/CCITT-FALSE. -/
def nfcCrc16 (b : Bytes) : UInt16 :=
  b.foldl (fun (crc : UInt16) (x : UInt8) => Nat.repeat crcShift 8 (crc ^^^ (x.toUInt16 <<< 8))) 0xffff

def lowerHex (c : UInt8) : Bool := (0x30 ≤ c && c ≤ 0x39) || (0x61 ≤ c && c ≤ 0x66)

/-- What the disk-id shape allows at a place. -/
def nfcIdPlace (i : Nat) (c : UInt8) : Bool :=
  if i = 8 ∨ i = 13 ∨ i = 18 ∨ i = 23 then c == 0x2d
  else if i = 14 then c == 0x35
  else if i = 19 then c == 0x38 || c == 0x39 || c == 0x61 || c == 0x62
  else lowerHex c

/-- The text ends at the first NUL. -/
def nfcDiskIdValid (id : Bytes) : Bool :=
  id.length == nfcDiskIdLen && (List.range nfcDiskIdLen).all fun i => nfcIdPlace i (id.getD i 0)

def marker : Bytes := ascii "WFDK"

/-- 42 bytes of content, their CRC and four zeros. -/
def sealed (content : Bytes) : Bytes :=
  let crc := nfcCrc16 content
  content ++ [(crc >>> 8).toUInt8, crc.toUInt8, 0, 0, 0, 0]

def nfcTagEncode (diskId : Bytes) : Option Bytes :=
  if nfcDiskIdValid diskId then some (sealed (marker ++ [1, 36] ++ diskId)) else none

def nfcTagEncodeNext : Bytes := sealed (marker ++ [2, 4] ++ ascii "next" ++ List.replicate 32 0)

/-- What 48 bytes mean, and the disk id of a good disk tag. -/
def nfcTagDecode (b : Bytes) : NfcTagResult × Bytes :=
  if b.take 4 ≠ marker then (.notOurs, [])
  else
    let v1 := b.getD 4 0 = 1 ∧ b.getD 5 0 = 36
    let v2 := b.getD 4 0 = 2 ∧ b.getD 5 0 = 4
    if ¬v1 ∧ ¬v2 then (.badData, [])
    else if nfcCrc16 (b.take 42) ≠ (b.getD 42 0).toUInt16 <<< 8 ||| (b.getD 43 0).toUInt16 then (.badData, [])
    else if v2 then (if (b.drop 6).take 4 = ascii "next" then .next else .badData, [])
    else
      let id := ((b.drop 6).take nfcDiskIdLen).takeWhile (· != 0)
      if nfcDiskIdValid id then (.ok, id) else (.badData, [])

theorem length_sealed (content : Bytes) : (sealed content).length = content.length + 6 := by
  rw [sealed, List.length_append]
  rfl

theorem nfcTagEncode_length {diskId : Bytes} (h : nfcTagEncode diskId = some b) : b.length = nfcTagBytes := by
  rw [nfcTagEncode] at h
  split at h
  · rename_i hvalid
    rw [nfcDiskIdValid, Bool.and_eq_true, beq_iff_eq] at hvalid
    cases h
    rw [length_sealed, List.length_append, hvalid.1]
    rfl
  · cases h

theorem nfcTagEncodeNext_length : nfcTagEncodeNext.length = nfcTagBytes := by
  decide

/-- The next card reads back as one. -/
theorem decode_next : nfcTagDecode nfcTagEncodeNext = (.next, []) := by
  decide +kernel

end WebAdf.Firmware.Nfc

/-!
# The tag reader

The session of one reader: presence, the poll clock, the held tag, arming, a
write and its read-back, the one-slot mailbox. The chips only move bytes, so a
chip's exchange is left to end in any way it can, after any number of transfers
that work or fail; what is decided when it ends is the session's.
-/

namespace WebAdf.Firmware.Nfc

open Lib

def pollMs : UInt32 := 250
def absentRecheckMs : UInt32 := 5000
def lossFails : Nat := 3
def rearrivalAbsentMs : UInt32 := 3000
def rearrivalAbsentNextMs : UInt32 := 1000
def gapReportMs : UInt32 := 500
def resetTimeoutMs : UInt32 := 50
def firstBlock : Nat := 4
def lastBlock : Nat := 6
def t2FirstPage : Nat := 4
def t2LastPage : Nat := 15
def cascadeTag : UInt8 := 0x88

abbrev Uid := Bytes

inductive NfcChip
  | none
  | si512
  | pn532
  deriving DecidableEq, Repr

inductive NfcEvKind
  | tagRead
  | notOurs
  | unreadable
  | writeDone
  | present
  | absent
  | tagNext
  | notSupported
  deriving DecidableEq, Repr

inductive NfcKind
  | none
  | classic
  | t2
  deriving DecidableEq, Repr

structure NfcEvent where
  kind : NfcEvKind
  uid : Uid := []
  diskId : Bytes := []
  why : Option String := none
  seq : UInt32 := 0
  ok : Bool := false
  deriving DecidableEq

structure NfcGap where
  uid : Uid
  ms : UInt32
  newArrival : Bool

/-- Where the session is; an exchange of either chip that does one job is one state.
`fieldOff` is idle with the field still to be switched off, `waiting` idle until the
next poll; `write` is about to send what `written` waits the answer of. -/
inductive NfcState
  | absent
  | report
  | reset (sent : Bool)
  | init
  | fieldOff
  | waiting
  | fieldOn
  | req
  | anticoll
  | cascade
  | pnSam
  | pnSetup
  | pnPoll
  | select
  | auth
  | read
  | write
  | written
  | readback
  deriving DecidableEq, Repr

-- ---------------------------------------------------------------------------
-- What has happened, for the statements
-- ---------------------------------------------------------------------------

/-- One arm: what it asked for, when, which tag was held then, and since then every
sighting of a tag and every tag reported. -/
structure NfcArm where
  no : Nat
  seq : UInt32
  payload : Option Bytes
  since : Nat
  held : Option Uid
  sights : List (Nat × Uid)
  reports : List Uid
  deriving DecidableEq

/-- The last tag reported, every sighting since, and when it was found to have left,
with whether a write was armed then. -/
structure NfcTold where
  uid : Uid
  kind : NfcEvKind
  sights : List (Nat × Uid)
  lefts : List (Nat × Bool)
  deriving DecidableEq

def NfcTold.left (k : NfcTold) (t : Nat) (armed : Bool) : NfcTold := { k with lefts := k.lefts ++ [(t, armed)] }

inductive NfcNote
  | arrived (time : Nat) (uid : Uid) (told : Option NfcTold) (arm : Option NfcArm)
  | reported (uid : Uid) (kind : NfcEvKind)
  | done (arm : NfcArm) (ev : NfcEvent) (got : List Bytes)
  | wrote (time : Nat) (uid : Uid) (arm : NfcArm) (kind : NfcKind) (place : Nat) (bytes : Bytes)
  | overwritten (ev : NfcEvent)
  deriving DecidableEq

-- ---------------------------------------------------------------------------
-- The reader
-- ---------------------------------------------------------------------------

/-- From `clock` on what the firmware does not hold: the milliseconds since the start,
whose low word `now_ms` gives, the true time of `last_seen`, and what has happened. -/
structure NfcReader where
  disabled : Bool := false
  hasFbus : Bool := false
  chip : NfcChip := .none
  state : NfcState := .absent
  fails : Nat := 0
  t0 : UInt32 := 0
  checkedOnce : Bool := false
  uid : Uid := []
  kind : NfcKind := .none
  sub : Nat := 0
  block : Nat := 0
  writing : Bool := false
  writeSeq : UInt32 := 0
  data : Bytes := List.replicate nfcTagBytes 0
  back : Bytes := List.replicate nfcTagBytes 0
  built : NfcEvent := { kind := .present }
  held : Bool := false
  heldNext : Bool := false
  lastUid : Uid := []
  lastSeen : UInt32 := 0
  lastDetect : UInt32 := 0
  missed : Bool := false
  gap : Option NfcGap := none
  armed : Bool := false
  armBad : Bool := false
  armSeq : UInt32 := 0
  armPayload : Bytes := List.replicate nfcTagBytes 0
  ev : Option NfcEvent := none
  pnProbeDue : Bool := false
  probing : Bool := false
  tProbe : UInt32 := 0
  tSi512 : UInt32 := 0
  clock : Nat := 0
  seenAt : Nat := 0
  arm : NfcArm := ⟨0, 0, none, 0, none, [], []⟩
  run : NfcArm := ⟨0, 0, none, 0, none, [], []⟩
  got : List Bytes := []
  told : Option NfcTold := none
  notes : List NfcNote := []

namespace NfcReader

def nowMs (r : NfcReader) : UInt32 := UInt32.ofNat r.clock

def go (r : NfcReader) (st : NfcState) : NfcReader := { r with state := st }

def note (r : NfcReader) (n : NfcNote) : NfcReader := { r with notes := r.notes ++ [n] }

def emit (r : NfcReader) (e : NfcEvent) : NfcReader :=
  let r := match r.ev with
    | some lost => r.note (.overwritten lost)
    | none => r
  { r with ev := some e }

-- ---------------------------------------------------------------------------
-- Building the event
-- ---------------------------------------------------------------------------

def finish (r : NfcReader) (kind : NfcEvKind) (why : Option String) : NfcReader :=
  { r with
    built := { kind, uid := r.uid, why
               seq := if kind = .writeDone then r.writeSeq else 0
               ok := kind = .writeDone && why.isNone }
    state := .report }

/-- The tag stopped answering part-way. -/
def moved (r : NfcReader) : NfcReader := r.finish (if r.writing then .writeDone else .unreadable) (some "moved")

-- ---------------------------------------------------------------------------
-- The tap
-- ---------------------------------------------------------------------------

def postGap (r : NfcReader) (newArrival : Bool) : NfcReader :=
  { r with gap := some ⟨r.lastUid, r.nowMs - r.lastDetect, newArrival⟩ }

def holdWindow (r : NfcReader) : UInt32 := if r.heldNext && !r.armed then rearrivalAbsentNextMs else rearrivalAbsentMs

/-- The held tag has been unseen for its whole window: it has left. -/
def expireHold (r : NfcReader) : NfcReader :=
  if !r.held || r.nowMs - r.lastSeen < r.holdWindow then r
  else ({ r with held := false, told := r.told.map (NfcTold.left · r.clock r.armed) } : NfcReader).postGap true

/-- Every path back to idle. -/
def enterIdle (r : NfcReader) (pollNow : Bool) : NfcReader :=
  { r with state := .fieldOff, t0 := r.nowMs - (if pollNow then pollMs else 0) }

def emptyPoll (r : NfcReader) : NfcReader := ({ r with missed := r.missed || r.held } : NfcReader).enterIdle false

/-- A sighting, for the statements. -/
def sighted (r : NfcReader) (uid : Uid) : NfcReader :=
  { r with
    arm := { r.arm with sights := r.arm.sights ++ [(r.clock, uid)] }
    told := r.told.map fun k => { k with sights := k.sights ++ [(r.clock, uid)] } }

/-- The held tag again. -/
def sameTap (r : NfcReader) : NfcReader :=
  let r := if r.missed && r.nowMs - r.lastDetect > gapReportMs then r.postGap false else r
  ({ r with lastSeen := r.nowMs, seenAt := r.clock, lastDetect := r.nowMs, missed := false } : NfcReader).enterIdle false

/-- A new tap: read or write is decided here, once. -/
def newTap (r : NfcReader) : NfcReader :=
  let r := r.note (.arrived r.clock r.uid r.told (if r.armed then some r.arm else none))
  if r.armed then { r with writing := true, writeSeq := r.armSeq, data := r.armPayload, run := r.arm, got := [] }
  else { r with writing := false }

def isHeld (r : NfcReader) : Bool := r.held && r.uid == r.lastUid

/-- A poll found the tag in `r.uid`; `next` is where a new arrival goes on. -/
def arrival (r : NfcReader) (next : NfcReader → NfcReader) : NfcReader :=
  let r := r.expireHold
  if r.isHeld then r.sameTap.sighted r.uid
  else next (r.newTap.sighted r.uid)

-- ---------------------------------------------------------------------------
-- The tag's blocks
-- ---------------------------------------------------------------------------

def classify (uidLen : Nat) (sak : UInt8) : NfcKind :=
  if uidLen = 4 ∧ sak &&& 0x08 ≠ 0 then .classic
  else if uidLen = 7 ∧ sak = 0 then .t2
  else .none

/-- The tag answered the last select. -/
def tagSelected (r : NfcReader) (sak : UInt8) : NfcReader :=
  let r := { r with kind := classify r.uid.length sak }
  match r.kind with
  | .none => r.finish .notSupported none
  | .classic => r.go .auth
  | .t2 => ({ r with block := firstBlock, sub := 0 } : NfcReader).go (if r.writing then .write else .read)

def authDone (r : NfcReader) (ok : Bool) : NfcReader :=
  if ok then ({ r with block := firstBlock } : NfcReader).go (if r.writing then .write else .read)
  else r.finish (if r.writing then .writeDone else .unreadable) (some "locked")

/-- Where the block's sixteen bytes stand in the payload. -/
def blockAt (r : NfcReader) : Nat := (r.block - firstBlock) * 16

def blockOut (r : NfcReader) : Bytes := (r.data.drop r.blockAt).take 16

/-- The one gate on a page number. -/
def t2Page (r : NfcReader) : Option Nat :=
  let pg := t2FirstPage + (r.block - firstBlock) * 4 + r.sub
  if t2FirstPage ≤ pg ∧ pg ≤ t2LastPage then some pg else none

def t2PageOut (r : NfcReader) : Bytes := (r.data.drop (r.blockAt + r.sub * 4)).take 4

def blockWritten (r : NfcReader) : NfcReader :=
  if r.block < lastBlock then ({ r with block := r.block + 1 } : NfcReader).go .write
  else ({ r with block := firstBlock } : NfcReader).go .readback

def pageWritten (r : NfcReader) : NfcReader :=
  if r.sub + 1 < 4 then ({ r with sub := r.sub + 1 } : NfcReader).go .write
  else ({ r with sub := 0 } : NfcReader).blockWritten

/-- The frame of a write goes out. -/
def sendWrite (r : NfcReader) : NfcReader :=
  match r.kind with
  | .t2 =>
    match r.t2Page with
    | none => r.moved
    | some pg => (r.note (.wrote r.clock r.uid r.run .t2 pg r.t2PageOut)).go .written
  | kind => (r.note (.wrote r.clock r.uid r.run kind r.block r.blockOut)).go .written

def writeAcked (r : NfcReader) : NfcReader := if r.kind = .t2 then r.pageWritten else r.blockWritten

/-- A NAK: a Type 2 tag refuses the page. -/
def writeNaked (r : NfcReader) : NfcReader := if r.kind = .t2 then r.finish .writeDone (some "locked") else r.moved

def paste (dst : Bytes) (off : Nat) (b : Bytes) : Bytes := dst.take off ++ b ++ dst.drop (off + b.length)

def decoded (r : NfcReader) : NfcReader :=
  match nfcTagDecode r.data with
  | (.ok, id) =>
    let r := r.finish .tagRead none
    { r with built := { r.built with diskId := id } }
  | (.next, _) => r.finish .tagNext none
  | (.notOurs, _) => r.finish .notOurs none
  | (.badData, _) => r.finish .unreadable (some "bad data")

/-- One block read. -/
def blockIn (r : NfcReader) (b : Bytes) : NfcReader :=
  let r := { r with data := paste r.data r.blockAt b }
  if r.block < lastBlock then { r with block := r.block + 1 } else r.decoded

/-- One block read back. -/
def blockBack (r : NfcReader) (b : Bytes) : NfcReader :=
  let r := { r with back := paste r.back r.blockAt b, got := r.got ++ [b] }
  if r.block < lastBlock then { r with block := r.block + 1 }
  else r.finish .writeDone (if r.back = r.data then none else some "verify")

-- ---------------------------------------------------------------------------
-- Presence and the report
-- ---------------------------------------------------------------------------

/-- The chip is back; its absence says nothing about the tag. -/
def chipFound (r : NfcReader) : NfcReader :=
  let r := if r.held then { r with lastSeen := r.nowMs, seenAt := r.clock, lastDetect := r.nowMs } else r
  ({ r with missed := false } : NfcReader).emit { kind := .present }

/-- The Si512 was asked and answered or not. -/
def absentCheck (r : NfcReader) (answered : Bool) : NfcReader :=
  let r := { r with checkedOnce := true, t0 := r.nowMs, fails := 0 }
  if answered then (({ r with chip := .si512 } : NfcReader).go (.reset false)).chipFound
  else { r with pnProbeDue := r.hasFbus }

def pn532Probe (r : NfcReader) : NfcReader :=
  ({ r with pnProbeDue := false, chip := .pn532, probing := true, tProbe := r.t0 } : NfcReader).go .pnSam

/-- While a PN532 runs the Si512 is still asked. -/
def si512Back (r : NfcReader) (answered : Bool) : NfcReader :=
  let r := { r with tSi512 := r.nowMs, fails := 0 }
  if answered then ({ r with chip := .si512 } : NfcReader).go (.reset false) else r

/-- The PN532 answered its first command. -/
def pnFound (r : NfcReader) : NfcReader :=
  (({ r with probing := false, tSi512 := r.nowMs } : NfcReader).chipFound).go .pnSetup

def giveUp (r : NfcReader) : NfcReader :=
  ({ r with probing := false, chip := .none, t0 := r.tProbe, checkedOnce := true } : NfcReader).go .absent

def report (r : NfcReader) : NfcReader :=
  let r := r.sighted r.uid
  let e : NfcEvent := r.built
  let r := { r with
    held := true, heldNext := e.kind == NfcEvKind.tagNext, lastUid := r.uid
    lastSeen := r.nowMs, seenAt := r.clock, lastDetect := r.nowMs, missed := false
    armed := r.armed && !(e.kind == NfcEvKind.writeDone && r.armSeq == e.seq)
    writing := false
    arm := { r.arm with reports := r.arm.reports ++ [r.uid] }
    told := some ⟨r.uid, e.kind, [], []⟩ }
  let r := if e.kind = .writeDone then r.note (.done r.run e r.got) else r
  (((r.note (.reported r.uid e.kind)).emit e).enterIdle false)

/-- Whatever was half-built goes with the chip. -/
def loseChip (r : NfcReader) : NfcReader :=
  ({ r with state := .absent, chip := .none, probing := false, pnProbeDue := false, t0 := r.nowMs
            checkedOnce := true, fails := 0, writing := false } : NfcReader).emit { kind := .absent }

/-- The tail of a turn of `nfc_step`'s loop. -/
def settle (r : NfcReader) : NfcReader := if lossFails ≤ r.fails ∧ r.state ≠ .absent then r.loseChip else r

-- ---------------------------------------------------------------------------
-- The caller
-- ---------------------------------------------------------------------------

def present (r : NfcReader) : Bool := r.state ≠ .absent && !r.probing

/-- The gating shared by every arm call. -/
def armGate (r : NfcReader) (seq : UInt32) (payload : Option Bytes) : NfcReader :=
  let r := if r.present then r.expireHold else r
  let r := if r.held then { r with lastSeen := r.nowMs, seenAt := r.clock } else r
  { r with
    armSeq := seq
    arm := ⟨r.arm.no + 1, seq, payload, r.clock, if r.held then some r.lastUid else none, [], []⟩ }

/-- The payload, where there is one, or a refusal. -/
def armWith (r : NfcReader) (seq : UInt32) (payload : Option Bytes) : NfcReader :=
  let r := r.armGate seq payload
  match payload with
  | some b => { r with armed := true, armBad := false, armPayload := b }
  | none => { r with armed := false, armBad := true }

def armWrite (r : NfcReader) (seq : UInt32) (diskId : Option Bytes) : NfcReader := r.armWith seq (diskId.bind nfcTagEncode)

def armWriteNext (r : NfcReader) (seq : UInt32) : NfcReader := r.armWith seq (some nfcTagEncodeNext)

def disarm (r : NfcReader) : NfcReader := { r with armed := false, armBad := false }

/-- An id without the disk-id shape is refused. -/
def refuseArm (r : NfcReader) : NfcReader :=
  let e : NfcEvent := { kind := .writeDone, seq := r.armSeq, ok := false, why := some "bad data" }
  (({ r with armBad := false } : NfcReader).note (.done r.arm e [])).emit e

end NfcReader

-- ---------------------------------------------------------------------------
-- Runs
-- ---------------------------------------------------------------------------

/-- One call of `handle`. What the chip's exchange came to is arbitrary. -/
inductive Handle : NfcReader → NfcReader → Prop
  /-- Nothing yet. -/
  | wait : Handle r r
  /-- A transfer of an exchange of the Si512 that goes on. -/
  | transfer (ok : Bool) (hc : r.chip = .si512) (h : r.state ≠ .absent) (hr : r.state ≠ .report) :
    Handle r { r with fails := if ok then 0 else r.fails + 1 }
  | probe (h : r.state = .absent) (hd : r.pnProbeDue = true) : Handle r r.pn532Probe
  | check (answered : Bool) (h : r.state = .absent) (hd : r.pnProbeDue = false)
      (ht : r.checkedOnce = false ∨ absentRecheckMs ≤ r.nowMs - r.t0) : Handle r (r.absentCheck answered)
  | report (h : r.state = .report) : Handle r r.report
  | resetSent (h : r.state = .reset false) : Handle r ({ r with t0 := r.nowMs, fails := 0, state := .reset true } : NfcReader)
  | resetDone (h : r.state = .reset true) : Handle r (({ r with fails := 0 } : NfcReader).go .init)
  | resetLate (h : r.state = .reset true) :
    Handle r (if resetTimeoutMs < r.nowMs - r.t0 then ({ r with fails := 0 } : NfcReader).loseChip else { r with fails := 0 })
  | initDone (h : r.state = .init) : Handle r (r.enterIdle true)
  | isOff (h : r.state = .fieldOff) : Handle r (r.go .waiting)
  | si512Back (answered : Bool) (h : r.state = .waiting) (hc : r.chip = .pn532)
      (ht : absentRecheckMs ≤ r.nowMs - r.tSi512) : Handle r (r.si512Back answered)
  | pollDue (h : r.state = .waiting) (ht : pollMs ≤ r.nowMs - r.t0) :
    Handle r (r.expireHold.go (if r.chip = .pn532 then .pnPoll else .fieldOn))
  | isOn (h : r.state = .fieldOn) : Handle r (r.go .req)
  | atqa (h : r.state = .req) : Handle r (r.go .anticoll)
  | noTag (h : r.state = .req ∨ r.state = .pnPoll) : Handle r r.emptyPoll
  | collision (h : r.state = .anticoll ∨ r.state = .cascade) : Handle r (r.enterIdle false)
  | double (part : Bytes) (h : r.state = .anticoll) (hlen : part.length = 4) (hct : part.head? = some cascadeTag) :
    Handle r (({ r with uid := part } : NfcReader).go .cascade)
  | single (part : Bytes) (h : r.state = .anticoll) (hlen : part.length = 4) (hct : part.head? ≠ some cascadeTag) :
    Handle r (({ r with uid := part } : NfcReader).arrival fun r => r.go .select)
  | whole (rest : Bytes) (h : r.state = .cascade) (hlen : rest.length = 4) :
    Handle r (({ r with uid := r.uid.drop 1 ++ rest } : NfcReader).arrival fun r => r.go .select)
  | listed (uid : Uid) (sak : UInt8) (h : r.state = .pnPoll) (hlen : uid.length = 4 ∨ uid.length = 7) :
    Handle r (({ r with uid := uid } : NfcReader).arrival fun r => r.tagSelected sak)
  /-- A triple-size UID keeps its first seven bytes. -/
  | tooLong (uid : Uid) (h : r.state = .pnPoll) (hlen : uid.length = 7) :
    Handle r (({ r with uid := uid } : NfcReader).arrival fun r => r.finish .notSupported none)
  | selected (sak : UInt8) (h : r.state = .select) : Handle r (r.tagSelected sak)
  | moved (h : r.state ∈ [.select, .read, .written, .readback]) : Handle r r.moved
  | authed (ok : Bool) (h : r.state = .auth) : Handle r (r.authDone ok)
  | block (b : Bytes) (h : r.state = .read) (hlen : b.length = 16) : Handle r (r.blockIn b)
  | back (b : Bytes) (h : r.state = .readback) (hlen : b.length = 16) : Handle r (r.blockBack b)
  | send (h : r.state = .write) : Handle r r.sendWrite
  | ack (h : r.state = .written) : Handle r r.writeAcked
  | nak (h : r.state = .written) : Handle r r.writeNaked
  | pnFound (h : r.state = .pnSam) : Handle r r.pnFound
  | pnReady (h : r.state = .pnSetup) : Handle r (r.enterIdle true)
  | pnGiveUp (h : r.state = .pnSam) : Handle r r.giveUp
  /-- The third command in a row that a PN532 did not answer. -/
  | pnLost (hc : r.chip = .pn532) (h : r.state ≠ .absent) (hp : r.probing = false) (hr : r.state ≠ .report) :
    Handle r r.loseChip

/-- Time passes, the caller calls, or `nfc_step` makes a turn. -/
inductive NfcStep : NfcReader → NfcReader → Prop
  | tick (ms : Nat) : NfcStep r { r with clock := r.clock + ms }
  | takeEvent : NfcStep r { r with ev := none }
  | takeGap : NfcStep r { r with gap := none }
  | armWrite (seq : UInt32) (diskId : Option Bytes) : NfcStep r (r.armWrite seq diskId)
  | armWriteNext (seq : UInt32) : NfcStep r (r.armWriteNext seq)
  | disarm : NfcStep r r.disarm
  | disable : NfcStep r { r with disabled := true }
  | attach : NfcStep r { r with hasFbus := true }
  | refuseArm (hd : r.disabled = false) (he : r.ev = none) (hb : r.armBad = true) : NfcStep r r.refuseArm
  | turn (hd : r.disabled = false) (he : r.ev = none) (hb : r.armBad = false) (h : Handle r r') : NfcStep r r'.settle

/-- A reader some way into its life; `clock` is when it started. -/
def Reached (r : NfcReader) : Prop := ∃ clock, Relation.ReflTransGen NfcStep { clock := clock } r

end WebAdf.Firmware.Nfc
