import WebAdf.Receive.Session

/-!
# Files that go up

The hello decides who may; then one file at a time: PUT, the board's TAKE with
an offset and a credit, bytes within the credit, END, and the board's DONE or NO.
-/

namespace WebAdf.Receive.Session

open Lib

variable {φ : Type}

-- ---------------------------------------------------------------------------
-- The hello
-- ---------------------------------------------------------------------------

def emitTrust (s : Session φ) (code : String) : Session φ :=
  s.emit { kind := .trust, code := some (ascii code), key := some s.peerKey }

/-- Whether the board's key is trusted, and what the owner is told of it. -/
def judge (s : Session φ) : Session φ × Option String :=
  match s.upq with
  | none => ({ s with trust := .none }, none)
  | some q =>
    if s.peerKey = [] then ({ s with trust := .other }, some "other")
    else if q.trusted = [] ∨ q.trustNext then
      ({ s with upq := some { q with trusted := s.peerKey, trustNext := false }, trust := .ok },
        some "new")
    else if q.trusted = s.peerKey then ({ s with trust := .ok }, some "ok")
    else ({ s with trust := .other }, some "other")

def ready (s : Session φ) : Session φ :=
  if 4 ≤ s.peerV then
    let s := { s with helloBrowse := s.browseOn, helloWrite := s.writeOn }
    s.puts [
      ascii (if s.peerV = 6 then "READY 6 " else if s.peerV = 5 then "READY 5 " else "READY 4 "),
      ascii (if s.helloWrite then "1 1\n" else if s.helloBrowse then "1 0\n" else "0 0\n")]
  else if s.peerV = 3 then
    let s := { s with helloBrowse := s.browseOn }
    s.put (ascii (if s.helloBrowse then "READY 3 1\n" else "READY 3 0\n"))
  else s.put (ascii "READY 2\n")

/-- `"WEBADF <v> [<key>]"`. -/
def onHello (s : Session φ) (c : Bytes) : Session φ :=
  let (t, c) := tok c
  let v := (t.bind (num · 10)).getD 1
  let s := { s with peerKey := [] }
  if v < 2 then
    let s := { s with peerV := 1, trust := .old }
    let s := (s.put (ascii "READY 1\n")).emit { kind := .hello }
    if s.upq.isSome then s.emitTrust "old" else s
  else
    let s := { s with peerV := min v 6, peerKey := ((tok c).1.bind hexKey).getD [] }
    let (s, code) := s.judge
    let s := s.ready.emit { kind := .hello }
    match code with
    | none => s
    | some code => s.emitTrust code

/-- The owner's TRUST, with the connected board's key. -/
def trustNow (s : Session φ) : Session φ :=
  match s.upq with
  | none => s
  | some q =>
    if s.peerV < 2 ∨ s.peerKey = [] then s
    else
      { s with upq := some { q with trusted := s.peerKey, trustNext := false }, trust := .ok }.emitTrust
        "new"

-- ---------------------------------------------------------------------------
-- The queue
-- ---------------------------------------------------------------------------

/-- The tag, or 0 with the queue's `why`. -/
def upAddAt (fs : Fs φ) (s : Session φ) (i : Nat) (path name rid : Bytes) : Nat × Session φ :=
  match s.upq with
  | none => (0, s)
  | some q =>
    if q.q.length ≥ upMax then (0, { s with upq := some { q with why := .full } })
    else if path = [] ∨ path.length > localMax ∨ !pathOk name then
      (0, { s with upq := some { q with why := .name } })
    else
      let (got, d) := fs.malloc s.disk
      if !got then (0, { s with disk := d, upq := some { q with why := .noMem } })
      else
        let tag := if q.nextTag + 1 > 999999999 then 1 else q.nextTag + 1
        (tag, { s with
          disk := d
          upq := some { q with
            q := q.q.insertIdx i ⟨tag, path, name, rid⟩
            nextTag := tag
            why := .ok } })

/-- A file of the owner's: the last to go. -/
def upAdd (fs : Fs φ) (s : Session φ) (path name : Bytes) : Nat × Session φ :=
  s.upAddAt fs (s.upq.elim 0 (·.q.length)) path name []

/-- A GET's file: the first to go. -/
def upAddFront (fs : Fs φ) (s : Session φ) (path name rid : Bytes) : Nat × Session φ :=
  s.upAddAt fs 0 path name rid

/-- The first file of that tag leaves the queue. -/
def upqRemove (s : Session φ) (tag : Nat) : Session φ :=
  { s with upq := s.upq.map fun q => { q with q := q.q.eraseP (·.tag == tag) } }

-- ---------------------------------------------------------------------------
-- The file going up
-- ---------------------------------------------------------------------------

def putDue (s : Session φ) : Bool :=
  s.upq.any (0 < ·.q.length) && s.up.phase == .idle && !s.inData && !s.up.closing && s.uploadsOn &&
    s.req.kind == .none && s.req.waitKind == .none

/-- The file is closed and no longer going up. -/
def upClose (fs : Fs φ) (s : Session φ) : Session φ :=
  { s with disk := fs.closeR s.disk, up := { s.up with phase := .idle, cancel := false } }

def upDone (fs : Fs φ) (s : Session φ) (stored : Bytes) : Session φ :=
  (s.upClose fs).emitUp .upDone s.up.cur (some stored) s.up.info.size s.up.info.size none none

def upFailed (fs : Fs φ) (s : Session φ) (text code : Bytes) : Session φ :=
  (s.upClose fs).emitUp .upFailed s.up.cur none s.up.info.size s.up.stored (some text) (some code)

def protocolError (fs : Fs φ) (s : Session φ) (why : String) : Session φ :=
  let s := if s.up.phase ≠ .idle then s.upFailed fs (ascii why) (ascii "local") else s
  { s with protoErr := true }

/-- A file that does not go up: the board hears it if it asked, and the owner does. -/
def upRefuse (s : Session φ) (it : UpItem) (size : Nat) (code reqText text : String) : Session φ :=
  let s := if it.rid ≠ [] then s.reqErr it.rid code (ascii reqText) else s
  s.emitUp .upFailed it none size 0 (some (ascii text)) (some (ascii "local"))

def putLine (s : Session φ) (it : UpItem) : Session φ :=
  s.puts ([ascii "PUT ", decimal it.tag, ascii " ", decimal s.up.info.size, ascii " ",
    decimal s.up.info.days, ascii ".", decimal s.up.info.mins, ascii ".", decimal s.up.info.ticks,
    ascii " ", hex s.up.info.prot, ascii " "] ++ lenPieces it.name ++ [ascii " "] ++
    lenPieces (clean s.up.info.comment (commentMax + 1)) ++ [ascii "\n"])

/-- The first file of the queue is put, or refused: `true` when another's turn
comes. -/
def upPutOne (fs : Fs φ) (s : Session φ) (it : UpItem) : Bool × Session φ :=
  let s := s.upqRemove it.tag
  if it.rid ≠ [] ∧ !s.browseOn then
    (true, s.upRefuse it 0 "off" "browsing is off in Transfer" "browsing is off")
  else
    let s := { s with up := { s.up with info := {} } }
    match fs.openR it.path s.disk with
    | (none, d) =>
      (true, { s with disk := d }.upRefuse it 0 "io" "cannot read the file" "cannot read the file")
    | (some info, d) =>
      let s := { s with disk := d, up := { s.up with info := info } }
      if info.size > fileMax then
        let s := { s with disk := fs.closeR s.disk }
        (true, s.upRefuse it info.size "toolarge" "file too large (4 MB at most)"
          "file too large (4 MB at most)")
      else
        let s := { s with up := { s.up with
          cur := it, phase := .asked, cancel := false, sent := 0, stored := 0 } }
        (false, s.putLine it)

/-- As many turns as the queue had files. -/
def upPutFrom (fs : Fs φ) : Nat → Session φ → Session φ
  | 0, s => s
  | k + 1, s =>
    match s.upq.bind (·.q.head?) with
    | none => s
    | some it =>
      if s.putDue then
        match s.upPutOne fs it with
        | (true, s) => upPutFrom fs k s
        | (false, s) => s
      else s

def upPut (fs : Fs φ) (s : Session φ) : Session φ := s.upPutFrom fs (s.upq.elim 0 (·.q.length))

def upEnd (s : Session φ) : Session φ :=
  let s := { s with up := { s.up with phase := .ended } }
  s.puts [ascii "END ", decimal s.up.cur.tag, ascii " ", hex s.up.crc.toNat, ascii "\n"]

def upDataBegins (s : Session φ) : Session φ :=
  let s := { s with up := { s.up with phase := .data } }
  if s.up.sent = s.up.info.size then s.upEnd else s

def upReadFailed (fs : Fs φ) (s : Session φ) : Session φ :=
  let s := s.upFailed fs (ascii "cannot read the file") (ascii "local")
  { s with up := { s.up with closing := true } }

/-- One block: the resumed part's CRC, with nothing to send, or bytes within the
credit. `none` closes the connection. -/
def upBytes (fs : Fs φ) (s : Session φ) (cap : Nat) : Option Bytes × Session φ :=
  let cap := min cap upBlock
  let skipping := s.up.phase = .skip
  let want := if skipping then min s.up.skip cap else min (s.up.credit - s.up.sent) cap
  if !skipping ∧ want = 0 then (some [], s)
  else
    match fs.read want s.disk with
    | (none, d) => (none, { s with disk := d }.upReadFailed fs)
    | (some b, d) =>
      let s := { s with disk := d }
      if b.length ≠ want then (none, s.upReadFailed fs)
      else
        let s := { s with up := { s.up with crc := crc32Update s.up.crc b } }
        if skipping then
          let s := { s with up := { s.up with skip := s.up.skip - want } }
          (some [], if s.up.skip = 0 then s.upDataBegins else s)
        else
          let s := { s with up := { s.up with sent := s.up.sent + want } }
          (some b, if s.up.sent = s.up.info.size then s.upEnd else s)

-- ---------------------------------------------------------------------------
-- The board's answers
-- ---------------------------------------------------------------------------

/-- The line is about the file going up; with what follows its tag. -/
def tagIs (s : Session φ) (c : Bytes) : Option Bytes :=
  if s.up.phase = .idle then none
  else
    let (t, c) := tok c
    if t.bind (num · 10) = some s.up.cur.tag then some c else none

/-- Two numbers at the head of a line. -/
def twoNums (c : Bytes) : Option (Nat × Nat) :=
  let (t, c) := tok c
  match t.bind (num · 10), (tok c).1.bind (num · 10) with
  | some a, some b => some (a, b)
  | _, _ => none

/-- `"TAKE <tag> <offset> <credit>"`. -/
def onTake (fs : Fs φ) (s : Session φ) (c : Bytes) : Session φ :=
  if s.up.phase ≠ .asked then s
  else
    match s.tagIs c with
    | none => s
    | some c =>
      match twoNums c with
      | none => s.protocolError fs "the board answered out of range"
      | some (off, credit) =>
        if off > s.up.info.size ∨ credit < off ∨ credit > s.up.info.size then
          s.protocolError fs "the board answered out of range"
        else if s.up.cancel then
          let s := s.upFailed fs (ascii "cancelled") (ascii "local")
          { s with up := { s.up with closing := true } }
        else
          let s := { s with up := { s.up with
            sent := off, credit := credit, stored := off, crc := 0, skip := off } }
          let s := s.emitUp .upBegin s.up.cur none s.up.info.size off none none
          if off ≠ 0 then { s with up := { s.up with phase := .skip } } else s.upDataBegins

/-- `"MORE <tag> <credit> <stored>"`. -/
def onMore (fs : Fs φ) (s : Session φ) (c : Bytes) : Session φ :=
  if s.up.phase ≠ .skip ∧ s.up.phase ≠ .data ∧ s.up.phase ≠ .ended then s
  else
    match s.tagIs c with
    | none => s
    | some c =>
      match twoNums c with
      | none => s.protocolError fs "the board answered out of range"
      | some (v, stored) =>
        if v > s.up.info.size ∨ stored > s.up.info.size then
          s.protocolError fs "the board answered out of range"
        else
          let s := { s with up := { s.up with
            credit := max v s.up.credit, stored := max stored s.up.stored } }
          s.emitUp .upProgress s.up.cur none s.up.info.size s.up.stored none none

/-- `"DONE <tag> <len>:<name>"`. -/
def onDone (fs : Fs φ) (s : Session φ) (c : Bytes) : Session φ :=
  if s.up.phase ≠ .ended then s
  else
    match s.tagIs c with
    | none => s
    | some c =>
      s.upDone fs (match lenstr c (pathMax + 1) true with
        | some (name, _) => name
        | none => s.up.cur.name)

/-- `"NO <tag> <code> <len>:<text>"`. -/
def onNo (fs : Fs φ) (s : Session φ) (c : Bytes) : Session φ :=
  match s.tagIs c with
  | none => s
  | some c =>
    let raw := s.up.phase = .skip ∨ s.up.phase = .data
    let (t, c) := tok c
    let code := match t with
      | some t => if t.length > 16 then ascii "server" else t
      | none => ascii "server"
    let text := match lenstr c 80 true with
      | some (text, _) => text
      | none => ascii "refused"
    let text := if s.up.cancel ∧ code = ascii "busy" then ascii "cancelled" else text
    let s := s.upFailed fs text code
    if raw then { s with up := { s.up with closing := true } } else s

/-- `rx_up_cancel`. -/
def upCancel (fs : Fs φ) (s : Session φ) (tag : Nat) : Session φ :=
  match s.upq.bind (·.q.find? (·.tag == tag)) with
  | some it =>
    (s.upqRemove tag).emitUp .upFailed it none 0 0 (some (ascii "cancelled")) (some (ascii "local"))
  | none =>
    if s.up.phase = .idle ∨ s.up.cur.tag ≠ tag ∨ s.up.phase = .ended then s
    else if s.up.phase = .asked then
      if s.up.cancel then s
      else
        let s := s.puts [ascii "ABORT ", decimal tag, ascii "\n"]
        { s with up := { s.up with cancel := true } }
    else
      let s := s.upFailed fs (ascii "cancelled") (ascii "local")
      { s with up := { s.up with closing := true } }

end WebAdf.Receive.Session
