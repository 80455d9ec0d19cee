import WebAdf.Receive.Parse
import WebAdf.Receive.Fs

/-!
# A Transfer session

One connection with the board: the file being received, the file going up, the
request being answered, and the reply bytes queued for the board. `disk` is the
machine behind the hooks and `events` what the front end was told.
-/

namespace WebAdf.Receive

open Lib

def listMax : Nat := 32
def lineMax : Nat := 640
def outMax : Nat := 1024
def fileMax : Nat := 4194304
def commentMax : Nat := 79
def tmpName : Bytes := ascii ".webadf-rx"
def upMax : Nat := 64
def localMax : Nat := 255
def upBlock : Nat := 8192
def volsMax : Nat := 32
def entMax : Nat := 1000
def reqLine : Nat := 256
def reqRoom : Nat := reqLine + 128
def delEvery : Nat := 50
def delPass : Nat := 4
def progressStep : Nat := 16384

inductive EvKind
  | hello
  | list
  | began
  | progress
  | done
  | failed
  | trust
  | upBegin
  | upProgress
  | upDone
  | upFailed
  | req
  | skip
  deriving DecidableEq

structure Event where
  kind : EvKind
  id : Option Bytes := none
  path : Option Bytes := none
  size : Nat := 0
  bytes : Nat := 0
  text : Option Bytes := none
  tag : Nat := 0
  code : Option Bytes := none
  key : Option Bytes := none
  target : Option Bytes := none

structure Item where
  id : Bytes
  size : Nat
  path : Bytes

/-- The file saved last; the id is empty before the first. -/
structure Done where
  id : Bytes := []
  size : Nat := 0
  crc : Nat := 0
  saved : Bytes := []

structure UpItem where
  tag : Nat := 0
  path : Bytes := []
  name : Bytes := []
  /-- A GET's request, or empty. -/
  rid : Bytes := []

inductive AddWhy
  | ok
  | full
  | noMem
  | name
  deriving DecidableEq

/-- The files waiting to go up, and what outlives every connection. -/
structure Upq where
  q : List UpItem := []
  nextTag : Nat := 0
  trusted : Bytes := []
  trustNext : Bool := false
  browse : Bool := false
  write : Bool := false
  why : AddWhy := .ok
  done : Done := {}

inductive Trust
  | none
  | ok
  | other
  | old
  deriving DecidableEq

inductive Mode
  | none
  | keep
  | replace
  | skip
  deriving DecidableEq

inductive UpPhase
  | idle
  | asked
  | skip
  | data
  | ended
  deriving DecidableEq

inductive ReqKind
  | none
  | vols
  | dir
  | get
  | mkdir
  | rename
  | delete
  | protect
  | note
  deriving DecidableEq

/-- The file being received. -/
structure Cur where
  id : Bytes := []
  path : Bytes := []
  comment : Bytes := []
  tmp : Bytes := []
  size : Nat := 0
  left : Nat := 0
  crcWant : Nat := 0
  crc : UInt32 := 0
  prot : Nat := 0
  mark : Nat := 0
  isOpen : Bool := false
  writeFailed : Bool := false
  mode : Mode := .none
  err : Nat := 0
  /-- Writing went off: the rest is read and dropped. -/
  off : Bool := false
  /-- A repeat of the file saved last: nothing is written. -/
  dup : Bool := false

/-- The file going up. -/
structure Up where
  phase : UpPhase := .idle
  closing : Bool := false
  cancel : Bool := false
  cur : UpItem := {}
  info : Finfo := {}
  credit : Nat := 0
  stored : Nat := 0
  sent : Nat := 0
  skip : Nat := 0
  crc : UInt32 := 0

/-- The request waiting, and the one being answered. A drawer delete walks with
`path` as its stack; `delTop` is how long the named path is. -/
structure Req where
  kind : ReqKind := .none
  isOpen : Bool := false
  nvols : Nat := 0
  i : Nat := 0
  count : Nat := 0
  id : Bytes := []
  path : Bytes := []
  waitKind : ReqKind := .none
  waitId : Bytes := []
  waitPath : Bytes := []
  waitArg : Bytes := []
  arg : Bytes := []
  waitNum : Nat := 0
  num : Nat := 0
  delTop : Nat := 0
  delDrawer : Bool := false
  delHidden : Bool := false

structure Session (φ : Type) where
  disk : φ
  events : List Event := []
  inData : Bool := false
  line : Bytes := []
  list : List Item := []
  listExpect : Nat := 0
  cur : Cur := {}
  out : Bytes := []
  upq : Option Upq := none
  peerV : Nat := 0
  trust : Trust := .none
  protoErr : Bool := false
  peerKey : Bytes := []
  up : Up := {}
  helloBrowse : Bool := false
  helloWrite : Bool := false
  req : Req := {}
  /-- The volume list last read, which a VOLS answer walks. -/
  vols : List Vol := []

namespace Session

variable {φ : Type}

/-- `rx_init` and, with a queue, `rx_attach`. The machine and what was told stay. -/
def init (s : Session φ) (upq : Option Upq) : Session φ :=
  { disk := s.disk, events := s.events, upq := upq, vols := s.vols }

-- ---------------------------------------------------------------------------
-- Events and replies
-- ---------------------------------------------------------------------------

def emit (s : Session φ) (e : Event) : Session φ := { s with events := s.events ++ [e] }

/-- What does not fit is dropped. -/
def put (s : Session φ) (p : Bytes) : Session φ :=
  { s with out := if s.out.length + p.length > outMax then s.out else s.out ++ p }

/-- Piece by piece, each put on its own. -/
def puts (s : Session φ) (ps : List Bytes) : Session φ := ps.foldl put s

def orDash (id : Bytes) : Bytes := if id = [] then ascii "-" else id

theorem puts_disk (s : Session φ) (ps : List Bytes) : (s.puts ps).disk = s.disk := by
  induction ps generalizing s with
  | nil => rfl
  | cons p ps ih => exact ih (s.put p)

def replyErr (s : Session φ) (id : Bytes) (code : String) (text : Bytes) : Session φ :=
  s.puts [ascii "ERR ", orDash id, ascii " ", ascii code, ascii " ", text, ascii "\n"]

/-- `"ERR <id> <code> <len>:<text>"`, a request's. -/
def reqErr (s : Session φ) (id : Bytes) (code : String) (text : Bytes) : Session φ :=
  let t := clean text 80
  s.puts ([ascii "ERR ", orDash id, ascii " ", ascii code, ascii " "] ++ lenPieces t ++ [ascii "\n"])

/-- A FILE refused before GO. -/
def refuse (s : Session φ) (id path : Bytes) (code : String) (text : Bytes) : Session φ :=
  (s.replyErr id code text).emit
    { kind := .failed, id := some (orDash id), path := some path, text := some text }

def emitUp (s : Session φ) (kind : EvKind) (it : UpItem) (path : Option Bytes) (size bytes : Nat)
    (text code : Option Bytes) : Session φ :=
  s.emit { kind := kind, path := some (path.getD it.name), size := size, bytes := bytes, text := text,
           tag := it.tag, code := code }

/-- `Fault`'s words for `err`, or the default, without control bytes. -/
def faultText (fs : Fs φ) (s : Session φ) (err : Nat) (dflt : String) (cap : Nat) :
    Bytes × Session φ :=
  if err = 0 then (clean (ascii dflt) cap, s)
  else
    let (t, d) := fs.fault err s.disk
    let t := t.take 79
    (clean (if t = [] then ascii dflt else t) cap, { s with disk := d })

-- ---------------------------------------------------------------------------
-- What is on
-- ---------------------------------------------------------------------------

def uploadsOn (s : Session φ) : Bool := s.upq.isSome && 2 ≤ s.peerV && s.trust == .ok

def browseOn (s : Session φ) : Bool := s.upq.any (·.browse) && 3 ≤ s.peerV && s.trust == .ok

def writeOn (s : Session φ) : Bool := s.browseOn && s.upq.any (·.write) && 4 ≤ s.peerV

/-- Nothing is moving. -/
def reqIdle (s : Session φ) : Bool := !s.inData && s.up.phase == .idle && !s.up.closing

/-- `take_lines`: what of the queued bytes goes out in `cap`. -/
def takeLines (s : Session φ) (cap : Nat) : Bytes × Session φ :=
  (s.out.take cap, { s with out := s.out.drop cap })

end Session

end WebAdf.Receive
