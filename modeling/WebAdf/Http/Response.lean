import WebAdf.Constants
import WebAdf.Lib.Ascii

/-!
# The board's HTTP response reader

A reader that takes bytes in whatever pieces the transport has them. A line
keeps its first 127 bytes; body bytes go to a sink as they are framed.
-/

namespace WebAdf.Http

open Lib

def httpMaxBodyBytes : Nat := 8 * 1024 * 1024
def linebufBytes : Nat := 128

inductive State
  | statusLine | headerLine | bodyLen | chunkSizeLine | chunkData | chunkCrlf | chunkTrailer
  | done | error
  deriving DecidableEq, Repr

/-- `line` is `_linebuf` up to `_linelen`; of a trailer line only the length is
kept, and nothing reads its bytes. `contentLength` is `none` for -1. -/
structure Resp where
  status : Int
  headersDone : Bool
  chunked : Bool
  contentLength : Option Nat
  bodyComplete : Bool
  connectionClose : Bool
  hasExplicitFraming : Bool
  extraAfterComplete : Bool
  state : State
  line : Bytes
  chunkExt : Bool
  bodyGot : Nat
  chunkLeft : Nat
  deriving DecidableEq, Repr

/-- `http_resp_init`. -/
def init : Resp where
  status := 0
  headersDone := false
  chunked := false
  contentLength := none
  bodyComplete := false
  connectionClose := false
  hasExplicitFraming := false
  extraAfterComplete := false
  state := .statusLine
  line := []
  chunkExt := false
  bodyGot := 0
  chunkLeft := 0

-- ---------------------------------------------------------------------------
-- Text
-- ---------------------------------------------------------------------------

def cr : UInt8 := 0x0d
def lf : UInt8 := 0x0a
def space : UInt8 := 0x20
def tab : UInt8 := 0x09
def colon : UInt8 := 0x3a
def comma : UInt8 := 0x2c
def semicolon : UInt8 := 0x3b

def isBlank (c : UInt8) : Bool := c == space || c == tab

/-- A buffer as a C string: the bytes before its NUL. -/
def cString (b : Bytes) : Bytes := b.takeWhile (· != 0)

def hexDigit (c : UInt8) : Option Nat :=
  if 0x30 ≤ c ∧ c ≤ 0x39 then some (c.toNat - 0x30)
  else if 0x61 ≤ c ∧ c ≤ 0x66 then some (c.toNat - 0x61 + 10)
  else if 0x41 ≤ c ∧ c ≤ 0x46 then some (c.toNat - 0x41 + 10)
  else none

def digitOf (base : Nat) (c : UInt8) : Option Nat :=
  if base = 16 then hexDigit c else if isDigit c then some (c.toNat - 0x30) else none

/-- A `long` of 32 bits, which wraps. -/
def parseDecimal (s : Bytes) : Int := Int.bmod (ofDecimal (s.takeWhile isDigit)) (2 ^ 32)

/-- `none` for a byte that is no digit, and for a number past `max`. -/
def parseBounded (s : Bytes) (base max : Nat) : Option Nat :=
  s.foldlM (fun v c =>
    match digitOf base c with
    | none => none
    | some d => if v > (max - d) / base then none else some (v * base + d)) 0

def toLower (c : UInt8) : UInt8 := if 0x41 ≤ c ∧ c ≤ 0x5a then c + 0x20 else c

def ciEqual (a b : Bytes) : Bool := a.map toLower == b.map toLower

/-- Without the blanks before and after. -/
def trim (s : Bytes) : Bytes := ((s.dropWhile isBlank).reverse.dropWhile isBlank).reverse

/-- `tok` is one of the value's comma-separated tokens. -/
def headerHasToken (val tok : Bytes) : Bool :=
  (val.splitOn comma).any fun t => ciEqual (trim t) tok

-- ---------------------------------------------------------------------------
-- The head
-- ---------------------------------------------------------------------------

namespace Resp

def parseStatusLine (r : Resp) : Resp :=
  match (cString r.line).dropWhile (· != space) with
  | [] => { r with status := 0 }
  | _ :: s => { r with status := parseDecimal s }

def handleHeaderLine (r : Resp) : Resp :=
  if r.line.length = 0 then { r with headersDone := true }
  else
    let text := cString r.line
    let name := text.takeWhile (· != colon)
    match text.drop name.length with
    | [] => r
    | _ :: val =>
      let val := trim val
      if ciEqual name (ascii "content-length") then
        match parseBounded val 10 httpMaxBodyBytes with
        | none => { r with state := .error }
        | some v => { r with contentLength := some v }
      else if ciEqual name (ascii "transfer-encoding") then
        if headerHasToken val (ascii "chunked") then { r with chunked := true } else r
      else if ciEqual name (ascii "connection") then
        if headerHasToken val (ascii "close") then { r with connectionClose := true } else r
      else r

def startBodyPhase (r : Resp) : Resp :=
  let bodyless : Bool := r.status = 204 ∨ r.status = 304
  let r := { r with hasExplicitFraming := bodyless || r.chunked || r.contentLength.isSome }
  if bodyless then { r with bodyComplete := true, state := .done }
  else if r.chunked then { r with state := .chunkSizeLine }
  else match r.contentLength with
    | some 0 => { r with bodyComplete := true, state := .done }
    | some _ => { r with bodyGot := 0, state := .bodyLen }
    | none => { r with bodyComplete := true, state := .done }

/-- A newline in the head. After an interim response the next one starts over. -/
def endLine (r : Resp) : Resp :=
  if r.state = .statusLine then { r.parseStatusLine with state := .headerLine, line := [] }
  else
    let r := r.handleHeaderLine
    if r.state = .error then r
    else if r.headersDone then
      if 100 ≤ r.status ∧ r.status < 200 then init
      else { r.startBodyPhase with line := [] }
    else { r with line := [] }

def push (r : Resp) (room : Nat) (c : UInt8) : Resp :=
  if r.line.length < room then { r with line := r.line ++ [c] } else r

-- ---------------------------------------------------------------------------
-- Bytes
-- ---------------------------------------------------------------------------

def headByte (r : Resp) (c : UInt8) : Resp :=
  if c = cr then r else if c = lf then r.endLine else r.push (linebufBytes - 1) c

/-- The end of a chunk-size line. -/
def startChunk (r : Resp) : Resp :=
  match parseBounded r.line 16 httpMaxBodyBytes with
  | none => { r with state := .error }
  | some size => { r with
      line := []
      chunkExt := false
      chunkLeft := size
      state := if size = 0 then .chunkTrailer else .chunkData }

def sizeByte (r : Resp) (c : UInt8) : Resp :=
  if c = cr then r
  else if c = semicolon then { r with chunkExt := true }
  else if c = lf then r.startChunk
  else if !r.chunkExt then r.push (linebufBytes - 1) c
  else r

def crlfByte (r : Resp) (c : UInt8) : Resp :=
  if c = cr then r
  else if c = lf then { r with state := .chunkSizeLine }
  else { r with state := .error }

/-- The end of a trailer line; a blank one ends the response. -/
def endTrailer (r : Resp) : Resp :=
  if r.line.length = 0 then { r with bodyComplete := true, state := .done, line := [] }
  else { r with line := [] }

def trailerByte (r : Resp) (c : UInt8) : Resp :=
  if c = cr then r else if c = lf then r.endTrailer else r.push linebufBytes c

/-- A byte outside the body's data. -/
def byte (r : Resp) (c : UInt8) : Resp :=
  match r.state with
  | .statusLine | .headerLine => r.headByte c
  | .chunkSizeLine => r.sizeByte c
  | .chunkCrlf => r.crlfByte c
  | .chunkTrailer => r.trailerByte c
  | .bodyLen | .chunkData | .error => r
  | .done => { r with extraAfterComplete := true }

/-- How much of the body's data is still to come, where that is what is read. -/
def want (r : Resp) : Nat :=
  match r.state with
  | .bodyLen => r.contentLength.getD 0 - r.bodyGot
  | .chunkData => r.chunkLeft
  | _ => 0

/-- `take` bytes of the body went to the sink. -/
def took (r : Resp) (take : Nat) : Resp :=
  match r.state with
  | .bodyLen =>
    let r := { r with bodyGot := r.bodyGot + take }
    if r.contentLength.getD 0 ≤ r.bodyGot then { r with bodyComplete := true, state := .done }
    else r
  | .chunkData =>
    let r := { r with chunkLeft := r.chunkLeft - take }
    if r.chunkLeft = 0 then { r with state := .chunkCrlf } else r
  | _ => r

def inBody (r : Resp) : Bool := r.state == .bodyLen || r.state == .chunkData

/-- `http_resp_feed` from where it stands in a piece. -/
def feedFrom (sink : σ → Bytes → σ) (r : Resp) (s : σ) : Bytes → Resp × σ
  | [] => (r, s)
  | c :: rest =>
    if r.state = .error then (r, s)
    else if r.inBody then
      let take := min (rest.length + 1) r.want
      let s := if take > 0 then sink s ((c :: rest).take take) else s
      feedFrom sink (r.took take) s ((c :: rest).drop (max take 1))
    else feedFrom sink (r.byte c) s rest
  termination_by data => data.length

/-- `http_resp_feed`: `false` on a malformed response. -/
def feed (sink : σ → Bytes → σ) (r : Resp) (s : σ) (data : Bytes) : Bool × Resp × σ :=
  let (r, s) := r.feedFrom sink s data
  (r.state != .error, r, s)

end Resp

end WebAdf.Http
