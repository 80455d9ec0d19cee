import WebAdf.Receive.Parse

/-!
# The board's part of a send

The board reads the queue's first line, checks its fields, and sends Transfer
the FILE line made of them. A copy onto a volume goes out only to a Transfer
that can write. A C string is its bytes before the NUL.
-/

namespace WebAdf.Send

open Lib Receive

def asLineMax : Nat := 640
def asIdMax : Nat := 40

-- ---------------------------------------------------------------------------
-- Fields
-- ---------------------------------------------------------------------------

/-- Up to a blank, which is taken with it. -/
def word (p : Bytes) : Bytes × Bytes :=
  let t := p.takeWhile (· != blank)
  (t, (p.drop t.length).drop 1)

def decStep (x : Nat) (c : UInt8) : Option Nat :=
  if c < 0x30 ∨ c > 0x39 then none else some (x * 10 + (c.toNat - 0x30))

/-- Ten digits do not overflow 64 bits. -/
def dec32 (t : Bytes) : Option Nat :=
  if t.length < 1 ∨ t.length > 10 then none
  else (t.foldlM decStep 0).bind fun x => if x > 0xffffffff then none else some x

def hexStep (x : Nat) (c : UInt8) : Option Nat :=
  if 0x30 ≤ c ∧ c ≤ 0x39 then some (x * 16 + (c.toNat - 0x30))
  else if 0x61 ≤ c ∧ c ≤ 0x66 then some (x * 16 + (c.toNat - 0x61 + 10))
  else if 0x41 ≤ c ∧ c ≤ 0x46 then some (x * 16 + (c.toNat - 0x41 + 10))
  else none

def hex32 (t : Bytes) : Option Nat :=
  if t.length < 1 ∨ t.length > 8 then none else t.foldlM hexStep 0

/-- A field found: where its text begins, the text, and what is left. -/
structure Field where
  start : Nat
  text : Bytes
  rest : Bytes

def fieldEnd (start : Nat) (text : Bytes) : Bytes → Option Field
  | [] => some ⟨start, text, []⟩
  | 0x20 :: rest => some ⟨start, text, rest⟩
  | _ => none

/-- `"<len>:<bytes>"`, then a blank or the end of the line. -/
def lenfield (p : Bytes) : Option Field :=
  let ds := (p.takeWhile isDigit).take 4
  match ds, p.drop ds.length with
  | _ :: _, 0x3a :: q =>
    let len := ofDecimal ds
    if q.length < len then none
    else fieldEnd (ds.length + 1) (q.take len) (q.drop len)
  | _, _ => none

-- ---------------------------------------------------------------------------
-- The NEXT entry
-- ---------------------------------------------------------------------------

def modeWord (t : Bytes) : Bool := t == ascii "keep" || t == ascii "replace" || t == ascii "skip"

/-- A volume without a slash, and a name behind its colon. -/
def absPathForm (p : Bytes) : Bool :=
  1 ≤ p.length && p.length ≤ 255 && p.all (fun c => !(c < 0x20 || c == 0x7f)) &&
    match p.idxOf? colon with
    | none => false
    | some i => (p.take i).all (· != slash) && 1 ≤ i && i ≤ 30 && i + 1 < p.length

/-- What the entry says: its first four words, all of it up to the comment's
end, and where an absolute one goes. -/
structure NextEntry where
  head : Bytes
  rel : Bytes
  comment : Bytes
  dest : Option (Bytes × Bytes)

/-- `"<id> <size> <crc> <prot>"`, and what is left of the line. -/
def nextHead (line : Bytes) : Option (Bytes × Bytes) :=
  let (id, p) := word line
  if id.length < 1 then none
  else
    let (size, p) := word p
    let (crc, p) := word p
    let (prot, rest) := word p
    match dec32 size, hex32 crc, hex32 prot with
    | some _, some _, some _ => some (line.take (line.length - p.length + prot.length), rest)
    | _, _, _ => none

/-- A destination of its own behind the comment: one with a colon. -/
def nextDest (p : Bytes) : Option (Option Bytes × Bytes) :=
  match p with
  | c :: _ =>
    if isDigit c then
      match lenfield p with
      | some f => if colon ∈ f.text then some (some f.text, f.rest) else none
      | none => none
    else some (none, p)
  | [] => some (none, [])

/-- A mode, and nothing behind it. -/
def nextMode (p : Bytes) : Option (Option Bytes) :=
  if p = [] then some none
  else
    let (mode, p) := word p
    if modeWord mode && p.isEmpty then some (some mode) else none

/-- A path with a colon is the destination itself. A mode without one is dropped. -/
def nextParse (line : Bytes) : Option NextEntry :=
  match nextHead line with
  | none => none
  | some (head, p) =>
    match lenfield p with
    | none => none
    | some path =>
      if path.text.length < 1 ∨ path.text.length > 255 then none
      else
        match lenfield path.rest with
        | none => none
        | some comment =>
          if comment.text.length > 79 then none
          else
            let rel := line.take (line.length - path.rest.length + comment.start + comment.text.length)
            match nextDest comment.rest with
            | none => none
            | some (own, p) =>
              match nextMode p with
              | none => none
              | some mode =>
                match own.orElse fun _ => if colon ∈ path.text then some path.text else none with
                | none => some ⟨head, rel, comment.text, none⟩
                | some dest =>
                  if absPathForm dest then
                    some ⟨head, rel, comment.text, some (dest, mode.getD (ascii "keep"))⟩
                  else none

-- ---------------------------------------------------------------------------
-- Starting a file
-- ---------------------------------------------------------------------------

def isBlankByte (c : UInt8) : Bool := c == 0x20 || (0x09 ≤ c && c ≤ 0x0d)

def scanSign : Bytes → Bool × Bytes
  | 0x2d :: s => (true, s)
  | 0x2b :: s => (false, s)
  | s => (false, s)

/-- `sscanf(s, " %lu", …)` of a long of 32 bits. -/
def scanLu (s : Bytes) : Option Nat :=
  let (neg, s) := scanSign (s.dropWhile isBlankByte)
  let ds := s.takeWhile isDigit
  if ds = [] then none
  else if ofDecimal ds ≥ 2 ^ 32 then some (2 ^ 32 - 1)
  else some (if neg then (2 ^ 32 - ofDecimal ds) % 2 ^ 32 else ofDecimal ds)

/-- What the board does with the queue's first file. -/
inductive Started
  | backoff
  | failed (id : Bytes) (code : String)
  | sent (id : Bytes) (size : Nat) (line : Bytes)
  deriving DecidableEq

/-- The queue has a file: its first word is NEXT and no hyphen stands behind it. -/
def hasNext (queue : Bytes) : Bool :=
  queue.length > 5 && queue.take 5 == ascii "NEXT " && queue[5]? != some 0x2d

/-- `"FILE "` and what the entry says. -/
def fileLine (f : NextEntry) : Bytes :=
  match f.dest with
  | some (dest, mode) =>
    ascii "FILE " ++ f.head ++ [blank] ++ decimal dest.length ++ [colon] ++ dest ++ [blank] ++
      decimal f.comment.length ++ [colon] ++ f.comment ++ [blank] ++ mode ++ [0x0a]
  | none => ascii "FILE " ++ f.rel ++ [0x0a]

/-- `canWrite`: Transfer speaks protocol 4 and its writing is on. -/
def startFile (canWrite : Bool) (queue : Bytes) : Started :=
  let line := queue.takeWhile (· != 0x0a)
  let rest := line.drop 5
  let id := (rest.takeWhile (· != blank)).take asIdMax
  match scanLu (queue.drop (5 + id.length)) with
  | none => if id.length > 0 then .failed id "name" else .backoff
  | some size =>
    if line.length - 5 > asLineMax then if id.length > 0 then .failed id "name" else .backoff
    else
      match nextParse (rest.takeWhile (· != 0)) with
      | none => .failed id "name"
      | some f =>
        if f.dest.isSome && !canWrite then .failed id "readonly"
        else if (fileLine f).length ≥ asLineMax + 8 then .failed id "name"
        else .sent id size (fileLine f)

end WebAdf.Send
