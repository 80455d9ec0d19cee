import WebAdf.Receive.Requests

/-!
# Files received

FILE and GO, the bytes into a temporary file in the target's drawer, and once
they pass their CRC the file takes its name. A FILE that repeats the one saved
last is answered with that copy and writes nothing.
-/

namespace WebAdf.Receive

open Lib

def parentOf (path : Bytes) : Bytes := path.take (dirLen path)

def fileCode (err : Nat) : String :=
  if err = 214 then "wprot"
  else if err = 221 then "full"
  else if err = 222 ∨ err = 223 ∨ err = dosReadProtected then "denied"
  else if err = dosInUse then "busy"
  else "write"

/-- The drawers above a path, outermost first. -/
def parentsOf (path : Bytes) : List Bytes :=
  ((List.range path.length).filter fun i => path[i]? == some slash).map path.take

/-- A FILE line's fields. -/
structure FileLine where
  id : Bytes
  size : Nat
  crc : Nat
  prot : Nat
  path : Bytes
  comment : Bytes
  mode : Mode

/-- Why a FILE line is no good, and the path it may be told under. -/
structure BadFile where
  id : Bytes
  path : Bytes
  code : String
  text : String

def modeOf (c : Bytes) : Option Mode :=
  if c = [] then some .none
  else
    let (t, c) := tok c
    if c ≠ [] then none
    else if t = some (ascii "keep") then some .keep
    else if t = some (ascii "replace") then some .replace
    else if t = some (ascii "skip") then some .skip
    else none

/-- `"FILE <id> <size> <crc> <prot> <len>:<path> <len>:<comment> [<mode>]"`: an
absolute path needs a mode, and a mode an absolute path. -/
def parseFile (c : Bytes) : Except BadFile FileLine :=
  match tok c with
  | (none, _) => .error ⟨[], [], "name", "bad request"⟩
  | (some id, c) =>
    if !idOk id then .error ⟨[], [], "name", "bad request"⟩
    else
      let (size, c) := tok c
      match size.bind (num · 10) with
      | none => .error ⟨id, [], "name", "bad request"⟩
      | some size =>
        if size > fileMax then .error ⟨id, [], "size", "file too large"⟩
        else
          let (crc, c) := tok c
          let (prot, c) := tok c
          match crc.bind (num · 16), prot.bind (num · 16), lenstr c (pathMax + 1) false with
          | some crc, some prot, some (path, c) =>
            match lenstr c (commentMax + 1) true with
            | none => .error ⟨id, [], "name", "bad request"⟩
            | some (comment, c) =>
              match modeOf c with
              | none => .error ⟨id, path, "name", "bad request"⟩
              | some mode =>
                if decide (mode ≠ .none) ≠ path.contains colon then
                  .error ⟨id, path, "name", "bad request"⟩
                else .ok ⟨id, size, crc, prot, path, comment, mode⟩
          | _, _, _ => .error ⟨id, [], "name", "bad request"⟩

namespace Session

variable {φ : Type}

def emitFile (s : Session φ) (kind : EvKind) (bytes : Nat) (text : Option Bytes) : Session φ :=
  s.emit { kind := kind, id := some s.cur.id, path := some s.cur.path, size := s.cur.size,
           bytes := bytes, text := text }

/-- A hook that says whether it worked. -/
def hook (s : Session φ) (f : φ → Bool × φ) : Bool × Session φ :=
  let (ok, d) := f s.disk
  (ok, { s with disk := d })

/-- The error of the last failed hook. -/
def ferr (fs : Fs φ) (s : Session φ) : Nat × Session φ :=
  let (e, d) := fs.err s.disk
  (e, { s with disk := d })

-- ---------------------------------------------------------------------------
-- Failures
-- ---------------------------------------------------------------------------

/-- The temporary file is closed and removed. -/
def dropTmp (fs : Fs φ) (s : Session φ) : Session φ :=
  let s :=
    if s.cur.isOpen then
      { s with disk := (fs.closeW s.disk).2, cur := { s.cur with isOpen := false } }
    else s
  { s with disk := (fs.remove s.cur.tmp s.disk).2 }

def failFile (fs : Fs φ) (s : Session φ) (code : String) (text : Bytes) : Session φ :=
  let s := (s.dropTmp fs).replyErr s.cur.id code text
  { s with inData := false }.emitFile .failed 0 (some text)

/-- An absolute FILE's failure, in AmigaDOS's words. -/
def failFileErr (fs : Fs φ) (s : Session φ) (err : Nat) (dflt : String) : Session φ :=
  let (t, s) := s.faultText fs err dflt 80
  s.failFile fs (fileCode err) t

/-- The words of either kind of FILE. -/
def failWrite (fs : Fs φ) (s : Session φ) (err : Nat) : Session φ :=
  if s.cur.mode ≠ .none then s.failFileErr fs err "cannot write"
  else s.failFile fs "write" (ascii "cannot write")

/-- Writing went off: an absolute FILE stops now. -/
def switchChanged (fs : Fs φ) (s : Session φ) : Session φ :=
  if !s.inData || s.cur.mode == .none || s.cur.off || s.cur.dup || s.writeOn then s
  else
    let s := s.dropTmp fs
    { s with cur := { s.cur with off := true } }

-- ---------------------------------------------------------------------------
-- The last byte
-- ---------------------------------------------------------------------------

def replyOk (s : Session φ) (saved : Bytes) : Session φ :=
  s.puts ([ascii "OK ", s.cur.id, ascii " "] ++ lenPieces saved ++ [ascii "\n"])

def doneKeep (s : Session φ) (saved : Bytes) : Session φ :=
  { s with upq := s.upq.map fun q =>
      { q with done := ⟨s.cur.id, s.cur.size, s.cur.crcWant, saved⟩ } }

/-- The file is there under its name. -/
def saved (fs : Fs φ) (s : Session φ) (name : Bytes) : Session φ :=
  let s := { s with disk := (fs.setMeta name s.cur.prot s.cur.comment s.disk).2 }
  let s := (s.replyOk name).doneKeep name
  { s with inData := false }.emit
    { kind := .done, id := some s.cur.id, path := some name, size := s.cur.size, bytes := s.cur.size }

/-- A repeat's end: the copy saved is the answer. -/
def repeated (s : Session φ) : Session φ :=
  let name := s.upq.elim [] (·.done.saved)
  let s := { s with cur := { s.cur with dup := false }, inData := false }.replyOk name
  s.emit
    { kind := .done, id := some s.cur.id, path := some name, size := s.cur.size, bytes := s.cur.size }

/-- A stopped file's end: answered now that the board listens. -/
def stopped (s : Session φ) : Session φ :=
  let s := { s with cur := { s.cur with off := false }, inData := false }
  (s.replyErr s.cur.id "readonly" (ascii "writing is off in Transfer")).emitFile .failed 0
    (some (ascii "writing is off in Transfer"))

/-- The first candidate from `n` on, up to 99, that is free. -/
def freeName (fs : Fs φ) (s : Session φ) : Nat → Nat → Option Bytes × Session φ
  | 0, _ => (none, s)
  | k + 1, n =>
    match candidate s.cur.path n with
    | none => (none, s)
    | some name =>
      match s.hook (fs.existsRel name) with
      | (true, s) => freeName fs s k (n + 1)
      | (false, s) => (some name, s)

/-- The temporary file takes the first candidate from `n` on that is free and lets
it. -/
def renameFree (fs : Fs φ) (s : Session φ) : Nat → Nat → Option Bytes × Session φ
  | 0, _ => (none, s)
  | k + 1, n =>
    match candidate s.cur.path n with
    | none => (none, s)
    | some name =>
      match s.hook (fs.existsRel name) with
      | (true, s) => renameFree fs s k (n + 1)
      | (false, s) =>
        match s.hook (fs.rename s.cur.tmp name) with
        | (true, s) => (some name, s)
        | (false, s) => renameFree fs s k (n + 1)

/-- The new copy stays in the temporary file, and the answer says so. -/
def stranded (fs : Fs φ) (s : Session φ) (err : Nat) : Session φ :=
  let (t, s) := s.faultText fs err "cannot write" 80
  let t := t ++ ascii "; the new copy is " ++ s.cur.tmp
  let s := s.replyErr s.cur.id (fileCode err) t
  { s with inData := false }.emitFile .failed 0 (some t)

/-- What has the name goes; `false` where it would not. -/
def removeOld (fs : Fs φ) (s : Session φ) (name : Bytes) : Bool × Session φ :=
  match s.hook (fs.existsRel name) with
  | (true, s) => s.hook (fs.remove name)
  | (false, s) => (true, s)

/-- The old file goes only now. -/
def replaceFile (fs : Fs φ) (s : Session φ) : Session φ :=
  match s.removeOld fs s.cur.path with
  | (false, s) =>
    let (e, s) := s.ferr fs
    s.failFileErr fs e "cannot delete"
  | (true, s) =>
    match s.hook (fs.rename s.cur.tmp s.cur.path) with
    | (true, s) => s.saved fs s.cur.path
    | (false, s) =>
      -- The old file is gone: the new one must not go too.
      let (e, s) := s.ferr fs
      match s.renameFree fs 98 2 with
      | (some name, s) => s.saved fs name
      | (none, s) => s.stranded fs e

def keepFile (fs : Fs φ) (s : Session φ) : Session φ :=
  match s.freeName fs 99 1 with
  | (none, s) => s.failFile fs "name" (ascii "no free name")
  | (some name, s) =>
    match s.hook (fs.rename s.cur.tmp name) with
    | (true, s) => s.saved fs name
    | (false, s) =>
      if s.cur.mode ≠ .none then
        let (e, s) := s.ferr fs
        s.failFileErr fs e "cannot write"
      else s.failFile fs "write" (ascii "cannot write")

/-- The temporary file is closed: whether it would, and the error. -/
def closeFile (fs : Fs φ) (s : Session φ) : Bool × Nat × Session φ :=
  match s.hook fs.closeW with
  | (true, s) => (true, 0, { s with cur := { s.cur with isOpen := false } })
  | (false, s) =>
    let (e, s) := s.ferr fs
    (false, e, { s with cur := { s.cur with isOpen := false } })

def finishFile (fs : Fs φ) (s : Session φ) : Session φ :=
  if s.cur.dup then s.repeated
  else if s.cur.off then s.stopped
  else
    match s.closeFile fs with
    | (closed, cerr, s) =>
      if s.cur.writeFailed || !closed then
        s.failWrite fs (if s.cur.writeFailed then s.cur.err else cerr)
      else if s.cur.crc.toNat ≠ s.cur.crcWant then s.failFile fs "crc" (ascii "checksum mismatch")
      else if s.cur.mode = .replace then s.replaceFile fs
      else s.keepFile fs

-- ---------------------------------------------------------------------------
-- FILE
-- ---------------------------------------------------------------------------

def makeParents (fs : Fs φ) : List Bytes → Session φ → Bool × Session φ
  | [], s => (true, s)
  | p :: ps, s =>
    match s.hook (fs.existsRel p) with
    | (true, s) => makeParents fs ps s
    | (false, s) =>
      match s.hook (fs.makeDir p) with
      | (true, s) => makeParents fs ps s
      | (false, s) => (false, s)

/-- A hook failed before GO: an absolute FILE's answer. -/
def refuseErr (fs : Fs φ) (s : Session φ) (id : Bytes) (dflt : String) : Session φ :=
  let (e, s) := s.ferr fs
  let (t, s) := s.faultText fs e dflt 80
  s.refuse id s.cur.path (fileCode e) t

/-- Room for the file, and 8 KB more. -/
def fits (free size : Nat) : Bool := free ≥ 8192 && free - 8192 ≥ size

/-- The drawers above the path are made, and the temporary file opened beside it.
The text, where it could not be. -/
def openTmp (fs : Fs φ) (s : Session φ) : Option String × Session φ :=
  match s.makeParents fs (parentsOf s.cur.path) with
  | (false, s) => (some "cannot create folder", s)
  | (true, s) =>
    let s := { s with cur := { s.cur with tmp := parentOf s.cur.path ++ tmpName } }
    match s.hook (fs.openW s.cur.tmp) with
    | (false, s) => (some "cannot write", s)
    | (true, s) => (none, s)

/-- `stat`: something of that name is there, and whether it is a drawer. -/
def statPath (fs : Fs φ) (s : Session φ) : Bool × Bool × Session φ :=
  let (k, _, isDir, d) := fs.stat s.cur.path s.disk
  (k = 0 ∨ k = dosInUse, isDir && k = 0, { s with disk := d })

/-- An absolute FILE: checked, then its temporary file opened. `true` where GO may
follow; refused or skipped otherwise. -/
def absFileStart (fs : Fs φ) (s : Session φ) (id : Bytes) (size : Nat) : Bool × Session φ :=
  if !absPathOk s.cur.path then (false, s.refuse id s.cur.path "name" (ascii "bad name"))
  else if !s.writeOn then
    (false, s.refuse id s.cur.path "readonly" (ascii "writing is off in Transfer"))
  else
    match s.readVols fs with
    | (none, s) => (false, s.refuse id s.cur.path "folder" (ascii "cannot read the volume list"))
    | (some vols, s) =>
      if (volFind vols s.cur.path).isNone then
        (false, s.refuse id s.cur.path "folder" (ascii "no such volume"))
      else
        let (there, isDir, s) := s.statPath fs
        if there && s.cur.mode == .skip then
          (false, (s.puts [ascii "SKIP ", id, ascii "\n"]).emit
            { kind := .skip, id := some id, path := some s.cur.path, size := size })
        else if there && isDir && s.cur.mode == .replace then
          (false, s.refuse id s.cur.path "denied" (ascii "a drawer has that name"))
        else
          let (free, d) := fs.freeAt s.cur.path s.disk
          let s := { s with disk := d }
          if !fits free size then
            (false, s.refuse id s.cur.path "full" (ascii "not enough space"))
          else
            match s.openTmp fs with
            | (some text, s) => (false, s.refuseErr fs id text)
            | (none, s) => (true, s)

/-- A FILE under the folder: the same. -/
def relFileStart (fs : Fs φ) (s : Session φ) (id : Bytes) (size : Nat) : Bool × Session φ :=
  if !pathOk s.cur.path then (false, s.refuse id s.cur.path "name" (ascii "bad name"))
  else
    match s.hook fs.folderOk with
    | (false, s) => (false, s.refuse id s.cur.path "folder" (ascii "folder not found"))
    | (true, s) =>
      let (free, d) := fs.freeBytes s.disk
      let s := { s with disk := d }
      if !fits free size then (false, s.refuse id s.cur.path "space" (ascii "not enough space"))
      else
        match s.openTmp fs with
        | (some text, s) => (false, s.refuse id s.cur.path "write" (ascii text))
        | (none, s) => (true, s)

/-- The file saved last comes again, and its copy is still there. -/
def doneRepeat (fs : Fs φ) (s : Session φ) (f : FileLine) : Bool × Session φ :=
  match s.upq with
  | none => (false, s)
  | some q =>
    if q.done.id ≠ [] ∧ q.done.id = f.id ∧ q.done.size = f.size ∧ q.done.crc = f.crc then
      s.hook (fs.existsRel q.done.saved)
    else (false, s)

/-- GO: the bytes follow. -/
def go (fs : Fs φ) (s : Session φ) (f : FileLine) (dup : Bool) : Session φ :=
  let s := { s with
    inData := true
    cur := { s.cur with
      id := f.id, size := f.size, left := f.size, crcWant := f.crc, crc := 0, prot := f.prot
      mark := 0, isOpen := !dup, writeFailed := false, off := false, dup := dup } }
  let s := (s.puts [ascii "GO ", f.id, ascii "\n"]).emitFile .began 0 none
  if f.size = 0 then s.finishFile fs else s

def startFile (fs : Fs φ) (s : Session φ) (f : FileLine) : Session φ :=
  let s := { s with cur := { s.cur with path := f.path, comment := f.comment, mode := f.mode } }
  match s.doneRepeat fs f with
  | (true, s) => s.go fs f true
  | (false, s) =>
    match if f.mode ≠ .none then s.absFileStart fs f.id f.size else s.relFileStart fs f.id f.size with
    | (true, s) => s.go fs f false
    | (false, s) => s

def onFile (fs : Fs φ) (s : Session φ) (c : Bytes) : Session φ :=
  match parseFile c with
  | .error e => s.refuse e.id e.path e.code (ascii e.text)
  | .ok f => s.startFile fs f

-- ---------------------------------------------------------------------------
-- Bytes
-- ---------------------------------------------------------------------------

/-- How many of `n` bytes one pass takes: it crosses one mark at most. -/
def passLen (s : Session φ) (n : Nat) : Nat :=
  min (min n s.cur.left) (progressStep - (s.cur.size - s.cur.left) % progressStep)

/-- The bytes go into the temporary file, unless they are only read and dropped. -/
def writeData (fs : Fs φ) (s : Session φ) (data : Bytes) : Session φ :=
  if s.cur.off || s.cur.dup || s.cur.writeFailed then s
  else
    match s.hook (fs.write data) with
    | (true, s) => s
    | (false, s) =>
      let (e, s) := s.ferr fs
      { s with cur := { s.cur with writeFailed := true, err := e } }

/-- A mark crossed is told, but not the last byte, nor of a stopped file. -/
def markData (s : Session φ) : Session φ :=
  let done := s.cur.size - s.cur.left
  if s.cur.left ≠ 0 ∧ !s.cur.off ∧ done / progressStep > s.cur.mark then
    { s with cur := { s.cur with mark := done / progressStep } }.emitFile .progress done none
  else s

/-- The bytes are taken into the CRC and counted. -/
def countData (s : Session φ) (data : Bytes) : Session φ :=
  { s with cur := { s.cur with
    crc := crc32Update s.cur.crc data, left := s.cur.left - data.length } }

/-- One pass over bytes of the file. -/
def eat (fs : Fs φ) (s : Session φ) (data : Bytes) : Session φ :=
  let s := (((s.switchChanged fs).writeData fs data).countData data).markData
  if s.cur.left = 0 then s.finishFile fs else s

end Session

end WebAdf.Receive
