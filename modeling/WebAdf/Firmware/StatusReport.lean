import WebAdf.Lib.Ascii

/-!
# The status report's body

`dc_report_status` writes its JSON by hand, piece by piece: fields of fixed size
first, then the body, then what rides only until a report is heard and only where
there is room left. Most texts are escaped on their way in; the disk's id, the
digests and the key's digits go in as they are.
-/

namespace WebAdf.Firmware.Status

open Lib

abbrev Bytes := List UInt8

def bodyBytes : Nat := 1712
def errBytes : Nat := 256
def verBytes : Nat := 65
def trackMaxBytes : Nat := 14336
def btJsonMax : Nat := 112
def i2cScanMax : Nat := 8

/-- What a buffer of `cap` bytes holds before its NUL. -/
abbrev CStr (cap : Nat) := {s : Bytes // s.length < cap}

/-- `snprintf` into a buffer of `cap` bytes: the text it then holds. -/
def print (cap : Nat) (text : Bytes) : Bytes := (snprintf cap text).1

/-- `%d`. -/
def signed (n : Int32) : Bytes :=
  if n.toInt < 0 then 0x2d :: decimal n.toInt.natAbs else decimal n.toInt.natAbs

def quoted (s : Bytes) : Bytes := 0x22 :: (s ++ [0x22])

def boolWord (b : Bool) : Bytes := if b then ascii "true" else ascii "false"

-- ---------------------------------------------------------------------------
-- Escaping
-- ---------------------------------------------------------------------------

def escByte (c : UInt8) : Bytes :=
  if c = 0x22 ∨ c = 0x5c then [0x5c, c] else if c < 0x20 then [0x20] else [c]

/-- Cut to fit, never half an escape; `n` bytes are written. -/
def escFrom (outLen n : Nat) : Bytes → Bytes
  | [] => []
  | c :: s =>
    if n + (escByte c).length > outLen - 1 then []
    else escByte c ++ escFrom outLen (n + (escByte c).length) s

def jsonEscape (outLen : Nat) (s : Bytes) : Bytes := escFrom outLen 0 s

/-- A text escaped into `escLen` bytes and quoted into `cap`; `null` for none. -/
def textField (cap escLen : Nat) : Option Bytes → Bytes
  | none => print cap (ascii "null")
  | some s => print cap (quoted (jsonEscape escLen s))

-- ---------------------------------------------------------------------------
-- The boot trail
-- ---------------------------------------------------------------------------

/-- What the previous boot left: the reset's reasons and each core's word. -/
structure BootTrail where
  chipReset : UInt32
  wdReason : UInt32
  w0 : UInt32
  w1 : UInt32
  /-- The update trail's stage, when one stalled. -/
  upd : Option Nat

/-- A word's stage and seconds. -/
def btWordRead (w : UInt32) : Option (Nat × Nat) :=
  if w >>> 24 ≠ 0xB7 then none
  else
    let st := ((w >>> 16) &&& 0xFF &&& ~~~0x80).toNat
    if st = 0 ∨ st > 11 then none else some (st, (w &&& 0xFFFF).toNat)

def btWordI2cHeld (w : UInt32) : Bool := (btWordRead w).isSome && (w >>> 16) &&& 0x80 != 0

def btStage (w : UInt32) : Nat := ((btWordRead w).map (·.1)).getD 0

inductive Reset
  | unknown | powerOn | brownOut | runPin | debugger | glitch | watchdog | software | sysreset
  | core1Stall

def btResetReason (chipReset wdReason w0 : UInt32) : Reset :=
  if chipReset &&& 0x00010000 ≠ 0 then .powerOn
  else if chipReset &&& 0x00020000 ≠ 0 then .brownOut
  else if chipReset &&& 0x00040000 ≠ 0 then .runPin
  else if chipReset &&& 0x04000000 ≠ 0 then .glitch
  else if chipReset &&& (0x00080000 ||| 0x00200000) ≠ 0 then .debugger
  else if btStage w0 = 10 then .software
  else if btStage w0 = 11 then .core1Stall
  else if chipReset &&& (0x10000000 ||| 0x01000000 ||| 0x00800000 ||| 0x00400000) ≠ 0 ∨
      wdReason &&& 3 ≠ 0 then .watchdog
  else if chipReset &&& 0x08000000 ≠ 0 then .sysreset
  else .unknown

def btResetName : Reset → Bytes
  | .powerOn => ascii "power-on"
  | .brownOut => ascii "brown-out"
  | .runPin => ascii "run-pin"
  | .debugger => ascii "debugger"
  | .glitch => ascii "glitch"
  | .watchdog => ascii "watchdog"
  | .software => ascii "software"
  | .sysreset => ascii "sysreset"
  | .core1Stall => ascii "core1-stall"
  | .unknown => ascii "unknown"

def stageNames0 : List Bytes :=
  [[], ascii "early", ascii "buy", ascii "bought", ascii "psram-init", ascii "psram", ascii "i2c",
    ascii "display", ascii "nfc", ascii "loop", ascii "reboot", ascii "c1-stall"]

def stageNames1 : List Bytes :=
  [[], ascii "start", ascii "wifi", ascii "server", ascii "trial", ascii "proven", ascii "loop",
    ascii "contact"]

def utStageNames : List Bytes :=
  [[], ascii "buy", ascii "psram", ascii "i2c", ascii "display", ascii "launch", ascii "server",
    ascii "contact"]

def stageName (names : List Bytes) (stage : Nat) : Bytes := names.getD stage []

/-- A core's members, `digit` its number; none without a record or a name. -/
def btCore (digit : Bytes) (names : List Bytes) (w : UInt32) (held : Bool) : Bytes :=
  match btWordRead w with
  | none => []
  | some (st, up) =>
    let name := stageName names st
    if name = [] then []
    else ascii ",\"c" ++ digit ++ ascii "\":\"" ++ name ++ ascii "\",\"up" ++ digit ++ ascii "\":" ++
      decimal up ++ (if held then ascii ",\"i2cHeld\":true" else [])

def btUpd (upd : Option Nat) : Bytes :=
  match upd with
  | none => []
  | some stage =>
    let name := stageName utStageNames stage
    if name = [] then [] else ascii ",\"upd\":\"" ++ name ++ ascii "\""

def btText (b : BootTrail) : Bytes :=
  ascii "\x7b\"reset\":\"" ++ btResetName (btResetReason b.chipReset b.wdReason b.w0) ++ ascii "\"" ++
    btCore (ascii "0") stageNames0 b.w0 (btWordI2cHeld b.w0) ++
    btCore (ascii "1") stageNames1 b.w1 false ++ btUpd b.upd ++ ascii "\x7d"

/-- `bt_json`: `none` where it does not fit, never clipped. -/
def btJson (cap : Nat) (b : BootTrail) : Option Bytes :=
  if (btText b).length + 1 > cap then none else some (btText b)

/-- `bt_hw_json`: empty where it did not fit. -/
def btHwJson (b : BootTrail) : Bytes := (btJson (btJsonMax + 1) b).getD []

-- ---------------------------------------------------------------------------
-- The device client
-- ---------------------------------------------------------------------------

structure FwReport where
  updateProtocol : Int32
  state : Option Bytes
  error : Option Bytes
  instructionAck : UInt32

/-- `""` until the reader is known. -/
inductive NfcReader
  | unknown | present | absent

def NfcReader.word : NfcReader → Bytes
  | .unknown => []
  | .present => ascii "present"
  | .absent => ascii "absent"

def slotNone : Int := -1
def slotNet : Int := 2

structure Preload where
  loading : Bool
  nextSha256 : CStr 65
  slot : Int
  sha256 : CStr 65

inductive Df1Mode
  | off | next | net
  deriving DecidableEq

def df1ModeWire : Df1Mode → Bytes
  | .next => ascii "df1"
  | .net => ascii "net"
  | .off => ascii "off"

structure Net where
  driverSeen : Bool
  driverS : UInt32
  amigaIp : UInt32
  framesIn : UInt32
  framesOut : UInt32

structure I2cScan where
  addr : {l : List UInt8 // l.length ≤ i2cScanMax}
  done : Bool

/-- What a report reads. `none` stands for what is not said: no firmware report, a
reading not known yet, a text not owed. -/
structure Client where
  mountedSha256 : CStr 65
  mountedDiskId : CStr 65
  mountedVersion : UInt32
  fwReport : Option FwReport
  nfcReader : NfcReader
  preload : Preload
  displayLayouts : Bool
  displayAck : UInt32
  displayError : CStr 48
  playsHd : Bool
  /-- Wired, and DF1 seen. -/
  sel1 : Option (Bool × Bool)
  df1Capable : Bool
  df1Mode : Df1Mode
  df1Slot : Int
  df1Pick : CStr 65
  driveAck : UInt32
  net : Option Net
  /-- Custom, and without verifying. -/
  server : Option (Bool × Bool)
  i2c : Option I2cScan
  lastBoot : Option BootTrail
  nfcFail : Option (CStr 24)
  upKey : Option Bytes

-- ---------------------------------------------------------------------------
-- The tails
-- ---------------------------------------------------------------------------

def mountedField (c : Client) (s : Bytes) : Bytes :=
  print 80 (if c.mountedSha256.1 ≠ [] then quoted s else ascii "null")

def fwTail (c : Client) : Bytes :=
  match c.fwReport with
  | none => []
  | some f =>
    if f.updateProtocol.toInt > 0 then
      print (errBytes + 160) (ascii ",\"updateProtocol\":" ++ signed f.updateProtocol ++
        ascii ",\"firmwareUpdateState\":" ++ textField 40 32 f.state ++
        ascii ",\"firmwareUpdateError\":" ++ textField (errBytes + 2) 201 f.error ++
        ascii ",\"firmwareInstructionAck\":" ++ decimal f.instructionAck.toNat)
    else []

def nfcTail (c : Client) : Bytes :=
  if c.nfcReader.word = [] then []
  else print 32 (ascii ",\"nfcReader\":" ++ quoted c.nfcReader.word)

/-- Loading names the digest being fetched; ready names the one in the slot. -/
def preloadTail (c : Client) : Bytes :=
  if c.preload.loading ∨ c.preload.slot ≠ slotNone then
    print 112 (ascii ",\"preload\":\x7b\"sha256\":" ++
      quoted (if c.preload.loading then c.preload.nextSha256.1 else c.preload.sha256.1) ++
      ascii ",\"state\":" ++ quoted (if c.preload.loading then ascii "loading" else ascii "ready") ++
      ascii "\x7d")
  else print 112 (ascii ",\"preload\":null")

def displayTail (c : Client) : Bytes :=
  if c.displayLayouts then
    print 168 (ascii ",\"displayLayouts\":true,\"displayVersion\":" ++ decimal c.displayAck.toNat ++
      ascii ",\"displayError\":" ++
        textField 98 96 (if c.displayError.1 = [] then none else some c.displayError.1))
  else []

def sel1Tail (c : Client) : Bytes :=
  match c.sel1 with
  | none => []
  | some (wired, seen) =>
    print 48 (ascii ",\"sel1Wired\":" ++ boolWord wired ++ ascii ",\"df1Seen\":" ++ boolWord seen)

/-- The digest DF1 serves: the pick's, or the preloaded disk's in DF1's slot. -/
def df1Sha256 (c : Client) : Option Bytes :=
  if c.df1Slot = slotNet ∧ (c.df1Mode = .next ∨ c.df1Mode = .net) ∧ c.df1Pick.1 ≠ [] then
    some c.df1Pick.1
  else if c.df1Slot ≠ slotNone ∧ c.df1Slot = c.preload.slot ∧ c.preload.sha256.1 ≠ [] then
    some c.preload.sha256.1
  else none

def df1Tail (c : Client) : Bytes :=
  if c.df1Capable then
    print 96 (ascii ",\"df1Sha256\":" ++ ((df1Sha256 c).map quoted).getD (ascii "null"))
  else []

def driveTail (c : Client) : Bytes :=
  if c.df1Capable then
    print 64 (ascii ",\"secondDrive\":" ++ quoted (df1ModeWire c.df1Mode) ++ ascii ",\"driveVersion\":" ++
      decimal c.driveAck.toNat)
  else []

def dotted (a : UInt32) : Bytes :=
  decimal (a >>> 24).toNat ++ ascii "." ++ decimal (a >>> 16 &&& 255).toNat ++ ascii "." ++
    decimal (a >>> 8 &&& 255).toNat ++ ascii "." ++ decimal (a &&& 255).toNat

/-- The driver's age and the Amiga's address only when known. -/
def netTail (c : Client) : Bytes :=
  match c.net with
  | none => []
  | some n =>
    let drv := if n.driverSeen then
      print 32 (ascii "\"driver\":" ++ decimal (min n.driverS.toNat 999999) ++ ascii ",") else []
    let ip := if n.amigaIp ≠ 0 then
      print 40 (ascii "\"amigaIp\":" ++ quoted (dotted n.amigaIp) ++ ascii ",") else []
    print 128 (ascii ",\"net\":\x7b" ++ drv ++ ip ++ ascii "\"framesIn\":" ++
      decimal (min n.framesIn.toNat 999999999) ++ ascii ",\"framesOut\":" ++
      decimal (min n.framesOut.toNat 999999999) ++ ascii "\x7d")

def serverTail (c : Client) : Bytes :=
  match c.server with
  | none => []
  | some (custom, noverify) =>
    print 48 (ascii ",\"server\":\x7b\"custom\":" ++ boolWord custom ++ ascii ",\"tls\":" ++
      quoted (if noverify then ascii "noverify" else ascii "verify") ++ ascii "\x7d")

/-- Straight into the body, `cap` bytes of it left; all of the key or nothing. -/
def i2cScanJson (scan : Option I2cScan) (cap : Nat) : Bytes :=
  match scan with
  | none => []
  | some s =>
    if !s.done then []
    else
      let text := ascii ",\"i2c\":[" ++
        (ascii ",").intercalate (s.addr.1.map fun a => decimal a.toNat) ++ ascii "]"
      if text.length ≥ cap then [] else text

-- ---------------------------------------------------------------------------
-- The body
-- ---------------------------------------------------------------------------

/-- The body, and what of the owed texts went with it. -/
structure Report where
  body : Bytes
  bootSent : Bool
  failSent : Bool
  keySent : Bool

/-- A key goes in whole, with room for the closing brace, or stays owed. -/
def addOwed (body : Bytes) : Option Bytes → Bytes × Bool
  | none => (body, false)
  | some k =>
    if 0 < k.length ∧ body.length + k.length + 1 < bodyBytes then (body ++ k, true) else (body, false)

/-- From the disk's id to the last member every report has. -/
def fixedMembers (c : Client) (psramFree rssi : Int32) (err fwVersion : Option Bytes) : Bytes :=
  ascii ",\"mountedDiskId\":" ++ mountedField c c.mountedDiskId.1 ++ ascii ",\"version\":" ++
    decimal c.mountedVersion.toNat ++ ascii ",\"error\":" ++ textField (errBytes + 2) errBytes err ++
    ascii ",\"psramFree\":" ++ signed psramFree ++ ascii ",\"firmwareVersion\":" ++
    textField (verBytes + 2) verBytes fwVersion ++ ascii ",\"rssi\":" ++ signed rssi ++
    ascii ",\"trackMaxBytes\":" ++ decimal trackMaxBytes

def tails (c : Client) : Bytes :=
  fwTail c ++ nfcTail c ++ displayTail c ++ preloadTail c ++
    (if c.playsHd then ascii ",\"playsHd\":true" else []) ++ sel1Tail c ++ df1Tail c ++ driveTail c ++
    netTail c ++ serverTail c

/-- The part of fixed fields, without its brace. -/
def statusHead (c : Client) (psramFree rssi : Int32) (err fwVersion : Option Bytes) : Bytes :=
  ascii "\x7b\"mountedSha256\":" ++
    (mountedField c c.mountedSha256.1 ++ (fixedMembers c psramFree rssi err fwVersion ++ tails c))

def lastBootKey (c : Client) : Option Bytes :=
  match c.lastBoot with
  | none => none
  | some b =>
    let json := btHwJson b
    if json.head? = some 0x7b then some (ascii ",\"lastBoot\":" ++ json) else none

def nfcFailKey (c : Client) : Option Bytes :=
  c.nfcFail.map fun s => ascii ",\"nfcFail\":" ++ quoted (jsonEscape 50 s.1)

/-- The first 4 digits of a key that has them. -/
def upKeyKey (c : Client) : Option Bytes :=
  match c.upKey with
  | none => none
  | some k => if 4 ≤ k.length then some (ascii ",\"upKey\":" ++ quoted (k.take 4)) else none

/-- The body of `dc_report_status`'s request; `none` where it gives up. -/
def statusBody (c : Client) (psramFree rssi : Int32) (err fwVersion : Option Bytes) : Option Report :=
  let (body, n) := snprintf bodyBytes (statusHead c psramFree rssi err fwVersion)
  if n ≥ bodyBytes then none
  else
    let body := body ++ i2cScanJson c.i2c (bodyBytes - body.length)
    let (body, bootSent) := addOwed body (lastBootKey c)
    let (body, failSent) := addOwed body (nfcFailKey c)
    let (body, keySent) := addOwed body (upKeyKey c)
    if body.length + 1 ≥ bodyBytes then none
    else some ⟨body ++ [0x7d], bootSent, failSent, keySent⟩

end WebAdf.Firmware.Status
