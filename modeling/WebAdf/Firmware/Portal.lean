import WebAdf.Firmware.FwState

/-!
# The setup portal

The form a board's own network takes a network's name, its password and a pairing code
by, and the flash page it keeps them in. The page's texts are left to `Reply`. A config's
field is a char array of fixed length, its value the bytes before the first NUL.
-/

namespace WebAdf.Firmware.Portal

open Lib
open FwState (crc32Bytes)

def configSsidMax : Nat := 32
def configPassMax : Nat := 63
def configCodeMax : Nat := 16

structure DeviceConfig where
  ssid : Bytes
  pass : Bytes
  code : Bytes
  deriving DecidableEq

def DeviceConfig.zeroed : DeviceConfig where
  ssid := List.replicate (configSsidMax + 1) 0
  pass := List.replicate (configPassMax + 1) 0
  code := List.replicate (configCodeMax + 1) 0

/-- The bytes before the NUL. -/
def cstr (b : Bytes) : Bytes := b.takeWhile (· ≠ 0)

inductive Field where
  | ssid
  | pass
  | code
  deriving DecidableEq

def Field.max : Field → Nat
  | .ssid => configSsidMax
  | .pass => configPassMax
  | .code => configCodeMax

def DeviceConfig.get (cfg : DeviceConfig) : Field → Bytes
  | .ssid => cfg.ssid
  | .pass => cfg.pass
  | .code => cfg.code

def DeviceConfig.set (cfg : DeviceConfig) (b : Bytes) : Field → DeviceConfig
  | .ssid => { cfg with ssid := b }
  | .pass => { cfg with pass := b }
  | .code => { cfg with code := b }

-- ---------------------------------------------------------------------------
-- The form
-- ---------------------------------------------------------------------------

def hexVal (c : UInt8) : Option UInt8 :=
  if 0x30 ≤ c ∧ c ≤ 0x39 then some (c - 0x30)
  else if 0x61 ≤ c ∧ c ≤ 0x66 then some (c - 0x61 + 10)
  else if 0x41 ≤ c ∧ c ≤ 0x46 then some (c - 0x41 + 10)
  else none

def plus : UInt8 := 0x2b
def percent : UInt8 := 0x25
def amp : UInt8 := 0x26
def equals : UInt8 := 0x3d

/-- The value's bytes, behind `o` already written to an array of `outcap`. -/
def urldecode (outcap : Nat) : Bytes → Nat → Option Bytes
  | [], _ => some []
  | 0x25 :: h :: l :: rest, o => do
    let hi ← hexVal h
    let lo ← hexVal l
    if outcap - 1 ≤ o then none
    else (urldecode outcap rest (o + 1)).map fun value => (hi <<< 4 ||| lo) :: value
  | c :: rest, o =>
    if c = percent then none
    else if outcap - 1 ≤ o then none
    else (urldecode outcap rest (o + 1)).map fun value => (if c = plus then 0x20 else c) :: value

/-- A decoded value written to its array, what was there staying behind the NUL. -/
def store (buf value : Bytes) : Bytes := blit buf 0 (value ++ [0])

structure Form where
  cfg : DeviceConfig
  haveSsid : Bool
  havePass : Bool
  haveCode : Bool

def Form.have_ (f : Form) : Field → Bool
  | .ssid => f.haveSsid
  | .pass => f.havePass
  | .code => f.haveCode

def Form.fill (f : Form) (fd : Field) (value : Bytes) : Form :=
  let cfg := f.cfg.set (store (f.cfg.get fd) value) fd
  match fd with
  | .ssid => { f with cfg := cfg, haveSsid := true }
  | .pass => { f with cfg := cfg, havePass := true }
  | .code => { f with cfg := cfg, haveCode := true }

/-- A pair's key and value, around its first `=`. -/
def splitKey (pair : Bytes) : Option (Bytes × Bytes) :=
  if equals ∈ pair then
    some (pair.takeWhile (· ≠ equals), (pair.dropWhile (· ≠ equals)).drop 1)
  else none

def fieldOf (key : Bytes) : Option Field :=
  if key = ascii "ssid" then some .ssid
  else if key = ascii "pass" then some .pass
  else if key = ascii "code" then some .code
  else none

def parsePair (f : Form) (pair : Bytes) : Option Form :=
  match splitKey pair with
  | none => some f
  | some (key, val) =>
    match fieldOf key with
    | none => some f
    | some fd => (urldecode (fd.max + 1) val 0).map (f.fill fd)

def parseForm (body : Option Bytes) : Option DeviceConfig := do
  let body ← body
  let f ← ((cstr body).splitOn amp).foldlM parsePair ⟨.zeroed, false, false, false⟩
  if f.haveSsid && f.havePass && f.haveCode then some f.cfg else none

inductive Action where
  | none
  | submit
  deriving DecidableEq

structure Result where
  action : Action
  submitted : DeviceConfig

/-- Which page answers, with what goes into it. -/
inductive Reply where
  | redirect
  | form (mac err : Option Bytes)
  | accepted (mac : Option Bytes) (ssid : Bytes)

def portalRequest (method path body mac err : Option Bytes) : Reply × Result :=
  let nothing : Result := ⟨.none, .zeroed⟩
  match method, path with
  | some method, some path =>
    if path = ascii "/save" ∧ method = ascii "POST" then
      match parseForm body with
      | some cfg => (.accepted mac (cstr cfg.ssid), ⟨.submit, cfg⟩)
      | none => (.form mac (err.or (some (ascii "Please fill in every field correctly."))), nothing)
    else if path = ascii "/" then (.form mac err, nothing)
    else (.redirect, nothing)
  | _, _ => (.redirect, nothing)

-- ---------------------------------------------------------------------------
-- The page
-- ---------------------------------------------------------------------------

def configMagic : Nat := 0x57464347
def configVersion : UInt8 := 1
def configHeaderLen : Nat := 8

/-- The page of a host build. -/
def configHostCap : Nat := configHeaderLen + configSsidMax + configPassMax + configCodeMax + 4

/-- The `n` bytes as an array of `cap`, zeros behind them. -/
def array (b : Bytes) (cap : Nat) : Bytes := b ++ List.replicate (cap - b.length) 0

def pageLoad (page : Bytes) : Option DeviceConfig :=
  if page.length < configHeaderLen + 4 || le32 page ≠ configMagic then none
  else if page.getD 4 0 ≠ configVersion then none
  else
    let ssidLen := (page.getD 5 0).toNat
    let passLen := (page.getD 6 0).toNat
    let codeLen := (page.getD 7 0).toNat
    if configSsidMax < ssidLen || configPassMax < passLen || configCodeMax < codeLen then none
    else
      let crcOff := configHeaderLen + ssidLen + passLen + codeLen
      if page.length < crcOff + 4 then none
      else if (crc32Bytes (slice page 4 (1 + 3 + ssidLen + passLen + codeLen))).toNat ≠
          le32 (page.drop crcOff) then none
      else some {
        ssid := array (slice page configHeaderLen ssidLen) (configSsidMax + 1)
        pass := array (slice page (configHeaderLen + ssidLen) passLen) (configPassMax + 1)
        code := array (slice page (configHeaderLen + ssidLen + passLen) codeLen) (configCodeMax + 1) }

/-- What the check is over: from the version to the last byte of the values. -/
def payload (ssid pass code : Bytes) : Bytes :=
  configVersion :: UInt8.ofNat ssid.length :: UInt8.ofNat pass.length :: UInt8.ofNat code.length ::
    (ssid ++ (pass ++ code))

def pageBuild (pageLen : Nat) (cfg : DeviceConfig) : Option Bytes :=
  let ssid := cstr cfg.ssid
  let pass := cstr cfg.pass
  let code := cstr cfg.code
  -- no NUL in the array
  if cfg.ssid.length ≤ ssid.length || cfg.pass.length ≤ pass.length || cfg.code.length ≤ code.length then none
  else
    let crcOff := configHeaderLen + ssid.length + pass.length + code.length
    if pageLen < crcOff + 4 then none
    else
      let record := putLe32 configMagic ++ (payload ssid pass code ++
        putLe32 (crc32Bytes (payload ssid pass code)).toNat)
      some (record ++ List.replicate (pageLen - record.length) 0xff)

/-- The board as its config store sees it. -/
structure Store where
  page : Bytes
  token : Option Bytes
  mounted : Bool

def configStoreLoad (st : Store) : Option DeviceConfig := pageLoad st.page

/-- `flashed` says whether the flash took the page. -/
def configStoreSave (st : Store) (cfg : DeviceConfig) (flashed : Bool) : Bool × Store :=
  if st.mounted then (false, st)
  else match pageBuild st.page.length cfg with
    | none => (false, st)
    | some page => if flashed then (true, { st with page := page, token := none }) else (false, st)

end WebAdf.Firmware.Portal
