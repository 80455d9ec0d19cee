import Mathlib.Data.List.DropRight
import WebAdf.Lib.Prefixes
import WebAdf.Lib.Utf16

/-!
# Which addresses are public

The two address parsers, the ranges the server must not reach and
`isPublicAddress` over them. The bit operations are those of a 32-bit word.
-/

namespace WebAdf.Fetch

open Lib

abbrev Bytes := List UInt8

def dot : UInt16 := 0x2e
def colon : UInt16 := 0x3a
def percent : UInt16 := 0x25
def openBracket : UInt16 := 0x5b
def closeBracket : UInt16 := 0x5d

-- ---------------------------------------------------------------------------
-- IPv4
-- ---------------------------------------------------------------------------

def v4 (a b c d : UInt32) : UInt32 := a <<< 24 ||| b <<< 16 ||| c <<< 8 ||| d

/-- Network and prefix length. -/
abbrev Cidr4 := UInt32 × Nat

def blockedV4 : List Cidr4 :=
  [ (v4 0 0 0 0, 8), (v4 10 0 0 0, 8), (v4 100 64 0 0, 10), (v4 127 0 0 0, 8), (v4 169 254 0 0, 16),
    (v4 172 16 0 0, 12), (v4 192 0 0 0, 24), (v4 192 0 2 0, 24), (v4 192 88 99 0, 24), (v4 192 168 0 0, 16),
    (v4 198 18 0 0, 15), (v4 198 51 100 0, 24), (v4 203 0 113 0, 24), (v4 224 0 0 0, 4), (v4 240 0 0 0, 4) ]

def isDigitUnit (u : UInt16) : Bool := 0x30 ≤ u && u ≤ 0x39

/-- `Number` of a run of digits. -/
def digitsNat (s : Units) : Nat := s.foldl (fun n u => 10 * n + (u.toNat - 0x30)) 0

/-- One to three digits. -/
def isOctetRun (s : Units) : Bool := 1 ≤ s.length && s.length ≤ 3 && s.all isDigitUnit

/-- A dotted quad whose four runs of one to three digits are at most 255. -/
def parseV4 (s : Units) : Option UInt32 :=
  match s.splitOn dot with
  | [a, b, c, d] =>
    if [a, b, c, d].all isOctetRun then
      let o := [a, b, c, d].map digitsNat
      if o.any (· > 255) then none
      else some (v4 (UInt32.ofNat (digitsNat a)) (UInt32.ofNat (digitsNat b)) (UInt32.ofNat (digitsNat c))
        (UInt32.ofNat (digitsNat d)))
    else none
  | _ => none

def v4Mask (len : Nat) : UInt32 := if len = 0 then 0 else 0xffffffff <<< UInt32.ofNat (32 - len)

def v4Public (n : UInt32) : Bool := !blockedV4.any fun range => n &&& v4Mask range.2 == range.1

-- ---------------------------------------------------------------------------
-- IPv6
-- ---------------------------------------------------------------------------

def hexValue (u : UInt16) : Option Nat :=
  if 0x30 ≤ u && u ≤ 0x39 then some (u.toNat - 0x30)
  else if 0x41 ≤ u && u ≤ 0x46 then some (u.toNat - 0x37)
  else if 0x61 ≤ u && u ≤ 0x66 then some (u.toNat - 0x57)
  else none

/-- One to four hex digits of either case. -/
def isHexRun (s : Units) : Bool := 1 ≤ s.length && s.length ≤ 4 && s.all fun u => (hexValue u).isSome

/-- `parseInt` to the base 16 of a run of hex digits. -/
def hexNat (s : Units) : Nat := s.foldl (fun n u => 16 * n + (hexValue u).getD 0) 0

/-- `split('::')`: from the left, pairs that do not overlap. -/
def splitGap : Units → List Units
  | [] => [[]]
  | [u] => [[u]]
  | u :: v :: s =>
    if u = colon ∧ v = colon then [] :: splitGap s
    else (splitGap (v :: s)).modifyHead (u :: ·)

/-- What follows the last colon: the whole text where there is none. -/
def afterColon (s : Units) : Units := s.rtakeWhile (· != colon)

/-- What stands up to the last colon, with it. -/
def uptoColon (s : Units) : Units := s.rdropWhile (· != colon)

def groups (p : Units) : List Units := if p = [] then [] else p.splitOn colon

/-- The groups of a text, `::` filled up with zeros, where they are eight. -/
def allGroups (head : Units) : Option (List Units) :=
  match splitGap head with
  | [whole] => if (groups whole).length = 8 then some (groups whole) else none
  | [before, after] =>
    let left := groups before
    let right := groups after
    -- `fill < 1`, where `fill` is what the two leave of eight
    if left.length + right.length < 8 then
      some (left ++ List.replicate (8 - left.length - right.length) [0x30] ++ right)
    else none
  | _ => none

def groupBytes (g : Nat) : Bytes := [UInt8.ofNat (g >>> 8), UInt8.ofNat (g &&& 0xff)]

def quadBytes (n : UInt32) : Bytes :=
  [(n >>> 24).toUInt8, (n >>> 16 &&& 0xff).toUInt8, (n >>> 8 &&& 0xff).toUInt8, (n &&& 0xff).toUInt8]

/-- The sixteen bytes of a text without a dotted tail. -/
def groupsV6 (head : Units) : Option Bytes := do
  let all ← allGroups head
  if all.all isHexRun then some (all.flatMap fun g => groupBytes (hexNat g)) else none

def placeholder : Units := units "0:0"

/-- A zone id is refused; a dotted tail is written over two placeholder groups. -/
def parseV6 (s : Units) : Option Bytes :=
  if percent ∈ s then none
  else if dot ∈ afterColon s then do
    let tail4 ← parseV4 (afterColon s)
    let out ← groupsV6 (uptoColon s ++ placeholder)
    some (out.take 12 ++ quadBytes tail4)
  else groupsV6 s

def prefixMatch (b pre : Bytes) (bits : Nat) : Bool :=
  (List.range bits).all fun i =>
    let mask : UInt8 := 0x80 >>> UInt8.ofNat (i % 8)
    b.getD (i / 8) 0 &&& mask == pre.getD (i / 8) 0 &&& mask

def embeddedV4 (b : Bytes) : UInt32 :=
  v4 (b.getD 12 0).toUInt32 (b.getD 13 0).toUInt32 (b.getD 14 0).toUInt32 (b.getD 15 0).toUInt32

def mappedPrefix : Bytes := [0, 0, 0, 0, 0, 0, 0, 0, 0, 0, 0xff, 0xff]
def nat64Prefix : Bytes := [0, 0x64, 0xff, 0x9b, 0, 0, 0, 0, 0, 0, 0, 0]

/-- IETF protocol assignments, documentation, 6to4 and documentation. -/
def blockedV6 : List (Bytes × Nat) :=
  [([0x20, 0x01, 0x00, 0x00], 23), ([0x20, 0x01, 0x0d, 0xb8], 32), ([0x20, 0x02], 16), ([0x3f, 0xff], 20)]

def v6Public (b : Bytes) : Bool :=
  if prefixMatch b mappedPrefix 96 then v4Public (embeddedV4 b)
  else if prefixMatch b nat64Prefix 96 then v4Public (embeddedV4 b)
  else if !prefixMatch b [0x20] 3 then false
  else !blockedV6.any fun block => prefixMatch b block.1 block.2

-- ---------------------------------------------------------------------------
-- isIP
-- ---------------------------------------------------------------------------

/-- A byte in decimal, without a leading zero. -/
def octetText (n : Nat) : Units := (Nat.toDigits 10 n).map fun c => UInt16.ofNat c.toNat

def octetTexts : List Units := (List.range 256).map octetText

def isIPv4 (s : Units) : Bool := (s.splitOn dot).length == 4 && (s.splitOn dot).all (octetTexts.contains ·)

/-- How many groups the parts between colons stand for; `tail` lets the last be a dotted quad. -/
def countGroups (tail : Bool) : List Units → Option Nat
  | [] => some 0
  | [p] => if isHexRun p then some 1 else if tail && isIPv4 p then some 2 else none
  | p :: ps => if isHexRun p then (countGroups tail ps).map (· + 1) else none

def isIPv6 (s : Units) : Bool :=
  match splitGap s with
  | [whole] => countGroups true (groups whole) == some 8
  | [before, after] =>
    match countGroups false (groups before), countGroups true (groups after) with
    | some left, some right => left + right < 8
    | _, _ => false
  | _ => false

/-- A letter or digit of ASCII, `-`, `.` or `:`. -/
def isZoneUnit (u : UInt16) : Bool :=
  isDigitUnit u || (0x41 ≤ u && u ≤ 0x5a) || (0x61 ≤ u && u ≤ 0x7a) || u == 0x2d || u == dot || u == colon

def isZone : Units → Bool
  | [] => true
  | u :: zone => u == percent && zone != [] && zone.all isZoneUnit

/-- Node's: 4, 6 or 0. A zone id may follow an IPv6 address. -/
def isIP (s : Units) : Nat :=
  if isIPv4 s then 4
  else if isIPv6 (s.takeWhile (· != percent)) && isZone (s.dropWhile (· != percent)) then 6
  else 0

-- ---------------------------------------------------------------------------
-- isPublicAddress
-- ---------------------------------------------------------------------------

/-- Without the brackets around it. -/
def bare (s : Units) : Units :=
  if s.head? = some openBracket ∧ s.getLast? = some closeBracket then (s.drop 1).dropLast else s

def isPublicAddress (ip : Units) : Bool :=
  match isIP (bare ip) with
  | 4 => (parseV4 (bare ip)).elim false v4Public
  | 6 => (parseV6 (bare ip)).elim false v6Public
  | _ => false

end WebAdf.Fetch
