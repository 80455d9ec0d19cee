import WebAdf.Constants
import WebAdf.Lib.Ascii

/-!
# Names of files

C strings are bytes without a NUL. A path is parts between slashes, and an
Amiga path begins with a volume and its colon.
-/

namespace WebAdf.Receive

open Lib

def slash : UInt8 := 0x2f
def colon : UInt8 := 0x3a
def dot : UInt8 := 0x2e
def blank : UInt8 := 0x20

def partMax : Nat := 30
def pathMax : Nat := 255

/-- `strrchr`, as an offset. -/
def lastIdx (c : UInt8) (xs : Bytes) : Option Nat :=
  if c ∈ xs then some (xs.length - 1 - (xs.reverse.takeWhile (· ≠ c)).length) else none

def control (c : UInt8) : Bool := c < 0x20 || c == 0x7f

def partOk (p : Bytes) : Bool :=
  1 ≤ p.length && p.length ≤ partMax && p != [dot] && p != [dot, dot] &&
    p.all fun c => !control c && c != colon

def pathOk (path : Bytes) : Bool :=
  1 ≤ path.length && path.length ≤ pathMax && (path.splitOn slash).all partOk

def absPathOk (path : Bytes) : Bool :=
  match path.idxOf? colon with
  | none => false
  | some i =>
    i != 0 && i ≤ partMax && path.length ≤ pathMax &&
      (path.take i).all (fun c => !control c && c != slash) && pathOk (path.drop (i + 1))

/-- Where the last part of a path begins: behind its last slash or colon. -/
def dirLen (path : Bytes) : Nat :=
  path.length - (path.reverse.takeWhile fun c => c != slash && c != colon).length

def candidate (path : Bytes) (n : Nat) : Option Bytes :=
  if n ≤ 1 then if path.length > pathMax then none else some path
  else
    let name := path.drop (dirLen path)
    let d := match lastIdx dot name with
      | none | some 0 => name.length
      | some d => d
    let ext := name.drop d
    let suf := ascii "_" ++ decimal n
    if d + suf.length + ext.length > partMax ∧ suf.length + ext.length ≥ partMax then none
    else
      let stem := min d (partMax - suf.length - ext.length)
      if dirLen path + stem + suf.length + ext.length > pathMax then none
      else some (path.take (dirLen path) ++ name.take stem ++ suf ++ ext)

def baseName (path : Bytes) : Bytes :=
  let bare := (path.reverse.dropWhile (· == slash)).reverse
  let start := dirLen bare
  let name :=
    if start = bare.length then path.takeWhile fun c => c != colon && c != slash
    else bare.drop start
  name.take partMax

def nameSendable (name : Bytes) : Bool :=
  name.length != 0 && name.length ≤ partMax && name != [dot] && name != [dot, dot] &&
    name.all (fun c => !control c && !(0x80 ≤ c && c < 0xa0) && c != colon && c != slash) &&
      name.any fun c => c != blank && c != 0xa0

def alnum (c : UInt8) : Bool :=
  (0x61 ≤ c && c ≤ 0x7a) || (0x41 ≤ c && c ≤ 0x5a) || isDigit c

def deviceSendable (dev : Bytes) : Bool :=
  2 ≤ dev.length && dev.length ≤ partMax + 1 && dev.getLast? == some colon &&
    dev.dropLast.all fun c => alnum c || c == 0x5f || c == dot || c == 0x2d

end WebAdf.Receive

/-!
# Fields of a line

A field ends at a blank; a string comes with its length before it. Each parser
gives what it read and what is left of the line.
-/

namespace WebAdf.Receive

open Lib

def idMax : Nat := 40
def keyHex : Nat := 32

/-- `none` where there is no field, or an empty one. -/
def tok (c : Bytes) : Option Bytes × Bytes :=
  let t := c.takeWhile (· != blank)
  (if t = [] then none else some t, (c.drop t.length).drop 1)

def digitOf (base : Nat) (ch : UInt8) : Option Nat :=
  if isDigit ch then some (ch.toNat - 0x30)
  else if base = 16 ∧ 0x61 ≤ ch ∧ ch ≤ 0x66 then some (ch.toNat - 0x61 + 10)
  else if base = 16 ∧ 0x41 ≤ ch ∧ ch ≤ 0x46 then some (ch.toNat - 0x41 + 10)
  else none

/-- A number of 32 bits. -/
def num (t : Bytes) (base : Nat) : Option Nat :=
  if t.length = 0 ∨ t.length > (if base = 16 then 8 else 10) then none
  else t.foldlM (fun x ch =>
    match digitOf base ch with
    | none => none
    | some d => if x > (2 ^ 32 - 1 - d) / base then none else some (x * base + d)) 0

/-- `"<len>:<bytes>"` into `cap` bytes, its NUL included: cut, or else refused when
longer. -/
def lenBytes (c : Bytes) (cap : Nat) (cut : Bool) : Option (Bytes × Bytes) :=
  let digits := c.takeWhile isDigit
  match c.drop digits.length, num digits 10 with
  | 0x3a :: q, some len =>
    if q.length < len then none
    else if 0 ∈ q.take len then none
    else if len > cap - 1 ∧ !cut then none
    else some (q.take (min len (cap - 1)), q.drop len)
  | _, _ => none

/-- The same, with a blank or the line's end behind it. -/
def lenstr (c : Bytes) (cap : Nat) (cut : Bool) : Option (Bytes × Bytes) :=
  match lenBytes c cap cut with
  | some (dst, []) => some (dst, [])
  | some (dst, 0x20 :: rest) => some (dst, rest)
  | _ => none

def idOk (t : Bytes) : Bool :=
  1 ≤ t.length && t.length ≤ idMax && t.all fun c => alnum c || c == 0x2d || c == 0x5f

def lower (c : UInt8) : UInt8 := if 0x41 ≤ c ∧ c ≤ 0x46 then c + 0x20 else c

def hexKey (t : Bytes) : Option Bytes :=
  let key := t.map lower
  if t.length = keyHex ∧ key.all (fun c => isDigit c || (0x61 ≤ c && c ≤ 0x66)) then some key
  else none

/-- An Amiga path to read: a volume, and no control byte. -/
def localPathOk (p : Bytes) : Bool :=
  p != [] && p.head? != some colon && p.contains colon && p.all fun c => !control c

def noControl (p : Bytes) : Bool := p.all fun c => !control c

/-- Without control bytes, cut to `cap` with its NUL. -/
def clean (s : Bytes) (cap : Nat) : Bytes :=
  (s.take (cap - 1)).map fun c => if c < 0x20 then blank else c

/-- `v & 15` first, as many digits as `v` has, eight at most. -/
def hex (v : Nat) : Bytes := (Nat.toDigits 16 v).map fun c => UInt8.ofNat c.toNat

/-- The pieces `put_lenstr` puts. -/
def lenPieces (s : Bytes) : List Bytes := [decimal s.length, [colon], s]

end WebAdf.Receive

/-!
# CRC-32
-/

namespace WebAdf.Receive

/-- One bit of the polynomial division. -/
def crcBit (c : UInt32) : UInt32 :=
  if c &&& 1 = 1 then (0xEDB88320 : UInt32) ^^^ (c >>> 1) else c >>> 1

def crcTable (n : UInt32) : UInt32 := Nat.repeat crcBit 8 n

def crcByte (crc : UInt32) (b : UInt8) : UInt32 :=
  crcTable ((crc ^^^ b.toUInt32) &&& 0xFF) ^^^ (crc >>> 8)

def crc32Update (crc : UInt32) (p : Bytes) : UInt32 :=
  p.foldl crcByte (crc ^^^ 0xFFFFFFFF) ^^^ 0xFFFFFFFF

theorem crc32Update_append (crc : UInt32) (p q : Bytes) :
    crc32Update crc (p ++ q) = crc32Update (crc32Update crc p) q := by
  rw [crc32Update, List.foldl_append, crc32Update, crc32Update, UInt32.xor_assoc, UInt32.xor_self,
    UInt32.xor_zero]

theorem crc32Update_nil (crc : UInt32) : crc32Update crc [] = crc := by
  rw [crc32Update, List.foldl_nil, UInt32.xor_assoc, UInt32.xor_self, UInt32.xor_zero]

example : crc32Update 0 [0x31, 0x32, 0x33, 0x34, 0x35, 0x36, 0x37, 0x38, 0x39] = 0xCBF43926 := by
  decide +kernel

end WebAdf.Receive

/-!
# Fields read back

A field put in a line is read back from it: a word up to its blank, a number of
32 bits, a string by the length before it.
-/

namespace WebAdf.Receive

open Lib

-- ---------------------------------------------------------------------------
-- Words
-- ---------------------------------------------------------------------------

/-- A field without a blank of its own. -/
def Word (w : Bytes) : Prop := w ≠ [] ∧ blank ∉ w

theorem takeWhile_word (h : blank ∉ w) (c : Bytes) :
    (w ++ blank :: c).takeWhile (· != blank) = w := by
  rw [List.takeWhile_append_of_pos]
  · simp
  · intro x hx
    rw [bne_iff_ne]
    rintro rfl
    exact h hx

theorem takeWhile_all {w : Bytes} (h : blank ∉ w) : w.takeWhile (· != blank) = w := by
  have hall : ∀ x ∈ w, (x != blank) = true := by
    intro x hx
    rw [bne_iff_ne]
    rintro rfl
    exact h hx
  have h : (w ++ []).takeWhile (· != blank) = w ++ ([] : Bytes).takeWhile (· != blank) :=
    List.takeWhile_append_of_pos hall
  rwa [List.takeWhile_nil, List.append_nil] at h

theorem tok_word (h : Word w) (c : Bytes) : tok (w ++ blank :: c) = (some w, c) := by
  unfold tok
  dsimp only
  rw [takeWhile_word h.2, if_neg h.1, List.drop_left]
  rfl

theorem tok_end (h : Word w) : tok w = (some w, []) := by
  unfold tok
  dsimp only
  rw [takeWhile_all h.2, if_neg h.1, List.drop_length]
  rfl

-- ---------------------------------------------------------------------------
-- Numbers
-- ---------------------------------------------------------------------------

theorem digitByte_not_blank : ∀ d < 16, digitByte d ≠ blank := by decide

theorem word_numeral (hb : 1 < b) (h16 : b ≤ 16) (n : Nat) : Word (numeral b n) :=
  ⟨numeral_ne_nil hb n, fun h =>
    forall_numeral (p := (· ≠ blank)) hb (fun d hd => digitByte_not_blank d (by omega)) n _ h rfl⟩

theorem digitOf_ten : ∀ d < 10, digitOf 10 (digitByte d) = some d := by decide

theorem digitOf_sixteen : ∀ d < 16, digitOf 16 (digitByte d) = some d := by decide

/-- Up to 32 bits a digit never overflows. -/
theorem num_step (hdigit : digitOf b c = some d) (hb : 0 < b) (h : x * b + d ≤ 2 ^ 32 - 1) :
    (match digitOf b c with
      | none => none
      | some d => if x > (2 ^ 32 - 1 - d) / b then none else some (x * b + d)) =
      some (x * b + d) := by
  have hx : x ≤ (2 ^ 32 - 1 - d) / b := (Nat.le_div_iff_mul_le hb).2 (by omega)
  rw [hdigit]
  exact if_neg (by omega)

theorem num_decimal (h : n < 2 ^ 32) : num (decimal n) 10 = some n := by
  have hlen : (decimal n).length ≤ 10 := length_decimal_le (by decide) (by omega)
  have hne : decimal n ≠ [] := numeral_ne_nil (by decide) n
  have hpos : 0 < (decimal n).length := List.length_pos_iff.2 hne
  unfold num
  rw [if_neg (by simp only [Nat.reduceEqDiff, if_false]; omega)]
  exact foldlM_numeral (by decide) (fun x d hd => num_step (digitOf_ten d hd) (by decide)) (by omega)

theorem num_hex (h : n < 2 ^ 32) : num (numeral 16 n) 16 = some n := by
  have hlen : (numeral 16 n).length ≤ 8 := length_numeral_le (by decide) (by decide) (by omega)
  have hpos : 0 < (numeral 16 n).length := List.length_pos_iff.2 (numeral_ne_nil (by decide) n)
  unfold num
  rw [if_neg (by simp only [if_true]; omega)]
  exact foldlM_numeral (by decide) (fun x d hd => num_step (digitOf_sixteen d hd) (by decide))
    (by omega)

-- ---------------------------------------------------------------------------
-- Strings
-- ---------------------------------------------------------------------------

/-- `"<len>:<bytes>"`. -/
def counted (s : Bytes) : Bytes := decimal s.length ++ colon :: s

theorem takeWhile_digits (hds : ∀ c ∈ ds, isDigit c = true) (s : Bytes) :
    (ds ++ colon :: s).takeWhile isDigit = ds := by
  rw [List.takeWhile_append_of_pos hds]
  have hcolon : isDigit colon = false := by decide
  simp [hcolon]

theorem lenBytes_counted (hcap : s.length ≤ cap - 1) (hmax : s.length < 2 ^ 32) (h0 : 0 ∉ s)
    (rest : Bytes) : lenBytes (counted s ++ rest) cap cut = some (s, rest) := by
  have hdigits := takeWhile_digits (decimal_digits s.length) (s ++ rest)
  have hline : counted s ++ rest = decimal s.length ++ colon :: (s ++ rest) := by
    rw [counted, List.append_assoc, List.cons_append]
  unfold lenBytes
  dsimp only
  rw [hline, hdigits, List.drop_left, num_decimal hmax]
  change (if (s ++ rest).length < s.length then none
    else if 0 ∈ (s ++ rest).take s.length then none
    else if s.length > cap - 1 ∧ !cut then none
    else some ((s ++ rest).take (min s.length (cap - 1)), (s ++ rest).drop s.length)) = _
  rw [if_neg (by rw [List.length_append]; omega), List.take_left, if_neg h0,
    if_neg (fun h => absurd h.1 (by omega)), Nat.min_eq_left hcap, List.take_left, List.drop_left]

theorem lenstr_counted (hcap : s.length ≤ cap - 1) (hmax : s.length < 2 ^ 32) (h0 : 0 ∉ s)
    (rest : Bytes) : lenstr (counted s ++ blank :: rest) cap cut = some (s, rest) := by
  rw [lenstr, lenBytes_counted hcap hmax h0]
  rfl

theorem lenstr_counted_end (hcap : s.length ≤ cap - 1) (hmax : s.length < 2 ^ 32) (h0 : 0 ∉ s) :
    lenstr (counted s) cap cut = some (s, []) := by
  have h : lenBytes (counted s ++ []) cap cut = some (s, []) := lenBytes_counted hcap hmax h0 []
  rw [List.append_nil] at h
  rw [lenstr, h]

end WebAdf.Receive
