import Mathlib.Data.List.Basic
import Mathlib.Data.Nat.Notation

/-!
# Strings of UTF-16 units

A string of 16-bit units and its UTF-8 bytes. Two units that make a pair are
four bytes; a surrogate on its own is encoded as the replacement character.
-/

namespace WebAdf.Lib

/-- Unit by unit, not over all the units there are. -/
instance decidableUnits (p : UInt16 → Prop) [DecidablePred p] (s : List UInt16) : Decidable (∀ u ∈ s, p u) :=
  List.decidableBAll p s

abbrev Units := List UInt16

/-- An ASCII literal. -/
def units (s : String) : Units := s.toList.map fun c => UInt16.ofNat c.toNat

def isHigh (u : UInt16) : Bool := 0xd800 ≤ u && u < 0xdc00
def isLow (u : UInt16) : Bool := 0xdc00 ≤ u && u < 0xe000
def isSurrogate (u : UInt16) : Bool := isHigh u || isLow u

/-- A unit that is a character of its own. -/
def unitUtf8 (u : UInt16) : List UInt8 :=
  let c := u.toNat
  if c < 0x80 then [UInt8.ofNat c]
  else if c < 0x800 then [UInt8.ofNat (0xc0 + c / 64), UInt8.ofNat (0x80 + c % 64)]
  else [UInt8.ofNat (0xe0 + c / 4096), UInt8.ofNat (0x80 + c / 64 % 64), UInt8.ofNat (0x80 + c % 64)]

def pairUtf8 (u v : UInt16) : List UInt8 :=
  let c := 0x10000 + (u.toNat - 0xd800) * 1024 + (v.toNat - 0xdc00)
  [UInt8.ofNat (0xf0 + c / 262144), UInt8.ofNat (0x80 + c / 4096 % 64),
    UInt8.ofNat (0x80 + c / 64 % 64), UInt8.ofNat (0x80 + c % 64)]

def replacement : List UInt8 := [0xef, 0xbf, 0xbd]

/-- `TextEncoder`. -/
def utf8 : Units → List UInt8
  | [] => []
  | [u] => if isSurrogate u then replacement else unitUtf8 u
  | u :: v :: s =>
    if isHigh u && isLow v then pairUtf8 u v ++ utf8 s
    else (if isSurrogate u then replacement else unitUtf8 u) ++ utf8 (v :: s)

-- ---------------------------------------------------------------------------
-- Parts
-- ---------------------------------------------------------------------------

theorem utf8_unit (h : isSurrogate u = false) (s : Units) : utf8 (u :: s) = unitUtf8 u ++ utf8 s := by
  have hhigh : isHigh u = false := by
    unfold isSurrogate at h
    exact (Bool.or_eq_false_iff.1 h).1
  cases s with
  | nil => simp [utf8, h]
  | cons v s => simp [utf8, h, hhigh]

theorem utf8_pair (hu : isHigh u = true) (hv : isLow v = true) (s : Units) :
    utf8 (u :: v :: s) = pairUtf8 u v ++ utf8 s := by
  simp [utf8, hu, hv]

/-- Units that make no pair with what follows. -/
def Apart (a : Units) : Prop := ∀ s, utf8 (a ++ s) = utf8 a ++ utf8 s

theorem apart_nil : Apart [] := fun _ => rfl

theorem Apart.append (ha : Apart a) (hb : Apart b) : Apart (a ++ b) := by
  intro s
  rw [List.append_assoc, ha, hb, ha, List.append_assoc]

theorem Apart.unit (h : isSurrogate u = false) (ha : Apart a) : Apart (u :: a) := by
  intro s
  rw [List.cons_append, utf8_unit h, utf8_unit h, ha, List.append_assoc]

theorem Apart.pair (hu : isHigh u = true) (hv : isLow v = true) (ha : Apart a) :
    Apart (u :: v :: a) := by
  intro s
  rw [List.cons_append, List.cons_append, utf8_pair hu hv, utf8_pair hu hv, ha, List.append_assoc]

/-- Characters of ASCII. -/
def Ascii (a : Units) : Prop := ∀ u ∈ a, u < 0x80

theorem ascii_unit (h : u < 0x80) : isSurrogate u = false ∧ (unitUtf8 u).length = 1 := by
  have hu : u.toNat < 0x80 := UInt16.lt_iff_toNat_lt.1 h
  constructor
  · have hhigh : isHigh u = false := by
      unfold isHigh
      rw [Bool.and_eq_false_iff, decide_eq_false_iff_not, UInt16.le_iff_toNat_le]
      left
      change ¬ (0xd800 ≤ u.toNat)
      omega
    have hlow : isLow u = false := by
      unfold isLow
      rw [Bool.and_eq_false_iff, decide_eq_false_iff_not, UInt16.le_iff_toNat_le]
      left
      change ¬ (0xdc00 ≤ u.toNat)
      omega
    rw [isSurrogate, hhigh, hlow]
    rfl
  · unfold unitUtf8
    dsimp only
    rw [if_pos hu]
    rfl

theorem Ascii.tail (h : Ascii (u :: a)) : Ascii a := fun v hv => h v (List.mem_cons_of_mem _ hv)

theorem Ascii.apart (h : Ascii a) : Apart a := by
  induction a with
  | nil => exact apart_nil
  | cons u a ih => exact .unit (ascii_unit (h u (List.mem_cons_self ..))).1 (ih h.tail)

theorem Ascii.length_utf8 (h : Ascii a) : (utf8 a).length = a.length := by
  induction a with
  | nil => rfl
  | cons u a ih =>
    obtain ⟨hsurrogate, hlen⟩ := ascii_unit (h u (List.mem_cons_self ..))
    rw [utf8_unit hsurrogate, List.length_append, hlen, ih h.tail, List.length_cons, Nat.add_comm]

theorem Ascii.append (ha : Ascii a) (hb : Ascii b) : Ascii (a ++ b) := by
  intro u hu
  rcases List.mem_append.1 hu with hu | hu
  · exact ha u hu
  · exact hb u hu

end WebAdf.Lib
