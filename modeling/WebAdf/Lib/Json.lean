import Mathlib.Data.Nat.Digits.Defs
import WebAdf.Lib.Utf16

/-!
# JSON text and its size

`JSON.stringify` of a value, and how many bytes of UTF-8 its text is: a control
character is six, a pair of surrogates four, one on its own six.
-/

namespace WebAdf.Lib

mutual
inductive Json
  | null
  | bool (b : Bool)
  | num (n : Int)
  | str (s : Units)
  | obj (fields : Fields)
inductive Fields
  | nil
  | cons (key : Units) (value : Json) (rest : Fields)
end

-- ---------------------------------------------------------------------------
-- Strings
-- ---------------------------------------------------------------------------

def hexDigit (n : Nat) : UInt16 := UInt16.ofNat (if n < 10 then 48 + n else 87 + n)

/-- A unit by its number. -/
def escaped (u : UInt16) : Units :=
  [0x5c, 0x75, hexDigit (u.toNat / 4096), hexDigit (u.toNat / 256 % 16),
    hexDigit (u.toNat / 16 % 16), hexDigit (u.toNat % 16)]

def quoteUnit (u : UInt16) : Units :=
  if u = 0x08 then [0x5c, 0x62]
  else if u = 0x09 then [0x5c, 0x74]
  else if u = 0x0a then [0x5c, 0x6e]
  else if u = 0x0c then [0x5c, 0x66]
  else if u = 0x0d then [0x5c, 0x72]
  else if u = 0x22 ∨ u = 0x5c then [0x5c, u]
  else if u < 0x20 ∨ isSurrogate u = true then escaped u
  else [u]

def quoteUnits : Units → Units
  | [] => []
  | [u] => quoteUnit u
  | u :: v :: s =>
    if isHigh u && isLow v then u :: v :: quoteUnits s
    else quoteUnit u ++ quoteUnits (v :: s)

def quote (s : Units) : Units := 0x22 :: (quoteUnits s ++ [0x22])

-- ---------------------------------------------------------------------------
-- Values
-- ---------------------------------------------------------------------------

def decimalUnits (n : Int) : Units :=
  match n with
  | .ofNat n => (Nat.toDigits 10 n).map fun c => UInt16.ofNat c.toNat
  | .negSucc n => 0x2d :: (Nat.toDigits 10 (n + 1)).map fun c => UInt16.ofNat c.toNat

mutual
def Json.stringify : Json → Units
  | .null => units "null"
  | .bool true => units "true"
  | .bool false => units "false"
  | .num n => decimalUnits n
  | .str s => quote s
  | .obj fields => 0x7b :: (fields.members ++ [0x7d])
/-- The first member has no comma before it. -/
def Fields.members : Fields → Units
  | .nil => []
  | .cons key value rest => quote key ++ (0x3a :: (value.stringify ++ rest.further))
def Fields.further : Fields → Units
  | .nil => []
  | .cons key value rest => 0x2c :: (quote key ++ (0x3a :: (value.stringify ++ rest.further)))
end

-- ---------------------------------------------------------------------------
-- Sizes
-- ---------------------------------------------------------------------------

def unitBytes (u : UInt16) : Nat :=
  if u = 0x08 ∨ u = 0x09 ∨ u = 0x0a ∨ u = 0x0c ∨ u = 0x0d ∨ u = 0x22 ∨ u = 0x5c then 2
  else if u < 0x20 ∨ isSurrogate u = true then 6
  else if u < 0x80 then 1
  else if u < 0x800 then 2
  else 3

/-- The bytes of a string's text, without its quotes. -/
def textBytes : Units → Nat
  | [] => 0
  | [u] => unitBytes u
  | u :: v :: s =>
    if isHigh u && isLow v then 4 + textBytes s
    else unitBytes u + textBytes (v :: s)

mutual
def Json.size : Json → Nat
  | .null => 4
  | .bool true => 4
  | .bool false => 5
  | .num n => (decimalUnits n).length
  | .str s => textBytes s + 2
  | .obj fields => fields.size + 2
def Fields.size : Fields → Nat
  | .nil => 0
  | .cons key value rest => textBytes key + 3 + value.size + rest.furtherSize
def Fields.furtherSize : Fields → Nat
  | .nil => 0
  | .cons key value rest => textBytes key + 4 + value.size + rest.furtherSize
end

@[simp] theorem Json.size_null : Json.null.size = 4 := rfl

@[simp] theorem Json.size_num (n : Int) : (Json.num n).size = (decimalUnits n).length := rfl

@[simp] theorem Json.size_str (s : Units) : (Json.str s).size = textBytes s + 2 := rfl

@[simp] theorem Json.size_bool (b : Bool) : (Json.bool b).size = if b then 4 else 5 := by
  cases b <;> rfl

theorem hexDigit_ascii : ∀ n < 16, hexDigit n < 0x80 := by decide

theorem ascii_escaped (u : UInt16) : Ascii (escaped u) := by
  have hu := u.toNat_lt
  have hlast := hexDigit_ascii (u.toNat % 16) (by omega)
  have hthird := hexDigit_ascii (u.toNat / 16 % 16) (by omega)
  have hsecond := hexDigit_ascii (u.toNat / 256 % 16) (by omega)
  have hfirst := hexDigit_ascii (u.toNat / 4096) (by omega)
  intro v hv
  simp only [escaped, List.mem_cons, List.not_mem_nil, or_false] at hv
  rcases hv with rfl | rfl | rfl | rfl | rfl | rfl
  · decide
  · decide
  · exact hfirst
  · exact hsecond
  · exact hthird
  · exact hlast

theorem length_unitUtf8 (u : UInt16) :
    (unitUtf8 u).length = if u < 0x80 then 1 else if u < 0x800 then 2 else 3 := by
  have hone : u < 0x80 ↔ u.toNat < 0x80 := UInt16.lt_iff_toNat_lt
  have htwo : u < 0x800 ↔ u.toNat < 0x800 := UInt16.lt_iff_toNat_lt
  unfold unitUtf8
  dsimp only
  rw [if_congr hone rfl rfl, if_congr htwo rfl rfl]
  split
  · rfl
  · split <;> rfl

/-- A unit's text stands apart and has its size. -/
theorem quoteUnit_sized (u : UInt16) :
    Apart (quoteUnit u) ∧ (utf8 (quoteUnit u)).length = unitBytes u := by
  have hascii : ∀ a : Units, Ascii a → Apart a ∧ (utf8 a).length = a.length :=
    fun a ha => ⟨ha.apart, ha.length_utf8⟩
  unfold quoteUnit unitBytes
  by_cases hb : u = 0x08
  · subst hb
    exact hascii _ (by unfold Ascii; decide)
  by_cases ht : u = 0x09
  · subst ht
    exact hascii _ (by unfold Ascii; decide)
  by_cases hn : u = 0x0a
  · subst hn
    exact hascii _ (by unfold Ascii; decide)
  by_cases hf : u = 0x0c
  · subst hf
    exact hascii _ (by unfold Ascii; decide)
  by_cases hr : u = 0x0d
  · subst hr
    exact hascii _ (by unfold Ascii; decide)
  by_cases hq : u = 0x22
  · subst hq
    exact hascii _ (by unfold Ascii; decide)
  by_cases hs : u = 0x5c
  · subst hs
    exact hascii _ (by unfold Ascii; decide)
  have hquoted : ¬ (u = 0x22 ∨ u = 0x5c) := by simp [hq, hs]
  have hshort : ¬ (u = 0x08 ∨ u = 0x09 ∨ u = 0x0a ∨ u = 0x0c ∨ u = 0x0d ∨ u = 0x22 ∨ u = 0x5c) := by
    simp [hb, ht, hn, hf, hr, hq, hs]
  rw [if_neg hb, if_neg ht, if_neg hn, if_neg hf, if_neg hr, if_neg hquoted, if_neg hshort]
  by_cases hc : u < 0x20 ∨ isSurrogate u = true
  · rw [if_pos hc, if_pos hc]
    exact hascii _ (ascii_escaped u)
  · rw [if_neg hc, if_neg hc]
    have hsurrogate : isSurrogate u = false := by
      rw [not_or] at hc
      exact Bool.not_eq_true _ ▸ hc.2
    refine ⟨.unit hsurrogate apart_nil, ?_⟩
    rw [utf8_unit hsurrogate, List.length_append, length_unitUtf8]
    rfl

theorem quoteUnits_sized (s : Units) :
    Apart (quoteUnits s) ∧ (utf8 (quoteUnits s)).length = textBytes s := by
  induction s using quoteUnits.induct with
  | case1 => exact ⟨apart_nil, rfl⟩
  | case2 u => exact quoteUnit_sized u
  | case3 u v s hpair ih =>
    obtain ⟨hapart, hlen⟩ := ih
    obtain ⟨hu, hv⟩ := Bool.and_eq_true_iff.1 hpair
    rw [quoteUnits, textBytes, if_pos hpair, if_pos hpair]
    refine ⟨.pair hu hv hapart, ?_⟩
    rw [utf8_pair hu hv, List.length_append, hlen]
    rfl
  | case4 u v s hpair ih =>
    obtain ⟨hapart, hlen⟩ := ih
    obtain ⟨hunit, hbytes⟩ := quoteUnit_sized u
    rw [quoteUnits, textBytes, if_neg hpair, if_neg hpair]
    refine ⟨hunit.append hapart, ?_⟩
    rw [hunit, List.length_append, hbytes, hlen]

/-- Text that stands apart and has so many bytes. -/
structure Sized (a : Units) (n : Nat) : Prop where
  apart : Apart a
  length : (utf8 a).length = n

theorem Ascii.sized (h : Ascii a) : Sized a a.length := ⟨h.apart, h.length_utf8⟩

theorem Sized.append (ha : Sized a n) (hb : Sized b m) : Sized (a ++ b) (n + m) :=
  ⟨ha.apart.append hb.apart, by rw [ha.apart, List.length_append, ha.length, hb.length]⟩

theorem Sized.cons (h : u < 0x80) (ha : Sized a n) : Sized (u :: a) (1 + n) := by
  have hone : Ascii [u] := by
    intro v hv
    rwa [List.mem_singleton.1 hv]
  exact hone.sized.append ha

theorem sized_nil : Sized [] 0 := ⟨apart_nil, rfl⟩

theorem sized_quote (s : Units) : Sized (quote s) (textBytes s + 2) := by
  obtain ⟨hapart, hlen⟩ := quoteUnits_sized s
  have hsized : Sized (quote s) (1 + (textBytes s + (1 + 0))) :=
    .cons (by decide) (.append ⟨hapart, hlen⟩ (.cons (by decide) sized_nil))
  rwa [show 1 + (textBytes s + (1 + 0)) = textBytes s + 2 by omega] at hsized

theorem digit_ascii {c : Char} (h : c.isDigit = true) : UInt16.ofNat c.toNat < 0x80 := by
  have hle : c.toNat ≤ 57 := by
    simp only [Char.isDigit, Bool.and_eq_true, decide_eq_true_eq] at h
    exact h.2
  rw [UInt16.lt_iff_toNat_lt, UInt16.toNat_ofNat']
  have hmod : c.toNat % 2 ^ 16 = c.toNat := Nat.mod_eq_of_lt (by omega)
  rw [hmod]
  change c.toNat < 0x80
  omega

theorem ascii_digits (n : Nat) :
    Ascii ((Nat.toDigits 10 n).map fun c => UInt16.ofNat c.toNat) := by
  intro u hu
  obtain ⟨c, hc, rfl⟩ := List.mem_map.1 hu
  exact digit_ascii (Nat.isDigit_of_mem_toDigits (by decide) (by decide) hc)

theorem ascii_decimalUnits (n : Int) : Ascii (decimalUnits n) := by
  cases n with
  | ofNat n => exact ascii_digits n
  | negSucc n =>
    intro u hu
    rcases List.mem_cons.1 hu with rfl | hu
    · decide
    · exact ascii_digits (n + 1) u hu

mutual
theorem Json.sized : (j : Json) → Sized j.stringify j.size
  | .null => by
    unfold Json.stringify Json.size
    exact (show Ascii (units "null") by unfold Ascii; decide).sized
  | .bool true => by
    unfold Json.stringify Json.size
    exact (show Ascii (units "true") by unfold Ascii; decide).sized
  | .bool false => by
    unfold Json.stringify Json.size
    exact (show Ascii (units "false") by unfold Ascii; decide).sized
  | .num n => by
    unfold Json.stringify Json.size
    exact (ascii_decimalUnits n).sized
  | .str s => by
    unfold Json.stringify Json.size
    exact sized_quote s
  | .obj fields => by
    unfold Json.stringify Json.size
    have h := Sized.cons (u := 0x7b) (by decide)
      (fields.sized_members.append (.cons (u := 0x7d) (by decide) sized_nil))
    rwa [show 1 + (fields.size + (1 + 0)) = fields.size + 2 by omega] at h
theorem Fields.sized_members : (f : Fields) → Sized f.members f.size
  | .nil => by
    unfold Fields.members Fields.size
    exact sized_nil
  | .cons key value rest => by
    unfold Fields.members Fields.size
    have h := (sized_quote key).append
      (.cons (u := 0x3a) (by decide) (value.sized.append rest.sized_further))
    rwa [show textBytes key + 2 + (1 + (value.size + rest.furtherSize)) =
      textBytes key + 3 + value.size + rest.furtherSize by omega] at h
theorem Fields.sized_further : (f : Fields) → Sized f.further f.furtherSize
  | .nil => by
    unfold Fields.further Fields.furtherSize
    exact sized_nil
  | .cons key value rest => by
    unfold Fields.further Fields.furtherSize
    have h := Sized.cons (u := 0x2c) (by decide) ((sized_quote key).append
      (.cons (u := 0x3a) (by decide) (value.sized.append rest.sized_further)))
    rwa [show 1 + (textBytes key + 2 + (1 + (value.size + rest.furtherSize))) =
      textBytes key + 4 + value.size + rest.furtherSize by omega] at h
end

-- ---------------------------------------------------------------------------
-- Objects from lists
-- ---------------------------------------------------------------------------

def Fields.of : List (String × Json) → Fields
  | [] => .nil
  | (key, value) :: rest => .cons (units key) value (.of rest)

def memberSize (m : String × Json) : Nat := textBytes (units m.1) + 4 + m.2.size

theorem furtherSize_of (l : List (String × Json)) :
    (Fields.of l).furtherSize = (l.map memberSize).sum := by
  induction l with
  | nil => rfl
  | cons m l ih =>
    rw [Fields.of, Fields.furtherSize, ih, List.map_cons, List.sum_cons]
    rfl

theorem size_of_cons (m : String × Json) (l : List (String × Json)) :
    (Json.obj (.of (m :: l))).size = 1 + ((m :: l).map memberSize).sum := by
  rw [Json.size, Fields.of, Fields.size, furtherSize_of, List.map_cons, List.sum_cons]
  unfold memberSize
  omega

/-- The bytes of a value's text. -/
theorem length_utf8_stringify (j : Json) : (utf8 j.stringify).length = j.size := j.sized.length

end WebAdf.Lib
