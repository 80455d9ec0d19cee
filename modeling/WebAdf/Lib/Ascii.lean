import Mathlib.Algebra.Group.Nat.Defs
import Mathlib.Data.List.Basic
import Mathlib.Data.Nat.Notation

/-!
# ASCII text as bytes

Literals and decimal numbers as the bytes a C program prints, and where such
text ends: a run of digits before a byte that is none.
-/

namespace WebAdf.Lib

/-- Byte by byte, not over all the bytes there are. -/
instance decidableBytes (p : UInt8 → Prop) [DecidablePred p] (s : List UInt8) : Decidable (∀ c ∈ s, p c) :=
  List.decidableBAll p s

def ascii (s : String) : List UInt8 := s.toList.map fun c => UInt8.ofNat c.toNat

/-- A literal's bytes are its characters', with nothing to decode. -/
theorem ascii_ofList (l : List Char) : ascii (String.ofList l) = l.map fun c => UInt8.ofNat c.toNat := by
  rw [ascii, String.toList_ofList]

/-- `%lu`. -/
def decimal (n : Nat) : List UInt8 := (Nat.toDigits 10 n).map fun c => UInt8.ofNat c.toNat

/-- `snprintf` into `cap` bytes: what it writes before the NUL, and what it
would have written. -/
def snprintf (cap : Nat) (text : List UInt8) : List UInt8 × Nat :=
  (text.take (cap - 1), text.length)

theorem snprintf_fits (h : text.length < cap) : snprintf cap text = (text, text.length) := by
  rw [snprintf, List.take_of_length_le (by omega)]

theorem digitChar_byte : ∀ d < 10, UInt8.ofNat (Nat.digitChar d).toNat = UInt8.ofNat (48 + d) := by
  decide

theorem decimal_of_lt (h : n < 10) : decimal n = [UInt8.ofNat (48 + n)] := by
  rw [decimal, Nat.toDigits_of_lt_base h, List.map_singleton, digitChar_byte n h]

theorem decimal_of_ge (h : 10 ≤ n) : decimal n = decimal (n / 10) ++ decimal (n % 10) := by
  rw [decimal, Nat.toDigits_of_base_le (by decide) h, List.map_append, List.map_singleton,
    digitChar_byte _ (Nat.mod_lt _ (by decide)), decimal_of_lt (Nat.mod_lt _ (by decide)), decimal]

theorem length_decimal_le (hk : 0 < k) (h : n < 10 ^ k) : (decimal n).length ≤ k := by
  rw [decimal, List.length_map]
  exact (Nat.length_toDigits_le_iff (by decide) hk).mpr h

def isDigit (c : UInt8) : Bool := 48 ≤ c && c ≤ 57

theorem isDigit_digit : ∀ d < 10, isDigit (UInt8.ofNat (48 + d)) = true := by decide

theorem decimal_digits (n : Nat) : ∀ c ∈ decimal n, isDigit c = true := by
  induction n using Nat.strongRecOn with
  | ind n ih =>
    by_cases h : n < 10
    · rw [decimal_of_lt h]
      simpa using isDigit_digit n h
    · rw [decimal_of_ge (by omega)]
      intro c hc
      cases List.mem_append.mp hc with
      | inl hc => exact ih (n / 10) (by omega) c hc
      | inr hc => exact ih (n % 10) (by omega) c hc

/-- The number a run of digits spells. -/
def ofDecimal (ds : List UInt8) : Nat := ds.foldl (fun n c => 10 * n + (c.toNat - 48)) 0

theorem ofDecimal_digit : ∀ d < 10, (UInt8.ofNat (48 + d)).toNat - 48 = d := by decide

theorem ofDecimal_decimal (n : Nat) : ofDecimal (decimal n) = n := by
  induction n using Nat.strongRecOn with
  | ind n ih =>
    by_cases h : n < 10
    · rw [decimal_of_lt h]
      simpa [ofDecimal] using ofDecimal_digit n h
    · have hmod : n % 10 < 10 := Nat.mod_lt _ (by decide)
      have htens := ih (n / 10) (by omega)
      rw [ofDecimal] at htens
      rw [decimal_of_ge (by omega), ofDecimal, List.foldl_append, htens, decimal_of_lt hmod,
        List.foldl_cons, List.foldl_nil, ofDecimal_digit _ hmod]
      omega

/-- A run of bytes of one kind ends where the first other byte stands. -/
theorem append_inj_of_stop {p : α → Bool} {xs ys rest rest' : List α}
    (hxs : ∀ x ∈ xs, p x = true) (hys : ∀ y ∈ ys, p y = true)
    (hrest : ∀ c ∈ rest.head?, p c = false) (hrest' : ∀ c ∈ rest'.head?, p c = false)
    (h : xs ++ rest = ys ++ rest') : xs = ys ∧ rest = rest' := by
  have hspan : ∀ {zs tail : List α}, (∀ z ∈ zs, p z = true) → (∀ c ∈ tail.head?, p c = false) →
      (zs ++ tail).takeWhile p = zs := by
    intro zs tail hzs htail
    rw [List.takeWhile_append_of_pos hzs]
    cases tail with
    | nil => simp
    | cons c tail => simp [htail c (by simp)]
  have hx : xs = ys := by rw [← hspan hxs hrest, h, hspan hys hrest']
  subst hx
  exact ⟨rfl, List.append_cancel_left h⟩

theorem mem_intercalate {α : Type} {sep u : α} {parts : List (List α)}
    (h : u ∈ [sep].intercalate parts) : u = sep ∨ ∃ p ∈ parts, u ∈ p := by
  induction parts with
  | nil => cases h
  | cons p ps ih =>
    cases ps with
    | nil =>
      rw [List.intercalate_singleton] at h
      exact .inr ⟨p, List.mem_cons_self .., h⟩
    | cons q qs =>
      rw [List.intercalate_cons_cons] at h
      rcases List.mem_append.1 h with h | h
      · rcases List.mem_append.1 h with h | h
        · exact .inr ⟨p, List.mem_cons_self .., h⟩
        · exact .inl (List.mem_singleton.1 h)
      · rcases ih h with h | ⟨r, hr, hu⟩
        · exact .inl h
        · exact .inr ⟨r, List.mem_cons_of_mem _ hr, hu⟩

theorem idxOf?_between {α : Type} [BEq α] [LawfulBEq α] {c : α} {v : List α} (h : c ∉ v) (r : List α) :
    (v ++ c :: r).idxOf? c = some v.length := by
  induction v with
  | nil => simp [List.idxOf?_cons]
  | cons x v ih =>
    rw [List.mem_cons, not_or] at h
    rw [List.cons_append, List.idxOf?_cons, ih h.2, if_neg (by simpa using Ne.symm h.1)]
    rfl

end WebAdf.Lib

/-!
# Numerals

A number written in a base of at most sixteen, and the number a reader gets
that takes the digits from the left.
-/

namespace WebAdf.Lib

def digitByte (d : Nat) : UInt8 := UInt8.ofNat (Nat.digitChar d).toNat

/-- Its digits, lower case, without leading zeros. -/
def numeral (b n : Nat) : List UInt8 := (Nat.toDigits b n).map fun c => UInt8.ofNat c.toNat

theorem decimal_eq_numeral (n : Nat) : decimal n = numeral 10 n := rfl

theorem numeral_of_lt (h : n < b) : numeral b n = [digitByte n] := by
  rw [numeral, Nat.toDigits_of_lt_base h, List.map_singleton, digitByte]

theorem numeral_of_ge (hb : 1 < b) (h : b ≤ n) :
    numeral b n = numeral b (n / b) ++ [digitByte (n % b)] := by
  rw [numeral, Nat.toDigits_of_base_le hb h, List.map_append, List.map_singleton, numeral, digitByte]

theorem length_numeral_le (hb : 1 < b) (hk : 0 < k) (h : n < b ^ k) : (numeral b n).length ≤ k := by
  rw [numeral, List.length_map]
  exact (Nat.length_toDigits_le_iff hb hk).mpr h

theorem numeral_ne_nil (hb : 1 < b) (n : Nat) : numeral b n ≠ [] := by
  by_cases h : n < b
  · rw [numeral_of_lt h]
    exact List.cons_ne_nil _ _
  · rw [numeral_of_ge hb (by omega)]
    exact List.append_ne_nil_of_right_ne_nil _ (List.cons_ne_nil _ _)

/-- What holds of each digit holds of each byte of a numeral. -/
theorem forall_numeral {p : UInt8 → Prop} (hb : 1 < b) (hp : ∀ d < b, p (digitByte d)) (n : Nat) :
    ∀ c ∈ numeral b n, p c := by
  induction n using Nat.strongRecOn with
  | ind n ih =>
    by_cases h : n < b
    · rw [numeral_of_lt h]
      simpa using hp n h
    · rw [numeral_of_ge hb (by omega)]
      intro c hc
      rcases List.mem_append.1 hc with hc | hc
      · exact ih (n / b) (Nat.div_lt_self (by omega) hb) c hc
      · rw [List.mem_singleton.1 hc]
        exact hp _ (Nat.mod_lt _ (by omega))

/-- A reader whose step takes a digit up to a limit reads the number back. -/
theorem foldlM_numeral (hb : 1 < b) {step : Nat → UInt8 → Option Nat}
    (hstep : ∀ x d, d < b → x * b + d ≤ limit → step x (digitByte d) = some (x * b + d))
    (h : n ≤ limit) : (numeral b n).foldlM step 0 = some n := by
  induction n using Nat.strongRecOn with
  | ind n ih =>
    by_cases hlt : n < b
    · rw [numeral_of_lt hlt, List.foldlM_cons, hstep 0 n hlt (by omega)]
      simp
    · have hdiv : n / b * b + n % b = n := Nat.div_add_mod' n b
      have hlow : n / b < n := Nat.div_lt_self (by omega) hb
      rw [numeral_of_ge hb (by omega), List.foldlM_append, ih (n / b) hlow (by omega),
        Option.bind_eq_bind, Option.bind_some, List.foldlM_cons,
        hstep _ _ (Nat.mod_lt _ (by omega)) (by omega), hdiv]
      simp

end WebAdf.Lib
