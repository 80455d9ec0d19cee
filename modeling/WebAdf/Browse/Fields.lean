import Mathlib.Data.List.TakeWhile
import WebAdf.Browse.Wire
import WebAdf.Receive.Parse
import WebAdf.Send.Lines

/-!
# Answer fields read back

The bytes Transfer puts in a line, as the characters the server reads: a word, a
number, a date, a string by its length.
-/

namespace WebAdf.Browse

open Lib Send
open Receive (Word)

/-- Bytes as Latin-1. -/
def text (bs : List UInt8) : Units := bs.map fun b => UInt16.ofNat b.toNat

theorem text_append (a b : List UInt8) : text (a ++ b) = text a ++ text b := List.map_append

theorem length_text (bs : List UInt8) : (text bs).length = bs.length := List.length_map _

theorem unit_toNat (b : UInt8) : (UInt16.ofNat b.toNat).toNat = b.toNat := by
  have := UInt8.toNat_lt b
  rw [UInt16.toNat_ofNat']
  omega

theorem unit_inj {b c : UInt8} (h : UInt16.ofNat b.toNat = UInt16.ofNat c.toNat) : b = c := by
  have := congrArg UInt16.toNat h
  rw [unit_toNat, unit_toNat] at this
  exact UInt8.toNat_inj.1 this

theorem mem_text {b : UInt8} : UInt16.ofNat b.toNat ∈ text bs ↔ b ∈ bs := by
  constructor
  · intro h
    obtain ⟨c, hc, heq⟩ := List.mem_map.1 h
    rw [← unit_inj heq]
    exact hc
  · exact fun h => List.mem_map.2 ⟨b, h, rfl⟩

theorem plain_text (bs : List UInt8) : Plain (text bs) := by
  intro u hu
  obtain ⟨b, -, rfl⟩ := List.mem_map.1 hu
  rw [UInt16.le_iff_toNat_le, unit_toNat]
  exact Nat.le_of_lt_succ (UInt8.toNat_lt b)

-- ---------------------------------------------------------------------------
-- Words
-- ---------------------------------------------------------------------------

/-- A blank ends a field. -/
theorem text_field (w rest : List UInt8) :
    text (w ++ Receive.blank :: rest) = text w ++ space :: text rest := text_append w _

theorem space_not_mem (h : Receive.blank ∉ w) : space ∉ text w := fun hmem =>
  h ((mem_text (b := Receive.blank)).1 hmem)

theorem takeWhile_space {w : Units} (h : space ∉ w) (rest : Units) :
    (w ++ space :: rest).takeWhile (· != space) = w := by
  rw [List.takeWhile_append_of_pos]
  · simp
  · intro u hu
    rw [bne_iff_ne]
    rintro rfl
    exact h hu

theorem word_text (h : Receive.blank ∉ w) (rest : Units) :
    word (some (text w ++ space :: rest)) = (some (text w), some rest) := by
  have hdrop : (text w ++ space :: rest).drop ((text w).length + 1) = rest := by
    rw [← List.drop_drop, List.drop_left]
    rfl
  have hlt : (text w).length < (text w ++ space :: rest).length := by
    rw [List.length_append, List.length_cons]
    omega
  unfold word
  dsimp only
  rw [takeWhile_space (space_not_mem h), hdrop, if_pos hlt]

theorem word_end (h : Receive.blank ∉ w) : word (some (text w)) = (some (text w), none) := by
  have hall : (text w).takeWhile (· != space) = text w := by
    rw [List.takeWhile_eq_self_iff]
    intro u hu
    rw [bne_iff_ne]
    rintro rfl
    exact space_not_mem h hu
  unfold word
  dsimp only
  rw [hall, if_neg (Nat.lt_irrefl _)]

-- ---------------------------------------------------------------------------
-- Numbers
-- ---------------------------------------------------------------------------

theorem isDigitUnit_text (b : UInt8) : isDigitUnit (UInt16.ofNat b.toNat) = isDigit b := by
  unfold isDigitUnit isDigit
  simp only [UInt16.le_iff_toNat_le, UInt8.le_iff_toNat_le, unit_toNat]
  rfl

theorem digits_decimal (hhi : 0 < hi) (h : n < 10 ^ hi) : digits 1 hi (text (decimal n)) = true := by
  have hpos : 0 < (decimal n).length := List.length_pos_iff.2 (numeral_ne_nil (by decide) n)
  have hall : (text (decimal n)).all isDigitUnit = true := by
    rw [List.all_eq_true]
    intro u hu
    obtain ⟨b, hb, rfl⟩ := List.mem_map.1 hu
    rw [isDigitUnit_text]
    exact decimal_digits n b hb
  unfold digits
  rw [hall, length_text, Bool.and_true, Bool.and_eq_true, decide_eq_true_eq, decide_eq_true_eq]
  exact ⟨hpos, length_decimal_le hhi h⟩

theorem number_decimal (n : Nat) : number (text (decimal n)) = n := by
  have hfold : number (text (decimal n)) = ofDecimal (decimal n) := by
    unfold number text ofDecimal
    rw [List.foldl_map]
    simp only [unit_toNat]
  rw [hfold, ofDecimal_decimal]

theorem num_decimal {n max : Nat} (h10 : n < 10 ^ 10) (hmax : n ≤ max) : num (some (text (decimal n))) max = some n := by
  unfold num
  rw [Option.bind_some, digits_decimal (by decide) h10, number_decimal, decide_eq_true hmax]
  rfl

theorem hexValue_digit : ∀ d < 16, hexValue (UInt16.ofNat (digitByte d).toNat) = some d := by decide

theorem protection_hex (h : n < 2 ^ 32) : protection (some (text (numeral 16 n))) = some n := by
  have hlen : (numeral 16 n).length ≤ 8 := length_numeral_le (by decide) (by decide) (by omega)
  have hpos : 0 < (numeral 16 n).length := List.length_pos_iff.2 (numeral_ne_nil (by decide) n)
  have hfold : (text (numeral 16 n)).foldlM (fun x u => (hexValue u).map fun d => x * 16 + d) 0 =
      (numeral 16 n).foldlM
        (fun x b => (hexValue (UInt16.ofNat b.toNat)).map fun d => x * 16 + d) 0 := by
    unfold text
    rw [List.foldlM_map]
  unfold protection
  rw [Option.bind_some, length_text, if_neg (by omega), hfold]
  refine foldlM_numeral (by decide) (fun x d hd _ => ?_) (Nat.le_refl n)
  rw [hexValue_digit d hd]
  rfl

-- ---------------------------------------------------------------------------
-- Dates
-- ---------------------------------------------------------------------------

/-- `"<days>.<mins>.<ticks>"`. -/
def dateBytes (d m t : Nat) : List UInt8 := decimal d ++ Receive.dot :: (decimal m ++ Receive.dot :: decimal t)

theorem decimal_not_mem (h : isDigit b = false) (n : Nat) : b ∉ decimal n := fun hmem => by
  rw [decimal_digits n b hmem] at h
  cases h

theorem blank_not_date (d m t : Nat) : Receive.blank ∉ dateBytes d m t := by
  have hdigit : isDigit Receive.blank = false := by decide
  have hdot : Receive.blank ≠ Receive.dot := by decide
  unfold dateBytes
  simp only [List.mem_append, List.mem_cons, not_or]
  exact ⟨decimal_not_mem hdigit d, hdot, decimal_not_mem hdigit m, hdot, decimal_not_mem hdigit t⟩

theorem date_text (hd : d ≤ 999999) (hm : m ≤ 99999) (ht : t ≤ 99999) :
    date (some (text (dateBytes d m t))) = some (amigaDateIso d m t) := by
  have hdot : ∀ n, dot ∉ text (decimal n) := fun n hmem =>
    decimal_not_mem (b := Receive.dot) (by decide) n ((mem_text (b := Receive.dot)).1 hmem)
  have hline : text (dateBytes d m t) =
      text (decimal d) ++ dot :: (text (decimal m) ++ dot :: text (decimal t)) := by
    rw [dateBytes, text_append]
    congr 1
    exact congrArg (dot :: ·) (text_append _ _)
  have hsplit : (text (dateBytes d m t)).splitOn dot =
      [text (decimal d), text (decimal m), text (decimal t)] := by
    rw [hline, List.splitOn_append_cons_self_of_not_mem (hdot d),
      List.splitOn_append_cons_self_of_not_mem (hdot m), List.splitOn_eq_singleton (hdot t)]
  unfold date
  rw [Option.bind_some, hsplit]
  dsimp only
  rw [digits_decimal (by decide) (by omega), digits_decimal (by decide) (by omega),
    digits_decimal (by decide) (by omega), number_decimal, number_decimal, number_decimal]
  rfl

-- ---------------------------------------------------------------------------
-- Strings
-- ---------------------------------------------------------------------------

theorem idxOf?_colon {v : Units} (h : colon ∉ v) (r : Units) :
    (v ++ colon :: r).idxOf? colon = some v.length := by
  induction v with
  | nil => simp [List.idxOf?_cons]
  | cons u v ih =>
    rw [List.mem_cons, not_or] at h
    rw [List.cons_append, List.idxOf?_cons, ih h.2, if_neg (by simpa using Ne.symm h.1)]
    rfl

theorem text_counted (s : List UInt8) (rest : Units) :
    text (Receive.counted s) ++ rest = text (decimal s.length) ++ colon :: (text s ++ rest) := by
  rw [Receive.counted, text_append, List.append_assoc]
  rfl

/-- A counted string, and what stands behind it. -/
theorem lenStr_text (h : s.length < 10 ^ 4) (rest : Units) :
    lenStr (some (text (Receive.counted s) ++ rest)) =
      match rest with
      | [] => (some (text s), none)
      | u :: r =>
        if u = space then (some (text s), some r)
        else (none, some (text (Receive.counted s) ++ rest)) := by
  have hcolon : colon ∉ text (decimal s.length) := fun hmem =>
    decimal_not_mem (b := Receive.colon) (by decide) _ ((mem_text (b := Receive.colon)).1 hmem)
  have hbehind : (text (decimal s.length) ++ colon :: (text s ++ rest)).drop
      ((text (decimal s.length)).length + 1) = text s ++ rest := by
    rw [← List.drop_drop, List.drop_left]
    rfl
  have htake : (text s ++ rest).take s.length = text s := by
    rw [← length_text s, List.take_left]
  have hdrop : (text (decimal s.length) ++ colon :: (text s ++ rest)).drop
      ((text (decimal s.length)).length + 1 + s.length) = rest := by
    rw [← List.drop_drop, hbehind, ← length_text s, List.drop_left]
  unfold lenStr
  rw [text_counted]
  dsimp only
  rw [idxOf?_colon hcolon]
  dsimp only
  rw [List.take_left, digits_decimal (by decide) h, number_decimal, hbehind, htake, hdrop,
    length_text, if_neg (Nat.lt_irrefl _)]
  rfl

theorem lenStr_counted (h : s.length < 10 ^ 4) (rest : Units) :
    lenStr (some (text (Receive.counted s) ++ space :: rest)) = (some (text s), some rest) := by
  rw [lenStr_text h]
  rfl

theorem lenStr_counted_end (h : s.length < 10 ^ 4) :
    lenStr (some (text (Receive.counted s))) = (some (text s), none) := by
  have hend := lenStr_text h []
  rwa [List.append_nil] at hend

-- ---------------------------------------------------------------------------
-- Names
-- ---------------------------------------------------------------------------

theorem text_inj (h : text a = text b) : a = b :=
  List.map_injective_iff.2 (fun _ _ => unit_inj) h

theorem trim_nonempty {s : Units} (hmem : u ∈ s) (hwhite : Poll.isWhite u = false) :
    Poll.trim s ≠ [] := by
  intro hempty
  unfold Poll.trim at hempty
  rw [List.reverse_eq_nil_iff, List.dropWhile_eq_nil_iff] at hempty
  rw [← List.takeWhile_append_dropWhile (p := Poll.isWhite) (l := s), List.mem_append] at hmem
  have hyes : Poll.isWhite u = true := by
    rcases hmem with hmem | hmem
    · exact List.all_eq_true.1 List.all_takeWhile u hmem
    · exact hempty u (List.mem_reverse.2 hmem)
  rw [hyes] at hwhite
  cases hwhite

/-- A byte of a name that is sent. -/
def nameByte (b : UInt8) : Bool :=
  !Receive.control b && !(0x80 ≤ b && b < 0xa0) && b != Receive.colon && b != Receive.slash

theorem nameByte_facts : ∀ n < 256, nameByte (UInt8.ofNat n) = true →
    badChar (UInt16.ofNat n) = false ∧ UInt16.ofNat n ≠ colon ∧ UInt16.ofNat n ≠ slash ∧
      (UInt8.ofNat n ≠ Receive.blank → UInt8.ofNat n ≠ 0xa0 →
        Poll.isWhite (UInt16.ofNat n) = false) := by
  decide +kernel

/-- What Transfer sends as a name the server takes as one. -/
theorem nameOk_text (h : Receive.nameSendable name = true) : nameOk (text name) = true := by
  unfold Receive.nameSendable at h
  simp only [Bool.and_eq_true, decide_eq_true_eq, bne_iff_ne] at h
  obtain ⟨⟨⟨⟨⟨-, hlen⟩, hdot⟩, hdots⟩, hall⟩, hany⟩ := h
  have hbyte : ∀ b ∈ name, badChar (UInt16.ofNat b.toNat) = false ∧ UInt16.ofNat b.toNat ≠ colon ∧
      UInt16.ofNat b.toNat ≠ slash ∧
        (b ≠ Receive.blank → b ≠ 0xa0 → Poll.isWhite (UInt16.ofNat b.toNat) = false) := by
    intro b hb
    have hb := List.all_eq_true.1 hall b hb
    have hfacts := nameByte_facts b.toNat (UInt8.toNat_lt b)
    rw [UInt8.ofNat_toNat] at hfacts
    exact hfacts hb
  have htrim : Poll.trim (text name) ≠ [] := by
    obtain ⟨b, hb, hblank⟩ := List.any_eq_true.1 hany
    rw [Bool.and_eq_true, bne_iff_ne, bne_iff_ne] at hblank
    exact trim_nonempty (mem_text.2 hb) ((hbyte b hb).2.2.2 hblank.1 hblank.2)
  have hpoints : (codePoints (text name)).length ≤ 30 := by
    rw [codePoints_plain (plain_text name), List.length_map, length_text]
    exact hlen
  have hdots : ¬ (text name = [dot] ∨ text name = [dot, dot]) := by
    rintro (heq | heq)
    · exact hdot (text_inj (b := [Receive.dot]) heq)
    · exact hdots (text_inj (b := [Receive.dot, Receive.dot]) heq)
  have hclean : ¬ (colon ∈ text name ∨ slash ∈ text name ∨ (text name).any badChar = true) := by
    rw [List.any_eq_true]
    rintro (hmem | hmem | ⟨u, hmem, hbad⟩)
    · obtain ⟨b, hb, heq⟩ := List.mem_map.1 hmem
      exact (hbyte b hb).2.1 heq
    · obtain ⟨b, hb, heq⟩ := List.mem_map.1 hmem
      exact (hbyte b hb).2.2.1 heq
    · obtain ⟨b, hb, rfl⟩ := List.mem_map.1 hmem
      rw [(hbyte b hb).1] at hbad
      cases hbad
  unfold nameOk amigaNameProblem
  rw [if_neg htrim, if_neg (Nat.not_lt.2 hpoints), if_neg hdots, if_neg hclean]
  rfl

theorem deviceByte_unit : ∀ n < 256, (Receive.alnum (UInt8.ofNat n) || UInt8.ofNat n == 0x5f ||
    UInt8.ofNat n == Receive.dot || UInt8.ofNat n == 0x2d) = true →
      deviceUnit (UInt16.ofNat n) = true := by
  decide +kernel

theorem deviceOk_text (h : Receive.deviceSendable device = true) : deviceOk (text device) = true := by
  unfold Receive.deviceSendable at h
  simp only [Bool.and_eq_true, decide_eq_true_eq, beq_iff_eq] at h
  obtain ⟨⟨⟨hpos, hlen⟩, hlast⟩, hall⟩ := h
  have hunits : (text device).dropLast.all deviceUnit = true := by
    rw [text, ← List.map_dropLast, List.all_map, List.all_eq_true]
    intro b hb
    have hunit := deviceByte_unit b.toNat (UInt8.toNat_lt b)
    rw [UInt8.ofNat_toNat] at hunit
    exact hunit (List.all_eq_true.1 hall b hb)
  have hcolon : (text device).getLast? = some colon := by
    rw [text, List.getLast?_map, hlast]
    rfl
  unfold deviceOk
  have hle : device.length ≤ 31 := hlen
  rw [hunits, hcolon, length_text, decide_eq_true hpos, decide_eq_true hle]
  rfl

end WebAdf.Browse
