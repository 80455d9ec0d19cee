import WebAdf.Constants
import WebAdf.Lib.Ascii
import WebAdf.Lib.JsonText

/-!
# The JSON scanner

A flat scan for `"key":`, strings walked past whole; the strict readers refuse what
would be cut off or wrap. A C string is its bytes before the NUL.
-/

namespace WebAdf.Firmware

open Lib

/-- A string's bytes up to its closing quote, escapes as they stand, and what follows. -/
def scanString : Bytes → Option (Bytes × Bytes)
  | [] => none
  | c :: q =>
    if c = 0x22 then some ([], q)
    else if c = 0x5c then
      match q with
      | [] => none
      | d :: q => (scanString q).map fun (s, rest) => (c :: d :: s, rest)
    else (scanString q).map fun (s, rest) => (c :: s, rest)

def isSpace (c : UInt8) : Bool := c = 0x20 ∨ c = 0x09 ∨ c = 0x0a ∨ c = 0x0d

def dropSpace (s : Bytes) : Bytes := s.dropWhile isSpace

/-- The scan, `n` steps at most. -/
def findValueFrom (key : Bytes) : Nat → Bytes → Option Bytes
  | 0, _ => none
  | _ + 1, [] => none
  | n + 1, c :: p =>
    if c ≠ 0x22 then findValueFrom key n p
    else
      match scanString p with
      | none => none
      | some (s, q) =>
        match dropSpace q with
        | [] => findValueFrom key n q
        | d :: v => if d = 0x3a ∧ s = key then some (dropSpace v) else findValueFrom key n q

/-- Every step takes a byte or more. -/
def findValue (json key : Bytes) : Option Bytes := findValueFrom key json.length json

/-- A string value copied up to its quote, `n` bytes at most. -/
def copyString : Nat → Bytes → Bytes
  | 0, _ => []
  | _ + 1, [] => []
  | n + 1, c :: v =>
    if c = 0x22 then []
    else if c = 0x5c then
      match v with
      | [] => [c]
      | d :: v =>
        (if d = 0x6e then 0x0a else if d = 0x74 then 0x09 else if d = 0x72 then 0x0d else d) :: copyString n v
    else c :: copyString n v

/-- Empty for null. -/
def jsonStr (json key : Bytes) (outLen : Nat) : Option Bytes :=
  match findValue json key with
  | none => none
  | some v =>
    if outLen = 0 then none
    else if v.take 4 = ascii "null" then some []
    else
      match v with
      | [] => none
      | c :: v => if c ≠ 0x22 then none else some (copyString (outLen - 1) v)

def digitsStrict : Nat → Bytes → Option (Nat × Bytes)
  | val, [] => some (val, [])
  | val, c :: v =>
    if isDigit c then
      let val := val * 10 + (c.toNat - 48)
      if val > 0xffffffff then none else digitsStrict val v
    else some (val, c :: v)

def isDelimiter (c : UInt8) : Bool := c = 0x2c ∨ c = 0x7d ∨ c = 0x5d ∨ isSpace c

def jsonU32Strict (json key : Bytes) : Option UInt32 := do
  let v ← findValue json key
  if (v.head?.map isDigit).getD false = false then none
  else
    let (val, rest) ← digitsStrict 0 v
    if (rest.head?.map isDelimiter).getD true then some (UInt32.ofNat val) else none

/-- The bytes up to the brace that brings the depth to zero, and the rest, `n` steps
at most. A string is walked whole. -/
def liftFrom : Nat → Nat → Bytes → Option (Bytes × Bytes)
  | 0, _, _ => none
  | _ + 1, _, [] => none
  | n + 1, depth, c :: p =>
    if c = 0x22 then
      match scanString p with
      | none => none
      | some (s, q) => (liftFrom n depth q).map fun (o, rest) => (c :: (s ++ 0x22 :: o), rest)
    else if c = 0x7b then (liftFrom n (depth + 1) p).map fun (o, rest) => (c :: o, rest)
    else if c = 0x7d then
      if depth = 1 then some ([c], p)
      else (liftFrom n (depth - 1) p).map fun (o, rest) => (c :: o, rest)
    else (liftFrom n depth p).map fun (o, rest) => (c :: o, rest)

/-- What is copied out, and the text afterwards. -/
def jsonObject (json key : Bytes) (outLen : Nat) (blank : Bool) : Option (Bytes × Bytes) := do
  let v ← findValue json key
  if v.head? ≠ some 0x7b ∨ outLen = 0 then none
  else
    let (o, rest) ← liftFrom v.length 0 v
    if o.length ≥ outLen then none
    else
      let before := json.take (json.length - v.length)
      some (o, if blank then before ++ List.replicate o.length 0x20 ++ rest else json)

end WebAdf.Firmware

/-!
# What the scanner finds in a JSON text

Walking a text byte by byte with its strings taken whole, the scan sees the lexemes
the text is written in. A key it finds is a member's, what it copies out is that
member's value, and an object blanked takes its own keys with it and no others.
-/

namespace WebAdf.Firmware

open Lib
open Lib.JsonText

-- ---------------------------------------------------------------------------
-- Strings and blanks
-- ---------------------------------------------------------------------------

theorem isHex_not_special : ∀ d : UInt8, isHex d = true → d ≠ 0x22 ∧ d ≠ 0x5c := by
  intro d hd
  constructor
  · rintro rfl
    cases hd
  · rintro rfl
    cases hd

theorem scanString_quote : scanString (0x22 :: q) = some ([], q) := by
  rw [scanString.eq_def]
  rfl

theorem scanString_escape :
    scanString (0x5c :: d :: q) = (scanString q).map fun (t, rest) => (0x5c :: d :: t, rest) := by
  rw [scanString.eq_def]
  rfl

theorem scanString_plain (hs : ∀ c ∈ s, c ≠ 0x22 ∧ c ≠ 0x5c) :
    scanString (s ++ p) = (scanString p).map fun (t, rest) => (s ++ t, rest) := by
  induction s with
  | nil => simp
  | cons c s ih =>
    obtain ⟨hquote, hback⟩ := hs c (by simp)
    rw [List.cons_append, scanString.eq_def]
    dsimp only
    rw [if_neg hquote, if_neg hback, ih fun d hd => hs d (by simp [hd])]
    simp [Function.comp_def]

theorem scanString_piece (p : Piece) :
    scanString (p.text ++ q) = (scanString q).map fun (t, rest) => (p.text ++ t, rest) := by
  cases p with
  | plain c h =>
    apply scanString_plain
    intro d hd
    rw [List.mem_singleton.mp hd]
    exact h.2
  | escape c h => exact scanString_escape
  | unicode ds hlen h =>
    have hds := scanString_plain (p := q) fun d hd => isHex_not_special d (h d hd)
    simp [Piece.text, scanString_escape, hds, Function.comp_def]

/-- A string is walked to its own closing quote. -/
theorem scanString_text (s : Str) : scanString (s.text ++ 0x22 :: q) = some (s.text, q) := by
  induction s with
  | nil => exact scanString_quote
  | cons p s ih =>
    have htext : Str.text (p :: s) = p.text ++ Str.text s := rfl
    rw [htext, List.append_assoc, scanString_piece, ih]
    rfl

theorem dropSpace_append (hs : ∀ c ∈ s, isBlank c = true) : dropSpace (s ++ p) = dropSpace p :=
  List.dropWhile_append_of_pos hs

theorem dropSpace_solid (h : isBlank c = false) : dropSpace (c :: p) = c :: p :=
  List.dropWhile_cons_of_neg (ne_true_of_eq_false h)

theorem isNumberByte_plain (h : isNumberByte c = true) :
    isBlank c = false ∧ c ≠ 0x22 ∧ c ≠ 0x3a ∧ c ≠ 0x7b ∧ c ≠ 0x7d ∧ c ≠ 0x6e := by
  refine ⟨?_, ?_, ?_, ?_, ?_, ?_⟩
  · rw [← Bool.not_eq_true]
    intro hblank
    simp only [isBlank, Bool.decide_or, Bool.or_eq_true, decide_eq_true_eq] at hblank
    rcases hblank with rfl | rfl | rfl | rfl <;> cases h
  all_goals
    rintro rfl
    cases h

theorem number_first (hc : isDigit c ∨ c = 0x2d) : isNumberByte c = true := by
  rcases hc with hc | rfl
  · simp [isNumberByte, hc]
  · rfl

theorem dropSpace_textOf (ls : List Lexeme) : dropSpace (textOf ls) = textOf (dropBlank ls) := by
  induction ls with
  | nil => rfl
  | cons l ls ih =>
    cases l with
    | space s =>
      rw [textOf_cons, Lexeme.text, dropSpace_append s.property, ih]
      rfl
    | word w =>
      cases w with
      | number c s hc h => exact dropSpace_solid (isNumberByte_plain (number_first hc)).1
      | null => rfl
      | true => rfl
      | false => rfl
    | str s => rfl
    | mark m => cases m <;> rfl

-- ---------------------------------------------------------------------------
-- Keys
-- ---------------------------------------------------------------------------

theorem findValueFrom_skip (hs : ∀ c ∈ s, c ≠ 0x22) :
    findValueFrom key (s.length + n) (s ++ p) = findValueFrom key n p := by
  induction s with
  | nil => simp
  | cons c s ih =>
    have hn : (c :: s).length + n = (s.length + n) + 1 := by simp; omega
    rw [hn, List.cons_append, findValueFrom, if_pos (hs c (by simp)),
      ih fun d hd => hs d (by simp [hd])]

theorem space_bytes (s : Space) :
    ∀ c ∈ (Lexeme.space s).text, c ≠ 0x22 ∧ c ≠ 0x7b ∧ c ≠ 0x7d := by
  intro c hc
  have hblank := s.property c hc
  refine ⟨?_, ?_, ?_⟩ <;> rintro rfl <;> cases hblank

theorem bytes_of_all {s : Bytes} (h : s.all (fun c => c != 0x22 && c != 0x7b && c != 0x7d) = true) :
    ∀ c ∈ s, c ≠ 0x22 ∧ c ≠ 0x7b ∧ c ≠ 0x7d := by
  intro c hc
  simpa [and_assoc] using List.all_eq_true.mp h c hc

theorem word_bytes (w : Word) :
    ∀ c ∈ (Lexeme.word w).text, c ≠ 0x22 ∧ c ≠ 0x7b ∧ c ≠ 0x7d := by
  intro c hc
  cases w with
  | null => exact bytes_of_all (by decide) c hc
  | true => exact bytes_of_all (by decide) c hc
  | false => exact bytes_of_all (by decide) c hc
  | number d s hd h =>
    have hnum : isNumberByte c = true := by
      rcases List.mem_cons.mp hc with rfl | hc
      · exact number_first hd
      · exact h c hc
    have hplain := isNumberByte_plain hnum
    exact ⟨hplain.2.1, hplain.2.2.2.1, hplain.2.2.2.2.1⟩

theorem mark_bytes (m : Mark) : ∀ c ∈ (Lexeme.mark m).text, c ≠ 0x22 := by
  intro c hc
  rw [List.mem_singleton.mp hc]
  cases m <;> decide

theorem dropSpace_colon (h : afterColon ls = some v) :
    dropSpace (textOf ls) = 0x3a :: textOf v := by
  rw [dropSpace_textOf]
  rw [afterColon] at h
  split at h
  · rename_i heq
    cases h
    rw [heq]
    rfl
  · cases h

theorem dropSpace_no_colon (h : afterColon ls = none) :
    (dropSpace (textOf ls)).head? ≠ some 0x3a := by
  rw [dropSpace_textOf]
  intro hc
  rw [afterColon] at h
  cases hd : dropBlank ls with
  | nil => simp [hd] at hc
  | cons l rest =>
    rw [hd] at hc h
    cases l with
    | space s => exact absurd hd (dropBlank_not_space ls)
    | word w =>
      cases w with
      | number c s hn hs =>
        have hplain := isNumberByte_plain (number_first hn)
        exact hplain.2.2.1 (Option.some.inj hc)
      | null => cases hc
      | true => cases hc
      | false => cases hc
    | str s => cases hc
    | mark m => cases m <;> simp [Lexeme.text, Mark.byte] at hc h

theorem findValueFrom_str (s : Str) (ls : List Lexeme) :
    findValueFrom key ((textOf (.str s :: ls)).length + n) (textOf (.str s :: ls)) =
      match afterColon ls with
      | some v =>
        if s.text = key then some (dropSpace (textOf v))
        else findValueFrom key ((textOf ls).length + (n + s.text.length + 1)) (textOf ls)
      | none => findValueFrom key ((textOf ls).length + (n + s.text.length + 1)) (textOf ls) := by
  have htext : textOf (.str s :: ls) = 0x22 :: (s.text ++ 0x22 :: textOf ls) := by
    simp [Lexeme.text]
  have hsteps : (textOf (.str s :: ls)).length + n =
      ((textOf ls).length + (n + s.text.length + 1)) + 1 := by
    rw [htext]
    simp only [List.length_cons, List.length_append]
    omega
  rw [hsteps, htext, findValueFrom, if_neg (by simp), scanString_text]
  dsimp only
  cases hcolon : afterColon ls with
  | some v =>
    rw [dropSpace_colon hcolon]
    simp
  | none =>
    have hhead := dropSpace_no_colon hcolon
    split
    · rfl
    · rename_i d v hd
      rw [hd] at hhead
      rw [if_neg fun hc => hhead (congrArg some hc.1)]

theorem findValueFrom_lexeme (hl : ∀ c ∈ l.text, c ≠ 0x22) :
    findValueFrom key ((textOf (l :: ls)).length + n) (textOf (l :: ls)) =
      findValueFrom key ((textOf ls).length + n) (textOf ls) := by
  rw [textOf_cons, List.length_append, Nat.add_assoc, findValueFrom_skip hl]

theorem findValueFrom_textOf (ls : List Lexeme) (n : Nat) :
    findValueFrom key ((textOf ls).length + n) (textOf ls) =
      ((keyedText ls).find? (·.1 = key)).map (dropSpace ·.2) := by
  induction ls generalizing n with
  | nil => cases n <;> rfl
  | cons l ls ih =>
    cases l with
    | str s =>
      rw [findValueFrom_str, keyedText, keyed]
      cases afterColon ls with
      | none => exact ih _
      | some v =>
        by_cases hkey : s.text = key
        · simp [hkey]
        · simp [hkey, ih, keyedText]
    | space s =>
      rw [findValueFrom_lexeme fun c hc => (space_bytes s c hc).1]
      exact ih n
    | word w =>
      rw [findValueFrom_lexeme fun c hc => (word_bytes w c hc).1]
      exact ih n
    | mark m =>
      rw [findValueFrom_lexeme fun c hc => mark_bytes m c hc]
      exact ih n

/-- The first key as it is written, and the text behind its colon and the blanks there. -/
theorem findValue_textOf (ls : List Lexeme) :
    findValue (textOf ls) key = ((keyedText ls).find? (·.1 = key)).map (dropSpace ·.2) :=
  findValueFrom_textOf ls 0

-- ---------------------------------------------------------------------------
-- Objects
-- ---------------------------------------------------------------------------

def texts (r : List Lexeme × List Lexeme) : Bytes × Bytes := (textOf r.1, textOf r.2)

theorem liftFrom_skip (hs : ∀ c ∈ s, c ≠ 0x22 ∧ c ≠ 0x7b ∧ c ≠ 0x7d) :
    liftFrom (s.length + n) depth (s ++ p) =
      (liftFrom n depth p).map fun (o, rest) => (s ++ o, rest) := by
  induction s with
  | nil => simp
  | cons c s ih =>
    obtain ⟨hquote, hopen, hclose⟩ := hs c (by simp)
    have hn : (c :: s).length + n = (s.length + n) + 1 := by simp; omega
    rw [hn, List.cons_append, liftFrom, if_neg hquote, if_neg hopen, if_neg hclose,
      ih fun d hd => hs d (by simp [hd])]
    simp [Function.comp_def]

theorem liftFrom_str (s : Str) (ls : List Lexeme) :
    liftFrom ((textOf (.str s :: ls)).length + n) depth (textOf (.str s :: ls)) =
      (liftFrom ((textOf ls).length + (n + s.text.length + 1)) depth (textOf ls)).map
        fun (o, rest) => ((Lexeme.str s).text ++ o, rest) := by
  have htext : textOf (.str s :: ls) = 0x22 :: (s.text ++ 0x22 :: textOf ls) := by
    simp [Lexeme.text]
  have hsteps : (textOf (.str s :: ls)).length + n =
      ((textOf ls).length + (n + s.text.length + 1)) + 1 := by
    rw [htext]
    simp only [List.length_cons, List.length_append]
    omega
  rw [hsteps, htext, liftFrom, if_pos rfl, scanString_text]
  simp [Lexeme.text]

theorem closing_skip (hl : ∀ m, l = .mark m → m ≠ .openBrace ∧ m ≠ .closeBrace) :
    closing depth (l :: ls) = (closing depth ls).map fun (o, rest) => (l :: o, rest) := by
  cases l with
  | space s => rfl
  | word w => rfl
  | str s => rfl
  | mark m =>
    obtain ⟨hopen, hclose⟩ := hl m rfl
    cases m <;> first | rfl | contradiction

theorem liftFrom_lexeme (hl : ∀ c ∈ l.text, c ≠ 0x22 ∧ c ≠ 0x7b ∧ c ≠ 0x7d)
    (ih : ∀ n, liftFrom ((textOf ls).length + n) depth (textOf ls) =
      (closing depth ls).map texts) (n : Nat) :
    liftFrom ((textOf (l :: ls)).length + n) depth (textOf (l :: ls)) =
      ((closing depth ls).map fun (o, rest) => (l :: o, rest)).map texts := by
  rw [textOf_cons, List.length_append, Nat.add_assoc, liftFrom_skip hl, ih]
  simp [texts, Function.comp_def]

/-- The byte scan stops at the brace the lexemes' does. -/
theorem liftFrom_textOf (ls : List Lexeme) (depth n : Nat) :
    liftFrom ((textOf ls).length + n) depth (textOf ls) = (closing depth ls).map texts := by
  induction ls generalizing depth n with
  | nil => cases n <;> rfl
  | cons l ls ih =>
    cases l with
    | space s => exact liftFrom_lexeme (space_bytes s) (ih depth) n
    | word w => exact liftFrom_lexeme (word_bytes w) (ih depth) n
    | str s =>
      rw [liftFrom_str, ih]
      simp [closing, texts, Function.comp_def]
    | mark m =>
      have hsteps : (textOf (.mark m :: ls)).length + n = ((textOf ls).length + n) + 1 := by
        simp [Lexeme.text]
        omega
      cases m with
      | openBrace =>
        rw [hsteps, textOf_cons, Lexeme.text, List.singleton_append, liftFrom, if_neg (by decide),
          if_pos (show Mark.openBrace.byte = 0x7b from rfl), ih]
        simp [closing, texts, Function.comp_def, Lexeme.text]
      | closeBrace =>
        rw [hsteps, textOf_cons, Lexeme.text, List.singleton_append, liftFrom, if_neg (by decide),
          if_neg (by decide), if_pos (show Mark.closeBrace.byte = 0x7d from rfl), ih, closing]
        by_cases hd : depth = 1
        · simp [hd, texts, Lexeme.text]
        · simp [hd, texts, Function.comp_def, Lexeme.text]
      | _ => exact liftFrom_lexeme (bytes_of_all (by decide)) (ih depth) n

-- ---------------------------------------------------------------------------
-- String values
-- ---------------------------------------------------------------------------

/-- The bytes a character is copied as: the letter behind a backslash stands for itself
where it is not `n`, `t` or `r`. -/
def copied : Piece → Bytes
  | .plain c _ => [c]
  | .escape c _ =>
    [if c = 0x6e then 0x0a else if c = 0x74 then 0x09 else if c = 0x72 then 0x0d else c]
  | .unicode ds _ _ => 0x75 :: ds

theorem copyString_plain (hs : ∀ c ∈ s, c ≠ 0x22 ∧ c ≠ 0x5c) :
    copyString n (s ++ p) = s.take n ++ copyString (n - s.length) p := by
  induction s generalizing n with
  | nil => simp
  | cons c s ih =>
    obtain ⟨hquote, hback⟩ := hs c (by simp)
    cases n with
    | zero => simp [copyString]
    | succ n =>
      rw [List.cons_append, copyString.eq_def]
      dsimp only
      rw [if_neg hquote, if_neg hback, ih fun d hd => hs d (by simp [hd])]
      simp

theorem copyString_escape :
    copyString (n + 1) (0x5c :: d :: p) =
      (if d = 0x6e then 0x0a else if d = 0x74 then 0x09 else if d = 0x72 then 0x0d else d) ::
        copyString n p := by
  rw [copyString.eq_def]
  rfl

theorem copyString_piece (p : Piece) :
    copyString n (p.text ++ q) = (copied p).take n ++ copyString (n - (copied p).length) q := by
  cases n with
  | zero => simp [copyString]
  | succ n =>
    cases p with
    | plain c h =>
      apply copyString_plain
      intro d hd
      rw [List.mem_singleton.mp hd]
      exact h.2
    | escape c h => simp [Piece.text, copied, copyString_escape]
    | unicode ds hlen h =>
      have hds := copyString_plain (n := n) (p := q) fun d hd => isHex_not_special d (h d hd)
      simp [Piece.text, copied, copyString_escape, hds]

theorem copyString_text (s : Str) :
    copyString n (s.text ++ 0x22 :: q) = (s.flatMap copied).take n := by
  induction s generalizing n with
  | nil =>
    cases n with
    | zero => simp [copyString]
    | succ n =>
      rw [copyString.eq_def]
      rfl
  | cons p s ih =>
    have htext : Str.text (p :: s) = p.text ++ Str.text s := rfl
    rw [htext, List.append_assoc, copyString_piece, ih, List.flatMap_cons, List.take_append]

-- ---------------------------------------------------------------------------
-- The readers over a text
-- ---------------------------------------------------------------------------

theorem dropSpace_value (v : Value) :
    dropSpace (textOf (v.lexemes ++ ls)) = textOf (v.lexemes ++ ls) := by
  rw [dropSpace_textOf]
  cases v <;> rfl

theorem findValue_text (t : Text) (key : Bytes) :
    findValue t.text key = (t.first key).map fun m => textOf m.lexemes := by
  have hdrop (m : Member) : dropSpace (textOf m.entry.2) = textOf m.lexemes := by
    rw [Member.entry, textOf_cons, Lexeme.text, dropSpace_append m.key.lead.property]
    exact dropSpace_value m.value
  rw [Text.text, findValue_textOf, keyedText, t.keyed_lexemes, List.map_map, List.find?_map,
    Option.map_map]
  exact congrArg (Option.map · (t.first key)) (funext hdrop)

/-- What is read of a value. -/
def strOf (outLen : Nat) : Value → Option Bytes
  | .word .null => some []
  | .str s => some ((s.flatMap copied).take (outLen - 1))
  | _ => none

theorem null_first {q : Bytes} (h : (c :: q).take 4 = ascii "null") : c = 0x6e := by
  have hnull : ascii "null" = 0x6e :: ascii "ull" := rfl
  rw [List.take_succ_cons, hnull] at h
  exact (List.cons.inj h).1

/-- `json_str` once the value is found. -/
theorem strOf_value (v : Value) :
    (if (textOf (v.lexemes ++ ls)).take 4 = ascii "null" then some []
    else
      match textOf (v.lexemes ++ ls) with
      | [] => none
      | c :: q => if c ≠ 0x22 then none else some (copyString (outLen - 1) q)) =
      strOf outLen v := by
  cases v with
  | word w =>
    cases w with
    | number c s hc h =>
      have hplain := isNumberByte_plain (number_first hc)
      have htext : textOf ([.word (.number c s hc h)] ++ ls) = c :: (s ++ textOf ls) := rfl
      rw [Value.lexemes, htext, if_neg fun hnull => hplain.2.2.2.2.2 (null_first hnull)]
      exact if_pos hplain.2.1
    | null => rfl
    | true => rfl
    | false => rfl
  | str s =>
    have htext : textOf ([.str s] ++ ls) = 0x22 :: (s.text ++ 0x22 :: textOf ls) := by
      simp [Lexeme.text]
    rw [Value.lexemes, htext, if_neg fun hnull => absurd (null_first hnull) (by decide), strOf]
    simp only [ne_eq, not_true_eq_false, if_false, copyString_text]
  | emptyArr inside => rfl
  | arr items => rfl
  | emptyObj inside => rfl
  | obj members => rfl

theorem jsonStr_text (t : Text) (key : Bytes) (outLen : Nat) :
    jsonStr t.text key outLen =
      (t.first key).bind fun m => if outLen = 0 then none else strOf outLen m.value := by
  rw [jsonStr, findValue_text]
  cases t.first key with
  | none => rfl
  | some m =>
    simp only [Option.map_some, Option.bind_some]
    by_cases hlen : outLen = 0
    · rw [if_pos hlen, if_pos hlen]
    · rw [if_neg hlen, if_neg hlen]
      exact strOf_value m.value

theorem head_value (v : Value) :
    (textOf (v.lexemes ++ ls)).head? = some 0x7b ↔ v.isObject = true := by
  cases v with
  | word w =>
    cases w with
    | number c s hc h =>
      have hplain := isNumberByte_plain (number_first hc)
      exact iff_of_false (fun hopen => hplain.2.2.2.1 (Option.some.inj hopen)) (by nofun)
    | null => exact iff_of_false (by nofun) (by nofun)
    | true => exact iff_of_false (by nofun) (by nofun)
    | false => exact iff_of_false (by nofun) (by nofun)
  | str s => exact iff_of_false (by nofun) (by nofun)
  | emptyArr inside => exact iff_of_false (by nofun) (by nofun)
  | arr items => exact iff_of_false (by nofun) (by nofun)
  | emptyObj inside => exact iff_of_true rfl rfl
  | obj members => exact iff_of_true rfl rfl

theorem jsonObject_text (t : Text) (key : Bytes) (outLen : Nat) (blank : Bool) :
    jsonObject t.text key outLen blank = (t.first key).bind fun m =>
      if m.value.isObject = true ∧ (textOf m.value.lexemes).length < outLen then
        some (textOf m.value.lexemes, if blank then t.blanked m else t.text)
      else none := by
  rw [jsonObject, findValue_text]
  cases t.first key with
  | none => rfl
  | some m =>
    simp only [Option.map_some, Option.bind_some, Option.bind_eq_bind]
    have hhead : (textOf m.lexemes).head? = some 0x7b ↔ m.value.isObject = true :=
      head_value m.value
    by_cases hobj : m.value.isObject = true
    · by_cases hlen : outLen = 0
      · simp [hlen]
      · have hlift := liftFrom_textOf m.lexemes 0 0
        rw [Member.lexemes, m.value.closing_object hobj] at hlift
        rw [if_neg (by simp [hhead.mpr hobj, hlen])]
        simp only [Nat.add_zero] at hlift
        rw [Member.lexemes, hlift]
        simp only [Option.map_some, Option.bind_some, texts]
        by_cases hfit : (textOf m.value.lexemes).length < outLen
        · have hroom : ¬(textOf m.value.lexemes).length ≥ outLen := by omega
          rw [if_neg hroom, if_pos (And.intro hobj hfit)]
          rfl
        · have hfull : (textOf m.value.lexemes).length ≥ outLen := by omega
          rw [if_pos hfull, if_neg fun h => hfit h.2]
    · rw [if_pos (.inl fun h => hobj (hhead.mp h)), if_neg fun h => hobj h.1]

def blanks (n : Nat) : Space :=
  ⟨List.replicate n 0x20, fun _ hc => by rw [List.eq_of_mem_replicate hc]; rfl⟩

theorem findValue_blanked (t : Text) (hm : t.first key = some m) :
    ∃ before rest, t.members = before ++ m :: (m.value.members m.behind ++ rest) ∧
      ∀ k, findValue (t.blanked m) k =
        ((before ++ m :: rest).find? (·.key.name.text = k)).map fun n =>
          dropSpace ((t.blanked m).drop (t.place n)) := by
  obtain ⟨hkey, before, after, hsplit, hfirst⟩ := List.find?_eq_some_iff_append.mp hm
  let gap := blanks (textOf m.value.lexemes).length
  have hgap : gap.val.length = (textOf m.value.lexemes).length := List.length_replicate
  obtain ⟨pre, rest, hpre, rfl, hkeys⟩ := t.keyedText_gap hsplit gap hgap
  have hblanked : t.blanked m = textOf (pre ++ .space gap :: m.behind) := by
    have hlen : t.text.length - (textOf m.lexemes).length = (textOf pre).length := by
      rw [Text.text, hpre, textOf_append, List.length_append]
      omega
    rw [Text.blanked, hlen, Text.text, hpre, textOf_append, List.take_left]
    simp [Lexeme.text, gap, blanks]
  refine ⟨before, rest, hsplit, fun k => ?_⟩
  rw [hblanked, findValue_textOf, hkeys, List.find?_map, Option.map_map]
  rfl

/-- What is found is a member's value, whatever its strings say; a string is copied out
with the three control escapes read, other letters standing for themselves, as far as
there is room; an object is lifted whole. Blanked, the keys found are those outside. -/
theorem scan_finds_members (t : Text) (key : Bytes) :
    findValue t.text key = (t.first key).map (fun m => textOf m.lexemes) ∧
    (∀ outLen, jsonStr t.text key outLen =
      (t.first key).bind fun m => if outLen = 0 then none else strOf outLen m.value) ∧
    (∀ outLen blank, jsonObject t.text key outLen blank = (t.first key).bind fun m =>
      if m.value.isObject = true ∧ (textOf m.value.lexemes).length < outLen then
        some (textOf m.value.lexemes, if blank then t.blanked m else t.text)
      else none) ∧
    ∀ m, t.first key = some m →
      ∃ before rest, t.members = before ++ m :: (m.value.members m.behind ++ rest) ∧
        ∀ k, findValue (t.blanked m) k =
          ((before ++ m :: rest).find? (·.key.name.text = k)).map fun n =>
            dropSpace ((t.blanked m).drop (t.place n)) :=
  ⟨findValue_text t key, jsonStr_text t key, jsonObject_text t key,
    fun _ hm => findValue_blanked t hm⟩

/-- A letter by its number is copied as it is written; a key of the blanked object that
stands outside too is still found. -/
theorem unread_escape_and_key_left :
    jsonStr (ascii "\x7b\"a\":\"\\u0041\"\x7d") (ascii "a") 16 = some (ascii "u0041") ∧
    ascii "u0041" ≠ ascii "A" ∧
    (jsonObject (ascii "\x7b\"o\":\x7b\"v\":1\x7d,\"v\":2\x7d") (ascii "o") 16 true).map
      (fun r => (r.1, findValue r.2 (ascii "v"))) =
      some (ascii "\x7b\"v\":1\x7d", some (ascii "2\x7d")) := by
  decide +kernel

end WebAdf.Firmware
