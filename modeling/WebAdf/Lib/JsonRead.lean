import WebAdf.Lib.Ascii
import Mathlib.Tactic.IntervalCases

/-!
# Reading JSON

A reader of JSON texts, as strict as the grammar: numbers with no leading zero,
strings of UTF-8 without control characters, and nothing behind the value. What a
writer spells without blanks is read back as the value it spells.
-/

namespace WebAdf.Lib.JsonRead

/-- A number is its text; a string is its characters, an escape's number one of them. -/
inductive Value
  | null
  | bool (b : Bool)
  | num (text : List UInt8)
  | str (s : List Nat)
  | arr (items : List Value)
  | obj (members : List (List Nat × Value))

-- ---------------------------------------------------------------------------
-- Strings
-- ---------------------------------------------------------------------------

def hexVal (c : UInt8) : Option Nat :=
  if isDigit c then some (c.toNat - 0x30)
  else if 0x61 ≤ c ∧ c ≤ 0x66 then some (c.toNat - 0x61 + 10)
  else if 0x41 ≤ c ∧ c ≤ 0x46 then some (c.toNat - 0x41 + 10)
  else none

/-- The character of an escape of one letter. -/
def simpleEscape (c : UInt8) : Option Nat :=
  if c = 0x22 ∨ c = 0x5c ∨ c = 0x2f then some c.toNat
  else if c = 0x62 then some 0x08
  else if c = 0x66 then some 0x0c
  else if c = 0x6e then some 0x0a
  else if c = 0x72 then some 0x0d
  else if c = 0x74 then some 0x09
  else none

/-- The low bits of a byte that goes on with a character. -/
def following (c : UInt8) : Option Nat :=
  if 0x80 ≤ c ∧ c ≤ 0xbf then some (c.toNat - 0x80) else none

/-- A string's characters up to its closing quote, and what is behind it. -/
def readStr : List UInt8 → Option (List Nat × List UInt8)
  | [] => none
  | c :: s =>
    if c = 0x22 then some ([], s)
    else if c = 0x5c then
      match s with
      | [] => none
      | 0x75 :: h1 :: h2 :: h3 :: h4 :: s => do
        let u := (← hexVal h1) * 4096 + (← hexVal h2) * 256 + (← hexVal h3) * 16 + (← hexVal h4)
        let (t, rest) ← readStr s
        some (u :: t, rest)
      | e :: s => do
        let u ← simpleEscape e
        let (t, rest) ← readStr s
        some (u :: t, rest)
    else if c < 0x20 then none
    else if c < 0x80 then do
      let (t, rest) ← readStr s
      some (c.toNat :: t, rest)
    else if 0xc2 ≤ c ∧ c ≤ 0xdf then
      match s with
      | b1 :: s => do
        let u := (c.toNat - 0xc0) * 64 + (← following b1)
        let (t, rest) ← readStr s
        some (u :: t, rest)
      | _ => none
    else if 0xe0 ≤ c ∧ c ≤ 0xef then
      match s with
      | b1 :: b2 :: s => do
        let u := (c.toNat - 0xe0) * 4096 + (← following b1) * 64 + (← following b2)
        if u < 0x800 ∨ (0xd800 ≤ u ∧ u ≤ 0xdfff) then none
        else
          let (t, rest) ← readStr s
          some (u :: t, rest)
      | _ => none
    else if 0xf0 ≤ c ∧ c ≤ 0xf4 then
      match s with
      | b1 :: b2 :: b3 :: s => do
        let u := (c.toNat - 0xf0) * 262144 + (← following b1) * 4096 + (← following b2) * 64 +
          (← following b3)
        if u < 0x10000 ∨ u > 0x10ffff then none
        else
          let (t, rest) ← readStr s
          some (u :: t, rest)
      | _ => none
    else none

-- ---------------------------------------------------------------------------
-- Numbers and words
-- ---------------------------------------------------------------------------

/-- At least one digit. -/
def readDigits (s : List UInt8) : Option (List UInt8 × List UInt8) :=
  let ds := s.takeWhile isDigit
  if ds = [] then none else some (ds, s.drop ds.length)

/-- A fraction, when there is a point. -/
def readFraction (s : List UInt8) : Option (List UInt8 × List UInt8) :=
  match s with
  | 0x2e :: s => (readDigits s).map fun (ds, rest) => (0x2e :: ds, rest)
  | s => some ([], s)

def readExponent (s : List UInt8) : Option (List UInt8 × List UInt8) :=
  match s with
  | e :: s =>
    if e = 0x65 ∨ e = 0x45 then
      match s with
      | sign :: s' =>
        if sign = 0x2b ∨ sign = 0x2d then (readDigits s').map fun (ds, rest) => (e :: sign :: ds, rest)
        else (readDigits s).map fun (ds, rest) => (e :: ds, rest)
      | [] => none
    else some ([], e :: s)
  | [] => some ([], [])

/-- A number without its sign. -/
def readMagnitude (s : List UInt8) : Option (List UInt8 × List UInt8) := do
  let (ds, s) ← readDigits s
  if ds.head? = some 0x30 ∧ ds.length ≠ 1 then none
  else
    let (fs, s) ← readFraction s
    let (es, s) ← readExponent s
    some (ds ++ fs ++ es, s)

def readNumber (s : List UInt8) : Option (List UInt8 × List UInt8) :=
  match s with
  | 0x2d :: s => (readMagnitude s).map fun (t, rest) => (0x2d :: t, rest)
  | s => readMagnitude s

def readWord (s : List UInt8) : Option (Value × List UInt8) :=
  if ascii "null" <+: s then some (.null, s.drop 4)
  else if ascii "true" <+: s then some (.bool true, s.drop 4)
  else if ascii "false" <+: s then some (.bool false, s.drop 5)
  else (readNumber s).map fun (t, rest) => (.num t, rest)

-- ---------------------------------------------------------------------------
-- Values
-- ---------------------------------------------------------------------------

def isBlank (c : UInt8) : Bool := c = 0x20 ∨ c = 0x09 ∨ c = 0x0a ∨ c = 0x0d

def skip (s : List UInt8) : List UInt8 := s.dropWhile isBlank

mutual
/-- A value and what is behind it, in as many steps as there may be. -/
def readValue : Nat → List UInt8 → Option (Value × List UInt8)
  | 0, _ => none
  | n + 1, s =>
    match skip s with
    | 0x22 :: s => (readStr s).map fun (t, rest) => (.str t, rest)
    | 0x5b :: s =>
      match skip s with
      | 0x5d :: rest => some (.arr [], rest)
      | s => (readItems n s).map fun (vs, rest) => (.arr vs, rest)
    | 0x7b :: s =>
      match skip s with
      | 0x7d :: rest => some (.obj [], rest)
      | s => (readMembers n s).map fun (ms, rest) => (.obj ms, rest)
    | s => readWord s
/-- Up to the closing bracket. -/
def readItems : Nat → List UInt8 → Option (List Value × List UInt8)
  | 0, _ => none
  | n + 1, s => do
    let (v, s) ← readValue n s
    match skip s with
    | 0x2c :: s => do
      let (vs, rest) ← readItems n s
      some (v :: vs, rest)
    | 0x5d :: rest => some ([v], rest)
    | _ => none
/-- Up to the closing brace. -/
def readMembers : Nat → List UInt8 → Option (List (List Nat × Value) × List UInt8)
  | 0, _ => none
  | n + 1, s =>
    match skip s with
    | 0x22 :: s => do
      let (k, s) ← readStr s
      match skip s with
      | 0x3a :: s => do
        let (v, s) ← readValue n s
        match skip s with
        | 0x2c :: s => do
          let (ms, rest) ← readMembers n s
          some ((k, v) :: ms, rest)
        | 0x7d :: rest => some ([(k, v)], rest)
        | _ => none
      | _ => none
    | _ => none
end

/-- A whole text. -/
def readJson (s : List UInt8) : Option Value := do
  let (v, rest) ← readValue (s.length + 1) s
  if skip rest = [] then some v else none

-- ---------------------------------------------------------------------------
-- Texts without blanks
-- ---------------------------------------------------------------------------

def hexByte (d : Nat) : UInt8 := UInt8.ofNat (Nat.digitChar d).toNat

/-- The escape of a number of four hexadecimal digits. -/
def unicode (u : Nat) : List UInt8 :=
  [0x5c, 0x75, hexByte (u / 4096), hexByte (u / 256 % 16), hexByte (u / 16 % 16), hexByte (u % 16)]

/-- The bytes of a character above the ASCII ones. -/
inductive Utf8 : Nat → List UInt8 → Prop
  | two (hc : 0xc2 ≤ c ∧ c ≤ 0xdf) (hb : following b = some x) :
      Utf8 ((c.toNat - 0xc0) * 64 + x) [c, b]
  | three (hc : 0xe0 ≤ c ∧ c ≤ 0xef) (hb : following b = some x) (hb' : following b' = some y)
      (hu : u = (c.toNat - 0xe0) * 4096 + x * 64 + y)
      (hok : ¬(u < 0x800 ∨ (0xd800 ≤ u ∧ u ≤ 0xdfff))) : Utf8 u [c, b, b']
  | four (hc : 0xf0 ≤ c ∧ c ≤ 0xf4) (hb : following b = some x) (hb' : following b' = some y)
      (hb'' : following b'' = some z) (hu : u = (c.toNat - 0xf0) * 262144 + x * 4096 + y * 64 + z)
      (hok : ¬(u < 0x10000 ∨ u > 0x10ffff)) : Utf8 u [c, b, b', b'']

inductive SpellsStr : List Nat → List UInt8 → Prop
  | nil : SpellsStr [] []
  | plain (hc : 0x20 ≤ c ∧ c < 0x80 ∧ c ≠ 0x22 ∧ c ≠ 0x5c) (h : SpellsStr s t) :
      SpellsStr (c.toNat :: s) (c :: t)
  | quoted (hc : c = 0x22 ∨ c = 0x5c) (h : SpellsStr s t) : SpellsStr (c.toNat :: s) (0x5c :: c :: t)
  | unicode (hu : u < 2 ^ 16) (h : SpellsStr s t) : SpellsStr (u :: s) (unicode u ++ t)
  | utf8 (hu : Utf8 u b) (h : SpellsStr s t) : SpellsStr (u :: s) (b ++ t)

/-- Bytes that are UTF-8 throughout. -/
inductive Utf8Text : List UInt8 → Prop
  | nil : Utf8Text []
  | ascii (hc : c < 0x80) (h : Utf8Text t) : Utf8Text (c :: t)
  | high (hu : Utf8 u b) (h : Utf8Text t) : Utf8Text (b ++ t)

mutual
inductive Spells : Value → List UInt8 → Prop
  | null : Spells .null (ascii "null")
  | yes : Spells (.bool true) (ascii "true")
  | no : Spells (.bool false) (ascii "false")
  | nat (n : Nat) : Spells (.num (decimal n)) (decimal n)
  | neg (n : Nat) : Spells (.num (0x2d :: decimal n)) (0x2d :: decimal n)
  | str (h : SpellsStr s t) : Spells (.str s) (0x22 :: (t ++ [0x22]))
  | noItems : Spells (.arr []) [0x5b, 0x5d]
  | arr (h : SpellsItems vs t) : Spells (.arr vs) (0x5b :: (t ++ [0x5d]))
  | noMembers : Spells (.obj []) [0x7b, 0x7d]
  | obj (h : SpellsMembers ms t) : Spells (.obj ms) (0x7b :: (t ++ [0x7d]))
inductive SpellsItems : List Value → List UInt8 → Prop
  | last (h : Spells v t) : SpellsItems [v] t
  | cons (h : Spells v t) (hs : SpellsItems vs u) : SpellsItems (v :: vs) (t ++ 0x2c :: u)
inductive SpellsMembers : List (List Nat × Value) → List UInt8 → Prop
  | last (hk : SpellsStr k q) (h : Spells v t) :
      SpellsMembers [(k, v)] (0x22 :: (q ++ 0x22 :: 0x3a :: t))
  | cons (hk : SpellsStr k q) (h : Spells v t) (hs : SpellsMembers ms u) :
      SpellsMembers ((k, v) :: ms) (0x22 :: (q ++ 0x22 :: 0x3a :: (t ++ 0x2c :: u)))
end

/-- Members, each behind a comma. -/
inductive SpellsMore : List (List Nat × Value) → List UInt8 → Prop
  | nil : SpellsMore [] []
  | cons (hk : SpellsStr k q) (h : Spells v t) (hs : SpellsMore ms u) :
      SpellsMore ((k, v) :: ms) (0x2c :: 0x22 :: (q ++ 0x22 :: 0x3a :: (t ++ u)))

theorem SpellsMore.append (h : SpellsMore ms t) (h' : SpellsMore ms' t') :
    SpellsMore (ms ++ ms') (t ++ t') := by
  induction h with
  | nil => exact h'
  | cons hk h hs ih =>
    have hall := SpellsMore.cons hk h ih
    simpa using hall

theorem SpellsMore.members (hs : SpellsMore ms u) (hk : SpellsStr k q) (h : Spells v t) :
    SpellsMembers ((k, v) :: ms) (0x22 :: (q ++ 0x22 :: 0x3a :: (t ++ u))) := by
  induction hs generalizing k q v t with
  | nil =>
    rw [List.append_nil]
    exact .last hk h
  | cons hk' h' hs ih => exact .cons hk h (ih hk' h')

theorem SpellsMembers.more {ms ms' : List (List Nat × Value)} {t u : List UInt8}
    (h : SpellsMembers ms t) (h' : SpellsMore ms' u) : SpellsMembers (ms ++ ms') (t ++ u) := by
  match h with
  | .last hk h =>
    have hall := h'.members hk h
    simpa using hall
  | .cons hk h hs =>
    have hall := SpellsMembers.cons hk h (hs.more h')
    simpa using hall

theorem utf8Text_ascii (h : ∀ c ∈ t, c < 0x80) : Utf8Text t := by
  induction t with
  | nil => exact .nil
  | cons c t ih =>
    rw [List.forall_mem_cons] at h
    exact .ascii h.1 (ih h.2)

-- ---------------------------------------------------------------------------
-- What is spelled is read
-- ---------------------------------------------------------------------------

theorem hexVal_hexByte : ∀ d < 16, hexVal (hexByte d) = some d := by decide

-- the equations are made here, before the lemmas that share them
attribute [local simp] readStr in
theorem readStr_unicode (hu : u < 2 ^ 16) (s : List UInt8) :
    readStr (unicode u ++ s) = (readStr s).map fun (t, rest) => (u :: t, rest) := by
  have h1 := hexVal_hexByte (u / 4096) (by omega)
  have h2 := hexVal_hexByte (u / 256 % 16) (by omega)
  have h3 := hexVal_hexByte (u / 16 % 16) (by omega)
  have h4 := hexVal_hexByte (u % 16) (by omega)
  have hsum : u / 4096 * 4096 + u / 256 % 16 * 256 + u / 16 % 16 * 16 + u % 16 = u := by omega
  rw [unicode]
  simp only [List.cons_append, List.nil_append]
  rw [readStr, if_neg (by decide), if_pos rfl]
  simp only [h1, h2, h3, h4, Option.bind_eq_bind, Option.bind_some, hsum]
  cases readStr s <;> rfl

theorem readStr_quoted (hc : c = 0x22 ∨ c = 0x5c) (s : List UInt8) :
    readStr (0x5c :: c :: s) = (readStr s).map fun (t, rest) => (c.toNat :: t, rest) := by
  have hne : c ≠ 0x75 := by
    rintro rfl
    exact absurd hc (by decide)
  have hescape : simpleEscape c = some c.toNat := by
    obtain rfl | rfl := hc
    · rfl
    · rfl
  rw [readStr, if_neg (by decide), if_pos rfl]
  · rw [hescape]
    cases readStr s <;> rfl
  · intro h1 h2 h3 h4 s' hc' hs'
    exact hne hc'

theorem readStr_plain (hc : 0x20 ≤ c ∧ c < 0x80 ∧ c ≠ 0x22 ∧ c ≠ 0x5c) (s : List UInt8) :
    readStr (c :: s) = (readStr s).map fun (t, rest) => (c.toNat :: t, rest) := by
  obtain ⟨hlo, hhi, hquote, hslash⟩ := hc
  rw [readStr.eq_def]
  simp only [if_neg hquote, if_neg hslash, if_neg (UInt8.not_lt.mpr hlo), if_pos hhi]
  cases readStr s <;> rfl

theorem following_high (h : following b = some x) : 0x80 ≤ b := by
  rw [following] at h
  split at h
  · rename_i hb
    exact hb.1
  · cases h

theorem Utf8.high (h : Utf8 u b) : ∀ c ∈ b, 0x80 ≤ c := by
  have hlead : ∀ {c lo : UInt8}, 0x80 ≤ lo → lo ≤ c → 0x80 ≤ c := UInt8.le_trans
  cases h with
  | two hc hb => simp [hlead (by decide) hc.1, following_high hb]
  | three hc hb hb' => simp [hlead (by decide) hc.1, following_high hb, following_high hb']
  | four hc hb hb' hb'' =>
    simp [hlead (by decide) hc.1, following_high hb, following_high hb', following_high hb'']

theorem readStr_utf8 (h : Utf8 u b) (s : List UInt8) :
    readStr (b ++ s) = (readStr s).map fun (t, rest) => (u :: t, rest) := by
  have hnot : ∀ {c lo d : UInt8}, d < lo → lo ≤ c → c ≠ d := by
    rintro c lo d hd hc rfl
    exact absurd hc (UInt8.not_le.mpr hd)
  have hge : ∀ {c lo d : UInt8}, d ≤ lo → lo ≤ c → ¬c < d := by
    intro c lo d hd hc
    exact UInt8.not_lt.mpr (UInt8.le_trans hd hc)
  have hout : ∀ {c lo d e : UInt8}, e < lo → lo ≤ c → ¬(d ≤ c ∧ c ≤ e) := by
    rintro c lo d e he hc ⟨-, hce⟩
    exact absurd (UInt8.le_trans hc hce) (UInt8.not_le.mpr he)
  cases h with
  | two hc hb =>
    rw [List.cons_append, readStr.eq_def]
    simp only [if_neg (hnot (d := 0x22) (by decide) hc.1), if_neg (hnot (d := 0x5c) (by decide) hc.1),
      if_neg (hge (d := 0x20) (by decide) hc.1), if_neg (hge (d := 0x80) (by decide) hc.1), if_pos hc,
      List.cons_append, List.nil_append, hb, Option.bind_eq_bind, Option.bind_some]
    cases readStr s <;> rfl
  | three hc hb hb' hu hok =>
    subst hu
    rw [List.cons_append, readStr.eq_def]
    simp only [if_neg (hnot (d := 0x22) (by decide) hc.1), if_neg (hnot (d := 0x5c) (by decide) hc.1),
      if_neg (hge (d := 0x20) (by decide) hc.1), if_neg (hge (d := 0x80) (by decide) hc.1),
      if_neg (hout (d := 0xc2) (e := 0xdf) (by decide) hc.1), if_pos hc, List.cons_append,
      List.nil_append, hb, hb', Option.bind_eq_bind, Option.bind_some, if_neg hok]
    cases readStr s <;> rfl
  | four hc hb hb' hb'' hu hok =>
    subst hu
    rw [List.cons_append, readStr.eq_def]
    simp only [if_neg (hnot (d := 0x22) (by decide) hc.1), if_neg (hnot (d := 0x5c) (by decide) hc.1),
      if_neg (hge (d := 0x20) (by decide) hc.1), if_neg (hge (d := 0x80) (by decide) hc.1),
      if_neg (hout (d := 0xc2) (e := 0xdf) (by decide) hc.1),
      if_neg (hout (d := 0xe0) (e := 0xef) (by decide) hc.1), if_pos hc, List.cons_append,
      List.nil_append, hb, hb', hb'', Option.bind_eq_bind]
    -- by steps: the kernel would compare the sums of different steps by unfolding them
    rw [Option.bind_some, Option.bind_some, Option.bind_some, if_neg hok]
    cases readStr s <;> rfl

/-- A string's text and its closing quote. -/
theorem SpellsStr.read (h : SpellsStr s t) (rest : List UInt8) :
    readStr (t ++ 0x22 :: rest) = some (s, rest) := by
  induction h with
  | nil =>
    rw [List.nil_append, readStr.eq_def]
    rfl
  | plain hc h ih => rw [List.cons_append, readStr_plain hc, ih, Option.map_some]
  | quoted hc h ih => rw [List.cons_append, List.cons_append, readStr_quoted hc, ih, Option.map_some]
  | unicode hu h ih => rw [List.append_assoc, readStr_unicode hu, ih, Option.map_some]
  | utf8 hu h ih => rw [List.append_assoc, readStr_utf8 hu, ih, Option.map_some]

/-- What is behind a value does not go on with a number. -/
def Stops (rest : List UInt8) : Prop :=
  ∀ c ∈ rest.head?, isDigit c = false ∧ c ≠ 0x2e ∧ c ≠ 0x65 ∧ c ≠ 0x45

theorem stops_cons (h : isDigit c = false ∧ c ≠ 0x2e ∧ c ≠ 0x65 ∧ c ≠ 0x45) (rest : List UInt8) :
    Stops (c :: rest) := by
  rintro d hd
  obtain rfl : c = d := Option.some.inj hd
  exact h

theorem stops_comma (rest : List UInt8) : Stops (0x2c :: rest) := stops_cons (by decide) rest

theorem stops_bracket (rest : List UInt8) : Stops (0x5d :: rest) := stops_cons (by decide) rest

theorem stops_brace (rest : List UInt8) : Stops (0x7d :: rest) := stops_cons (by decide) rest

theorem readDigits_append (hds : ∀ c ∈ ds, isDigit c = true) (hne : ds ≠ []) (h : Stops rest) :
    readDigits (ds ++ rest) = some (ds, rest) := by
  have htake : (ds ++ rest).takeWhile isDigit = ds := by
    rw [List.takeWhile_append_of_pos hds]
    cases rest with
    | nil => simp
    | cons c rest => simp [(h c rfl).1]
  rw [readDigits, htake, if_neg hne, List.drop_left]

theorem decimal_ne_nil (n : Nat) : decimal n ≠ [] := by
  rw [decimal]
  simp [Nat.toDigits_ne_nil]

/-- No leading zero. -/
theorem decimal_head (n : Nat) : ¬((decimal n).head? = some 0x30 ∧ (decimal n).length ≠ 1) := by
  induction n using Nat.strongRecOn with
  | ind n ih =>
    by_cases h : n < 10
    · rw [decimal_of_lt h]
      simp
    · rw [decimal_of_ge (by omega), List.head?_append_of_ne_nil _ (decimal_ne_nil _)]
      by_cases hten : n / 10 < 10
      · rw [decimal_of_lt hten]
        rintro ⟨hzero, -⟩
        have hpos : ∀ d < 10, 0 < d → UInt8.ofNat (48 + d) ≠ 0x30 := by decide
        exact hpos (n / 10) hten (by omega) (Option.some.inj hzero)
      · rintro ⟨hzero, -⟩
        refine ih (n / 10) (by omega) ⟨hzero, ?_⟩
        rw [decimal_of_ge (by omega), List.length_append]
        have h1 := List.length_pos_of_ne_nil (decimal_ne_nil (n / 10 / 10))
        have h2 := List.length_pos_of_ne_nil (decimal_ne_nil (n / 10 % 10))
        omega

theorem readMagnitude_decimal (n : Nat) (h : Stops rest) :
    readMagnitude (decimal n ++ rest) = some (decimal n, rest) := by
  have hfraction : readFraction rest = some ([], rest) := by
    cases rest with
    | nil => rfl
    | cons c rest =>
      rw [readFraction]
      rintro s hc
      exact absurd (List.cons.inj hc).1 (h c rfl).2.1
  have hexponent : readExponent rest = some ([], rest) := by
    cases rest with
    | nil => rfl
    | cons c rest =>
      have hc := (h c rfl).2.2
      rw [readExponent.eq_def]
      simp only [hc.1, hc.2, or_self, if_false]
  rw [readMagnitude, readDigits_append (decimal_digits n) (decimal_ne_nil n) h]
  simp only [Option.bind_eq_bind, Option.bind_some, if_neg (decimal_head n), hfraction, hexponent,
    List.append_nil]

/-- A number begins with a digit, which no word does. -/
theorem digit_first (n : Nat) : ∃ c t, decimal n = c :: t ∧ isDigit c = true := by
  obtain ⟨c, t, hct⟩ := List.exists_cons_of_ne_nil (decimal_ne_nil n)
  exact ⟨c, t, hct, decimal_digits n c (by rw [hct]; exact List.mem_cons_self ..)⟩

theorem readWord_number (hc : isDigit c = true ∨ c = 0x2d) (t : List UInt8) :
    readWord (c :: t) = (readNumber (c :: t)).map fun (t, rest) => (.num t, rest) := by
  have hne : c ≠ 0x6e ∧ c ≠ 0x74 ∧ c ≠ 0x66 := by
    refine ⟨?_, ?_, ?_⟩
    all_goals
      rintro rfl
      revert hc
      decide
  have hnot : ∀ (d : UInt8) (ds : List UInt8), c ≠ d → ¬(d :: ds) <+: (c :: t) := by
    intro d ds hd hpre
    exact hd (List.cons_prefix_cons.mp hpre).1.symm
  rw [readWord, if_neg (show ¬ascii "null" <+: c :: t from hnot 0x6e (ascii "ull") hne.1),
    if_neg (show ¬ascii "true" <+: c :: t from hnot 0x74 (ascii "rue") hne.2.1),
    if_neg (show ¬ascii "false" <+: c :: t from hnot 0x66 (ascii "alse") hne.2.2)]

theorem readWord_nat (n : Nat) (h : Stops rest) :
    readWord (decimal n ++ rest) = some (.num (decimal n), rest) := by
  obtain ⟨c, t, hct, hc⟩ := digit_first n
  have hread := readMagnitude_decimal n h
  have hnumber : readNumber (decimal n ++ rest) = some (decimal n, rest) := by
    rw [← hread, readNumber]
    rintro s hs
    rw [hct, List.cons_append] at hs
    obtain rfl := (List.cons.inj hs).1
    exact absurd hc (by decide)
  rw [hct, List.cons_append] at hnumber ⊢
  rw [readWord_number (.inl hc), hnumber, Option.map_some]

theorem readWord_neg (n : Nat) (h : Stops rest) :
    readWord (0x2d :: decimal n ++ rest) = some (.num (0x2d :: decimal n), rest) := by
  rw [List.cons_append, readWord_number (.inr rfl), readNumber, readMagnitude_decimal n h]
  rfl

theorem skip_of {c : UInt8} (h : isBlank c = false) (s : List UInt8) : skip (c :: s) = c :: s := by
  rw [skip, List.dropWhile_cons_of_neg (by simp [h])]

theorem readValue_word (hb : isBlank c = false) (hc : c ≠ 0x22 ∧ c ≠ 0x5b ∧ c ≠ 0x7b) (n : Nat)
    (s : List UInt8) : readValue (n + 1) (c :: s) = readWord (c :: s) := by
  rw [readValue, skip_of hb]
  split
  · rename_i h
    exact absurd (List.cons.inj h).1 hc.1
  · rename_i h
    exact absurd (List.cons.inj h).1 hc.2.1
  · rename_i h
    exact absurd (List.cons.inj h).1 hc.2.2
  · rfl

theorem readValue_items (hb : isBlank c = false) (hc : c ≠ 0x5d) (n : Nat) (s : List UInt8) :
    readValue (n + 1) (0x5b :: c :: s) =
      (readItems n (c :: s)).map fun (vs, rest) => (.arr vs, rest) := by
  rw [readValue, skip_of (by decide)]
  simp only [skip_of hb]
  split
  · rename_i h
    exact absurd (List.cons.inj h).1 hc
  · rfl

theorem readValue_members (n : Nat) (s : List UInt8) :
    readValue (n + 1) (0x7b :: 0x22 :: s) =
      (readMembers n (0x22 :: s)).map fun (ms, rest) => (.obj ms, rest) := by
  rw [readValue, skip_of (by decide)]
  simp only [skip_of (show isBlank 0x22 = false by decide)]
  rfl

theorem digit_byte (h : isDigit c = true) :
    isBlank c = false ∧ (c ≠ 0x22 ∧ c ≠ 0x5b ∧ c ≠ 0x7b) ∧ c ≠ 0x5d := by
  refine ⟨?_, ⟨?_, ?_, ?_⟩, ?_⟩
  · rw [isBlank, decide_eq_false_iff_not]
    rintro (rfl | rfl | rfl | rfl)
    all_goals exact absurd h (by decide)
  all_goals
    rintro rfl
    exact absurd h (by decide)

/-- What a value's text begins with. -/
theorem Spells.first (h : Spells v t) : ∃ c t', t = c :: t' ∧ isBlank c = false ∧ c ≠ 0x5d := by
  cases h with
  | null => exact ⟨0x6e, _, rfl, by decide, by decide⟩
  | yes => exact ⟨0x74, _, rfl, by decide, by decide⟩
  | no => exact ⟨0x66, _, rfl, by decide, by decide⟩
  | nat n =>
    obtain ⟨c, t', hct, hc⟩ := digit_first n
    exact ⟨c, t', hct, (digit_byte hc).1, (digit_byte hc).2.2⟩
  | neg n => exact ⟨0x2d, _, rfl, by decide, by decide⟩
  | str h => exact ⟨0x22, _, rfl, by decide, by decide⟩
  | noItems => exact ⟨0x5b, _, rfl, by decide, by decide⟩
  | arr h => exact ⟨0x5b, _, rfl, by decide, by decide⟩
  | noMembers => exact ⟨0x7b, _, rfl, by decide, by decide⟩
  | obj h => exact ⟨0x7b, _, rfl, by decide, by decide⟩

theorem SpellsItems.first (h : SpellsItems vs t) :
    ∃ c t', t = c :: t' ∧ isBlank c = false ∧ c ≠ 0x5d := by
  cases h with
  | last h => exact h.first
  | cons h hs =>
    obtain ⟨c, t', rfl, hc⟩ := h.first
    exact ⟨c, _, rfl, hc⟩

theorem SpellsMembers.first (h : SpellsMembers ms t) : ∃ t', t = 0x22 :: t' := by
  cases h with
  | last hk h => exact ⟨_, rfl⟩
  | cons hk h hs => exact ⟨_, rfl⟩

mutual
/-- A value's text is read as the value, whatever stops behind it. -/
theorem Spells.read {v : Value} {t : List UInt8} {n : Nat} (h : Spells v t) (hn : t.length < n)
    (r : List UInt8) (hr : Stops r) : readValue n (t ++ r) = some (v, r) := by
  obtain ⟨n, rfl⟩ : ∃ m, n = m + 1 := ⟨n - 1, by omega⟩
  match h with
  | .null => exact readValue_word (c := 0x6e) (by decide) (by decide) n _
  | .yes => exact readValue_word (c := 0x74) (by decide) (by decide) n _
  | .no => exact readValue_word (c := 0x66) (by decide) (by decide) n _
  | .nat k =>
    have hword := readWord_nat k hr
    obtain ⟨c, t', hct, hc⟩ := digit_first k
    rw [hct, List.cons_append] at hword ⊢
    rw [readValue_word (digit_byte hc).1 (digit_byte hc).2.1, hword]
  | .neg k =>
    rw [List.cons_append, readValue_word (by decide) (by decide)]
    exact readWord_neg k hr
  | .str (t := t) h =>
    rw [List.cons_append, List.append_assoc, List.singleton_append, readValue, skip_of (by decide)]
    simp only [h.read, Option.map_some]
  | .noItems => rfl
  | .noMembers => rfl
  | .arr (t := t) h =>
    rw [List.length_cons, List.length_append, List.length_singleton] at hn
    have hitems := h.read (show t.length + 1 < n by omega) r
    obtain ⟨c, t', rfl, hb, hc⟩ := h.first
    simp only [List.cons_append, List.append_assoc, List.nil_append] at hitems ⊢
    rw [readValue_items hb hc, hitems, Option.map_some]
  | .obj (t := t) h =>
    rw [List.length_cons, List.length_append, List.length_singleton] at hn
    have hmembers := h.read (show t.length + 1 < n by omega) r
    obtain ⟨t', rfl⟩ := h.first
    simp only [List.cons_append, List.append_assoc, List.nil_append] at hmembers ⊢
    rw [readValue_members, hmembers, Option.map_some]
theorem SpellsItems.read {vs : List Value} {t : List UInt8} {n : Nat} (h : SpellsItems vs t)
    (hn : t.length + 1 < n) (r : List UInt8) : readItems n (t ++ 0x5d :: r) = some (vs, r) := by
  obtain ⟨n, rfl⟩ : ∃ m, n = m + 1 := ⟨n - 1, by omega⟩
  match h with
  | .last h =>
    rw [readItems, h.read (by omega) _ (stops_bracket r)]
    rfl
  | .cons (t := t) (u := u) h hs =>
    rw [List.length_append, List.length_cons] at hn
    have hvalue := h.read (show t.length < n by omega) _ (stops_comma (u ++ 0x5d :: r))
    have hrest := hs.read (show u.length + 1 < n by omega) r
    rw [List.append_assoc, List.cons_append, readItems, hvalue]
    simp only [Option.bind_eq_bind, Option.bind_some, skip_of (show isBlank 0x2c = false by decide),
      hrest]
theorem SpellsMembers.read {ms : List (List Nat × Value)} {t : List UInt8} {n : Nat}
    (h : SpellsMembers ms t) (hn : t.length + 1 < n) (r : List UInt8) :
    readMembers n (t ++ 0x7d :: r) = some (ms, r) := by
  obtain ⟨n, rfl⟩ : ∃ m, n = m + 1 := ⟨n - 1, by omega⟩
  have hquote : isBlank 0x22 = false := by decide
  have hcolon : isBlank 0x3a = false := by decide
  have hcomma : isBlank 0x2c = false := by decide
  have hbrace : isBlank 0x7d = false := by decide
  match h with
  | .last (t := t) hk h =>
    simp only [List.length_cons, List.length_append] at hn
    have hvalue := h.read (show t.length < n by omega) _ (stops_brace r)
    simp only [List.cons_append, List.append_assoc]
    rw [readMembers]
    simp only [skip_of hquote, hk.read, Option.bind_eq_bind, Option.bind_some, skip_of hcolon, hvalue,
      skip_of hbrace]
  | .cons (t := t) (u := u) hk h hs =>
    simp only [List.length_cons, List.length_append] at hn
    have hvalue := h.read (show t.length < n by omega) _ (stops_comma (u ++ 0x7d :: r))
    have hrest := hs.read (show u.length + 1 < n by omega) r
    simp only [List.cons_append, List.append_assoc]
    rw [readMembers]
    simp only [skip_of hquote, hk.read, Option.bind_eq_bind, Option.bind_some, skip_of hcolon, hvalue,
      skip_of hcomma, hrest]
end

/-- A whole text spelled is read whole. -/
theorem Spells.readJson (h : Spells v t) : readJson t = some v := by
  have hread := h.read (Nat.lt_succ_self _) [] (by simp [Stops])
  rw [List.append_nil] at hread
  rw [JsonRead.readJson, hread]
  rfl

end WebAdf.Lib.JsonRead
