import WebAdf.Browse.Answers
import WebAdf.Lib.JsonRead
import WebAdf.Receive.Uploads
import WebAdf.Send.Board

/-!
# The board's reading of a PUT line

A PUT line is what Transfer offers: its tag, the file's size, date, protection,
path and comment. The board keeps the line, and when the upload's turn comes makes
the body of the server's request of it, with every byte that is not plain ASCII as
an escape.
-/

namespace WebAdf.Offers

open Lib Receive
open Send (word dec32 hex32 lenfield)

def asTagMax : Nat := 9
def asUpJsonMax : Nat := 2200
def arRidMax : Nat := 40

structure Put where
  tag : Bytes
  size : Nat
  date : Bytes
  prot : Nat
  path : Bytes
  comment : Bytes

-- ---------------------------------------------------------------------------
-- The line
-- ---------------------------------------------------------------------------

/-- The points of a date, each between digits; `barred` where none may stand. -/
def datePoints (barred : Bool) : Bytes → Option Nat
  | [] => some 0
  | c :: s =>
    if c = dot then
      if barred || s.isEmpty then none else (datePoints true s).map (· + 1)
    else if isDigit c then datePoints false s
    else none

/-- `"<days>.<mins>.<ticks>"`, in fewer bytes than the board has for it. -/
def dateOk (t : Bytes) : Bool := 5 ≤ t.length && t.length < 24 && datePoints true t == some 2

/-- The path, the comment, and nothing behind them. -/
def putNames (p : Bytes) : Option (Bytes × Bytes) :=
  match lenfield p with
  | none => none
  | some path =>
    if path.text.length < 1 ∨ path.text.length > 255 then none
    else
      match lenfield path.rest with
      | none => none
      | some comment =>
        if comment.text.length > 79 ∨ comment.rest ≠ [] then none
        else some (path.text, comment.text)

def putParse (line : Bytes) : Option Put :=
  if ascii "PUT " <+: line then
    let (tag, p) := word (line.drop 4)
    if tag.length < 1 ∨ tag.length > asTagMax ∨ !tag.all isDigit then none
    else
      let (size, p) := word p
      match dec32 size with
      | none => none
      | some size =>
        let (date, p) := word p
        if !dateOk date then none
        else
          let (prot, p) := word p
          match hex32 prot, putNames p with
          | some prot, some (path, comment) => some ⟨tag, size, date, prot, path, comment⟩
          | _, _ => none
  else none

-- ---------------------------------------------------------------------------
-- The request's body
-- ---------------------------------------------------------------------------

def escapeByte (c : UInt8) : Bytes :=
  if c = 0x22 ∨ c = 0x5c then [0x5c, c]
  else if c < 0x20 ∨ c ≥ 0x7f then JsonRead.unicode c.toNat
  else [c]

/-- Cut to fit, never half an escape; `o` bytes are written. -/
def escapeFrom (cap o : Nat) : Bytes → Bytes
  | [] => []
  | c :: s =>
    if o + (escapeByte c).length ≥ cap then []
    else escapeByte c ++ escapeFrom cap (o + (escapeByte c).length) s

def jsonEscape (cap : Nat) (s : Bytes) : Bytes := escapeFrom cap 0 s

/-- Up to the quote that opens the path. -/
def putJsonHead (p : Put) : Bytes :=
  0x7b :: (ascii "\"size\":" ++ decimal p.size ++ ascii ",\"date\":\"" ++ p.date ++
    ascii "\",\"protection\":" ++ decimal p.prot ++ ascii ",\"path\":\"")

def putJsonTail : Option Bytes → Bytes
  | none => ascii "\"\x7d"
  | some rid => ascii "\",\"request\":\"" ++ rid ++ ascii "\"\x7d"

/-- `none` where the names might be cut or a piece would not fit. -/
def putJson (p : Put) (request : Option Bytes) (cap : Nat) : Option Bytes :=
  let head := putJsonHead p
  if head.length ≥ cap then none
  else
    let rn := request.elim 0 fun rid => min rid.length (arRidMax + 1)
    if rn > arRidMax then none
    else if p.path.length * 6 + p.comment.length * 6 + rn + head.length + 34 > cap then none
    else
      let o := head ++ jsonEscape (cap - head.length) p.path
      let mid := ascii "\",\"comment\":\""
      if o.length + mid.length ≥ cap then none
      else
        let o := o ++ mid
        let o := o ++ jsonEscape (cap - o.length) p.comment
        let tail := putJsonTail request
        if o.length + tail.length ≥ cap then none else some (o ++ tail)

end WebAdf.Offers

/-!
# A PUT line and its readers

The line Transfer puts for a file is read by the board with the values it was made
of, unless the file's date has too many digits: `up_put` writes the date as the
file has it, and the board keeps 23 bytes of one. The body the board makes of the
line holds the same values as JSON, whole.
-/

namespace WebAdf.Offers

open Lib Receive
open Send (word_word word_end dec32_decimal hex32_numeral lenfield_counted lenfield_counted_end
  asLineMax)
open Send.Entry (numeral_print counted_print cons_print append_print)

-- ---------------------------------------------------------------------------
-- The line
-- ---------------------------------------------------------------------------

def putDate (f : Finfo) : Bytes :=
  decimal f.days ++ dot :: (decimal f.mins ++ dot :: decimal f.ticks)

/-- A comment as it goes out. -/
def putComment (f : Finfo) : Bytes := clean f.comment (commentMax + 1)

/-- The line for an item, without its newline. -/
def putText (it : UpItem) (f : Finfo) : Bytes :=
  ascii "PUT " ++ (decimal it.tag ++ blank :: (decimal f.size ++ blank :: (putDate f ++ blank ::
    (numeral 16 f.prot ++ blank :: (counted it.name ++ blank :: counted (putComment f))))))

/-- What Transfer can put: an item of its queue, a file within the limit and values
of 32 bits. -/
structure Offer (it : UpItem) (f : Finfo) : Prop where
  tag : 1 ≤ it.tag ∧ it.tag ≤ 999999999
  name : pathOk it.name = true
  size : f.size ≤ fileMax
  prot : f.prot < 2 ^ 32
  days : f.days < 2 ^ 32
  mins : f.mins < 2 ^ 32
  ticks : f.ticks < 2 ^ 32

theorem putPieces (it : UpItem) (f : Finfo) :
    ([ascii "PUT ", decimal it.tag, ascii " ", decimal f.size, ascii " ", decimal f.days, ascii ".",
      decimal f.mins, ascii ".", decimal f.ticks, ascii " ", hex f.prot, ascii " "] ++
        lenPieces it.name ++ [ascii " "] ++ lenPieces (clean f.comment (commentMax + 1)) ++
          [ascii "\n"]).flatten = putText it f ++ [Session.newline] := by
  have hblank : ascii " " = [blank] := rfl
  have hdot : ascii "." = [dot] := rfl
  have hnl : ascii "\n" = [Session.newline] := rfl
  have hhex : hex f.prot = numeral 16 f.prot := rfl
  simp [putText, putDate, putComment, counted, lenPieces, hblank, hdot, hnl, hhex]

-- ---------------------------------------------------------------------------
-- The date
-- ---------------------------------------------------------------------------

theorem digit_ne_dot (h : isDigit c = true) : c ≠ dot := by
  rintro rfl
  exact absurd h (by decide)

theorem datePoints_digits (hds : ∀ c ∈ ds, isDigit c = true) (hne : ds ≠ []) (barred : Bool)
    (s : Bytes) : datePoints barred (ds ++ s) = datePoints false s := by
  induction ds generalizing barred with
  | nil => exact absurd rfl hne
  | cons c ds ih =>
    have hc := hds c (List.mem_cons_self ..)
    rw [List.cons_append, datePoints, if_neg (digit_ne_dot hc), if_pos hc]
    cases ds with
    | nil => rfl
    | cons d ds => exact ih (fun e he => hds e (List.mem_cons_of_mem _ he)) (by simp) false

theorem datePoints_dot (hs : s ≠ []) :
    datePoints false (dot :: s) = (datePoints true s).map (· + 1) := by
  rw [datePoints, if_pos rfl, if_neg (by simp [hs])]

theorem datePoints_putDate (f : Finfo) : datePoints true (putDate f) = some 2 := by
  have hne := JsonRead.decimal_ne_nil
  have hlast : datePoints true (decimal f.ticks) = some 0 := by
    have h := datePoints_digits (decimal_digits f.ticks) (hne _) true []
    rwa [List.append_nil] at h
  rw [putDate, datePoints_digits (decimal_digits _) (hne _), datePoints_dot (by simp),
    datePoints_digits (decimal_digits _) (hne _), datePoints_dot (hne _), hlast]
  rfl

/-- How many digits a date has. -/
def dateDigits (f : Finfo) : Nat :=
  (decimal f.days).length + (decimal f.mins).length + (decimal f.ticks).length

theorem length_putDate (f : Finfo) : (putDate f).length = dateDigits f + 2 := by
  rw [putDate, dateDigits]
  simp only [List.length_append, List.length_cons]
  omega

/-- The board keeps a date of 21 digits. -/
theorem dateOk_putDate (f : Finfo) : dateOk (putDate f) = decide (dateDigits f ≤ 21) := by
  have h1 := List.length_pos_of_ne_nil (JsonRead.decimal_ne_nil f.days)
  have h2 := List.length_pos_of_ne_nil (JsonRead.decimal_ne_nil f.mins)
  have h3 := List.length_pos_of_ne_nil (JsonRead.decimal_ne_nil f.ticks)
  have hdigits : 3 ≤ dateDigits f := by
    rw [dateDigits]
    omega
  rw [dateOk, length_putDate, datePoints_putDate, beq_self_eq_true, Bool.and_true,
    decide_eq_true (show 5 ≤ dateDigits f + 2 by omega), Bool.true_and]
  simp only [decide_eq_decide]
  omega

-- ---------------------------------------------------------------------------
-- The names
-- ---------------------------------------------------------------------------

theorem mem_path {path : Bytes} (h : pathOk path = true) (hc : c ∈ path) : 0x20 ≤ c ∧ c ≠ 0x7f := by
  rw [pathOk, Bool.and_eq_true, List.all_eq_true] at h
  have hparts : [slash].intercalate (path.splitOn slash) = path := List.intercalate_splitOn slash
  rw [← hparts] at hc
  obtain rfl | ⟨part, hpart, hcp⟩ := mem_intercalate hc
  · decide
  · have hok := h.2 part hpart
    simp only [partOk, Bool.and_eq_true, List.all_eq_true, Receive.control, Bool.not_eq_true',
      Bool.or_eq_false_iff, decide_eq_false_iff_not, UInt8.not_lt] at hok
    have hcontrol := (hok.2 c hcp).1
    exact ⟨hcontrol.1, by simpa using hcontrol.2⟩

theorem path_length {path : Bytes} (h : pathOk path = true) : 1 ≤ path.length ∧ path.length ≤ 255 := by
  simp only [pathOk, Bool.and_eq_true, decide_eq_true_eq] at h
  exact ⟨h.1.1, h.1.2⟩

theorem mem_putComment {f : Finfo} (hc : c ∈ putComment f) : 0x20 ≤ c := by
  rw [putComment, clean, List.mem_map] at hc
  obtain ⟨d, -, rfl⟩ := hc
  split
  · decide
  · rename_i h
    exact UInt8.not_lt.mp h

theorem length_putComment (f : Finfo) : (putComment f).length ≤ 79 := by
  rw [putComment, clean, List.length_map]
  exact List.length_take_le _ _

theorem putNames_text {it : UpItem} {f : Finfo} (h : Offer it f) :
    putNames (counted it.name ++ blank :: counted (putComment f)) =
      some (it.name, putComment f) := by
  have hname := path_length h.name
  have hcomment := length_putComment f
  rw [putNames, lenfield_counted (by omega)]
  simp only
  rw [if_neg (by omega), lenfield_counted_end (by omega)]
  simp only
  rw [if_neg (by simp; omega)]

/-- The board's reading of the line, for a date it keeps. -/
theorem putParse_text {it : UpItem} {f : Finfo} (h : Offer it f) :
    putParse (putText it f) =
      if dateDigits f ≤ 21 then
        some ⟨decimal it.tag, f.size, putDate f, f.prot, it.name, putComment f⟩
      else none := by
  have hw : ∀ n, blank ∉ decimal n := fun n => (word_numeral (by decide) (by decide) n).2
  have hwx : ∀ n, blank ∉ numeral 16 n := fun n => (word_numeral (by decide) (by decide) n).2
  have hdate : blank ∉ putDate f := by
    have hne : blank ≠ dot := by decide
    simp [putDate, hw, hne]
  have htag : (decimal it.tag).length ≤ 9 := length_decimal_le (by decide) (by have := h.tag; omega)
  have htag' := List.length_pos_of_ne_nil (JsonRead.decimal_ne_nil it.tag)
  have hall : (decimal it.tag).all isDigit = true := List.all_eq_true.mpr (decimal_digits _)
  have hsize : f.size < 2 ^ 32 := Nat.lt_of_le_of_lt h.size (by decide)
  have hpre : ascii "PUT " <+: putText it f := List.prefix_append ..
  have hdrop : (putText it f).drop 4 = decimal it.tag ++ blank :: (decimal f.size ++ blank ::
      (putDate f ++ blank :: (numeral 16 f.prot ++ blank ::
        (counted it.name ++ blank :: counted (putComment f))))) := List.drop_left' rfl
  rw [putParse, if_pos hpre, hdrop, word_word (hw _)]
  simp only
  rw [hall, if_neg (by simp only [asTagMax, Bool.not_true, Bool.false_eq_true, or_false]; omega),
    word_word (hw _)]
  simp only [dec32_decimal hsize]
  rw [word_word hdate]
  simp only [dateOk_putDate, word_word (hwx _), hex32_numeral h.prot, putNames_text h]
  by_cases hd : dateDigits f ≤ 21
  · simp [hd]
  · simp [hd]

-- ---------------------------------------------------------------------------
-- The line's bytes
-- ---------------------------------------------------------------------------

theorem putDate_print (f : Finfo) : ∀ c ∈ putDate f, 0x20 ≤ c := by
  have hdec : ∀ n, ∀ c ∈ decimal n, 0x20 ≤ c := numeral_print (by decide) (by decide)
  exact append_print (hdec _) (cons_print (by decide) (append_print (hdec _)
    (cons_print (by decide) (hdec _))))

theorem putText_print {it : UpItem} {f : Finfo} (h : Offer it f) : ∀ c ∈ putText it f, 0x20 ≤ c := by
  have hdec : ∀ n, ∀ c ∈ decimal n, 0x20 ≤ c := numeral_print (by decide) (by decide)
  have hput : ∀ c ∈ ascii "PUT ", 0x20 ≤ c := by decide
  refine append_print hput (append_print (hdec _) (cons_print (by decide) (append_print (hdec _)
    (cons_print (by decide) (append_print (putDate_print f) (cons_print (by decide) ?_))))))
  exact append_print (numeral_print (by decide) (by decide) _) (cons_print (by decide)
    (append_print (counted_print fun c hc => (mem_path h.name hc).1) (cons_print (by decide)
      (counted_print fun c hc => mem_putComment hc))))

theorem length_putText {it : UpItem} {f : Finfo} (h : Offer it f) : (putText it f).length ≤ 406 := by
  have htag : (decimal it.tag).length ≤ 9 := length_decimal_le (by decide) (by have := h.tag; omega)
  have hsize : (decimal f.size).length ≤ 7 :=
    length_decimal_le (by decide) (Nat.lt_of_le_of_lt h.size (by decide))
  have hdays : (decimal f.days).length ≤ 10 := length_decimal_le (by decide) (by have := h.days; omega)
  have hmins : (decimal f.mins).length ≤ 10 := length_decimal_le (by decide) (by have := h.mins; omega)
  have hticks : (decimal f.ticks).length ≤ 10 :=
    length_decimal_le (by decide) (by have := h.ticks; omega)
  have hprot : (numeral 16 f.prot).length ≤ 8 :=
    length_numeral_le (by decide) (by decide) (by have := h.prot; omega)
  have hname := path_length h.name
  have hcomment := length_putComment f
  have hnameLen : (decimal it.name.length).length ≤ 3 := length_decimal_le (by decide) (by omega)
  have hcommentLen : (decimal (putComment f).length).length ≤ 2 :=
    length_decimal_le (by decide) (by omega)
  have hput : (ascii "PUT ").length = 4 := rfl
  simp only [putText, counted, List.length_append, List.length_cons, length_putDate, dateDigits, hput]
  omega

-- ---------------------------------------------------------------------------
-- The body
-- ---------------------------------------------------------------------------

open JsonRead (Value Spells SpellsStr SpellsMembers readJson)

/-- Bytes as the characters they are in Latin-1. -/
def chars (s : Bytes) : List Nat := s.map UInt8.toNat

/-- The values of a file, as the body has them. -/
def putBody (it : UpItem) (f : Finfo) (request : Option Bytes) : Value :=
  .obj ([(chars (ascii "size"), .num (decimal f.size)), (chars (ascii "date"), .str (chars (putDate f))),
    (chars (ascii "protection"), .num (decimal f.prot)), (chars (ascii "path"), .str (chars it.name)),
    (chars (ascii "comment"), .str (chars (putComment f)))] ++
      request.elim [] fun rid => [(chars (ascii "request"), .str (chars rid))])

theorem length_escapeByte (c : UInt8) : 1 ≤ (escapeByte c).length ∧ (escapeByte c).length ≤ 6 := by
  rw [escapeByte]
  split
  · simp
  split
  · simp [JsonRead.unicode]
  · simp

theorem length_escaped (s : Bytes) : (s.flatMap escapeByte).length ≤ 6 * s.length := by
  induction s with
  | nil => simp
  | cons c s ih =>
    have h := (length_escapeByte c).2
    rw [List.flatMap_cons, List.length_append, List.length_cons]
    omega

/-- Nothing is cut where all of it fits. -/
theorem escapeFrom_whole (h : o + (s.flatMap escapeByte).length < cap) :
    escapeFrom cap o s = s.flatMap escapeByte := by
  induction s generalizing o with
  | nil => rfl
  | cons c s ih =>
    rw [List.flatMap_cons, List.length_append] at h
    rw [escapeFrom, if_neg (by omega), ih (by omega), List.flatMap_cons]

theorem spells_escaped (s : Bytes) : SpellsStr (chars s) (s.flatMap escapeByte) := by
  induction s with
  | nil => exact .nil
  | cons c s ih =>
    rw [List.flatMap_cons, chars, List.map_cons, escapeByte]
    split
    · rename_i hc
      exact .quoted hc ih
    split
    · exact .unicode (by have := c.toNat_lt; omega) ih
    · rename_i hquote hplain
      rw [not_or, UInt8.not_lt, ge_iff_le, UInt8.not_le] at hplain
      rw [not_or] at hquote
      exact .plain ⟨hplain.1, UInt8.lt_trans hplain.2 (by decide), hquote⟩ ih

theorem spells_plain (h : ∀ c ∈ s, 0x20 ≤ c ∧ c < 0x80 ∧ c ≠ 0x22 ∧ c ≠ 0x5c) :
    SpellsStr (chars s) s := by
  induction s with
  | nil => exact .nil
  | cons c s ih =>
    exact .plain (h c (List.mem_cons_self ..)) (ih fun d hd => h d (List.mem_cons_of_mem _ hd))

theorem digit_plain (h : isDigit c = true ∨ c = dot) : 0x20 ≤ c ∧ c < 0x80 ∧ c ≠ 0x22 ∧ c ≠ 0x5c := by
  obtain h | rfl := h
  · simp only [isDigit, Bool.and_eq_true, decide_eq_true_eq, UInt8.le_iff_toNat_le] at h
    have hlo : (48 : UInt8).toNat = 48 := rfl
    have hhi : (57 : UInt8).toNat = 57 := rfl
    simp only [UInt8.le_iff_toNat_le, UInt8.lt_iff_toNat_lt, ne_eq, ← UInt8.toNat_inj]
    have h1 : (0x20 : UInt8).toNat = 32 := rfl
    have h2 : (0x80 : UInt8).toNat = 128 := rfl
    have h3 : (0x22 : UInt8).toNat = 34 := rfl
    have h4 : (0x5c : UInt8).toNat = 92 := rfl
    omega
  · decide

theorem spells_putDate (f : Finfo) : SpellsStr (chars (putDate f)) (putDate f) := by
  apply spells_plain
  intro c hc
  apply digit_plain
  rw [putDate, List.mem_append, List.mem_cons, List.mem_append, List.mem_cons] at hc
  obtain h | rfl | h | rfl | h := hc
  · exact .inl (decimal_digits _ c h)
  · exact .inr rfl
  · exact .inl (decimal_digits _ c h)
  · exact .inr rfl
  · exact .inl (decimal_digits _ c h)

theorem alnum_plain (h : (alnum c || c == 0x2d || c == 0x5f) = true) :
    0x20 ≤ c ∧ c < 0x80 ∧ c ≠ 0x22 ∧ c ≠ 0x5c := by
  have hall : ∀ n < 256, (alnum (UInt8.ofNat n) || UInt8.ofNat n == 0x2d || UInt8.ofNat n == 0x5f) = true →
      0x20 ≤ UInt8.ofNat n ∧ UInt8.ofNat n < 0x80 ∧ UInt8.ofNat n ≠ 0x22 ∧ UInt8.ofNat n ≠ 0x5c := by
    decide +kernel
  have hc := hall c.toNat c.toNat_lt
  rw [UInt8.ofNat_toNat] at hc
  exact hc h

theorem spells_rid (h : idOk rid = true) : SpellsStr (chars rid) rid := by
  apply spells_plain
  intro c hc
  simp only [idOk, Bool.and_eq_true, List.all_eq_true] at h
  exact alnum_plain (h.2 c hc)

/-- The body without its braces, the names escaped. -/
def bodyText (it : UpItem) (f : Finfo) (request : Option Bytes) : Bytes :=
  ascii "\"size\":" ++ (decimal f.size ++ (ascii ",\"date\":\"" ++ (putDate f ++
    (ascii "\",\"protection\":" ++ (decimal f.prot ++ (ascii ",\"path\":\"" ++
      (it.name.flatMap escapeByte ++ (ascii "\",\"comment\":\"" ++
        ((putComment f).flatMap escapeByte ++ (ascii "\"" ++
          request.elim [] fun rid => ascii ",\"request\":\"" ++ (rid ++ ascii "\"")))))))))))

theorem spells_body (it : UpItem) (f : Finfo) (hrid : ∀ rid ∈ request, idOk rid = true) :
    Spells (putBody it f request) (0x7b :: (bodyText it f request ++ [0x7d])) := by
  have key : ∀ k : String, (∀ c ∈ ascii k, 0x20 ≤ c ∧ c < 0x80 ∧ c ≠ 0x22 ∧ c ≠ 0x5c) →
      SpellsStr (chars (ascii k)) (ascii k) := fun k hk => spells_plain hk
  have hcomment : SpellsMembers [(chars (ascii "comment"), .str (chars (putComment f)))]
      (ascii "\"comment\":\"" ++ ((putComment f).flatMap escapeByte ++ ascii "\"")) :=
    .last (key "comment" (by decide)) (.str (spells_escaped _))
  have hlast : SpellsMembers ((chars (ascii "comment"), .str (chars (putComment f))) ::
        request.elim [] fun rid => [(chars (ascii "request"), .str (chars rid))])
      (ascii "\"comment\":\"" ++ ((putComment f).flatMap escapeByte ++ (ascii "\"" ++
        request.elim [] fun rid => ascii ",\"request\":\"" ++ (rid ++ ascii "\"")))) := by
    cases request with
    | none => simpa using hcomment
    | some rid =>
      have hrequest : SpellsMembers [(chars (ascii "request"), .str (chars rid))]
          (ascii "\"request\":\"" ++ (rid ++ ascii "\"")) :=
        .last (key "request" (by decide)) (.str (spells_rid (hrid rid rfl)))
      have hboth := SpellsMembers.cons (key "comment" (by decide)) (.str (spells_escaped (putComment f)))
        hrequest
      have htext : (0x22 :: (ascii "comment" ++ 0x22 :: 0x3a ::
          ((0x22 :: ((putComment f).flatMap escapeByte ++ [0x22])) ++ 0x2c ::
            (ascii "\"request\":\"" ++ (rid ++ ascii "\""))))) =
          ascii "\"comment\":\"" ++ ((putComment f).flatMap escapeByte ++ (ascii "\"" ++
            (ascii ",\"request\":\"" ++ (rid ++ ascii "\"")))) := by
        rw [List.cons_append, List.append_assoc]
        rfl
      rw [htext] at hboth
      exact hboth
  have hall := SpellsMembers.cons (key "size" (by decide)) (.nat f.size)
    (.cons (key "date" (by decide)) (.str (spells_putDate f))
      (.cons (key "protection" (by decide)) (.nat f.prot)
        (.cons (key "path" (by decide)) (.str (spells_escaped it.name)) hlast)))
  simp only [List.cons_append, List.append_assoc] at hall
  exact .obj hall

theorem length_putJsonHead {it : UpItem} {f : Finfo} (h : Offer it f) (hd : dateDigits f ≤ 21)
    (tag : Bytes) :
    (putJsonHead ⟨tag, f.size, putDate f, f.prot, it.name, putComment f⟩).length ≤ 81 := by
  have hsize : (decimal f.size).length ≤ 7 :=
    length_decimal_le (by decide) (Nat.lt_of_le_of_lt h.size (by decide))
  have hprot : (decimal f.prot).length ≤ 10 := length_decimal_le (by decide) (by have := h.prot; omega)
  have h1 : (ascii "\"size\":").length = 7 := rfl
  have h2 : (ascii ",\"date\":\"").length = 9 := rfl
  have h3 : (ascii "\",\"protection\":").length = 15 := rfl
  have h4 : (ascii ",\"path\":\"").length = 9 := rfl
  simp only [putJsonHead, List.length_cons, List.length_append, h1, h2, h3, h4, length_putDate]
  omega

theorem length_putJsonTail (hrid : ∀ rid ∈ request, idOk rid = true) :
    (putJsonTail request).length ≤ 55 ∧
      (request.elim 0 fun rid => min rid.length (arRidMax + 1)) ≤ arRidMax := by
  cases request with
  | none => exact ⟨by decide, Nat.zero_le _⟩
  | some rid =>
    have hlen : rid.length ≤ 40 := by
      have h := hrid rid rfl
      simp only [idOk, Bool.and_eq_true, decide_eq_true_eq] at h
      exact h.1.2
    have h1 : (ascii "\",\"request\":\"").length = 13 := rfl
    have h2 : (ascii "\"\x7d").length = 2 := rfl
    simp only [putJsonTail, List.length_append, h1, h2, Option.elim_some, arRidMax]
    omega

theorem bodyText_eq (it : UpItem) (f : Finfo) (request : Option Bytes) (tag : Bytes) :
    putJsonHead ⟨tag, f.size, putDate f, f.prot, it.name, putComment f⟩ ++
        it.name.flatMap escapeByte ++ ascii "\",\"comment\":\"" ++
          (putComment f).flatMap escapeByte ++ putJsonTail request =
      0x7b :: (bodyText it f request ++ [0x7d]) := by
  have htail : putJsonTail request = ascii "\"" ++
      ((request.elim [] fun rid => ascii ",\"request\":\"" ++ (rid ++ ascii "\"")) ++ [0x7d]) := by
    cases request with
    | none => rfl
    | some rid =>
      simp only [putJsonTail, Option.elim_some, List.append_assoc]
      rfl
  rw [htail, putJsonHead, bodyText]
  simp only [List.cons_append, List.append_assoc]

/-- The body fits, and nothing of it is cut. -/
theorem putJson_body {it : UpItem} {f : Finfo} (h : Offer it f) (hd : dateDigits f ≤ 21)
    (hrid : ∀ rid ∈ request, idOk rid = true) (tag : Bytes) :
    putJson ⟨tag, f.size, putDate f, f.prot, it.name, putComment f⟩ request asUpJsonMax =
        some (0x7b :: (bodyText it f request ++ [0x7d])) ∧
      (0x7b :: (bodyText it f request ++ [0x7d])).length < asUpJsonMax := by
  have hhead := length_putJsonHead h hd tag
  have hname := (path_length h.name).2
  have hcomment := length_putComment f
  obtain ⟨htail, hrn⟩ := length_putJsonTail hrid
  have hescName := length_escaped it.name
  have hescComment := length_escaped (putComment f)
  have hmid : (ascii "\",\"comment\":\"").length = 13 := rfl
  have hmax : asUpJsonMax = 2200 := rfl
  have hrmax : arRidMax = 40 := rfl
  rw [← bodyText_eq it f request tag]
  constructor
  · rw [putJson]
    simp only
    rw [if_neg (by omega), if_neg (Nat.not_lt.mpr hrn), if_neg (by omega)]
    rw [jsonEscape, escapeFrom_whole (by omega)]
    rw [if_neg (by rw [List.length_append]; omega)]
    rw [jsonEscape, escapeFrom_whole (by simp only [List.length_append, hmid]; omega)]
    rw [if_neg (by simp only [List.length_append, hmid]; omega)]
  · simp only [List.length_append, hmid]
    omega

-- ---------------------------------------------------------------------------
-- Both ends
-- ---------------------------------------------------------------------------

variable {φ : Type}

/-- The line Transfer puts, whole, is read by the board with the values it was made
of, and the body holds them, exactly when the date has at most 21 digits. -/
theorem putLine_agrees (s : Session φ) (it : UpItem) (h : Offer it s.up.info)
    (hroom : s.out.length + 407 ≤ outMax) :
    (∃ line p, (s.putLine it).out = s.out ++ (line ++ [Session.newline]) ∧
      Session.newline ∉ line ∧ 0 ∉ line ∧ line.length ≤ asLineMax ∧ putParse line = some p ∧
      p = ⟨decimal it.tag, s.up.info.size, putDate s.up.info, s.up.info.prot, it.name,
        putComment s.up.info⟩ ∧
      ∀ request : Option Bytes, (∀ rid ∈ request, idOk rid = true) →
        ∃ json, putJson p request asUpJsonMax = some json ∧ json.length < asUpJsonMax ∧
          readJson json = some (putBody it s.up.info request)) ↔
    dateDigits s.up.info ≤ 21 := by
  have hlen := length_putText h
  have hout : (s.putLine it).out = s.out ++ (putText it s.up.info ++ [Session.newline]) := by
    rw [Session.putLine, Browse.puts_eq, putPieces]
    rw [putPieces, List.length_append, List.length_singleton]
    omega
  have hprint := putText_print h
  constructor
  · rintro ⟨line, p, hline, -, -, -, hparse, -⟩
    rw [hout, List.append_right_inj, List.append_left_inj] at hline
    rw [← hline, putParse_text h] at hparse
    by_contra hd
    rw [if_neg hd] at hparse
    cases hparse
  · intro hd
    have hparse := putParse_text h
    rw [if_pos hd] at hparse
    refine ⟨_, _, hout, ?_, ?_, ?_, hparse, rfl, ?_⟩
    · intro hmem
      exact absurd (hprint _ hmem) (by decide)
    · intro hmem
      exact absurd (hprint _ hmem) (by decide)
    · exact Nat.le_trans hlen (by decide)
    · intro request hrid
      obtain ⟨hjson, hshort⟩ := putJson_body h hd hrid (decimal it.tag)
      exact ⟨_, hjson, hshort, (spells_body it s.up.info hrid).readJson⟩

/-- A session about to put a file of that date. -/
def dated (days mins ticks : Nat) : Session Unit :=
  { disk := (), up := { info := { size := 4096, days := days, mins := mins, ticks := ticks } } }

def readme : UpItem := { tag := 7, path := ascii "DH0:Work/read me", name := ascii "Work/read me" }

theorem readme_offer (hd : days < 2 ^ 32) (hm : mins < 2 ^ 32) (ht : ticks < 2 ^ 32) :
    Offer readme (dated days mins ticks).up.info :=
  ⟨by decide, by decide, show 4096 ≤ fileMax by decide, show 0 < 2 ^ 32 by decide, hd, hm, ht⟩

theorem putLine_agrees_readme :
    ∃ line p, ((dated 17000 600 1500).putLine readme).out =
        (dated 17000 600 1500).out ++ (line ++ [Session.newline]) ∧
      Session.newline ∉ line ∧ 0 ∉ line ∧ line.length ≤ asLineMax ∧ putParse line = some p ∧
      p = ⟨decimal 7, 4096, putDate (dated 17000 600 1500).up.info, 0, ascii "Work/read me",
        putComment (dated 17000 600 1500).up.info⟩ ∧
      ∀ request : Option Bytes, (∀ rid ∈ request, idOk rid = true) →
        ∃ json, putJson p request asUpJsonMax = some json ∧ json.length < asUpJsonMax ∧
          readJson json = some (putBody readme (dated 17000 600 1500).up.info request) :=
  (putLine_agrees (dated 17000 600 1500) readme
    (readme_offer (by decide) (by decide) (by decide)) (by decide)).mpr (by decide)

/-- A file whose date is damaged: its PUT line is refused. -/
theorem damaged_date_refused :
    Offer readme (dated 4294967295 4294967295 4294967295).up.info ∧
      ((dated 4294967295 4294967295 4294967295).putLine readme).out =
        ascii "PUT 7 4096 4294967295.4294967295.4294967295 0 12:Work/read me 0:\n" ∧
      putParse (ascii "PUT 7 4096 4294967295.4294967295.4294967295 0 12:Work/read me 0:") = none :=
  ⟨readme_offer (by decide) (by decide) (by decide), by decide, by decide⟩

end WebAdf.Offers
