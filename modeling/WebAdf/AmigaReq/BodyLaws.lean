import Mathlib.Data.List.Infix
import WebAdf.AmigaReq.Body

/-!
# A piece's body is its lines

What a piece means: `{"piece":n,"lines":[..],"last":b}` with every line quoted
and escaped. The body the board gathers is the opening of that text, closing it
completes it, and the text determines the number, the lines and the flag.
-/

namespace WebAdf.AmigaReq

open Lib

def quote (line : Bytes) : Bytes := ascii "\"" ++ line.flatMap escByte ++ ascii "\""

def joined (lines : List Bytes) : Bytes := (ascii ",").intercalate (lines.map quote)

def opening (piece : Nat) (lines : List Bytes) : Bytes :=
  ascii "\x7b\"piece\":" ++ decimal piece ++ ascii ",\"lines\":[" ++ joined lines

def closing (last : Bool) : Bytes :=
  ascii "],\"last\":" ++ (if last then ascii "true" else ascii "false") ++ ascii "\x7d"

def renderPiece (piece : Nat) (lines : List Bytes) (last : Bool) : Bytes :=
  opening piece lines ++ closing last

-- ---------------------------------------------------------------------------
-- Escaping
-- ---------------------------------------------------------------------------

theorem length_escByte (c : UInt8) :
    (escByte c).length = if c = 34 ∨ c = 92 then 2 else if c < 0x20 ∨ 0x7f ≤ c then 6 else 1 := by
  unfold escByte
  split
  · rfl
  · split
    · simp [ascii]
    · rfl

theorem escLen_eq (line : Bytes) : escLen line = (line.flatMap escByte).length := by
  induction line with
  | nil => rfl
  | cons c cs ih =>
    rw [List.flatMap_cons, List.length_append, ← ih, length_escByte]
    rfl

theorem escLen_le (line : Bytes) : escLen line ≤ 6 * line.length := by
  rw [escLen_eq]
  induction line with
  | nil => exact Nat.le_refl 0
  | cons c cs ih =>
    have hc : (escByte c).length ≤ 6 := by
      rw [length_escByte]
      split
      · decide
      · split <;> decide
    rw [List.flatMap_cons, List.length_append, List.length_cons]
    omega

theorem jsonEscape_fits {o cap : Nat} {line : Bytes} (h : o + escLen line < cap) :
    jsonEscape cap o line = line.flatMap escByte := by
  rw [escLen_eq] at h
  induction line generalizing o with
  | nil => rfl
  | cons c cs ih =>
    rw [List.flatMap_cons, List.length_append] at h
    rw [jsonEscape, if_neg (by omega), ih (by omega), List.flatMap_cons]

-- ---------------------------------------------------------------------------
-- Gathering a piece
-- ---------------------------------------------------------------------------

theorem joined_concat (lines : List Bytes) (line : Bytes) :
    joined (lines ++ [line]) = joined lines ++ (if lines.length = 0 then [] else ascii ",") ++ quote line := by
  unfold joined
  cases lines with
  | nil => simp
  | cons l ls =>
    rw [List.map_append, List.map_singleton]
    induction ls generalizing l with
    | nil => simp [List.intercalate, List.intersperse]
    | cons m ls ih =>
      have hrec := ih m
      simp only [List.map_cons, List.cons_append, List.intercalate_cons_cons] at hrec ⊢
      rw [hrec]
      simp

/-- The open piece holds these lines, with room to close it. -/
structure Gathering (r : Req) (lines : List Bytes) : Prop where
  body : r.body = opening r.piece lines
  len : r.bodyLen = r.body.length
  count : r.bodyLines = lines.length
  room : r.bodyLen + closeReserve ≤ bodyBytes

theorem length_opening_nil (h : piece < 2 ^ 32) : (opening piece []).length ≤ 29 := by
  have hd := length_decimal_le (k := 10) (by decide) (Nat.lt_trans h (by decide))
  simp [opening, joined, ascii]
  omega

theorem bodyBegin_gathering {r : Req} (h : r.piece < 2 ^ 32) : Gathering (bodyBegin r) [] := by
  have hlen := length_opening_nil h
  have heq : ascii "\x7b\"piece\":" ++ decimal r.piece ++ ascii ",\"lines\":[" = opening r.piece [] := by
    simp [opening, joined]
  rw [bodyBegin, heq, snprintf_fits (by unfold bodyBytes; omega)]
  refine ⟨rfl, rfl, rfl, ?_⟩
  simp only [bodyBytes, closeReserve]
  omega

/-- A piece just begun has room. -/
theorem bodyBegin_room {r : Req} (h : r.piece < 2 ^ 32) : bodyFull (bodyBegin r) = false := by
  have hgather := bodyBegin_gathering h
  have hlen : (bodyBegin r).bodyLen ≤ 29 := by
    rw [hgather.len, hgather.body]
    exact length_opening_nil h
  simp only [bodyFull, Bool.or_eq_false_iff, decide_eq_false_iff_not]
  refine ⟨by rw [hgather.count]; decide, ?_⟩
  simp only [bodyBytes, lineMax, closeReserve]
  omega

/-- What adding a line does, with nothing cut. -/
theorem bodyAdd_gathering {r : Req} (h : Gathering r lines) (hadd : bodyAdd r line = some r') :
    r' = { r with
      body := opening r.piece (lines ++ [line])
      bodyLen := (opening r.piece (lines ++ [line])).length
      bodyLines := lines.length + 1
      linesTotal := (r.linesTotal + 1) % 2 ^ 32 } ∧ Gathering r' (lines ++ [line]) := by
  unfold bodyAdd at hadd
  split at hadd
  · cases hadd
  · rename_i hfit
    have hbody : r.body.take r.bodyLen = opening r.piece lines := by
      rw [h.len, List.take_length, h.body]
    have hlen : r.bodyLen = (opening r.piece lines).length := by rw [h.len, h.body]
    have hcomma : (if lines.length = 0 then [] else ascii ",").length ≤ 1 := by
      split <;> simp [ascii]
    have hesc : jsonEscape (bodyBytes - (opening r.piece lines ++
        (if lines.length = 0 then [] else ascii ",") ++ ascii "\"").length) 0 line =
        line.flatMap escByte := by
      apply jsonEscape_fits
      have hquote : (ascii "\"").length = 1 := by simp [ascii]
      simp only [List.length_append, hquote]
      simp only [closeReserve, bodyBytes] at hfit ⊢
      omega
    have hnew : opening r.piece lines ++ (if lines.length = 0 then [] else ascii ",") ++ ascii "\"" ++
        line.flatMap escByte ++ ascii "\"" = opening r.piece (lines ++ [line]) := by
      simp only [opening, joined_concat, quote, List.append_assoc]
    simp only [hbody, h.count, hesc, hnew, Option.some.injEq] at hadd
    subst hadd
    refine ⟨rfl, ⟨rfl, rfl, by simp, ?_⟩⟩
    have hgrow : (opening r.piece (lines ++ [line])).length ≤ r.bodyLen + (escLen line + 3) := by
      rw [← hnew, escLen_eq, hlen]
      simp [ascii] at hcomma ⊢
      omega
    simp only [closeReserve, bodyBytes] at hfit ⊢
    omega

/-- A piece with room takes any line Transfer can send. -/
theorem bodyAdd_room {r : Req} (hfull : bodyFull r = false) (hline : line.length ≤ lineMax) :
    ∃ r', bodyAdd r line = some r' := by
  have hesc := escLen_le line
  simp only [bodyFull, Bool.or_eq_false_iff, decide_eq_false_iff_not] at hfull
  unfold bodyAdd
  rw [if_neg]
  · exact ⟨_, rfl⟩
  · rintro (hcount | hlong)
    · exact hfull.1 hcount
    · simp only [lineMax] at hline hfull
      omega

theorem length_closing (last : Bool) : (closing last).length < closeReserve := by
  cases last <;> decide

theorem bodyClose_gathering {r : Req} (h : Gathering r lines) (last : Bool) :
    bodyClose r last = { r with
      body := renderPiece r.piece lines last
      bodyLen := (renderPiece r.piece lines last).length
      postOwed := true
      postLast := last
      ended := r.ended || last } ∧ (renderPiece r.piece lines last).length ≤ bodyBytes := by
  have hclose := length_closing last
  have hroom := h.room
  have hlen : r.bodyLen = (opening r.piece lines).length := by rw [h.len, h.body]
  have htext : ascii "],\"last\":" ++ (if last then ascii "true" else ascii "false") ++ ascii "\x7d" =
    closing last := rfl
  constructor
  · rw [bodyClose, htext, snprintf_fits (by omega)]
    simp only [h.len, List.take_length]
    simp only [h.body, renderPiece, List.length_append]
  · rw [renderPiece, List.length_append]
    omega

theorem errLine_some (h : errLine cap rid code text = some line) :
    line ≠ [] ∧ line.length < cap := by
  have herr : ascii "ERR " ≠ [] := by decide
  unfold errLine at h
  simp only at h
  split at h
  · cases h
  · rename_i hfit
    simp only [snprintf] at h hfit
    rw [List.take_of_length_le (by omega), Option.some.injEq] at h
    subst h
    exact ⟨by simp [herr], by omega⟩

-- ---------------------------------------------------------------------------
-- The text determines the piece
-- ---------------------------------------------------------------------------

def hexVal (c : UInt8) : Nat := if c ≤ 57 then c.toNat - 48 else c.toNat - 87

/-- The first byte an escaped text stands for. -/
def unescByte : Bytes → Option (UInt8 × Bytes)
  | 92 :: 117 :: 48 :: 48 :: a :: b :: rest => some (UInt8.ofNat (16 * hexVal a + hexVal b), rest)
  | 92 :: c :: rest => some (c, rest)
  | c :: rest => some (c, rest)
  | [] => none

theorem hexVal_hexDigit : ∀ n < 16, hexVal (hexDigit n) = n := by decide

theorem unescByte_escByte (c : UInt8) (rest : Bytes) :
    unescByte (escByte c ++ rest) = some (c, rest) := by
  unfold escByte
  split
  · rename_i hc
    rcases hc with rfl | rfl <;> rfl
  · rename_i hc
    split
    · have hlt : c.toNat < 256 := c.toNat_lt
      have hval : 16 * (c.toNat / 16) + c.toNat % 16 = c.toNat := by omega
      have hu : ascii "\\u00" = [92, 117, 48, 48] := by decide
      simp only [hu, List.cons_append, List.nil_append, unescByte,
        hexVal_hexDigit _ (by omega : c.toNat / 16 < 16),
        hexVal_hexDigit _ (by omega : c.toNat % 16 < 16), hval, UInt8.ofNat_toNat]
    · rw [List.singleton_append, unescByte]
      · intros
        simp_all
      · intros
        simp_all

theorem escByte_append_inj (h : escByte c ++ rest = escByte c' ++ rest') : c = c' ∧ rest = rest' := by
  have hdec := congrArg unescByte h
  rw [unescByte_escByte, unescByte_escByte] at hdec
  simpa using hdec

theorem escByte_ne_quote (c : UInt8) (rest : Bytes) : escByte c ++ rest ≠ 34 :: rest' := by
  unfold escByte
  split
  · simp
  · split
    · simp [ascii]
    · rename_i hc _
      simp only [List.singleton_append, ne_eq, List.cons.injEq, not_and]
      intro heq
      exact absurd (.inl heq) hc

theorem quote_append_inj (h : quote l ++ rest = quote l' ++ rest') : l = l' ∧ rest = rest' := by
  have hmark : ascii "\"" = [34] := by decide
  simp only [quote, hmark, List.append_assoc, List.cons_append,
    List.cons.injEq, true_and] at h
  induction l generalizing l' with
  | nil =>
    cases l' with
    | nil => simpa using h
    | cons c' cs' =>
      rw [List.flatMap_cons, List.append_assoc] at h
      exact absurd h.symm (escByte_ne_quote _ _)
  | cons c cs ih =>
    cases l' with
    | nil =>
      rw [List.flatMap_cons, List.append_assoc] at h
      exact absurd h (escByte_ne_quote _ _)
    | cons c' cs' =>
      simp only [List.flatMap_cons, List.append_assoc] at h
      obtain ⟨rfl, htail⟩ := escByte_append_inj h
      obtain ⟨rfl, hrest⟩ := ih htail
      exact ⟨rfl, hrest⟩

theorem joined_cons_cons (l m : Bytes) (ls : List Bytes) :
    joined (l :: m :: ls) = quote l ++ (44 :: joined (m :: ls)) := by
  simp [joined, List.intercalate_cons_cons, ascii]

theorem joined_append_inj {ls ls' : List Bytes} (h : joined ls ++ 93 :: rest = joined ls' ++ 93 :: rest') :
    ls = ls' ∧ rest = rest' := by
  have hone : ∀ l : Bytes, joined [l] = quote l := by intro l; simp [joined]
  have hne : ∀ (l : Bytes) (ls : List Bytes) (x y : Bytes), joined (l :: ls) ++ x ≠ 93 :: y := by
    intro l ls x y
    cases ls with
    | nil => simp [hone, quote, ascii]
    | cons m ls => simp [joined_cons_cons, quote, ascii]
  have hnil : joined [] = [] := by simp [joined]
  induction ls generalizing ls' with
  | nil =>
    cases ls' with
    | nil => simpa using h
    | cons l' ls' => exact absurd h.symm (hne _ _ _ _)
  | cons l ls ih =>
    cases ls' with
    | nil => exact absurd h (hne _ _ _ _)
    | cons l' ls' =>
      cases ls with
      | nil =>
        cases ls' with
        | nil =>
          rw [hone, hone] at h
          obtain ⟨rfl, htail⟩ := quote_append_inj h
          exact ⟨rfl, List.tail_eq_of_cons_eq htail⟩
        | cons m' ls' =>
          rw [hone, joined_cons_cons, List.append_assoc] at h
          obtain ⟨-, htail⟩ := quote_append_inj h
          simp at htail
      | cons m ls =>
        cases ls' with
        | nil =>
          rw [hone, joined_cons_cons, List.append_assoc] at h
          obtain ⟨-, htail⟩ := quote_append_inj h
          simp at htail
        | cons m' ls' =>
          rw [joined_cons_cons, joined_cons_cons, List.append_assoc, List.append_assoc] at h
          obtain ⟨rfl, htail⟩ := quote_append_inj h
          obtain ⟨heq, hrest⟩ := ih (List.tail_eq_of_cons_eq htail)
          exact ⟨congrArg _ heq, hrest⟩

/-- Two bodies of the same bytes are the same piece. -/
theorem renderPiece_inj (h : renderPiece n ls b = renderPiece n' ls' b') :
    n = n' ∧ ls = ls' ∧ b = b' := by
  have hlines : ascii ",\"lines\":[" = 44 :: ascii "\"lines\":[" := by simp [ascii]
  have hclose : ∀ b, closing b = 93 :: (closing b).tail := by decide
  simp only [renderPiece, opening, List.append_assoc, List.append_cancel_left_eq] at h
  obtain ⟨hn, h⟩ := append_inj_of_stop (decimal_digits n) (decimal_digits n')
    (by rw [hlines]; simp; decide) (by rw [hlines]; simp; decide) h
  rw [List.append_cancel_left_eq, hclose b, hclose b'] at h
  obtain ⟨hls, htail⟩ := joined_append_inj h
  refine ⟨?_, hls, ?_⟩
  · rw [← ofDecimal_decimal n, hn, ofDecimal_decimal]
  · cases b <;> cases b' <;> first | rfl | exact absurd htail (by decide)

end WebAdf.AmigaReq
