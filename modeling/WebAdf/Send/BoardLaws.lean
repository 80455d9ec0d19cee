import WebAdf.Receive.Files
import WebAdf.Receive.Parse
import WebAdf.Send.Board

/-!
# An entry and its two readers

What an entry of the queue says, and the line it is written as. The board's
parser and Transfer's both read it back, and the FILE line the board sends is
the entry's own line.
-/

namespace WebAdf.Send

open Lib Receive

-- ---------------------------------------------------------------------------
-- The board's fields
-- ---------------------------------------------------------------------------

theorem word_word (h : blank ∉ w) (c : Bytes) : word (w ++ blank :: c) = (w, c) := by
  unfold word
  dsimp only
  rw [takeWhile_word h, List.drop_left]
  rfl

theorem word_end (h : blank ∉ w) : word w = (w, []) := by
  unfold word
  dsimp only
  rw [takeWhile_all h, List.drop_length]
  rfl

theorem decStep_digit : ∀ d < 10, ¬ (digitByte d < 0x30 ∨ digitByte d > 0x39) ∧
    (digitByte d).toNat - 0x30 = d := by decide

theorem dec32_decimal (h : n < 2 ^ 32) : dec32 (decimal n) = some n := by
  have hlen : (decimal n).length ≤ 10 := length_decimal_le (by decide) (by omega)
  have hpos : 0 < (decimal n).length := List.length_pos_iff.2 (numeral_ne_nil (by decide) n)
  have hfold : (decimal n).foldlM decStep 0 = some n := by
    refine foldlM_numeral (by decide) (fun x d hd (_ : x * 10 + d ≤ n) => ?_) (Nat.le_refl n)
    rw [decStep, if_neg (decStep_digit d hd).1, (decStep_digit d hd).2]
  rw [dec32, if_neg (by omega), hfold, Option.bind_some, if_neg (by omega)]

theorem hex_digit : ∀ d < 16,
    ((0x30 ≤ digitByte d ∧ digitByte d ≤ 0x39) ∧ (digitByte d).toNat - 0x30 = d) ∨
    (¬ (0x30 ≤ digitByte d ∧ digitByte d ≤ 0x39) ∧ (0x61 ≤ digitByte d ∧ digitByte d ≤ 0x66) ∧
      (digitByte d).toNat - 0x61 + 10 = d) := by decide

theorem hexStep_digit (h : d < 16) (x : Nat) : hexStep x (digitByte d) = some (x * 16 + d) := by
  unfold hexStep
  rcases hex_digit d h with ⟨hdigit, hd⟩ | ⟨hdigit, hletter, hd⟩
  · rw [if_pos hdigit, hd]
  · rw [if_neg hdigit, if_pos hletter, hd]

theorem hex32_numeral (h : n < 2 ^ 32) : hex32 (numeral 16 n) = some n := by
  have hlen : (numeral 16 n).length ≤ 8 := length_numeral_le (by decide) (by decide) (by omega)
  have hpos : 0 < (numeral 16 n).length := List.length_pos_iff.2 (numeral_ne_nil (by decide) n)
  rw [hex32, if_neg (by omega)]
  exact foldlM_numeral (by decide) (fun x d hd _ => hexStep_digit hd x) (Nat.le_refl n)

/-- A string with its length of at most four digits, and what stands behind it. -/
theorem lenfield_at (hlen : s.length < 10 ^ 4) (rest : Bytes) :
    lenfield (counted s ++ rest) = fieldEnd ((decimal s.length).length + 1) s rest := by
  have hline : counted s ++ rest = decimal s.length ++ colon :: (s ++ rest) := by
    rw [counted, List.append_assoc, List.cons_append]
  have hdigits := takeWhile_digits (decimal_digits s.length) (s ++ rest)
  have hfour : (decimal s.length).take 4 = decimal s.length :=
    List.take_of_length_le (length_decimal_le (by decide) hlen)
  obtain ⟨d, ds, hds⟩ : ∃ d ds, decimal s.length = d :: ds :=
    List.exists_cons_of_ne_nil (numeral_ne_nil (by decide) s.length)
  have hvalue := ofDecimal_decimal s.length
  unfold lenfield
  dsimp only
  rw [hline, hdigits, hfour, List.drop_left]
  rw [hds] at hvalue ⊢
  change (if (s ++ rest).length < ofDecimal (d :: ds) then none else _) = _
  rw [hvalue, if_neg (by rw [List.length_append]; omega), List.drop_left, List.take_left]

theorem lenfield_counted (hlen : s.length < 10 ^ 4) (rest : Bytes) :
    lenfield (counted s ++ blank :: rest) = some ⟨(decimal s.length).length + 1, s, rest⟩ :=
  lenfield_at hlen (blank :: rest)

theorem lenfield_counted_end (hlen : s.length < 10 ^ 4) :
    lenfield (counted s) = some ⟨(decimal s.length).length + 1, s, []⟩ := by
  have h := lenfield_at hlen []
  rwa [List.append_nil] at h

-- ---------------------------------------------------------------------------
-- Entries
-- ---------------------------------------------------------------------------

/-- What an entry says. -/
structure Entry where
  id : Bytes
  size : Nat
  crc : Nat
  prot : Nat
  path : Bytes
  comment : Bytes
  mode : Mode

def modeBytes : Mode → Bytes
  | .none => []
  | .keep => ascii "keep"
  | .replace => ascii "replace"
  | .skip => ascii "skip"

namespace Entry

/-- `"<id> <size> <crc> <prot>"`. -/
def head (e : Entry) : Bytes :=
  e.id ++ blank :: (decimal e.size ++ blank :: (numeral 16 e.crc ++ blank :: numeral 16 e.prot))

def rel (e : Entry) : Bytes :=
  e.head ++ blank :: (counted e.path ++ blank :: counted e.comment)

def line (e : Entry) : Bytes :=
  if e.mode = .none then e.rel else e.rel ++ blank :: modeBytes e.mode

/-- What both readers ask of it. -/
structure Ok (e : Entry) : Prop where
  id_ok : idOk e.id = true
  size_le : e.size ≤ fileMax
  crc_lt : e.crc < 2 ^ 32
  prot_lt : e.prot < 2 ^ 32
  path_pos : 1 ≤ e.path.length
  path_le : e.path.length ≤ pathMax
  path_print : ∀ c ∈ e.path, 0x20 ≤ c
  comment_le : e.comment.length ≤ commentMax
  comment_print : ∀ c ∈ e.comment, 0x20 ≤ c
  absolute : e.mode ≠ .none ↔ colon ∈ e.path
  form : e.mode ≠ .none → absPathForm e.path = true

theorem nul_not_print {s : Bytes} (h : ∀ c ∈ s, 0x20 ≤ c) : 0 ∉ s := fun hmem =>
  absurd (h 0 hmem) (by decide)

theorem alnum_not_blank : (alnum blank || blank == 0x2d || blank == 0x5f) = false := by decide

theorem Ok.word_id {e : Entry} (h : e.Ok) : Word e.id := by
  have hid := h.id_ok
  unfold idOk at hid
  simp only [Bool.and_eq_true, decide_eq_true_eq, List.all_eq_true] at hid
  obtain ⟨⟨hpos, -⟩, hall⟩ := hid
  refine ⟨List.length_pos_iff.1 hpos, fun hmem => ?_⟩
  have := hall _ hmem
  rw [alnum_not_blank] at this
  cases this

-- ---------------------------------------------------------------------------
-- The board's reading
-- ---------------------------------------------------------------------------

/-- The line behind its head. -/
def tail (e : Entry) : Bytes :=
  counted e.path ++ blank ::
    (if e.mode = .none then counted e.comment else counted e.comment ++ blank :: modeBytes e.mode)

theorem line_eq (e : Entry) : e.line = e.head ++ blank :: e.tail := by
  unfold line tail rel
  split <;> simp

theorem nextHead_line {e : Entry} (h : e.Ok) : nextHead e.line = some (e.head, e.tail) := by
  have hsize : e.size < 2 ^ 32 := Nat.lt_of_le_of_lt h.size_le (by decide)
  have hid := h.word_id
  have hpre : e.line = (e.id ++ blank :: (decimal e.size ++ blank :: (numeral 16 e.crc ++ [blank]))) ++
      (numeral 16 e.prot ++ blank :: e.tail) := by
    rw [line_eq, head]
    simp
  have hhead : e.head = (e.id ++ blank :: (decimal e.size ++ blank :: (numeral 16 e.crc ++ [blank]))) ++
      numeral 16 e.prot := by
    rw [head]
    simp
  have hline : e.line = e.id ++ blank :: (decimal e.size ++ blank :: (numeral 16 e.crc ++
      blank :: (numeral 16 e.prot ++ blank :: e.tail))) := by
    rw [line_eq, head]
    simp
  have hw : ∀ b n, 1 < b → b ≤ 16 → blank ∉ numeral b n := fun b n h1 h16 => (word_numeral h1 h16 n).2
  unfold nextHead
  rw [show word e.line = _ from hline ▸ word_word hid.2 _]
  dsimp only
  rw [if_neg (by have := List.length_pos_iff.2 hid.1; omega), decimal_eq_numeral,
    word_word (hw 10 _ (by decide) (by decide))]
  dsimp only
  rw [word_word (hw 16 _ (by decide) (by decide))]
  dsimp only
  rw [word_word (hw 16 _ (by decide) (by decide))]
  dsimp only
  rw [← decimal_eq_numeral, dec32_decimal hsize, hex32_numeral h.crc_lt, hex32_numeral h.prot_lt]
  dsimp only
  rw [hpre, hhead, List.length_append, Nat.add_sub_cancel, ← List.length_append,
    ← List.append_assoc, List.take_left]

theorem head_of_all {s : Bytes} (h : (s.head?.all fun c => !isDigit c) = true) :
    ∀ c ∈ s.head?, isDigit c = false := by
  intro c hc
  rw [Option.mem_def.mp hc] at h
  simpa using h

theorem modeBytes_word : ∀ m, m ≠ Mode.none → Word (modeBytes m) ∧ modeWord (modeBytes m) = true ∧
    modeBytes m ≠ [] ∧ ∀ c ∈ (modeBytes m).head?, isDigit c = false := by
  unfold Word
  intro m
  cases m with
  | none => exact fun h => absurd rfl h
  | _ => exact fun _ => ⟨by decide, by decide, by decide, head_of_all (by decide)⟩

theorem nextMode_bytes (h : m ≠ Mode.none) : nextMode (modeBytes m) = some (some (modeBytes m)) := by
  obtain ⟨hword, hmode, hne, -⟩ := modeBytes_word m h
  unfold nextMode
  rw [if_neg hne, word_end hword.2]
  dsimp only
  rw [hmode]
  rfl

theorem nextDest_bytes (h : m ≠ Mode.none) : nextDest (modeBytes m) = some (none, modeBytes m) := by
  cases m with
  | none => exact absurd rfl h
  | keep | replace | skip => rfl

/-- Where it goes, and with what mode. -/
def dest (e : Entry) : Option (Bytes × Bytes) :=
  if e.mode = .none then none else some (e.path, modeBytes e.mode)

theorem nextParse_line {e : Entry} (h : e.Ok) :
    nextParse e.line = some ⟨e.head, e.rel, e.comment, e.dest⟩ := by
  have hpath : e.path.length < 10 ^ 4 := Nat.lt_of_le_of_lt h.path_le (by decide)
  have hcomment : e.comment.length < 10 ^ 4 := Nat.lt_of_le_of_lt h.comment_le (by decide)
  have hcap : e.path.length ≤ 255 := h.path_le
  have hcap' : e.comment.length ≤ 79 := h.comment_le
  have hpos := h.path_pos
  unfold nextParse
  rw [nextHead_line h]
  dsimp only
  rw [tail, lenfield_counted hpath]
  dsimp only
  rw [if_neg (by omega)]
  by_cases hmode : e.mode = .none
  · have hrelative : colon ∉ e.path := fun hc => h.absolute.2 hc hmode
    rw [if_pos hmode, lenfield_counted_end hcomment]
    dsimp only
    rw [if_neg (by omega)]
    have hrel : e.line.take (e.line.length - (counted e.comment).length +
        ((decimal e.comment.length).length + 1) + e.comment.length) = e.rel := by
      have hline : e.line = e.rel := if_pos hmode
      have hcounted : (counted e.comment).length =
          (decimal e.comment.length).length + 1 + e.comment.length := by
        rw [counted, List.length_append, List.length_cons]
        omega
      have hle : (counted e.comment).length ≤ e.rel.length := by
        rw [rel, List.length_append, List.length_cons, List.length_append, List.length_cons]
        omega
      rw [hline]
      exact List.take_of_length_le (by omega)
    rw [hrel]
    simp only [nextDest, nextMode, if_true, if_neg hrelative, Option.orElse_none, dest, if_pos hmode]
  · have habsolute : colon ∈ e.path := h.absolute.1 hmode
    rw [if_neg hmode, lenfield_counted hcomment]
    dsimp only
    rw [if_neg (by omega)]
    have hrel : e.line.take (e.line.length - (counted e.comment ++ blank :: modeBytes e.mode).length +
        ((decimal e.comment.length).length + 1) + e.comment.length) = e.rel := by
      have hline : e.line = e.rel ++ blank :: modeBytes e.mode := if_neg hmode
      have hcounted : (counted e.comment).length =
          (decimal e.comment.length).length + 1 + e.comment.length := by
        rw [counted, List.length_append, List.length_cons]
        omega
      have hle : (counted e.comment).length ≤ e.rel.length := by
        rw [rel, List.length_append, List.length_cons, List.length_append, List.length_cons]
        omega
      rw [hline, List.take_append_of_le_length, List.take_of_length_le]
      · rw [List.length_append, List.length_append]
        omega
      · rw [List.length_append, List.length_append]
        omega
    rw [hrel, nextDest_bytes hmode]
    dsimp only
    rw [nextMode_bytes hmode]
    simp only [Option.orElse_none, if_pos habsolute, h.form hmode, if_true, dest, if_neg hmode,
      Option.getD_some]

-- ---------------------------------------------------------------------------
-- Transfer's reading
-- ---------------------------------------------------------------------------

theorem modeOf_bytes (m : Mode) : modeOf (modeBytes m) = some m := by
  cases m <;> rfl

theorem parseFile_line {e : Entry} (h : e.Ok) :
    parseFile e.line =
      .ok ⟨e.id, e.size, e.crc, e.prot, e.path, e.comment, e.mode⟩ := by
  have hsize : e.size < 2 ^ 32 := Nat.lt_of_le_of_lt h.size_le (by decide)
  have hline : e.line = e.id ++ blank :: (decimal e.size ++ blank :: (numeral 16 e.crc ++
      blank :: (numeral 16 e.prot ++ blank :: e.tail))) := by
    rw [line_eq, head]
    simp
  have htokens : ∀ b n c, 1 < b → b ≤ 16 → tok (numeral b n ++ blank :: c) = (some (numeral b n), c) :=
    fun b n c h1 h16 => tok_word (word_numeral h1 h16 n) c
  have hpath : lenstr e.tail (pathMax + 1) false = some (e.path,
      if e.mode = .none then counted e.comment else counted e.comment ++ blank :: modeBytes e.mode) :=
    lenstr_counted h.path_le (Nat.lt_of_le_of_lt h.path_le (by decide)) (nul_not_print h.path_print) _
  have hcomment : lenstr (if e.mode = .none then counted e.comment
      else counted e.comment ++ blank :: modeBytes e.mode) (commentMax + 1) true =
        some (e.comment, modeBytes e.mode) := by
    have hlt : e.comment.length < 2 ^ 32 := Nat.lt_of_le_of_lt h.comment_le (by decide)
    split
    · rename_i hmode
      rw [lenstr_counted_end h.comment_le hlt (nul_not_print h.comment_print), hmode]
      rfl
    · exact lenstr_counted h.comment_le hlt (nul_not_print h.comment_print) _
  have hcolon : ¬ (decide (e.mode ≠ .none) ≠ e.path.contains colon) := by
    rw [not_not, Bool.eq_iff_iff, decide_eq_true_eq, List.contains_iff_mem]
    exact h.absolute
  unfold parseFile
  rw [hline, tok_word h.word_id]
  dsimp only
  rw [if_neg (by rw [h.id_ok]; decide), decimal_eq_numeral, htokens 10 _ _ (by decide) (by decide)]
  dsimp only
  rw [← decimal_eq_numeral, Option.bind_some, num_decimal hsize]
  dsimp only
  rw [if_neg (Nat.not_lt.2 h.size_le), htokens 16 _ _ (by decide) (by decide)]
  dsimp only
  rw [htokens 16 _ _ (by decide) (by decide)]
  dsimp only
  rw [Option.bind_some, Option.bind_some, num_hex h.crc_lt, num_hex h.prot_lt, hpath]
  dsimp only
  rw [hcomment]
  dsimp only
  rw [modeOf_bytes]
  exact if_neg hcolon

-- ---------------------------------------------------------------------------
-- The FILE line
-- ---------------------------------------------------------------------------

theorem digitByte_print : ∀ d < 16, 0x20 ≤ digitByte d := by decide

theorem numeral_print (hb : 1 < b) (h16 : b ≤ 16) (n : Nat) : ∀ c ∈ numeral b n, 0x20 ≤ c :=
  forall_numeral (p := (0x20 ≤ ·)) hb (fun d hd => digitByte_print d (by omega)) n

theorem counted_print {s : Bytes} (h : ∀ c ∈ s, 0x20 ≤ c) : ∀ c ∈ counted s, 0x20 ≤ c := by
  intro c hc
  rcases List.mem_append.1 hc with hc | hc
  · exact numeral_print (by decide) (by decide) _ c hc
  · rcases List.mem_cons.1 hc with rfl | hc
    · decide
    · exact h c hc

theorem cons_print {s : Bytes} (hb : 0x20 ≤ b) (h : ∀ c ∈ s, 0x20 ≤ c) : ∀ c ∈ b :: s, 0x20 ≤ c := by
  intro c hc
  rcases List.mem_cons.1 hc with rfl | hc
  · exact hb
  · exact h c hc

theorem append_print {s t : Bytes} (hs : ∀ c ∈ s, 0x20 ≤ c) (ht : ∀ c ∈ t, 0x20 ≤ c) :
    ∀ c ∈ s ++ t, 0x20 ≤ c := by
  intro c hc
  rcases List.mem_append.1 hc with hc | hc
  · exact hs c hc
  · exact ht c hc

theorem modeBytes_print : ∀ m, ∀ c ∈ modeBytes m, 0x20 ≤ c := by
  intro m
  cases m <;> decide

theorem alnum_print (h : (alnum c || c == 0x2d || c == 0x5f) = true) : 0x20 ≤ c := by
  simp only [alnum, isDigit, Bool.or_eq_true, Bool.and_eq_true, decide_eq_true_eq, beq_iff_eq] at h
  rcases h with (((⟨h, -⟩ | ⟨h, -⟩) | ⟨h, -⟩) | rfl) | rfl
  · exact UInt8.le_trans (by decide) h
  · exact UInt8.le_trans (by decide) h
  · exact UInt8.le_trans (by decide) h
  · decide
  · decide

theorem Ok.id_print {e : Entry} (h : e.Ok) : ∀ c ∈ e.id, 0x20 ≤ c := by
  have hid := h.id_ok
  unfold idOk at hid
  simp only [Bool.and_eq_true, List.all_eq_true] at hid
  exact fun c hc => alnum_print (hid.2 c hc)

/-- No byte of a line ends it. -/
theorem line_print {e : Entry} (h : e.Ok) : ∀ c ∈ e.line, 0x20 ≤ c := by
  have hblank : (0x20 : UInt8) ≤ blank := by decide
  have hnum : ∀ b n, 1 < b → b ≤ 16 → ∀ c ∈ numeral b n, 0x20 ≤ c :=
    fun b n h1 h16 => numeral_print h1 h16 n
  have hrel : ∀ c ∈ e.rel, 0x20 ≤ c :=
    append_print
      (append_print h.id_print (cons_print hblank (append_print (hnum 10 _ (by decide) (by decide))
        (cons_print hblank (append_print (hnum 16 _ (by decide) (by decide))
          (cons_print hblank (hnum 16 _ (by decide) (by decide))))))))
      (cons_print hblank (append_print (counted_print h.path_print)
        (cons_print hblank (counted_print h.comment_print))))
  unfold line
  split
  · exact hrel
  · exact append_print hrel (cons_print hblank (modeBytes_print _))

theorem length_counted_le (h : s.length ≤ k) (hk : k < 10 ^ 4) : (counted s).length ≤ 5 + k := by
  have := length_decimal_le (k := 4) (by decide) (Nat.lt_of_le_of_lt h hk)
  rw [counted, List.length_append, List.length_cons]
  omega

theorem length_modeBytes (m : Mode) : (modeBytes m).length ≤ 7 := by
  cases m <;> decide

theorem length_line {e : Entry} (h : e.Ok) : e.line.length ≤ 424 := by
  have hid : e.id.length ≤ 40 := by
    have hid := h.id_ok
    unfold idOk at hid
    simp only [Bool.and_eq_true, decide_eq_true_eq] at hid
    exact hid.1.2
  have hsize : (decimal e.size).length ≤ 10 :=
    length_decimal_le (by decide) (Nat.lt_of_le_of_lt h.size_le (by decide))
  have hcrc : (numeral 16 e.crc).length ≤ 8 := length_numeral_le (by decide) (by decide) h.crc_lt
  have hprot : (numeral 16 e.prot).length ≤ 8 := length_numeral_le (by decide) (by decide) h.prot_lt
  have hpath : (counted e.path).length ≤ 260 := length_counted_le h.path_le (by decide)
  have hcomment : (counted e.comment).length ≤ 84 := length_counted_le h.comment_le (by decide)
  have hmode := length_modeBytes e.mode
  have hrel : e.rel.length ≤ 416 := by
    simp only [rel, head, List.length_append, List.length_cons]
    omega
  unfold line
  split
  · omega
  · rw [List.length_append, List.length_cons]
    omega

theorem fileLine_entry (e : Entry) :
    fileLine ⟨e.head, e.rel, e.comment, e.dest⟩ = ascii "FILE " ++ e.line ++ [0x0a] := by
  by_cases hmode : e.mode = .none
  · have hdest : e.dest = none := if_pos hmode
    have hline : e.line = e.rel := if_pos hmode
    rw [hline, hdest, fileLine]
  · have hdest : e.dest = some (e.path, modeBytes e.mode) := if_neg hmode
    have hline : e.line = e.rel ++ blank :: modeBytes e.mode := if_neg hmode
    rw [hline, hdest, fileLine]
    simp [rel, counted]

/-- Behind the id stands the size. -/
theorem scanLu_size (h : n < 2 ^ 32) (rest : Bytes) :
    scanLu (blank :: (decimal n ++ blank :: rest)) = some n := by
  obtain ⟨d, ds, hds⟩ : ∃ d ds, decimal n = d :: ds :=
    List.exists_cons_of_ne_nil (numeral_ne_nil (by decide) n)
  have hdigit : isDigit d = true := decimal_digits n d (hds ▸ List.mem_cons_self ..)
  have hspan : (decimal n ++ blank :: rest).takeWhile isDigit = decimal n := by
    rw [List.takeWhile_append_of_pos (decimal_digits n)]
    have : isDigit blank = false := by decide
    simp [this]
  have hsign : ∀ c, isDigit c = true → isBlankByte c = false ∧ c ≠ 0x2d ∧ c ≠ 0x2b := by
    intro c hc
    refine ⟨?_, ?_, ?_⟩
    · unfold isDigit at hc
      unfold isBlankByte
      simp only [Bool.and_eq_true, decide_eq_true_eq, UInt8.le_iff_toNat_le] at hc
      rw [Bool.or_eq_false_iff, Bool.and_eq_false_iff, beq_eq_false_iff_ne,
        decide_eq_false_iff_not, decide_eq_false_iff_not, UInt8.le_iff_toNat_le,
        UInt8.le_iff_toNat_le]
      have hlow : 48 ≤ c.toNat := hc.1
      refine ⟨?_, .inr ?_⟩
      · rintro rfl
        exact absurd hlow (by decide)
      · change ¬ (c.toNat ≤ 13)
        omega
    · rintro rfl
      exact absurd hc (by decide)
    · rintro rfl
      exact absurd hc (by decide)
  obtain ⟨hnotblank, hminus, hplus⟩ := hsign d hdigit
  have hskip : (blank :: (decimal n ++ blank :: rest)).dropWhile isBlankByte =
      decimal n ++ blank :: rest := by
    have hb : isBlankByte blank = true := by decide
    rw [List.dropWhile_cons_of_pos hb, hds, List.cons_append, List.dropWhile_cons_of_neg]
    rw [hnotblank]
    decide
  have hnosign : scanSign (decimal n ++ blank :: rest) = (false, decimal n ++ blank :: rest) := by
    rw [hds, List.cons_append]
    unfold scanSign
    split
    · rename_i heq
      exact absurd (List.cons.inj heq).1 hminus
    · rename_i heq
      exact absurd (List.cons.inj heq).1 hplus
    · rfl
  unfold scanLu
  dsimp only
  rw [hskip, hnosign]
  dsimp only
  rw [hspan, if_neg (by rw [hds]; exact List.cons_ne_nil _ _), ofDecimal_decimal,
    if_neg (by omega)]
  rfl

/-- The board sends the entry's own line. -/
theorem startFile_line {e : Entry} (h : e.Ok) (canWrite : Bool) (rest : Bytes) :
    startFile canWrite (ascii "NEXT " ++ e.line ++ 0x0a :: rest) =
      if e.dest.isSome && !canWrite then .failed e.id "readonly"
      else .sent e.id e.size (ascii "FILE " ++ e.line ++ [0x0a]) := by
  have hprint := line_print h
  have hlen := length_line h
  have hnext : (ascii "NEXT ").length = 5 := rfl
  have hid : e.id.length ≤ asIdMax := by
    have hid := h.id_ok
    unfold idOk at hid
    simp only [Bool.and_eq_true, decide_eq_true_eq] at hid
    exact hid.1.2
  have hline : e.line = e.id ++ blank :: (decimal e.size ++ blank :: (numeral 16 e.crc ++
      blank :: (numeral 16 e.prot ++ blank :: e.tail))) := by
    rw [line_eq, head]
    simp
  have hfirst : (ascii "NEXT " ++ e.line ++ 0x0a :: rest).takeWhile (· != 0x0a) =
      ascii "NEXT " ++ e.line := by
    rw [List.takeWhile_append_of_pos]
    · simp
    · intro c hc
      rw [bne_iff_ne]
      rintro rfl
      rcases List.mem_append.1 hc with hc | hc
      · exact absurd hc (by decide)
      · exact absurd (hprint _ hc) (by decide)
  have hrest : (ascii "NEXT " ++ e.line).drop 5 = e.line := List.drop_left' hnext
  have hword : (e.line.takeWhile (· != blank)).take asIdMax = e.id := by
    rw [hline, takeWhile_word h.word_id.2, List.take_of_length_le hid]
  have hsize : scanLu ((ascii "NEXT " ++ e.line ++ 0x0a :: rest).drop (5 + e.id.length)) =
      some e.size := by
    rw [← List.drop_drop, List.append_assoc, List.drop_left' hnext, hline, List.append_assoc,
      List.drop_left, List.cons_append, List.append_assoc, List.cons_append]
    exact scanLu_size (Nat.lt_of_le_of_lt h.size_le (by decide)) _
  have hnul : e.line.takeWhile (· != 0) = e.line := by
    have hall : ∀ c ∈ e.line, (c != 0) = true := by
      intro c hc
      rw [bne_iff_ne]
      rintro rfl
      exact absurd (hprint _ hc) (by decide)
    have hspan : (e.line ++ []).takeWhile (· != 0) = e.line ++ ([] : Bytes).takeWhile (· != 0) :=
      List.takeWhile_append_of_pos hall
    rwa [List.takeWhile_nil, List.append_nil] at hspan
  unfold startFile
  dsimp only
  rw [hfirst, hrest, hword, hsize]
  dsimp only
  have hfits : ¬ ((ascii "NEXT " ++ e.line).length - 5 > asLineMax) := by
    rw [List.length_append, hnext, asLineMax]
    omega
  rw [if_neg hfits, hnul, nextParse_line h]
  dsimp only
  rw [fileLine_entry]
  have hout : ¬ ((ascii "FILE " ++ e.line ++ [0x0a]).length ≥ asLineMax + 8) := by
    have hfile : (ascii "FILE ").length = 5 := rfl
    rw [List.length_append, List.length_append, hfile, asLineMax, List.length_singleton]
    omega
  rw [if_neg hout]

end Entry

end WebAdf.Send
