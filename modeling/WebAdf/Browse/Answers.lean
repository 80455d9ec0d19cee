import Mathlib
import WebAdf.Browse.Fields
import WebAdf.Receive.Requests

/-!
# Answer lines at both ends

Each line Transfer puts for a request is read by the server to what it says. A
date out of the wire's range goes out as zeros and a control byte in a comment as
a blank; both are read as sent.
-/

namespace WebAdf.Browse

open Lib Send
open Receive (Vol Dent Session clean)

-- ---------------------------------------------------------------------------
-- The lines
-- ---------------------------------------------------------------------------

/-- The date of an answer as it is sent. -/
def sentDate (d m t : Nat) : Nat × Nat × Nat :=
  if d > 999999 ∨ m > 99999 ∨ t > 99999 then (0, 0, 0) else (d, m, t)

def sentDateBytes (d m t : Nat) : List UInt8 :=
  let s := sentDate d m t
  dateBytes s.1 s.2.1 s.2.2

def sentDateIso (d m t : Nat) : Units :=
  let s := sentDate d m t
  amigaDateIso s.1 s.2.1 s.2.2

/-- A line of `verb` for the request: its fields behind its id. -/
def answerBytes (verb : String) (id fields : List UInt8) : List UInt8 :=
  ascii verb ++ Receive.blank :: (id ++ Receive.blank :: fields)

def volFields (v : Vol) : List UInt8 :=
  Receive.counted v.name ++ Receive.blank :: (Receive.counted v.device ++ Receive.blank ::
    (decimal v.size ++ Receive.blank :: (decimal v.free ++ Receive.blank ::
      sentDateBytes v.days v.mins v.ticks)))

/-- A comment as it is sent. -/
def sentComment (e : Dent) : List UInt8 := clean e.comment (Receive.commentMax + 1)

def entFields (e : Dent) : List UInt8 :=
  ascii (if e.isDir then "d" else "f") ++ Receive.blank ::
    (decimal (if e.isDir then 0 else e.size) ++ Receive.blank :: (numeral 16 e.prot ++ Receive.blank ::
      (sentDateBytes e.days e.mins e.ticks ++ Receive.blank :: (Receive.counted e.name ++ Receive.blank ::
        Receive.counted (sentComment e)))))

def doneFields (count : Nat) (cut : Bool) : List UInt8 :=
  decimal count ++ if cut then Receive.blank :: ascii "cut" else []

def errFields (code : String) (why : List UInt8) : List UInt8 :=
  ascii code ++ Receive.blank :: Receive.counted (clean why 80)

-- ---------------------------------------------------------------------------
-- What the server reads
-- ---------------------------------------------------------------------------

def volAnswer (v : Vol) : AnswerLine :=
  .vol ⟨text v.name, text v.device, v.size, v.free, sentDateIso v.days v.mins v.ticks⟩

def entAnswer (e : Dent) : AnswerLine :=
  .ent ⟨text e.name, e.isDir, if e.isDir then 0 else e.size, e.prot,
    sentDateIso e.days e.mins e.ticks, text (sentComment e)⟩

theorem blank_not_decimal (n : Nat) : Receive.blank ∉ decimal n := decimal_not_mem (by decide) n

theorem sentDate_le (d m t : Nat) :
    (sentDate d m t).1 ≤ 999999 ∧ (sentDate d m t).2.1 ≤ 99999 ∧ (sentDate d m t).2.2 ≤ 99999 := by
  unfold sentDate
  split
  · exact ⟨by decide, by decide, by decide⟩
  · rename_i h
    rw [not_or, not_or] at h
    exact ⟨Nat.not_lt.1 h.1, Nat.not_lt.1 h.2.1, Nat.not_lt.1 h.2.2⟩

theorem date_sent (d m t : Nat) :
    date (some (text (sentDateBytes d m t))) = some (sentDateIso d m t) :=
  have h := sentDate_le d m t
  date_text h.1 h.2.1 h.2.2

theorem blank_not_sentDate (d m t : Nat) : Receive.blank ∉ sentDateBytes d m t :=
  blank_not_date _ _ _

theorem num_size (h : n < 2 ^ 32) : num (some (text (decimal n))) numMax = some n :=
  num_decimal (by omega) (Nat.le_of_lt_succ h)

theorem num_count (h : n ≤ 1000000) : num (some (text (decimal n))) 1000000 = some n :=
  num_decimal (by omega) h

/-- The verb and the id come off the line; the verb's fields are left. -/
theorem parseAnswerLine_fields (verb : String) {rid : List UInt8}
    (hverb : Receive.blank ∉ ascii verb) (hid : Receive.blank ∉ rid) (fields : List UInt8) :
    parseAnswerLine (text rid) (text (answerBytes verb rid fields)) =
      if text (ascii verb) = units "VOL" then parseVol (some (text fields))
      else if text (ascii verb) = units "ENT" then parseEnt (some (text fields))
      else if text (ascii verb) = units "DONE" then parseDone (some (text fields))
      else if text (ascii verb) = units "ERR" then parseErr (some (text fields))
      else if text (ascii verb) = units "DEL" then parseDel (some (text fields))
      else if text (ascii verb) = units "GOT" then parseGot (some (text fields))
      else none := by
  unfold parseAnswerLine
  rw [answerBytes, text_field, word_text hverb]
  dsimp only
  rw [text_field, word_text hid]
  dsimp only
  rw [if_neg (not_not.2 rfl)]
  simp only [Option.some.injEq]

theorem nameSendable_le (h : Receive.nameSendable name = true) : name.length ≤ 30 := by
  unfold Receive.nameSendable at h
  simp only [Bool.and_eq_true, decide_eq_true_eq] at h
  exact h.1.1.1.1.2

theorem deviceSendable_le (h : Receive.deviceSendable device = true) : device.length ≤ 31 := by
  unfold Receive.deviceSendable at h
  simp only [Bool.and_eq_true, decide_eq_true_eq] at h
  exact h.1.1.2

theorem parse_vol {rid : List UInt8} (hid : Receive.blank ∉ rid)
    (hname : Receive.nameSendable v.name = true) (hdevice : Receive.deviceSendable v.device = true)
    (hsize : v.size < 2 ^ 32) (hfree : v.free < 2 ^ 32) :
    parseAnswerLine (text rid) (text (answerBytes "VOL" rid (volFields v))) = some (volAnswer v) := by
  have hlen : v.name.length < 10 ^ 4 := Nat.lt_of_le_of_lt (nameSendable_le hname) (by decide)
  have hdlen : v.device.length < 10 ^ 4 := Nat.lt_of_le_of_lt (deviceSendable_le hdevice) (by decide)
  rw [parseAnswerLine_fields _ (by decide) hid, if_pos (by decide)]
  unfold parseVol volFields
  rw [text_field, lenStr_counted hlen]
  dsimp only
  rw [text_field, lenStr_counted hdlen]
  dsimp only
  rw [text_field, word_text (blank_not_decimal _)]
  dsimp only
  rw [text_field, word_text (blank_not_decimal _)]
  dsimp only
  rw [word_end (blank_not_sentDate _ _ _)]
  dsimp only
  rw [num_size hsize, num_size hfree, date_sent]
  dsimp only
  rw [nameOk_text hname, deviceOk_text hdevice]
  rfl

theorem length_sentComment (e : Dent) : (sentComment e).length ≤ 79 := by
  unfold sentComment clean
  rw [List.length_map]
  exact List.length_take_le ..

theorem text_kind (b : Bool) :
    Receive.blank ∉ ascii (if b then "d" else "f") ∧
      text (ascii (if b then "d" else "f")) = if b then units "d" else units "f" := by
  cases b <;> exact ⟨by decide, by decide⟩

theorem parse_ent {rid : List UInt8} (hid : Receive.blank ∉ rid)
    (hname : Receive.nameSendable e.name = true) (hsize : e.size < 2 ^ 32) (hprot : e.prot < 2 ^ 32) :
    parseAnswerLine (text rid) (text (answerBytes "ENT" rid (entFields e))) = some (entAnswer e) := by
  have hlen : e.name.length < 10 ^ 4 := Nat.lt_of_le_of_lt (nameSendable_le hname) (by decide)
  have hclen : (sentComment e).length < 10 ^ 4 :=
    Nat.lt_of_le_of_lt (length_sentComment e) (by decide)
  have hcomment : decide ((text (sentComment e)).length ≤ 79) = true := by
    rw [length_text]
    exact decide_eq_true (length_sentComment e)
  have hshown : (if e.isDir then 0 else e.size) < 2 ^ 32 := by
    split
    · decide
    · exact hsize
  have hhex : Receive.blank ∉ numeral 16 e.prot :=
    (Receive.word_numeral (by decide) (by decide) _).2
  rw [parseAnswerLine_fields _ (by decide) hid, if_neg (by decide), if_pos (by decide)]
  unfold parseEnt entFields
  rw [text_field, word_text (text_kind _).1]
  dsimp only
  rw [text_field, word_text (blank_not_decimal _)]
  dsimp only
  rw [text_field, word_text hhex]
  dsimp only
  rw [text_field, word_text (blank_not_sentDate _ _ _)]
  dsimp only
  rw [text_field, lenStr_counted hlen]
  dsimp only
  rw [lenStr_counted_end hclen]
  dsimp only
  rw [num_size hshown, protection_hex hprot, date_sent]
  dsimp only
  rw [nameOk_text hname, hcomment, (text_kind e.isDir).2]
  unfold entAnswer
  cases e.isDir <;> rfl

theorem parse_done {rid : List UInt8} (hid : Receive.blank ∉ rid) (h : count ≤ 1000000) (cut : Bool) :
    parseAnswerLine (text rid) (text (answerBytes "DONE" rid (doneFields count cut))) =
      some (.done count cut) := by
  rw [parseAnswerLine_fields _ (by decide) hid, if_neg (by decide), if_neg (by decide),
    if_pos (by decide)]
  unfold parseDone doneFields
  cases cut with
  | false =>
    rw [if_neg (by decide), List.append_nil, word_end (blank_not_decimal _)]
    dsimp only [word]
    rw [num_count h]
    rfl
  | true =>
    have hcut : Receive.blank ∉ ascii "cut" := by decide
    rw [if_pos rfl, text_field, word_text (blank_not_decimal _)]
    dsimp only
    rw [word_end hcut]
    dsimp only
    rw [num_count h]
    rfl

theorem parse_del {rid : List UInt8} (hid : Receive.blank ∉ rid) (h : count ≤ 1000000) :
    parseAnswerLine (text rid) (text (answerBytes "DEL" rid (decimal count))) =
      some (.del count) := by
  rw [parseAnswerLine_fields _ (by decide) hid, if_neg (by decide), if_neg (by decide),
    if_neg (by decide), if_neg (by decide), if_pos (by decide)]
  unfold parseDel
  rw [word_end (blank_not_decimal _)]
  dsimp only
  rw [num_count h]
  rfl

theorem parse_got {rid : List UInt8} (hid : Receive.blank ∉ rid) (h : tag ≤ 999999999) :
    parseAnswerLine (text rid) (text (answerBytes "GOT" rid (decimal tag))) =
      some (.got (text (decimal tag))) := by
  rw [parseAnswerLine_fields _ (by decide) hid, if_neg (by decide), if_neg (by decide),
    if_neg (by decide), if_neg (by decide), if_neg (by decide), if_pos (by decide)]
  unfold parseGot
  rw [word_end (blank_not_decimal _)]
  dsimp only
  rw [Option.bind_some, digits_decimal (by decide) (by omega)]
  rfl

theorem parse_err {rid : List UInt8} (hid : Receive.blank ∉ rid)
    (hcode : Receive.blank ∉ ascii code ∧ text (ascii code) ∈ codes) (why : List UInt8) :
    parseAnswerLine (text rid) (text (answerBytes "ERR" rid (errFields code why))) =
      some (.err (text (ascii code)) (text (clean why 80))) := by
  have hlen : (clean why 80).length < 10 ^ 4 := by
    unfold clean
    rw [List.length_map]
    exact Nat.lt_of_le_of_lt (List.length_take_le ..) (by decide)
  rw [parseAnswerLine_fields _ (by decide) hid, if_neg (by decide), if_neg (by decide),
    if_neg (by decide), if_pos (by decide)]
  unfold parseErr errFields
  rw [text_field, word_text hcode.1]
  dsimp only
  rw [lenStr_counted_end hlen]
  dsimp only
  rw [List.contains_iff_mem.2 hcode.2]
  rfl

-- ---------------------------------------------------------------------------
-- What Transfer puts
-- ---------------------------------------------------------------------------

variable {φ : Type}

theorem puts_eq (s : Session φ) (ps : List (List UInt8))
    (h : s.out.length + ps.flatten.length ≤ Receive.outMax) :
    s.puts ps = { s with out := s.out ++ ps.flatten } := by
  induction ps generalizing s with
  | nil =>
    rw [List.flatten_nil, List.append_nil]
    rfl
  | cons p ps ih =>
    rw [List.flatten_cons, List.length_append] at h
    have hput : s.put p = { s with out := s.out ++ p } := by
      unfold Session.put
      rw [if_neg (by omega)]
    have hrest := ih (s.put p) (by
      rw [hput]
      dsimp only
      rw [List.length_append]
      omega)
    rw [Session.puts, List.foldl_cons]
    change (s.put p).puts ps = _
    rw [hrest, hput, List.flatten_cons, List.append_assoc]

/-- What is put from `s` to `s'` is whole lines, which the server reads to `as`. -/
def Puts (rid : List UInt8) (s s' : Session φ) (as : List AnswerLine) : Prop :=
  ∃ lines : List (List UInt8), s'.out = s.out ++ (lines.map (· ++ [Session.newline])).flatten ∧
    (∀ l ∈ lines, Session.newline ∉ l) ∧
      lines.map (fun l => parseAnswerLine (text rid) (text l)) = as.map some

theorem Puts.nil {s s' : Session φ} (h : s'.out = s.out) : Puts rid s s' [] :=
  ⟨[], by rw [h]; exact (List.append_nil _).symm, fun _ hl => absurd hl List.not_mem_nil, rfl⟩

theorem Puts.of_out {s s' t : Session φ} (h : Puts rid s s' as) (hout : t.out = s'.out) :
    Puts rid s t as := by
  obtain ⟨ls, hls, hrest⟩ := h
  exact ⟨ls, hout.trans hls, hrest⟩

theorem Puts.append {s s' s'' : Session φ} (h : Puts rid s s' as) (h' : Puts rid s' s'' bs) :
    Puts rid s s'' (as ++ bs) := by
  obtain ⟨ls, hout, hnl, hread⟩ := h
  obtain ⟨ls', hout', hnl', hread'⟩ := h'
  refine ⟨ls ++ ls', ?_, ?_, ?_⟩
  · rw [hout', hout, List.map_append, List.flatten_append, List.append_assoc]
  · intro l hl
    rcases List.mem_append.1 hl with hl | hl
    · exact hnl l hl
    · exact hnl' l hl
  · rw [List.map_append, List.map_append, hread, hread']

/-- One line, put piece by piece. -/
theorem Puts.line {s s' : Session φ} {l : List UInt8} (hout : s'.out = s.out ++ (l ++ [Session.newline]))
    (hnl : Session.newline ∉ l) (hread : parseAnswerLine (text rid) (text l) = some a) :
    Puts rid s s' [a] := by
  refine ⟨[l], ?_, ?_, ?_⟩
  · rw [hout, List.map_singleton, List.flatten_singleton]
  · intro l' hl'
    rw [List.mem_singleton.1 hl']
    exact hnl
  · rw [List.map_singleton, hread, List.map_singleton]

/-- A request's id as Transfer has it. -/
structure ReqId (rid : List UInt8) : Prop where
  ne : rid ≠ []
  le : rid.length ≤ 40
  print : ∀ b ∈ rid, 0x20 < b

theorem idByte_print : ∀ n < 256, (Receive.alnum (UInt8.ofNat n) || UInt8.ofNat n == 0x2d ||
    UInt8.ofNat n == 0x5f) = true → 0x20 < UInt8.ofNat n := by
  decide +kernel

theorem reqId_of_idOk (h : Receive.idOk rid = true) : ReqId rid := by
  unfold Receive.idOk at h
  rw [Bool.and_eq_true, Bool.and_eq_true, decide_eq_true_eq, decide_eq_true_eq] at h
  refine ⟨List.ne_nil_of_length_pos h.1.1, h.1.2, fun b hb => ?_⟩
  have hbyte := idByte_print b.toNat (UInt8.toNat_lt b)
  rw [UInt8.ofNat_toNat] at hbyte
  exact hbyte (List.all_eq_true.1 h.2 b hb)

theorem ReqId.no_blank (h : ReqId rid) : Receive.blank ∉ rid := fun hmem =>
  absurd (h.print _ hmem) (by decide)

/-- The bytes of a field print, and it is short. -/
def Field (n : Nat) (bs : List UInt8) : Prop := (∀ b ∈ bs, 0x20 ≤ b) ∧ bs.length ≤ n

instance (n : Nat) (bs : List UInt8) : Decidable (Field n bs) := by
  unfold Field
  infer_instance

theorem Field.join (ha : Field m a) (hb : Field n b) : Field (m + 1 + n) (a ++ Receive.blank :: b) := by
  refine ⟨Entry.append_print ha.1 (Entry.cons_print (by decide) hb.1), ?_⟩
  have := ha.2
  have := hb.2
  rw [List.length_append, List.length_cons]
  omega

theorem Field.mono (h : Field m a) (hle : m ≤ n) : Field n a := ⟨h.1, Nat.le_trans h.2 hle⟩

theorem field_decimal (h : n < 10 ^ 10) : Field 10 (decimal n) :=
  ⟨Entry.numeral_print (by decide) (by decide) n, length_decimal_le (by decide) h⟩

theorem field_counted {s : List UInt8} (hs : ∀ b ∈ s, 0x20 ≤ b) (hlen : s.length ≤ 99) :
    Field (3 + s.length) (Receive.counted s) := by
  have := length_decimal_le (k := 2) (n := s.length) (by decide) (by omega)
  refine ⟨Entry.counted_print hs, ?_⟩
  rw [Receive.counted, List.length_append, List.length_cons]
  omega

theorem field_sentDate (d m t : Nat) : Field 18 (sentDateBytes d m t) := by
  obtain ⟨hd, hm, ht⟩ := sentDate_le d m t
  have hd' := length_decimal_le (k := 6) (by decide) (show (sentDate d m t).1 < 10 ^ 6 by omega)
  have hm' := length_decimal_le (k := 5) (by decide) (show (sentDate d m t).2.1 < 10 ^ 5 by omega)
  have ht' := length_decimal_le (k := 5) (by decide) (show (sentDate d m t).2.2 < 10 ^ 5 by omega)
  have hprint : ∀ n, ∀ b ∈ decimal n, 0x20 ≤ b := Entry.numeral_print (by decide) (by decide)
  have hdot : (0x20 : UInt8) ≤ Receive.dot := by decide
  refine ⟨Entry.append_print (hprint _) (Entry.cons_print hdot (Entry.append_print (hprint _)
    (Entry.cons_print hdot (hprint _)))), ?_⟩
  unfold sentDateBytes dateBytes
  dsimp only
  rw [List.length_append, List.length_cons, List.length_append, List.length_cons]
  omega

/-- With room for a line, the line is put whole. -/
theorem puts_answer {s : Session φ} {ps : List (List UInt8)} {rid fields : List UInt8}
    (hid : ReqId rid) (hroom : s.hasRoom = true) (hverb : Field 4 (ascii verb))
    (hfields : Field 300 fields)
    (hps : ps.flatten = answerBytes verb rid fields ++ [Session.newline])
    (hread : parseAnswerLine (text rid) (text (answerBytes verb rid fields)) = some a) :
    Puts rid s (s.puts ps) [a] ∧ (s.puts ps).req = s.req ∧ (s.puts ps).disk = s.disk ∧
      (s.puts ps).vols = s.vols := by
  have hrid : Field 40 rid := ⟨fun b hb => UInt8.le_of_lt (hid.print b hb), hid.le⟩
  have hline : Field 346 (answerBytes verb rid fields) := hverb.join (hrid.join hfields)
  have hfree : s.out.length + 384 ≤ 1024 := by
    unfold Session.hasRoom at hroom
    have hge : 1024 - s.out.length ≥ 384 := of_decide_eq_true hroom
    omega
  have hmax : Receive.outMax = 1024 := rfl
  have hlen := hline.2
  have heq := puts_eq s ps (by
    rw [hps, List.length_append, List.length_singleton, hmax]
    omega)
  refine ⟨Puts.line ?_ ?_ hread, ?_, ?_, ?_⟩
  · rw [heq, hps]
  · exact fun hmem => absurd (hline.1 _ hmem) (by decide)
  all_goals rw [heq]

theorem nameSendable_print (h : Receive.nameSendable name = true) : ∀ b ∈ name, 0x20 ≤ b := by
  unfold Receive.nameSendable at h
  simp only [Bool.and_eq_true, List.all_eq_true] at h
  intro b hb
  have hbyte := (h.1.2 b hb).1.1.1
  unfold Receive.control at hbyte
  rw [Bool.not_eq_true', Bool.or_eq_false_iff, decide_eq_false_iff_not] at hbyte
  exact UInt8.not_lt.1 hbyte.1

theorem deviceByte_print : ∀ n < 256, (Receive.alnum (UInt8.ofNat n) || UInt8.ofNat n == 0x5f ||
    UInt8.ofNat n == Receive.dot || UInt8.ofNat n == 0x2d) = true → 0x20 ≤ UInt8.ofNat n := by
  decide +kernel

theorem deviceSendable_print (h : Receive.deviceSendable device = true) : ∀ b ∈ device, 0x20 ≤ b := by
  unfold Receive.deviceSendable at h
  simp only [Bool.and_eq_true, beq_iff_eq] at h
  obtain ⟨⟨-, hlast⟩, hall⟩ := h
  intro b hb
  obtain ⟨ys, hys⟩ := List.getLast?_eq_some_iff.1 hlast
  rw [hys, List.dropLast_concat] at hall
  rw [hys, List.mem_append, List.mem_singleton] at hb
  rcases hb with hb | rfl
  · have hbyte := deviceByte_print b.toNat (UInt8.toNat_lt b)
    rw [UInt8.ofNat_toNat] at hbyte
    exact hbyte (List.all_eq_true.1 hall b hb)
  · decide

theorem clean_print (s : List UInt8) (cap : Nat) : ∀ b ∈ clean s cap, 0x20 ≤ b := by
  intro b hb
  obtain ⟨c, -, rfl⟩ := List.mem_map.1 hb
  split
  · decide
  · rename_i h
    exact UInt8.not_lt.1 h

theorem sentComment_print (e : Dent) : ∀ b ∈ sentComment e, 0x20 ≤ b := clean_print _ _

theorem flatten_lenPieces (bs : List UInt8) : (Receive.lenPieces bs).flatten = Receive.counted bs := by
  simp [Receive.lenPieces, Receive.counted]

theorem flatten_datePieces (d m t : Nat) :
    (Session.datePieces d m t).flatten = sentDateBytes d m t := by
  have hdot : ascii "." = [Receive.dot] := rfl
  unfold Session.datePieces sentDateBytes sentDate dateBytes
  by_cases h : d > 999999 ∨ m > 99999 ∨ t > 99999
  · simp only [if_pos h]
    simp [hdot]
  · simp only [if_neg h]
    simp [hdot]

theorem ascii_blank : ascii " " = [Receive.blank] := rfl

theorem ascii_newline : ascii "\n" = [Session.newline] := rfl

theorem volLine_puts {s : Session φ} (hid : ReqId s.req.id) (hroom : s.hasRoom = true)
    (hname : Receive.nameSendable v.name = true) (hdevice : Receive.deviceSendable v.device = true)
    (hsize : v.size < 2 ^ 32) (hfree : v.free < 2 ^ 32) :
    Puts s.req.id s (s.volLine v) [volAnswer v] ∧ (s.volLine v).req = s.req ∧
      (s.volLine v).disk = s.disk ∧ (s.volLine v).vols = s.vols := by
  have hlen := nameSendable_le hname
  have hdlen := deviceSendable_le hdevice
  have hfields : Field 300 (volFields v) :=
    ((field_counted (nameSendable_print hname) (by omega)).join
      ((field_counted (deviceSendable_print hdevice) (by omega)).join
        ((field_decimal (by omega)).join ((field_decimal (by omega)).join
          (field_sentDate v.days v.mins v.ticks))))).mono (by omega)
  refine puts_answer hid hroom ⟨by decide, by decide⟩ hfields ?_
    (parse_vol hid.no_blank hname hdevice hsize hfree)
  have hverb : ascii "VOL " = ascii "VOL" ++ [Receive.blank] := rfl
  unfold answerBytes volFields
  simp only [List.flatten_append, List.flatten_cons, List.flatten_nil, flatten_lenPieces,
    flatten_datePieces, ascii_blank, ascii_newline, hverb, List.append_assoc, List.append_nil,
    List.nil_append, List.cons_append]

theorem entLine_puts {s : Session φ} (hid : ReqId s.req.id) (hroom : s.hasRoom = true)
    (hname : Receive.nameSendable e.name = true) (hsize : e.size < 2 ^ 32) (hprot : e.prot < 2 ^ 32) :
    Puts s.req.id s (s.entLine e) [entAnswer e] ∧ (s.entLine e).req = s.req ∧
      (s.entLine e).disk = s.disk ∧ (s.entLine e).vols = s.vols := by
  have hlen := nameSendable_le hname
  have hclen := length_sentComment e
  have hkind : Field 1 (ascii (if e.isDir then "d" else "f")) := by
    cases e.isDir <;> exact ⟨by decide, by decide⟩
  have hshown : (if e.isDir then 0 else e.size) < 10 ^ 10 := by
    split <;> omega
  have hhex : Field 8 (numeral 16 e.prot) :=
    ⟨Entry.numeral_print (by decide) (by decide) _,
      length_numeral_le (by decide) (by decide) (by omega)⟩
  have hfields : Field 300 (entFields e) :=
    (hkind.join ((field_decimal hshown).join (hhex.join
      ((field_sentDate e.days e.mins e.ticks).join
        ((field_counted (nameSendable_print hname) (by omega)).join
          (field_counted (sentComment_print e) (by omega))))))).mono (by omega)
  refine puts_answer hid hroom ⟨by decide, by decide⟩ hfields ?_
    (parse_ent hid.no_blank hname hsize hprot)
  have hverb : ascii "ENT " = ascii "ENT" ++ [Receive.blank] := rfl
  have hword : ascii (if e.isDir then " d " else " f ") =
      Receive.blank :: (ascii (if e.isDir then "d" else "f") ++ [Receive.blank]) := by
    cases e.isDir <;> rfl
  have hhexed : Receive.hex e.prot = numeral 16 e.prot := rfl
  unfold answerBytes entFields
  simp only [List.flatten_append, List.flatten_cons, List.flatten_nil, flatten_lenPieces,
    flatten_datePieces, ascii_blank, ascii_newline, hverb, hword, hhexed, List.append_assoc,
    List.append_nil, List.nil_append, List.cons_append]
  rfl

theorem reqEnd_out (fs : Receive.Fs φ) (s : Session φ) : (s.reqEnd fs).out = s.out := by
  unfold Session.reqEnd
  dsimp only
  split <;> rfl

/-- DONE, once it is put: the end of the answer. -/
theorem reqDone_puts (fs : Receive.Fs φ) {s : Session φ} (hid : ReqId s.req.id)
    (hroom : s.hasRoom = true) (hcount : s.req.count ≤ 1000000) (cut : Bool) :
    Puts s.req.id s (s.reqDone fs cut) [.done s.req.count cut] := by
  have hfields : Field 300 (doneFields s.req.count cut) := by
    have hdec := field_decimal (n := s.req.count) (by omega)
    unfold doneFields
    cases cut with
    | false =>
      rw [if_neg (by decide), List.append_nil]
      exact hdec.mono (by decide)
    | true =>
      have hcut : Field 3 (ascii "cut") := ⟨by decide, by decide⟩
      exact (hdec.join hcut).mono (by decide)
  have hverb : ascii "DONE " = ascii "DONE" ++ [Receive.blank] := rfl
  have hword : ascii " cut" = Receive.blank :: ascii "cut" := rfl
  have hps : ([ascii "DONE ", s.req.id, ascii " ", decimal s.req.count] ++
      (if cut then [ascii " cut"] else []) ++ [ascii "\n"]).flatten =
        answerBytes "DONE" s.req.id (doneFields s.req.count cut) ++ [Session.newline] := by
    unfold answerBytes doneFields
    cases cut <;> simp [ascii_blank, ascii_newline, hverb, hword]
  have hputs := (puts_answer hid hroom ⟨by decide, by decide⟩ hfields hps
    (parse_done hid.no_blank hcount cut)).1
  exact hputs.of_out (reqEnd_out fs _)

theorem putDel_puts {s : Session φ} (hid : ReqId s.req.id) (hroom : s.hasRoom = true)
    (hcount : s.req.count ≤ 1000000) : Puts s.req.id s s.putDel [.del s.req.count] := by
  have hfields : Field 300 (decimal s.req.count) := (field_decimal (by omega)).mono (by decide)
  have hverb : ascii "DEL " = ascii "DEL" ++ [Receive.blank] := rfl
  refine (puts_answer hid hroom ⟨by decide, by decide⟩ hfields ?_
    (parse_del hid.no_blank hcount)).1
  unfold answerBytes
  simp [ascii_blank, ascii_newline, hverb]

/-- GOT, with the tag the file goes up under. -/
theorem got_puts {s : Session φ} (hid : ReqId s.req.id) (hroom : s.hasRoom = true)
    (htag : tag ≤ 999999999) :
    Puts s.req.id s (s.puts [ascii "GOT ", s.req.id, ascii " ", decimal tag, ascii "\n"])
      [.got (text (decimal tag))] := by
  have hfields : Field 300 (decimal tag) := (field_decimal (by omega)).mono (by decide)
  have hverb : ascii "GOT " = ascii "GOT" ++ [Receive.blank] := rfl
  refine (puts_answer hid hroom ⟨by decide, by decide⟩ hfields ?_
    (parse_got hid.no_blank htag)).1
  unfold answerBytes
  simp [ascii_blank, ascii_newline, hverb]

/-- A code the server knows. -/
def Code (code : String) : Prop :=
  Field 10 (ascii code) ∧ Receive.blank ∉ ascii code ∧ text (ascii code) = units code ∧
    units code ∈ codes

instance (code : String) : Decidable (Code code) :=
  decidable_of_iff (Field 10 (ascii code) ∧ Receive.blank ∉ ascii code ∧ text (ascii code) = units code ∧
    codes.contains (units code)) (by rw [Code, List.contains_iff_mem])

theorem code_errCode (err : Nat) (wantDir : Bool) : Code (Receive.errCode err wantDir) := by
  have hall : ∀ c ∈ ["notfound", "busy", "denied", "notdir", "isdir", "exists", "wprot", "xvol", "full",
      "io"], Code c := by
    decide
  have hmem : Receive.errCode err wantDir ∈ ["notfound", "busy", "denied", "notdir", "isdir", "exists",
      "wprot", "xvol", "full", "io"] := by
    unfold Receive.errCode
    split_ifs <;> simp
  exact hall _ hmem

theorem reqErr_puts {s : Session φ} (hid : ReqId rid) (hroom : s.hasRoom = true) (hcode : Code code)
    (why : List UInt8) :
    Puts rid s (s.reqErr rid code why) [.err (units code) (text (clean why 80))] := by
  obtain ⟨hfield, hword, htext, hknown⟩ := hcode
  have hlen : (clean why 80).length ≤ 79 := by
    unfold clean
    rw [List.length_map]
    exact List.length_take_le ..
  have hfields : Field 300 (errFields code why) :=
    (hfield.join (field_counted (clean_print why 80) (by omega))).mono (by omega)
  have hverb : ascii "ERR " = ascii "ERR" ++ [Receive.blank] := rfl
  have hdash : Session.orDash rid = rid := if_neg hid.ne
  refine (puts_answer hid hroom ⟨by decide, by decide⟩ hfields ?_
    (htext ▸ parse_err hid.no_blank ⟨hword, htext ▸ hknown⟩ why)).1
  unfold answerBytes errFields
  simp only [List.flatten_append, List.flatten_cons, List.flatten_nil, flatten_lenPieces, ascii_blank,
    ascii_newline, hverb, hdash, List.append_assoc, List.append_nil, List.nil_append, List.cons_append]

theorem reqFailText_puts (fs : Receive.Fs φ) {s : Session φ} (hid : ReqId s.req.id)
    (hroom : s.hasRoom = true) (hcode : Code code) (why : List UInt8) :
    Puts s.req.id s (s.reqFailText fs code why) [.err (units code) (text (clean why 80))] :=
  (reqErr_puts hid hroom hcode why).of_out (reqEnd_out fs _)

/-- A DOS error's ERR. -/
theorem reqFail_puts (fs : Receive.Fs φ) {s : Session φ} (hid : ReqId s.req.id)
    (hroom : s.hasRoom = true) (err : Nat) (wantDir : Bool) :
    ∃ why, Puts s.req.id s (s.reqFail fs err wantDir)
      [.err (units (Receive.errCode err wantDir)) why] := by
  unfold Session.reqFail
  exact ⟨_, reqFailText_puts fs (s := { s with disk := (fs.fault err s.disk).2 }) hid hroom
    (code_errCode err wantDir) _⟩

-- ---------------------------------------------------------------------------
-- Whole listings
-- ---------------------------------------------------------------------------

/-- How an answer's lines stop: for want of room, with its count, or with an error. -/
def Ending (tail : List AnswerLine) : Prop :=
  tail = [] ∨ (∃ n cut, tail = [.done n cut]) ∨ ∃ code why, tail = [.err code why]

/-- The entries a listing gives, from one state of the disk to another. -/
inductive Listed (fs : Receive.Fs φ) : φ → List Dent → φ → Prop
  | stop (d : φ) : Listed fs d [] d
  | entry (h : fs.dirNext d = (.entry e, d')) (hrest : Listed fs d' es d'') : Listed fs d (e :: es) d''

/-- The Amiga's sizes and protection bits are 32 bits. -/
def Fs.Words (fs : Receive.Fs φ) : Prop :=
  ∀ d e d', fs.dirNext d = (.entry e, d') → e.size < 2 ^ 32 ∧ e.prot < 2 ^ 32

def sendable (es : List Dent) : List Dent := es.filter fun e => Receive.nameSendable e.name

theorem pumpDir_puts (fs : Receive.Fs φ) (hfs : Fs.Words fs) {s : Session φ} (hid : ReqId s.req.id)
    (hcount : s.req.count ≤ Receive.entMax) :
    ∃ es d tail, Listed fs s.disk es d ∧ Ending tail ∧
      Puts s.req.id s (s.pumpDir fs) ((sendable es).map entAnswer ++ tail) := by
  fun_induction Session.pumpDir fs s with
  | case1 s => exact ⟨[], s.disk, [], .stop _, .inl rfl, .nil rfl⟩
  | case2 s hgo e d heq =>
    have hroom : s.hasRoom = true := by simpa using (not_or.1 hgo).2
    obtain ⟨why, hputs⟩ := reqFail_puts fs (s := { s with disk := d }) hid hroom e true
    exact ⟨[], s.disk, _, .stop _, .inr (.inr ⟨_, why, rfl⟩), hputs⟩
  | case3 s hgo d heq =>
    have hroom : s.hasRoom = true := by simpa using (not_or.1 hgo).2
    have hmax : s.req.count ≤ 1000000 := Nat.le_trans hcount (by decide)
    exact ⟨[], s.disk, _, .stop _, .inr (.inl ⟨_, _, rfl⟩),
      reqDone_puts fs (s := { s with disk := d }) hid hroom hmax false⟩
  | case4 s hgo e d heq s' hname ih =>
    obtain ⟨es, d', tail, hlisted, hend, hputs⟩ := ih hid hcount
    have hskip : sendable (e :: es) = sendable es := by
      unfold sendable
      rw [List.filter_cons, if_neg (by simpa using hname)]
    refine ⟨e :: es, d', tail, .entry heq hlisted, hend, ?_⟩
    rw [hskip]
    exact hputs
  | case5 s hgo e d heq s' hname hmax =>
    have hroom : s.hasRoom = true := by simpa using (not_or.1 hgo).2
    have hle : s.req.count ≤ 1000000 := Nat.le_trans hcount (by decide)
    exact ⟨[], s.disk, _, .stop _, .inr (.inl ⟨_, _, rfl⟩), reqDone_puts fs (s := s') hid hroom hle true⟩
  | case6 s hgo e d heq s' hname hmax s'' ih =>
    have hroom : s.hasRoom = true := by simpa using (not_or.1 hgo).2
    have hsend : Receive.nameSendable e.name = true := by simpa using hname
    obtain ⟨hsize, hprot⟩ := hfs _ _ _ heq
    have hline : Puts s.req.id s s'' [entAnswer e] ∧ s''.req = s.req ∧ s''.disk = d := by
      obtain ⟨hputs, hreq, hdisk, -⟩ := entLine_puts (s := s') hid hroom hsend hsize hprot
      exact ⟨hputs, hreq, hdisk⟩
    clear_value s''
    obtain ⟨hputs, hreq, rfl⟩ := hline
    rw [hreq] at ih
    obtain ⟨es, d', tail, hlisted, hend, hrest⟩ := ih hid (by
      change s.req.count + 1 ≤ _
      omega)
    have hkeep : sendable (e :: es) = e :: sendable es := by
      unfold sendable
      rw [List.filter_cons, if_pos hsend]
    refine ⟨e :: es, d', tail, .entry heq hlisted, hend, ?_⟩
    rw [hkeep, List.map_cons, List.cons_append, hreq]
    exact (hputs.of_out rfl).append hrest

def sendableVols (vs : List Vol) : List Vol :=
  vs.filter fun v => Receive.nameSendable v.name && Receive.deviceSendable v.device

/-- The volumes a VOLS answer walks, and how far it is. -/
structure Walks (s : Session φ) : Prop where
  id : ReqId s.req.id
  count : s.req.count ≤ s.req.i
  at_le : s.req.i ≤ s.req.nvols
  read : s.req.nvols ≤ s.vols.length
  few : s.req.nvols ≤ Receive.volsMax
  words : ∀ v ∈ s.vols, v.size < 2 ^ 32 ∧ v.free < 2 ^ 32

/-- The walk's next volume. -/
def walked (s : Session φ) : Session φ := { s with req := { s.req with i := s.req.i + 1 } }

def countedOne (s : Session φ) : Session φ := { s with req := { s.req with count := s.req.count + 1 } }

theorem pumpVols_puts (fs : Receive.Fs φ) (k : Nat) {s : Session φ} (h : Walks s) :
    ∃ n tail, Ending tail ∧ Puts s.req.id s (s.pumpVols fs k)
      ((sendableVols ((s.vols.drop s.req.i).take n)).map volAnswer ++ tail) := by
  induction k generalizing s with
  | zero => exact ⟨0, [], .inl rfl, .nil rfl⟩
  | succ k ih =>
    unfold Session.pumpVols
    by_cases hgo : s.req.kind ≠ .vols ∨ (!s.hasRoom) = true
    · rw [if_pos hgo]
      exact ⟨0, [], .inl rfl, .nil rfl⟩
    have hroom : s.hasRoom = true := by simpa using (not_or.1 hgo).2
    rw [if_neg hgo]
    by_cases hend : s.req.i ≥ s.req.nvols
    · rw [if_pos hend]
      have hmax : s.req.count ≤ 1000000 :=
        Nat.le_trans h.count (Nat.le_trans h.at_le (Nat.le_trans h.few (by decide)))
      exact ⟨0, _, .inr (.inl ⟨_, _, rfl⟩), reqDone_puts fs h.id hroom hmax false⟩
    rw [if_neg hend]
    have hlt : s.req.i < s.vols.length := by
      have := h.read
      omega
    have hdrop : ∀ n, (s.vols.drop s.req.i).take (n + 1) =
        s.vols[s.req.i] :: (s.vols.drop (s.req.i + 1)).take n := by
      intro n
      rw [List.drop_eq_getElem_cons hlt, List.take_succ_cons]
    have hget : s.vols.getD s.req.i {} = s.vols[s.req.i] := by
      rw [List.getD_eq_getElem?_getD, List.getElem?_eq_getElem hlt, Option.getD_some]
    dsimp only
    rw [hget]
    by_cases hskip : (!Receive.nameSendable s.vols[s.req.i].name ||
        !Receive.deviceSendable s.vols[s.req.i].device) = true
    · rw [if_pos hskip]
      have hwalks : Walks (walked s) :=
        ⟨h.id, Nat.le_succ_of_le h.count, by change s.req.i + 1 ≤ s.req.nvols; omega, h.read, h.few, h.words⟩
      obtain ⟨n, tail, htail, hputs⟩ := ih hwalks
      refine ⟨n + 1, tail, htail, ?_⟩
      have hnone : sendableVols ((s.vols.drop s.req.i).take (n + 1)) =
          sendableVols ((s.vols.drop (s.req.i + 1)).take n) := by
        unfold sendableVols
        rw [hdrop, List.filter_cons, if_neg]
        rw [← Bool.not_and, Bool.not_eq_true'] at hskip
        rw [hskip]
        decide
      rw [hnone]
      exact hputs
    · rw [if_neg hskip]
      rw [Bool.not_eq_true, Bool.or_eq_false_iff, Bool.not_eq_false', Bool.not_eq_false'] at hskip
      obtain ⟨hsize, hfree⟩ := h.words _ (List.getElem_mem hlt)
      have hline := volLine_puts (s := walked s) h.id hroom hskip.1 hskip.2 hsize hfree
      change ∃ n tail, Ending tail ∧ Puts s.req.id s
        ((countedOne ((walked s).volLine s.vols[s.req.i])).pumpVols fs k) _
      obtain ⟨hputs, hreq, -, hvols⟩ := hline
      generalize (walked s).volLine s.vols[s.req.i] = t at hputs hreq hvols ⊢
      have hwalks : Walks (countedOne t) := by
        refine ⟨?_, ?_, ?_, ?_, ?_, ?_⟩
        · change ReqId t.req.id
          rw [hreq]
          exact h.id
        · change t.req.count + 1 ≤ t.req.i
          rw [hreq]
          exact Nat.succ_le_succ h.count
        · change t.req.i ≤ t.req.nvols
          rw [hreq]
          change s.req.i + 1 ≤ s.req.nvols
          omega
        · change t.req.nvols ≤ t.vols.length
          rw [hreq, hvols]
          exact h.read
        · change t.req.nvols ≤ _
          rw [hreq]
          exact h.few
        · change ∀ v ∈ t.vols, _
          rw [hvols]
          exact h.words
      obtain ⟨n, tail, htail, hrest⟩ := ih hwalks
      refine ⟨n + 1, tail, htail, ?_⟩
      have hone : sendableVols ((s.vols.drop s.req.i).take (n + 1)) =
          s.vols[s.req.i] :: sendableVols ((s.vols.drop (s.req.i + 1)).take n) := by
        unfold sendableVols
        rw [hdrop, List.filter_cons, hskip.1, hskip.2]
        rfl
      rw [hone, List.map_cons, List.cons_append]
      change Puts t.req.id t _ ((sendableVols ((t.vols.drop t.req.i).take n)).map volAnswer ++ tail) at hrest
      rw [hreq, hvols] at hrest
      exact (hputs.of_out rfl).append hrest

end WebAdf.Browse
