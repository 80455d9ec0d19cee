import WebAdf.Receive.Feed
import WebAdf.Send.BoardLaws
import WebAdf.Send.Names

/-!
# The queue's lines

A queued row is an entry, and its NEXT line the entry's. So the board reads it
and Transfer reads the FILE line the board makes of it, both to what the row
says; and the text is as many lines as its LIST counts, within the board's
buffer.
-/

namespace WebAdf.Send

open Lib
open Receive (Mode)

-- ---------------------------------------------------------------------------
-- Rows as entries
-- ---------------------------------------------------------------------------

/-- What the server checked of a row's path, size and comment. -/
theorem Queued.checked (h : Queued r) :
    r.sizeBytes ≤ sendFileMax ∧ (∃ c, r.comment = cleanComment c) ∧
      ((r.dest = none ∧ ∃ input, cleanAmigaPath input = some r.path) ∨
        ∃ dest, r.dest = some dest ∧ cleanAmigaDest dest = some dest) := by
  rcases h with ⟨a, ha⟩ | ⟨f, hf⟩
  · unfold blobRow at ha
    split at ha
    · cases ha
    rename_i path hpath
    split at ha
    · cases ha
    rename_i hsize
    have hr := Except.ok.inj ha
    rw [← hr]
    exact ⟨Nat.not_lt.1 hsize, ⟨a.comment, rfl⟩, .inl ⟨rfl, a.path, hpath⟩⟩
  · unfold fileRow at hf
    split at hf
    · cases hf
    rename_i path hpath
    split at hf
    · cases hf
    rename_i hsize
    split at hf
    · cases hf
    have hr := Except.ok.inj hf
    rw [← hr]
    refine ⟨Nat.not_lt.1 hsize, ⟨f.comment, rfl⟩, ?_⟩
    unfold pathOf at hpath
    split at hpath
    · rename_i hdest
      exact .inl ⟨hdest, f.path, hpath⟩
    · rename_i dest hdest
      obtain ⟨d, hd, -⟩ := Option.bind_eq_some_iff.1 hpath
      have hsame := (cleanAmigaDest_good hd).1
      exact .inr ⟨dest, hdest, hsame ▸ hd⟩

def ClashMode.mode : ClashMode → Mode
  | .keep => .keep
  | .replace => .replace
  | .skip => .skip

/-- A relative row has no mode. -/
def clash (r : QueueRow) : Mode :=
  match r.dest with
  | none | some [] => .none
  | some _ => (r.onClash.getD .keep).mode

def entryOf (r : QueueRow) : Entry :=
  { id := latin1 r.id.text, size := r.sizeBytes, crc := r.crc32.toNat, prot := r.protection.toNat,
    path := latin1 r.place, comment := latin1 r.comment, mode := clash r }

-- ---------------------------------------------------------------------------
-- Text as bytes
-- ---------------------------------------------------------------------------

theorem byte_unit (n : Nat) : UInt8.ofNat (UInt16.ofNat n).toNat = UInt8.ofNat n := by
  apply UInt8.toNat_inj.1
  rw [UInt8.toNat_ofNat', UInt8.toNat_ofNat', UInt16.toNat_ofNat']
  omega

theorem latin1_chars (cs : List Char) :
    latin1 (cs.map fun c => UInt16.ofNat c.toNat) = cs.map fun c => UInt8.ofNat c.toNat := by
  rw [latin1, List.map_map]
  exact List.map_congr_left fun c _ => byte_unit c.toNat

theorem latin1_units (s : String) : latin1 (units s) = ascii s := latin1_chars _

theorem latin1_decimal (n : Nat) : latin1 (decimalUnits n) = decimal n := latin1_chars _

theorem latin1_hex (n : Nat) : latin1 (hexUnits n) = numeral 16 n := latin1_chars _

theorem latin1_counted (s : Units) : latin1 (counted s) = Receive.counted (latin1 s) := by
  rw [counted, latin1_append, latin1_decimal]
  rfl

theorem latin1_mode (m : ClashMode) : latin1 m.text = modeBytes m.mode := by
  cases m <;> exact latin1_units _

theorem ClashMode.mode_ne (m : ClashMode) : m.mode ≠ .none := by
  cases m <;> decide

theorem latin1_modeUnits (r : QueueRow) :
    latin1 (modeUnits r) = if clash r = .none then [] else Receive.blank :: modeBytes (clash r) := by
  have hnone : latin1 [] = if Mode.none = .none then [] else Receive.blank :: modeBytes .none := rfl
  rcases hdest : r.dest with _ | _ | ⟨u, us⟩
  · rw [modeUnits, clash, hdest]
    exact hnone
  · rw [modeUnits, clash, hdest]
    exact hnone
  · rw [modeUnits, clash, hdest]
    dsimp only
    rw [if_neg (ClashMode.mode_ne _), latin1_append, latin1_mode]
    rfl

/-- A row's fields are its entry's line. -/
theorem latin1_nextFields (r : QueueRow) : latin1 (nextFields r) = (entryOf r).line := by
  have hblank : latin1 (units " ") = [Receive.blank] := rfl
  unfold nextFields
  simp only [latin1_append, latin1_modeUnits, hblank, latin1_counted, latin1_decimal, latin1_hex]
  unfold Entry.line
  rw [show (entryOf r).mode = clash r from rfl]
  split <;> simp [Entry.rel, Entry.head, entryOf]

-- ---------------------------------------------------------------------------
-- What a row's entry is
-- ---------------------------------------------------------------------------

theorem hexUnit_alnum (h : hexUnit u = true) :
    Receive.alnum (UInt8.ofNat u.toNat) = true ∧ UInt8.ofNat u.toNat ≠ 0x2d := by
  unfold hexUnit at h
  simp only [Bool.or_eq_true, Bool.and_eq_true, decide_eq_true_eq, UInt16.le_iff_toNat_le] at h
  have hlow : 48 ≤ u.toNat ∧ u.toNat ≤ 102 := by
    change (48 ≤ u.toNat ∧ u.toNat ≤ 57) ∨ (97 ≤ u.toNat ∧ u.toNat ≤ 102) at h
    omega
  have hto : (UInt8.ofNat u.toNat).toNat = u.toNat := byte_toNat (UInt16.le_iff_toNat_le.2 (by
    change u.toNat ≤ 255
    omega))
  constructor
  · simp only [Receive.alnum, isDigit, Bool.or_eq_true, Bool.and_eq_true, decide_eq_true_eq,
      UInt8.le_iff_toNat_le, hto]
    rcases h with h | ⟨h97, h102⟩
    · exact .inr h
    · exact .inl (.inl ⟨h97, Nat.le_trans h102 (by decide)⟩)
  · intro heq
    have hbyte := congrArg UInt8.toNat heq
    rw [hto] at hbyte
    change u.toNat = 45 at hbyte
    omega

theorem Uuid.at (id : Uuid) (h : id.text[i]? = some u) :
    if i = 8 ∨ i = 13 ∨ i = 18 ∨ i = 23 then u = 0x2d else hexUnit u = true := by
  have hshape := id.shape
  unfold isUuid at hshape
  rw [Bool.and_eq_true, List.all_eq_true] at hshape
  have hmem : (u, i) ∈ id.text.zipIdx := List.mem_zipIdx_iff_getElem?.2 h
  have := hshape.2 _ hmem
  dsimp only at this
  split at this
  · rename_i hi
    rw [if_pos hi]
    exact beq_iff_eq.1 this
  · rename_i hi
    rw [if_neg hi]
    exact this

theorem Uuid.length_text (id : Uuid) : id.text.length = 36 := by
  have hshape := id.shape
  unfold isUuid at hshape
  rw [Bool.and_eq_true, beq_iff_eq] at hshape
  exact hshape.1

theorem Uuid.idOk (id : Uuid) : Receive.idOk (latin1 id.text) = true := by
  unfold Receive.idOk
  have hall : (latin1 id.text).all (fun c => Receive.alnum c || c == 0x2d || c == 0x5f) = true := by
    rw [List.all_eq_true]
    intro c hc
    obtain ⟨u, hu, rfl⟩ := List.mem_map.1 hc
    obtain ⟨i, hi⟩ := List.mem_iff_getElem?.1 hu
    have hat := id.at hi
    split at hat
    · rw [hat]
      decide
    · rw [(hexUnit_alnum hat).1]
      rfl
  rw [hall, length_latin1, id.length_text]
  rfl

/-- The first character is a digit. -/
theorem Uuid.first (id : Uuid) :
    ∃ c rest, latin1 id.text = c :: rest ∧ c ≠ 0x2d := by
  cases htext : id.text with
  | nil =>
    have := id.length_text
    rw [htext] at this
    cases this
  | cons u us =>
    have hat := id.at (i := 0) (u := u) (by rw [htext]; rfl)
    rw [if_neg (by decide)] at hat
    exact ⟨UInt8.ofNat u.toNat, latin1 us, rfl, (hexUnit_alnum hat).2⟩

theorem print_byte (hlow : 0x20 ≤ u) (hhigh : u ≤ (0xff : UInt16)) : 0x20 ≤ UInt8.ofNat u.toNat := by
  rw [UInt8.le_iff_toNat_le, byte_toNat hhigh]
  exact UInt16.le_iff_toNat_le.1 hlow

theorem print_latin1 (hplain : Plain s) (hlow : ∀ u ∈ s, 0x20 ≤ u) : ∀ c ∈ latin1 s, 0x20 ≤ c := by
  intro c hc
  obtain ⟨u, hu, rfl⟩ := List.mem_map.1 hc
  exact print_byte (hlow u hu) (hplain u hu)

theorem cleanComment_good (c : Units) :
    Plain (cleanComment c) ∧ (∀ u ∈ cleanComment c, 0x20 ≤ u) ∧ (cleanComment c).length ≤ 79 := by
  have hmem : ∀ u ∈ cleanComment c, (0x20 ≤ u ∧ u ≤ 0x7e) ∨ (0xa0 ≤ u ∧ u ≤ 0xff) := by
    intro u hu
    simpa using (List.mem_filter.1 (List.mem_of_mem_take hu)).2
  refine ⟨fun u hu => ?_, fun u hu => ?_, List.length_take_le ..⟩
  · rcases hmem u hu with ⟨-, h⟩ | ⟨-, h⟩
    · exact UInt16.le_trans h (by decide)
    · exact h
  · rcases hmem u hu with ⟨h, -⟩ | ⟨h, -⟩
    · exact h
    · exact UInt16.le_trans (by decide) h

/-- Relative or absolute, as the row is. -/
theorem Queued.place (h : Queued r) :
    Plain r.place ∧ 1 ≤ r.place.length ∧ r.place.length ≤ 255 ∧ (∀ u ∈ r.place, 0x20 ≤ u) ∧
      ((r.dest = none ∧ clash r = .none ∧ colon ∉ r.place ∧ Receive.pathOk (latin1 r.place) = true) ∨
        (r.dest = some r.place ∧ clash r = (r.onClash.getD .keep).mode ∧ colon ∈ r.place ∧
          absPathForm (latin1 r.place) = true ∧ Receive.absPathOk (latin1 r.place) = true)) := by
  obtain ⟨-, -, ⟨hnone, input, hpath⟩ | ⟨dest, hsome, hdest⟩⟩ := h.checked
  · have hplace : r.place = r.path := by rw [QueueRow.place, hnone, Option.getD_none]
    have hclash : clash r = .none := by rw [clash, hnone]
    obtain ⟨hplain, hcolon, hpos, hle, hok, hlow⟩ := cleanAmigaPath_good hpath
    rw [hplace]
    exact ⟨hplain, hpos, hle, hlow, .inl ⟨hnone, hclash, hcolon, hok⟩⟩
  · have hplace : r.place = dest := by rw [QueueRow.place, hsome, Option.getD_some]
    obtain ⟨-, hplain, hcolon, hpos, hle, hform, hok, hlow⟩ := cleanAmigaDest_good hdest
    have hclash : clash r = (r.onClash.getD .keep).mode := by
      rw [clash, hsome]
      cases dest with
      | nil => cases hcolon
      | cons u us => rfl
    rw [hplace]
    exact ⟨hplain, hpos, hle, hlow, .inr ⟨hsome, hclash, hcolon, hform, hok⟩⟩

theorem Queued.entry_ok (h : Queued r) : (entryOf r).Ok := by
  obtain ⟨hsize, ⟨c, hc⟩, -⟩ := h.checked
  obtain ⟨hplain, hpos, hle, hlow, hplace⟩ := h.place
  obtain ⟨hcplain, hclow, hclen⟩ := cleanComment_good c
  have hcolon : Receive.colon ∈ latin1 r.place ↔ colon ∈ r.place :=
    mem_latin1 (u := colon) hplain (by decide)
  refine ⟨r.id.idOk, hsize, r.crc32.toNat_lt, r.protection.toNat_lt, ?_, ?_, print_latin1 hplain hlow,
    ?_, ?_, ?_, ?_⟩
  · change 1 ≤ (latin1 r.place).length
    rw [length_latin1]
    exact hpos
  · change (latin1 r.place).length ≤ 255
    rw [length_latin1]
    exact hle
  · change (latin1 r.comment).length ≤ 79
    rw [length_latin1, hc]
    exact hclen
  · change ∀ b ∈ latin1 r.comment, 0x20 ≤ b
    rw [hc]
    exact print_latin1 hcplain hclow
  · change clash r ≠ .none ↔ Receive.colon ∈ latin1 r.place
    rw [hcolon]
    rcases hplace with ⟨-, hclash, hno, -⟩ | ⟨-, hclash, hyes, -, -⟩
    · rw [hclash]
      exact ⟨fun h => absurd rfl h, fun h => absurd h hno⟩
    · rw [hclash]
      exact ⟨fun _ => hyes, fun _ => ClashMode.mode_ne _⟩
  · change clash r ≠ .none → absPathForm (latin1 r.place) = true
    rcases hplace with ⟨-, hclash, -⟩ | ⟨-, -, -, hform, -⟩
    · exact fun h => absurd hclash h
    · exact fun _ => hform

-- ---------------------------------------------------------------------------
-- The text's lines
-- ---------------------------------------------------------------------------

theorem splitOn_lines {c : UInt8} {lines : List (List UInt8)} (h : ∀ l ∈ lines, c ∉ l) :
    ((lines.map (· ++ [c])).flatten).splitOn c = lines ++ [[]] := by
  induction lines with
  | nil => rfl
  | cons l ls ih =>
    rw [List.map_cons, List.flatten_cons, List.append_assoc, List.singleton_append,
      List.splitOn_append_cons_self_of_not_mem (h l (List.mem_cons_self ..)),
      ih fun x hx => h x (List.mem_cons_of_mem _ hx), List.cons_append]

/-- The first line, without its end. -/
def nextBytes : Option QueueRow → List UInt8
  | some r => ascii "NEXT " ++ (entryOf r).line
  | none => ascii "NEXT -"

/-- A row of the LIST: its id, its size and its place with the place's length. -/
def rowBytes (r : QueueRow) : List UInt8 :=
  latin1 r.id.text ++ Receive.blank ::
    (decimal r.sizeBytes ++ Receive.blank :: Receive.counted (latin1 r.place))

theorem latin1_nextLine (next : Option QueueRow) : latin1 (nextLine next) = nextBytes next ++ [0x0a] := by
  cases next with
  | none => rfl
  | some r =>
    rw [nextLine, latin1_append, latin1_append, latin1_nextFields, latin1_units, latin1_units]
    rfl

theorem latin1_listRow (r : QueueRow) : latin1 (listRow r) = rowBytes r ++ [0x0a] := by
  have hblank : latin1 (units " ") = [Receive.blank] := rfl
  have hend : latin1 (units "\n") = [0x0a] := rfl
  unfold listRow rowBytes
  simp only [latin1_append, hblank, hend, latin1_counted, latin1_decimal]
  simp

theorem latin1_flatten (ls : List Units) : latin1 ls.flatten = (ls.map latin1).flatten :=
  List.map_flatten

/-- The text up to its `n`th row is its lines, each with its end. -/
theorem latin1_listText (next : Option QueueRow) (rows : List QueueRow) (n : Nat) :
    latin1 (listText (nextLine next) (rows.map listRow) n) =
      ((nextBytes next :: (ascii "LIST " ++ decimal n) :: (rows.take n).map rowBytes).map
        (· ++ [0x0a])).flatten := by
  have hend : latin1 (units "\n") = [0x0a] := rfl
  have hrows : latin1 ((rows.map listRow).take n).flatten =
      (((rows.take n).map rowBytes).map (· ++ [0x0a])).flatten := by
    rw [latin1_flatten, ← List.map_take, List.map_map, List.map_map]
    exact congrArg List.flatten (List.map_congr_left fun r _ => latin1_listRow r)
  unfold listText
  rw [latin1_append, latin1_append, latin1_append, latin1_append, hrows, latin1_nextLine, hend,
    latin1_units, latin1_decimal, List.map_cons, List.map_cons, List.flatten_cons, List.flatten_cons]
  simp only [List.append_assoc]

/-- The text lists as many rows as it says. -/
theorem formatQueue_eq (next : Option QueueRow) (rows : List QueueRow) :
    ∃ n ≤ rows.length, formatQueue next rows = listText (nextLine next) (rows.map listRow) n ∧
      ((latin1 (listText (nextLine next) (rows.map listRow) 0)).length ≤ sendQueueBytes →
        (latin1 (formatQueue next rows)).length ≤ sendQueueBytes) := by
  unfold formatQueue
  dsimp only
  split
  · rename_i n hn
    have hmem := List.mem_of_find?_eq_some hn
    have hfits := List.find?_some hn
    rw [List.mem_reverse, List.mem_range, List.length_map] at hmem
    exact ⟨n, by omega, rfl, fun _ => of_decide_eq_true hfits⟩
  · rename_i hnone
    refine ⟨0, Nat.zero_le _, ?_, fun hzero => ?_⟩
    · rw [listText, List.append_assoc, List.append_assoc, List.append_assoc]
      rfl
    · have := List.find?_eq_none.1 hnone 0 (by simp)
      exact absurd (decide_eq_true hzero) this

theorem rowBytes_print (h : Queued r) : ∀ c ∈ rowBytes r, 0x20 ≤ c := by
  have hok := h.entry_ok
  have hblank : (0x20 : UInt8) ≤ Receive.blank := by decide
  exact Entry.append_print hok.id_print (Entry.cons_print hblank
    (Entry.append_print (Entry.numeral_print (by decide) (by decide) _)
      (Entry.cons_print hblank (Entry.counted_print hok.path_print))))

/-- A row of the LIST is read back: the id, the size, and the place by its length. -/
theorem rowBytes_read (h : Queued r) :
    ∃ c d, Receive.tok (rowBytes r) = (some (latin1 r.id.text), c) ∧
      Receive.tok c = (some (decimal r.sizeBytes), d) ∧
      Receive.num (decimal r.sizeBytes) 10 = some r.sizeBytes ∧
      Receive.lenstr d (Receive.pathMax + 1) false = some (latin1 r.place, []) := by
  have hok := h.entry_ok
  have hsize : r.sizeBytes < 2 ^ 32 := Nat.lt_of_le_of_lt hok.size_le (by decide)
  exact ⟨_, _, Receive.tok_word hok.word_id _,
    Receive.tok_word (Receive.word_numeral (by decide) (by decide) _) _, Receive.num_decimal hsize,
    Receive.lenstr_counted_end hok.path_le (Nat.lt_of_le_of_lt hok.path_le (by decide))
      (Entry.nul_not_print hok.path_print)⟩

-- ---------------------------------------------------------------------------
-- Agreement
-- ---------------------------------------------------------------------------

theorem Queued.clash_eq (h : Queued r) :
    clash r = if r.dest.isSome then (r.onClash.getD .keep).mode else .none := by
  obtain ⟨-, -, -, -, ⟨hnone, hclash, -⟩ | ⟨hsome, hclash, -⟩⟩ := h.place
  · rw [hclash, hnone]
    rfl
  · rw [hclash, hsome]
    rfl

/-- Where the entry goes is where the row does. -/
theorem Queued.dest_eq (h : Queued r) :
    (entryOf r).dest =
      r.dest.map fun dest => (latin1 dest, latin1 (r.onClash.getD .keep).text) := by
  have hmode : (entryOf r).mode = clash r := rfl
  unfold Entry.dest
  obtain ⟨-, -, -, -, ⟨hnone, hclash, -⟩ | ⟨hsome, hclash, -⟩⟩ := h.place
  · rw [hmode, hclash, hnone]
    rfl
  · rw [hmode, hclash, hsome, if_neg (ClashMode.mode_ne _), latin1_mode]
    rfl

/-- The text begins with the row's line. -/
theorem latin1_formatQueue (r : QueueRow) (rows : List QueueRow) :
    ∃ rest, latin1 (formatQueue (some r) rows) =
      ascii "NEXT " ++ (entryOf r).line ++ 0x0a :: rest := by
  obtain ⟨n, -, heq, -⟩ := formatQueue_eq (some r) rows
  rw [heq, latin1_listText, List.map_cons, List.flatten_cons, nextBytes, List.append_assoc,
    List.singleton_append]
  exact ⟨_, rfl⟩

theorem hasNext_queue (r : QueueRow) (rows : List QueueRow) :
    hasNext (latin1 (formatQueue (some r) rows)) = true := by
  obtain ⟨rest, heq⟩ := latin1_formatQueue r rows
  obtain ⟨c, id, hid, hc⟩ := r.id.first
  have hhead : ∃ tail, (entryOf r).line = c :: tail := by
    rw [Entry.line_eq, Entry.head, show (entryOf r).id = c :: id from hid]
    exact ⟨_, rfl⟩
  obtain ⟨tail, htail⟩ := hhead
  have hascii : ascii "NEXT " = [0x4e, 0x45, 0x58, 0x54, 0x20] := rfl
  rw [heq, htail, hasNext, hascii]
  simp [hc]

/-- The server's queue, the board's parser and Transfer's: what each line means,
how many there are and how long they are together. -/
theorem queue_agrees (next : Option QueueRow) (rows : List QueueRow) (hnext : ∀ r ∈ next, Queued r)
    (hrows : ∀ r ∈ rows, Queued r) :
    (∃ n ≤ rows.length,
      (latin1 (formatQueue next rows)).splitOn 0x0a =
        nextBytes next :: (ascii "LIST " ++ decimal n) :: (rows.take n).map rowBytes ++ [[]]) ∧
    (latin1 (formatQueue next rows)).length ≤ sendQueueBytes ∧
    (∀ r ∈ rows, ∃ c d, Receive.tok (rowBytes r) = (some (latin1 r.id.text), c) ∧
      Receive.tok c = (some (decimal r.sizeBytes), d) ∧
      Receive.num (decimal r.sizeBytes) 10 = some r.sizeBytes ∧
      Receive.lenstr d (Receive.pathMax + 1) false = some (latin1 r.place, [])) ∧
    ∀ r ∈ next, ∃ line head rel,
      nextBytes next = ascii "NEXT " ++ line ∧
      hasNext (latin1 (formatQueue next rows)) = true ∧
      nextParse line = some ⟨head, rel, latin1 r.comment,
        r.dest.map fun dest => (latin1 dest, latin1 (r.onClash.getD .keep).text)⟩ ∧
      (∀ canWrite, startFile canWrite (latin1 (formatQueue next rows)) =
        if r.dest.isSome && !canWrite then .failed (latin1 r.id.text) "readonly"
        else .sent (latin1 r.id.text) r.sizeBytes (ascii "FILE " ++ line ++ [0x0a])) ∧
      Receive.parseFile line = .ok ⟨latin1 r.id.text, r.sizeBytes, r.crc32.toNat,
        r.protection.toNat, latin1 r.place, latin1 r.comment,
        if r.dest.isSome then (r.onClash.getD .keep).mode else .none⟩ ∧
      (if r.dest.isSome then Receive.absPathOk (latin1 r.place)
        else Receive.pathOk (latin1 r.place)) = true := by
  obtain ⟨n, hn, heq, hfits⟩ := formatQueue_eq next rows
  have hnextPrint : ∀ c ∈ nextBytes next, 0x20 ≤ c := by
    cases next with
    | none => decide
    | some r => exact Entry.append_print (by decide) (Entry.line_print (hnext r rfl).entry_ok)
  have hlf : ∀ s : List UInt8, (∀ c ∈ s, 0x20 ≤ c) → 0x0a ∉ s :=
    fun s hs hmem => absurd (hs _ hmem) (by decide)
  have hlines : ∀ l ∈ nextBytes next :: (ascii "LIST " ++ decimal n) :: (rows.take n).map rowBytes,
      0x0a ∉ l := by
    intro l hl
    rcases List.mem_cons.1 hl with rfl | hl
    · exact hlf _ hnextPrint
    rcases List.mem_cons.1 hl with rfl | hl
    · exact hlf _ (Entry.append_print (by decide) (Entry.numeral_print (by decide) (by decide) n))
    obtain ⟨r, hr, rfl⟩ := List.mem_map.1 hl
    exact hlf _ (rowBytes_print (hrows r (List.mem_of_mem_take hr)))
  have hhead : (nextBytes next).length ≤ 429 := by
    cases next with
    | none => decide
    | some r =>
      have := Entry.length_line (hnext r rfl).entry_ok
      have hfive : (ascii "NEXT ").length = 5 := rfl
      rw [nextBytes, List.length_append, hfive]
      omega
  refine ⟨⟨n, hn, ?_⟩, hfits ?_, fun r hr => rowBytes_read (hrows r hr), ?_⟩
  · rw [heq, latin1_listText, splitOn_lines hlines]
  · have hzero : (ascii "LIST " ++ decimal 0).length = 6 := by decide
    rw [latin1_listText, List.take_zero, List.map_nil, List.map_cons, List.map_cons, List.map_nil,
      List.flatten_cons, List.flatten_cons, List.flatten_nil, List.length_append, List.length_append,
      List.length_append, List.length_append, hzero, sendQueueBytes]
    simp only [List.length_singleton, List.length_nil]
    omega
  · rintro r hr
    obtain rfl : next = some r := hr
    have h := hnext r rfl
    have hok := h.entry_ok
    refine ⟨(entryOf r).line, (entryOf r).head, (entryOf r).rel, rfl, ?_, ?_,
      fun canWrite => ?_, ?_, ?_⟩
    · exact hasNext_queue r rows
    · rw [Entry.nextParse_line hok, h.dest_eq]
      rfl
    · obtain ⟨rest, heq⟩ := latin1_formatQueue r rows
      rw [heq, Entry.startFile_line hok, h.dest_eq, Option.isSome_map]
      rfl
    · rw [Entry.parseFile_line hok, ← h.clash_eq]
      rfl
    · obtain ⟨-, -, -, -, ⟨hnone, -, -, hpath⟩ | ⟨hsome, -, -, -, hpath⟩⟩ := h.place
      · rw [hnone]
        exact hpath
      · rw [hsome]
        exact hpath

def someId : Uuid := ⟨units "01234567-89ab-4def-8123-456789abcdef", by decide⟩

/-- A copy onto a volume, its name and its comment full of digits and colons. -/
def volumeRow : QueueRow :=
  { id := someId, sizeBytes := 3, crc32 := 0xdeadbeef, protection := 0x10, path := units "4 keep 2",
    comment := units "8:skip 1:x", dest := some (units "Work:a b/4 keep 2"), onClash := some .skip }

theorem volumeRow_queued : Queued volumeRow :=
  .inr ⟨{ path := [], sizeBytes := 3, crc32 := 0xdeadbeef, protection := 0x10,
          comment := units "8:skip 1:x", dest := some (units "Work:a b/4 keep 2"),
          onClash := some .skip }, by rfl⟩

theorem queue_agrees_volume :
    (latin1 (formatQueue (some volumeRow) [volumeRow])).length ≤ sendQueueBytes ∧
      hasNext (latin1 (formatQueue (some volumeRow) [volumeRow])) = true := by
  have hnext : ∀ r ∈ some volumeRow, Queued r := by
    intro r hr
    rw [← Option.some.inj hr]
    exact volumeRow_queued
  have hrows : ∀ r ∈ [volumeRow], Queued r := by
    intro r hr
    rw [List.mem_singleton.1 hr]
    exact volumeRow_queued
  obtain ⟨-, hlen, -, hsent⟩ := queue_agrees (some volumeRow) [volumeRow] hnext hrows
  obtain ⟨-, -, -, -, hhas, -⟩ := hsent volumeRow rfl
  exact ⟨hlen, hhas⟩

end WebAdf.Send
