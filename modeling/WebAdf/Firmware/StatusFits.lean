import WebAdf.Firmware.StatusReport
import WebAdf.Lib.JsonRead

/-!
# The status report fits, and when it is JSON

Whatever a client reports, the body is built and is shorter than its buffer. It is
JSON where the texts that go in as they are need no escape, and what is kept of the
escaped ones is UTF-8; a disk's id with a quote in it breaks the body.
-/

namespace WebAdf.Firmware.Status

open Lib JsonRead

-- ---------------------------------------------------------------------------
-- Texts
-- ---------------------------------------------------------------------------

/-- UTF-8 with nothing in it that JSON escapes. -/
def Clean (s : Bytes) : Prop := Utf8Text s ∧ ∀ c ∈ s, 0x20 ≤ c ∧ c ≠ 0x22 ∧ c ≠ 0x5c

/-- What the escape copies of a text. -/
def keptFrom (outLen n : Nat) : Bytes → Bytes
  | [] => []
  | c :: s =>
    if n + (escByte c).length > outLen - 1 then []
    else c :: keptFrom outLen (n + (escByte c).length) s

def kept (outLen : Nat) (s : Bytes) : Bytes := keptFrom outLen 0 s

theorem escFrom_kept (outLen n : Nat) (s : Bytes) :
    escFrom outLen n s = (keptFrom outLen n s).flatMap escByte := by
  induction s generalizing n with
  | nil => rfl
  | cons c s ih =>
    rw [escFrom, keptFrom]
    split
    · rfl
    · rw [List.flatMap_cons, ih]

theorem length_escFrom (h : n ≤ outLen - 1) (s : Bytes) :
    n + (escFrom outLen n s).length ≤ outLen - 1 := by
  induction s generalizing n with
  | nil => exact h
  | cons c s ih =>
    rw [escFrom]
    split
    · exact h
    · rename_i hfit
      have htail := ih (Nat.not_lt.mp hfit)
      rw [List.length_append]
      omega

theorem escByte_high (h : 0x80 ≤ c) : escByte c = [c] := by
  have hquote : ¬(c = 0x22 ∨ c = 0x5c) := by
    rintro (rfl | rfl)
    all_goals exact absurd h (by decide)
  rw [escByte, if_neg hquote, if_neg (UInt8.not_lt.mpr (UInt8.le_trans (by decide) h))]

theorem escByte_ascii (h : c < 0x80) : ∃ u, ∀ s t, SpellsStr s t → SpellsStr (u :: s) (escByte c ++ t) := by
  rw [escByte]
  split
  · rename_i hquote
    exact ⟨c.toNat, fun s t hs => .quoted hquote hs⟩
  · rename_i hquote
    rw [not_or] at hquote
    split
    · exact ⟨_, fun s t hs => .plain (c := 0x20) (by decide) hs⟩
    · rename_i hlow
      exact ⟨_, fun s t hs => .plain ⟨UInt8.not_lt.mp hlow, h, hquote⟩ hs⟩

/-- UTF-8 stays UTF-8 under the escape. -/
theorem spells_escaped (h : Utf8Text s) : ∃ k, SpellsStr k (s.flatMap escByte) := by
  induction h with
  | nil => exact ⟨[], .nil⟩
  | ascii hc h ih =>
    obtain ⟨k, hk⟩ := ih
    obtain ⟨u, hu⟩ := escByte_ascii hc
    exact ⟨u :: k, hu _ _ hk⟩
  | high hu h ih =>
    obtain ⟨k, hk⟩ := ih
    have hsame : ∀ b : Bytes, (∀ c ∈ b, 0x80 ≤ c) → b.flatMap escByte = b := by
      intro b hb
      induction b with
      | nil => rfl
      | cons c b ih =>
        rw [List.forall_mem_cons] at hb
        rw [List.flatMap_cons, escByte_high hb.1, ih hb.2]
        rfl
    rw [List.flatMap_append, hsame _ hu.high]
    exact ⟨_, .utf8 hu hk⟩

theorem Clean.spells (h : Clean s) : ∃ k, SpellsStr k s := by
  obtain ⟨hutf, hclean⟩ := h
  have hsame : s.flatMap escByte = s := by
    clear hutf
    induction s with
    | nil => rfl
    | cons c s ih =>
      rw [List.forall_mem_cons] at hclean
      obtain ⟨⟨hlow, hquote, hslash⟩, hrest⟩ := hclean
      rw [List.flatMap_cons, ih hrest, escByte, if_neg (not_or.mpr ⟨hquote, hslash⟩),
        if_neg (UInt8.not_lt.mpr hlow)]
      rfl
  have hspells := spells_escaped hutf
  rwa [hsame] at hspells

/-- A literal's bytes. -/
def Plain (s : Bytes) : Prop := ∀ c ∈ s, 0x20 ≤ c ∧ c < 0x80 ∧ c ≠ 0x22 ∧ c ≠ 0x5c

instance : DecidablePred Plain := fun s => List.decidableBAll _ s

theorem Plain.clean (h : Plain s) : Clean s :=
  ⟨utf8Text_ascii fun c hc => (h c hc).2.1, fun c hc => ⟨(h c hc).1, (h c hc).2.2⟩⟩

-- ---------------------------------------------------------------------------
-- Pieces
-- ---------------------------------------------------------------------------

/-- A value's text of at most `n` bytes, JSON where `p` holds. -/
structure Val (n : Nat) (p : Prop) (t : Bytes) : Prop where
  short : t.length ≤ n
  spells : p → ∃ v, Spells v t

/-- Members behind commas. -/
structure Piece (n : Nat) (p : Prop) (t : Bytes) : Prop where
  short : t.length ≤ n
  spells : p → ∃ ms, SpellsMore ms t

/-- Members of an object. -/
structure Members (n : Nat) (p : Prop) (t : Bytes) : Prop where
  short : t.length ≤ n
  spells : p → ∃ ms, SpellsMembers ms t

variable {p : Prop}

theorem print_of_lt (h : t.length < cap) : print cap t = t := by
  rw [print, snprintf_fits h]

theorem Val.print (h : Val n p t) (hn : n < cap) : Val n p (print cap t) := by
  rwa [print_of_lt (Nat.lt_of_le_of_lt h.short hn)]

theorem Val.mono (h : Val n p t) (hn : n ≤ m) : Val m p t := ⟨Nat.le_trans h.short hn, h.spells⟩

theorem Piece.print (h : Piece n p t) (hn : n < cap) : Piece n p (print cap t) := by
  rwa [print_of_lt (Nat.lt_of_le_of_lt h.short hn)]

theorem Piece.mono (h : Piece n p t) (hn : n ≤ m) : Piece m p t := ⟨Nat.le_trans h.short hn, h.spells⟩

theorem Piece.nil : Piece n p [] := ⟨Nat.zero_le _, fun _ => ⟨[], .nil⟩⟩

theorem Piece.append (h : Piece n p t) (h' : Piece m p u) : Piece (n + m) p (t ++ u) := by
  refine ⟨?_, fun hp => ?_⟩
  · have h1 := h.short
    have h2 := h'.short
    rw [List.length_append]
    omega
  · obtain ⟨ms, hms⟩ := h.spells hp
    obtain ⟨ms', hms'⟩ := h'.spells hp
    exact ⟨_, hms.append hms'⟩

/-- A literal that opens a member behind a comma. -/
def Opens (lit k : Bytes) : Prop := lit = 0x2c :: 0x22 :: (k ++ [0x22, 0x3a]) ∧ Plain k

theorem Piece.key (hlit : Opens l k) (hv : Val n p u) : Piece (l.length + n) p (l ++ u) := by
  obtain ⟨hlit, hk⟩ := hlit
  refine ⟨?_, fun hp => ?_⟩
  · have h1 := hv.short
    rw [List.length_append]
    omega
  · obtain ⟨v, hv⟩ := hv.spells hp
    obtain ⟨k', hk⟩ := hk.clean.spells
    have hmore := SpellsMore.cons hk hv .nil
    rw [hlit]
    exact ⟨_, by simpa using hmore⟩

theorem Piece.add (h : Piece n p t) (hlit : Opens l k) (hv : Val m p u) :
    Piece (n + (l.length + m)) p (t ++ l ++ u) := by
  rw [List.append_assoc]
  exact h.append (.key hlit hv)

theorem Members.of (hk : Plain k) (hv : Val n p v) (ht : Piece m p t) :
    Members (k.length + n + m + 3) p (0x22 :: (k ++ 0x22 :: 0x3a :: (v ++ t))) := by
  refine ⟨?_, fun hp => ?_⟩
  · have h1 := hv.short
    have h2 := ht.short
    simp only [List.length_cons, List.length_append]
    omega
  · obtain ⟨w, hw⟩ := hv.spells hp
    obtain ⟨ms, hms⟩ := ht.spells hp
    obtain ⟨k', hk⟩ := hk.clean.spells
    exact ⟨_, hms.members hk hw⟩

theorem Members.cons (hk : Plain k) (hv : Val n p v) (h : Members m p t) :
    Members (k.length + n + m + 4) p (0x22 :: (k ++ 0x22 :: 0x3a :: (v ++ 0x2c :: t))) := by
  refine ⟨?_, fun hp => ?_⟩
  · have h1 := hv.short
    have h2 := h.short
    simp only [List.length_cons, List.length_append]
    omega
  · obtain ⟨w, hw⟩ := hv.spells hp
    obtain ⟨ms, hms⟩ := h.spells hp
    obtain ⟨k', hk⟩ := hk.clean.spells
    exact ⟨_, .cons hk hw hms⟩

theorem Members.val (h : Members n p t) : Val (n + 2) p (0x7b :: (t ++ [0x7d])) := by
  refine ⟨?_, fun hp => ?_⟩
  · have h1 := h.short
    simp only [List.length_cons, List.length_append, List.length_nil]
    omega
  · obtain ⟨ms, hms⟩ := h.spells hp
    exact ⟨_, .obj hms⟩

-- ---------------------------------------------------------------------------
-- Values
-- ---------------------------------------------------------------------------

theorem val_decimal (hk : 0 < k) (h : n < 10 ^ k) : Val k p (decimal n) :=
  ⟨length_decimal_le hk h, fun _ => ⟨_, .nat n⟩⟩

theorem val_u32 (n : UInt32) : Val 10 p (decimal n.toNat) :=
  val_decimal (by decide) (Nat.lt_trans n.toNat_lt (by decide))

theorem val_signed (n : Int32) : Val 11 p (signed n) := by
  have hlo := n.le_toInt
  have hhi := n.toInt_lt
  have hlen : (decimal n.toInt.natAbs).length ≤ 10 := length_decimal_le (by decide) (by omega)
  rw [signed]
  split
  · exact ⟨by rw [List.length_cons]; omega, fun _ => ⟨_, .neg _⟩⟩
  · exact ⟨by omega, fun _ => ⟨_, .nat _⟩⟩

theorem val_null : Val 4 p (ascii "null") := ⟨by decide, fun _ => ⟨_, .null⟩⟩

theorem val_bool (b : Bool) : Val 5 p (boolWord b) := by
  cases b with
  | false => exact ⟨by decide, fun _ => ⟨_, .no⟩⟩
  | true => exact ⟨by decide, fun _ => ⟨_, .yes⟩⟩

theorem length_quoted (s : Bytes) : (quoted s).length = s.length + 2 := by
  rw [quoted, List.length_cons, List.length_append, List.length_singleton]

theorem val_quoted (hs : s.length ≤ n) (h : p → Clean s) : Val (n + 2) p (quoted s) := by
  refine ⟨by rw [length_quoted]; omega, fun hp => ?_⟩
  obtain ⟨k, hk⟩ := (h hp).spells
  exact ⟨_, .str hk⟩

theorem val_escaped (outLen : Nat) (h : p → Utf8Text (kept outLen s)) :
    Val (outLen - 1 + 2) p (quoted (jsonEscape outLen s)) := by
  have hlen := length_escFrom (Nat.zero_le (outLen - 1)) s
  refine ⟨by rw [length_quoted, jsonEscape]; omega, fun hp => ?_⟩
  obtain ⟨k, hk⟩ := spells_escaped (h hp)
  rw [kept, ← escFrom_kept] at hk
  exact ⟨_, .str hk⟩

theorem val_text (hcap : n - 1 + 2 < m) (hfour : 4 ≤ n - 1 + 2)
    (h : p → ∀ s ∈ o, Utf8Text (kept n s)) :
    Val (n - 1 + 2) p (textField m n o) := by
  cases o with
  | none => exact (val_null.mono hfour).print hcap
  | some s => exact (val_escaped n fun hp => h hp s rfl).print hcap

-- ---------------------------------------------------------------------------
-- The boot trail
-- ---------------------------------------------------------------------------

theorem stageName_of {names : List Bytes} (h : ∀ name ∈ names, Plain name ∧ name.length ≤ n)
    (stage : Nat) : Plain (stageName names stage) ∧ (stageName names stage).length ≤ n := by
  rw [stageName, List.getD_eq_getElem?_getD]
  cases hget : names[stage]? with
  | none => exact ⟨by decide, Nat.zero_le _⟩
  | some name => exact h name (List.mem_of_getElem? hget)

theorem and_mask (w : UInt32) {m : UInt32} : (w &&& m).toNat ≤ m.toNat := by
  rw [UInt32.toNat_and]
  exact Nat.and_le_right

theorem btWordRead_up (h : btWordRead w = some (st, up)) : up < 10 ^ 5 := by
  rw [btWordRead] at h
  split at h
  · cases h
  · dsimp only at h
    split at h
    · cases h
    · obtain ⟨-, rfl⟩ := Prod.mk.inj (Option.some.inj h)
      exact Nat.lt_of_le_of_lt (and_mask w) (by decide)

theorem piece_btCore (digit : UInt8) (hd : Plain [digit])
    (hnames : ∀ name ∈ s, Plain name ∧ name.length ≤ 10) (w : UInt32) (held : Bool) :
    Piece 46 p (btCore [digit] s w held) := by
  have hname := stageName_of hnames
  have hc : Plain (ascii "c" ++ [digit]) := by
    rintro c hc
    obtain rfl | hc : c = 0x63 ∨ c ∈ [digit] := by simpa [ascii] using hc
    · decide
    · exact hd c hc
  have hup : Plain (ascii "up" ++ [digit]) := by
    rintro c hc
    obtain rfl | rfl | hc : c = 0x75 ∨ c = 0x70 ∨ c ∈ [digit] := by simpa [ascii] using hc
    · decide
    · decide
    · exact hd c hc
  rw [btCore]
  cases hread : btWordRead w with
  | none => exact .nil
  | some r =>
    obtain ⟨st, up⟩ := r
    dsimp only
    split
    · exact .nil
    · have hstage := Piece.key (p := p) (l := ascii ",\"c" ++ [digit] ++ ascii "\":") ⟨rfl, hc⟩
        (val_quoted (hname st).2 fun _ => (hname st).1.clean)
      have hboth := hstage.add (l := ascii ",\"up" ++ [digit] ++ ascii "\":") ⟨rfl, hup⟩
        (val_decimal (by decide) (btWordRead_up hread))
      have heq : ascii ",\"c" ++ [digit] ++ ascii "\":\"" ++ stageName s st ++
          ascii "\",\"up" ++ [digit] ++ ascii "\":" ++ decimal up =
          ascii ",\"c" ++ [digit] ++ ascii "\":" ++ quoted (stageName s st) ++
            (ascii ",\"up" ++ [digit] ++ ascii "\":") ++ decimal up := by
        have h1 : ascii "\":\"" = ascii "\":" ++ [0x22] := rfl
        have h2 : ascii "\",\"up" = 0x22 :: ascii ",\"up" := rfl
        rw [h1, h2, quoted]
        simp
      rw [heq]
      cases held with
      | false =>
        rw [if_neg Bool.false_ne_true, List.append_nil]
        exact hboth.mono (Nat.le_of_ble_eq_true rfl)
      | true =>
        rw [if_pos rfl]
        exact (hboth.append (.key (l := ascii ",\"i2cHeld\":") (k := ascii "i2cHeld")
          ⟨rfl, by decide⟩ (val_bool true))).mono (Nat.le_of_ble_eq_true rfl)

theorem piece_btUpd (upd : Option Nat) : Piece 17 p (btUpd upd) := by
  rw [btUpd.eq_def]
  cases upd with
  | none => exact .nil
  | some stage =>
    have hname := stageName_of (show ∀ name ∈ utStageNames, Plain name ∧ name.length ≤ 7 by decide) stage
    dsimp only
    split
    · exact .nil
    · have hkey := Piece.key (p := p) (l := ascii ",\"upd\":") (k := ascii "upd") ⟨rfl, by decide⟩
        (val_quoted hname.2 fun _ => hname.1.clean)
      have heq : ascii ",\"upd\":\"" = ascii ",\"upd\":" ++ [0x22] := rfl
      rw [heq, List.append_assoc, List.append_assoc]
      exact hkey.mono (by decide)

/-- The previous boot's text is an object. -/
theorem val_btText (b : BootTrail) : Val 132 p (btText b) := by
  have hreset : ∀ r, Plain (btResetName r) ∧ (btResetName r).length ≤ 11 := by
    rintro (_ | _ | _ | _ | _ | _ | _ | _ | _ | _)
    all_goals decide
  have hr := hreset (btResetReason b.chipReset b.wdReason b.w0)
  have hcores := (piece_btCore (p := p) 0x30 (by decide) (s := stageNames0) (by decide) b.w0
    (btWordI2cHeld b.w0)).append ((piece_btCore 0x31 (by decide) (s := stageNames1) (by decide)
      b.w1 false).append (piece_btUpd b.upd))
  have hmembers := Members.of (k := ascii "reset") (by decide)
    (val_quoted hr.2 fun _ : p => hr.1.clean) hcores
  have hval : Val 132 p _ := hmembers.val.mono (by decide)
  have h1 : ascii "\x7b\"reset\":\"" = 0x7b :: 0x22 :: (ascii "reset" ++ [0x22, 0x3a, 0x22]) := rfl
  have h2 : ascii "0" = [0x30] := rfl
  have h3 : ascii "1" = [0x31] := rfl
  have h4 : ascii "\x7d" = [0x7d] := rfl
  have h5 : ascii "\"" = [0x22] := rfl
  rw [btText, h1, h2, h3, h4, h5]
  rw [quoted] at hval
  simpa using hval

-- ---------------------------------------------------------------------------
-- The tails
-- ---------------------------------------------------------------------------

theorem val_mounted (hs : s.length < 65) (h : p → c.mountedSha256.1 ≠ [] → Clean s) :
    Val 66 p (mountedField c s) := by
  rw [mountedField]
  split
  · rename_i hm
    exact (val_quoted (Nat.le_of_lt_succ hs) fun hp => h hp hm).print (by decide)
  · exact (val_null.mono (by decide)).print (by decide)

theorem piece_fwTail
    (h : p → ∀ f ∈ c.fwReport, f.updateProtocol.toInt > 0 →
      (∀ s ∈ f.state, Utf8Text (kept 32 s)) ∧ ∀ s ∈ f.error, Utf8Text (kept 201 s)) :
    Piece 358 p (fwTail c) := by
  rw [fwTail]
  cases hf : c.fwReport with
  | none => exact .nil
  | some f =>
    dsimp only
    split
    · rename_i hpos
      have hstate := val_text (m := 40) (n := 32) (by decide) (by decide)
        fun hp => (h hp f hf hpos).1
      have herror := val_text (m := errBytes + 2) (n := 201) (by decide) (by decide)
        fun hp => (h hp f hf hpos).2
      have hall := (((Piece.key (k := ascii "updateProtocol") ⟨rfl, by decide⟩
        (val_signed f.updateProtocol)).add (k := ascii "firmwareUpdateState") ⟨rfl, by decide⟩
          hstate).add (k := ascii "firmwareUpdateError") ⟨rfl, by decide⟩ herror).add
            (k := ascii "firmwareInstructionAck") ⟨rfl, by decide⟩ (val_u32 f.instructionAck)
      exact (hall.mono (by decide)).print (by decide)
    · exact .nil

theorem piece_nfcTail : Piece 22 p (nfcTail c) := by
  have hword : Plain c.nfcReader.word ∧ c.nfcReader.word.length ≤ 7 := by
    cases c.nfcReader with
    | unknown => decide
    | present => decide
    | absent => decide
  rw [nfcTail]
  split
  · exact .nil
  · have hkey := Piece.key (p := p) (k := ascii "nfcReader") ⟨rfl, by decide⟩
      (val_quoted hword.2 fun _ => hword.1.clean)
    exact (hkey.mono (by decide)).print (by decide)

theorem piece_preloadTail
    (h : p → c.preload.loading ∨ c.preload.slot ≠ slotNone →
      Clean (if c.preload.loading then c.preload.nextSha256.1 else c.preload.sha256.1)) :
    Piece 106 p (preloadTail c) := by
  rw [preloadTail]
  split
  · rename_i hon
    have hsha : (if c.preload.loading then c.preload.nextSha256.1 else c.preload.sha256.1).length ≤ 64 := by
      split
      · exact Nat.le_of_lt_succ c.preload.nextSha256.2
      · exact Nat.le_of_lt_succ c.preload.sha256.2
    have hstate : ∀ b : Bool, Plain (if b then ascii "loading" else ascii "ready") ∧
        (if b then ascii "loading" else ascii "ready").length ≤ 7 := by decide
    have hloading := hstate c.preload.loading
    generalize (if c.preload.loading then c.preload.nextSha256.1 else c.preload.sha256.1) = sha at *
    generalize (if c.preload.loading then ascii "loading" else ascii "ready") = word at *
    have hmembers := Members.of (k := ascii "sha256") (by decide)
      (val_quoted hsha fun hp => h hp hon)
      (.key (l := ascii ",\"state\":") (k := ascii "state") ⟨rfl, by decide⟩
        (val_quoted hloading.2 fun _ => hloading.1.clean))
    have hkey := Piece.key (l := ascii ",\"preload\":") (k := ascii "preload") ⟨rfl, by decide⟩
      hmembers.val
    have heq : ascii ",\"preload\":\x7b\"sha256\":" ++ quoted sha ++ ascii ",\"state\":" ++
        quoted word ++ ascii "\x7d" = ascii ",\"preload\":" ++ (0x7b :: (0x22 :: (ascii "sha256" ++
          0x22 :: 0x3a :: (quoted sha ++ (ascii ",\"state\":" ++ quoted word))) ++ [0x7d])) := by
      have h1 : ascii ",\"preload\":\x7b\"sha256\":" = ascii ",\"preload\":" ++
        (0x7b :: 0x22 :: (ascii "sha256" ++ [0x22, 0x3a])) := rfl
      have h2 : ascii "\x7d" = [0x7d] := rfl
      rw [h1, h2]
      simp
    rw [heq]
    exact (hkey.mono (by decide)).print (by decide)
  · have hkey := Piece.key (p := p) (l := ascii ",\"preload\":") (k := ascii "preload")
      ⟨rfl, by decide⟩ val_null
    exact (hkey.mono (by decide)).print (by decide)

theorem piece_displayTail (h : p → c.displayLayouts → c.displayError.1 ≠ [] →
    Utf8Text (kept 96 c.displayError.1)) : Piece 164 p (displayTail c) := by
  rw [displayTail]
  split
  · rename_i hon
    have herror := val_text (p := p) (m := 98) (n := 96)
      (o := if c.displayError.1 = [] then none else some c.displayError.1) (by decide) (by decide) (by
        rintro hp s hs
        split at hs
        · cases hs
        · rename_i hne
          obtain rfl := Option.some.inj hs
          exact h hp hon hne)
    have hall := ((Piece.key (l := ascii ",\"displayLayouts\":") (k := ascii "displayLayouts")
      ⟨rfl, by decide⟩ (val_bool true)).add (l := ascii ",\"displayVersion\":")
        (k := ascii "displayVersion") ⟨rfl, by decide⟩ (val_u32 c.displayAck)).add
          (l := ascii ",\"displayError\":") (k := ascii "displayError") ⟨rfl, by decide⟩ herror
    have heq : ascii ",\"displayLayouts\":true,\"displayVersion\":" =
        ascii ",\"displayLayouts\":" ++ boolWord true ++ ascii ",\"displayVersion\":" := rfl
    rw [heq]
    exact (hall.mono (by decide)).print (by decide)
  · exact .nil

theorem piece_playsHd (b : Bool) : Piece 17 p (if b then ascii ",\"playsHd\":true" else []) := by
  cases b with
  | false => exact .nil
  | true =>
    exact (Piece.key (l := ascii ",\"playsHd\":") (k := ascii "playsHd") ⟨rfl, by decide⟩
      (val_bool true)).mono (by decide)

theorem piece_sel1Tail : Piece 40 p (sel1Tail c) := by
  rw [sel1Tail]
  cases c.sel1 with
  | none => exact .nil
  | some readings =>
    obtain ⟨wired, seen⟩ := readings
    have hall := (Piece.key (p := p) (k := ascii "sel1Wired") ⟨rfl, by decide⟩ (val_bool wired)).add
      (k := ascii "df1Seen") ⟨rfl, by decide⟩ (val_bool seen)
    exact (hall.mono (by decide)).print (by decide)

theorem length_df1Sha256 (c : Client) : ∀ s ∈ df1Sha256 c, s.length ≤ 64 := by
  rintro s hs
  rw [df1Sha256] at hs
  split at hs
  · obtain rfl := Option.some.inj hs
    exact Nat.le_of_lt_succ c.df1Pick.2
  · split at hs
    · obtain rfl := Option.some.inj hs
      exact Nat.le_of_lt_succ c.preload.sha256.2
    · cases hs

theorem piece_df1Tail (h : p → c.df1Capable → ∀ s ∈ df1Sha256 c, Clean s) : Piece 79 p (df1Tail c) := by
  rw [df1Tail]
  split
  · rename_i hon
    have hval : Val 66 p (((df1Sha256 c).map quoted).getD (ascii "null")) := by
      cases hs : df1Sha256 c with
      | none => exact val_null.mono (by decide)
      | some s => exact val_quoted (length_df1Sha256 c s hs) fun hp => h hp hon s hs
    have hkey := Piece.key (k := ascii "df1Sha256") ⟨rfl, by decide⟩ hval
    exact (hkey.mono (by decide)).print (by decide)
  · exact .nil

theorem piece_driveTail : Piece 48 p (driveTail c) := by
  have hmode : Plain (df1ModeWire c.df1Mode) ∧ (df1ModeWire c.df1Mode).length ≤ 3 := by
    cases c.df1Mode with
    | off => decide
    | next => decide
    | net => decide
  rw [driveTail]
  split
  · have hall := (Piece.key (p := p) (k := ascii "secondDrive") ⟨rfl, by decide⟩
      (val_quoted hmode.2 fun _ => hmode.1.clean)).add (k := ascii "driveVersion") ⟨rfl, by decide⟩
        (val_u32 c.driveAck)
    exact (hall.mono (by decide)).print (by decide)
  · exact .nil

theorem plain_decimal (n : Nat) : Plain (decimal n) := forall_numeral (by decide) (by decide) n

theorem Plain.append (h : Plain s) (h' : Plain t) : Plain (s ++ t) := by
  rintro c hc
  obtain hc | hc := List.mem_append.mp hc
  · exact h c hc
  · exact h' c hc

theorem dotted_plain (a : UInt32) : Plain (dotted a) ∧ (dotted a).length ≤ 15 := by
  have hdot : Plain (ascii ".") := by decide
  have hoctet : ∀ w : UInt32, (decimal (w &&& 255).toNat).length ≤ 3 := fun w =>
    length_decimal_le (by decide) (Nat.lt_of_le_of_lt (and_mask w) (by decide))
  have htop : (decimal (a >>> 24).toNat).length ≤ 3 := by
    refine length_decimal_le (by decide) ?_
    have hlt := a.toNat_lt
    rw [UInt32.toNat_shiftRight, Nat.shiftRight_eq_div_pow]
    exact Nat.lt_of_lt_of_le (Nat.div_lt_of_lt_mul (Nat.lt_of_lt_of_le hlt (by decide) :
      a.toNat < 2 ^ (UInt32.toNat 24 % 32) * 256)) (by decide)
  refine ⟨((((((plain_decimal _).append hdot).append (plain_decimal _)).append hdot).append
    (plain_decimal _)).append hdot).append (plain_decimal _), ?_⟩
  have h16 := hoctet (a >>> 16)
  have h8 := hoctet (a >>> 8)
  have h0 := hoctet a
  have hlen : (ascii ".").length = 1 := rfl
  simp only [dotted, List.length_append, hlen]
  omega

/-- A member that goes before the rest only when it is known. -/
theorem Members.lead {l k : Bytes} (hlit : l = 0x22 :: (k ++ [0x22, 0x3a]) ∧ Plain k)
    (hv : Val n p v) (hcap : l.length + n + 1 < c) (known : Bool) (h : Members m p t) :
    Members (k.length + n + m + 4) p
      ((if known then print c (l ++ v ++ ascii ",") else []) ++ t) := by
  have hcomma : ascii "," = [0x2c] := rfl
  obtain ⟨rfl, hk⟩ := hlit
  cases known with
  | false =>
    rw [if_neg Bool.false_ne_true, List.nil_append]
    exact ⟨by have := h.short; omega, h.spells⟩
  | true =>
    have hshort := hv.short
    rw [if_pos rfl, print_of_lt (by
      simp only [List.length_cons, List.length_append, hcomma, List.length_nil] at hcap ⊢
      omega)]
    have hboth := Members.cons hk hv h
    rw [hcomma]
    simpa using hboth

theorem piece_netTail : Piece 104 p (netTail c) := by
  rw [netTail]
  cases c.net with
  | none => exact .nil
  | some n =>
    have hframes : ∀ k, Val 9 p (decimal (min k 999999999)) := fun k =>
      val_decimal (by decide) (Nat.lt_of_le_of_lt (Nat.min_le_right _ _) (by decide))
    have hlast := Members.of (k := ascii "framesIn") (by decide) (hframes n.framesIn.toNat)
      (.key (l := ascii ",\"framesOut\":") (k := ascii "framesOut") ⟨rfl, by decide⟩
        (hframes n.framesOut.toNat))
    have hip := Members.lead (l := ascii "\"amigaIp\":") (k := ascii "amigaIp") (c := 40)
      ⟨rfl, by decide⟩ (val_quoted (dotted_plain n.amigaIp).2 fun _ => (dotted_plain n.amigaIp).1.clean)
      (by decide) (n.amigaIp != 0) hlast
    have hdriver := Members.lead (l := ascii "\"driver\":") (k := ascii "driver") (c := 32)
      ⟨rfl, by decide⟩ (val_decimal (n := min n.driverS.toNat 999999) (k := 6) (by decide)
        (Nat.lt_of_le_of_lt (Nat.min_le_right _ _) (by decide))) (by decide) n.driverSeen hip
    have hkey := Piece.key (l := ascii ",\"net\":") (k := ascii "net") ⟨rfl, by decide⟩ hdriver.val
    have hnet := hkey.mono (m := 104) (by decide)
    dsimp only
    simp only [bne_iff_ne] at hnet
    generalize (if n.driverSeen then _ else []) = drv at hnet ⊢
    generalize (if n.amigaIp ≠ 0 then _ else []) = ip at hnet ⊢
    have h1 : ascii ",\"net\":\x7b" = ascii ",\"net\":" ++ [0x7b] := rfl
    have h2 : ascii "\x7d" = [0x7d] := rfl
    have h3 : ascii "\"framesIn\":" = 0x22 :: (ascii "framesIn" ++ [0x22, 0x3a]) := rfl
    rw [h1, h2, h3]
    refine Piece.print ?_ (n := 104) (by decide)
    simpa using hnet

theorem piece_serverTail : Piece 47 p (serverTail c) := by
  rw [serverTail]
  cases c.server with
  | none => exact .nil
  | some server =>
    obtain ⟨custom, noverify⟩ := server
    have htls : ∀ b : Bool, Plain (if b then ascii "noverify" else ascii "verify") ∧
        (if b then ascii "noverify" else ascii "verify").length ≤ 8 := by decide
    have hword := htls noverify
    have hmembers := Members.of (p := p) (k := ascii "custom") (by decide) (val_bool custom)
      (.key (l := ascii ",\"tls\":") (k := ascii "tls") ⟨rfl, by decide⟩
        (val_quoted hword.2 fun _ => hword.1.clean))
    have hkey := Piece.key (l := ascii ",\"server\":") (k := ascii "server") ⟨rfl, by decide⟩
      hmembers.val
    have hall := hkey.mono (m := 47) (by decide)
    dsimp only
    generalize (if noverify then ascii "noverify" else ascii "verify") = word at hall ⊢
    have h1 : ascii ",\"server\":\x7b\"custom\":" = ascii ",\"server\":" ++
      (0x7b :: 0x22 :: (ascii "custom" ++ [0x22, 0x3a])) := rfl
    have h2 : ascii "\x7d" = [0x7d] := rfl
    rw [h1, h2]
    refine Piece.print ?_ (n := 47) (by decide)
    simpa using hall

/-- Numbers between commas. -/
theorem spells_numbers (a : UInt8) (l : List UInt8) :
    ∃ vs, SpellsItems vs ((ascii ",").intercalate ((a :: l).map fun a => decimal a.toNat)) ∧
      ((ascii ",").intercalate ((a :: l).map fun a => decimal a.toNat)).length ≤ 4 * l.length + 3 := by
  have hbyte : ∀ a : UInt8, (decimal a.toNat).length ≤ 3 := fun a =>
    length_decimal_le (by decide) (Nat.lt_trans a.toNat_lt (by decide))
  induction l generalizing a with
  | nil =>
    have hone : (ascii ",").intercalate ([a].map fun a => decimal a.toNat) = decimal a.toNat := by simp
    rw [hone]
    exact ⟨_, .last (.nat a.toNat), hbyte a⟩
  | cons b l ih =>
    obtain ⟨vs, hvs, hlen⟩ := ih b
    have hcons : (ascii ",").intercalate ((a :: b :: l).map fun a => decimal a.toNat) =
        decimal a.toNat ++ 0x2c :: (ascii ",").intercalate ((b :: l).map fun a => decimal a.toNat) := by
      have hcomma : ascii "," = [0x2c] := rfl
      rw [hcomma]
      simp [List.intercalate]
    rw [hcons]
    refine ⟨_, .cons (.nat a.toNat) hvs, ?_⟩
    have ha := hbyte a
    simp only [List.length_append, List.length_cons] at hlen ⊢
    omega

theorem piece_i2c (scan : Option I2cScan) (cap : Nat) : Piece 44 p (i2cScanJson scan cap) := by
  rw [i2cScanJson.eq_def]
  cases scan with
  | none => exact .nil
  | some scan =>
    dsimp only
    split
    · exact .nil
    · split
      · exact .nil
      · have hval : Val 37 p (0x5b :: ((ascii ",").intercalate
            (scan.addr.1.map fun a => decimal a.toNat) ++ [0x5d])) := by
          obtain ⟨addr, hn⟩ := scan.addr
          cases addr with
          | nil => exact ⟨show 2 ≤ 37 by decide, fun _ => ⟨_, .noItems⟩⟩
          | cons a l =>
            obtain ⟨vs, hvs, hlen⟩ := spells_numbers a l
            rw [i2cScanMax, List.length_cons] at hn
            refine ⟨?_, fun _ => ⟨_, .arr hvs⟩⟩
            simp only [List.length_cons, List.length_append, List.length_nil]
            omega
        have hkey := Piece.key (l := ascii ",\"i2c\":") (k := ascii "i2c") ⟨rfl, by decide⟩ hval
        have hall := hkey.mono (m := 44) (by decide)
        have h1 : ascii ",\"i2c\":[" = ascii ",\"i2c\":" ++ [0x5b] := rfl
        have h2 : ascii "]" = [0x5d] := rfl
        rw [h1, h2]
        simpa using hall

-- ---------------------------------------------------------------------------
-- The body
-- ---------------------------------------------------------------------------

/-- The texts that go into the body as they are. -/
def asIs (c : Client) : List Bytes :=
  (if c.mountedSha256.1 ≠ [] then [c.mountedSha256.1, c.mountedDiskId.1] else []) ++
    (if c.preload.loading then [c.preload.nextSha256.1]
      else if c.preload.slot ≠ slotNone then [c.preload.sha256.1] else []) ++
    (if c.df1Capable then (df1Sha256 c).toList else []) ++
    (c.upKey.toList.filter (4 ≤ ·.length)).map (·.take 4)

/-- The texts that are escaped, each with the buffer it is escaped into. -/
def escaped (c : Client) (err fwVersion : Option Bytes) : List (Nat × Bytes) :=
  err.toList.map (errBytes, ·) ++ fwVersion.toList.map (verBytes, ·) ++
    (c.fwReport.toList.filter (·.updateProtocol.toInt > 0)).flatMap (fun f =>
      f.state.toList.map (32, ·) ++ f.error.toList.map (201, ·)) ++
    (if c.displayLayouts then [(96, c.displayError.1)] else []) ++
    c.nfcFail.toList.map fun s => (50, s.1)

/-- What is reported goes into JSON: the texts that are not escaped need no escape,
and what is kept of the others is UTF-8. -/
structure Sound (c : Client) (err fwVersion : Option Bytes) : Prop where
  asIs : ∀ s ∈ asIs c, Clean s
  escaped : ∀ x ∈ escaped c err fwVersion, Utf8Text (kept x.1 x.2)

/-- A body without its brace, JSON where `p` holds. -/
def Unclosed (p : Prop) (body : Bytes) : Prop :=
  p → ∃ t ms, body = 0x7b :: t ∧ SpellsMembers ms t

theorem piece_fixedMembers (c : Client) (psramFree rssi : Int32) (err fwVersion : Option Bytes) :
    Piece 560 (Sound c err fwVersion) (fixedMembers c psramFree rssi err fwVersion) := by
  have hdisk := val_mounted (p := Sound c err fwVersion) (c := c) c.mountedDiskId.2 fun h hm =>
    h.asIs _ (by simp [asIs, hm])
  have herr := val_text (p := Sound c err fwVersion) (m := errBytes + 2) (n := errBytes)
    (o := err) (by decide) (by decide) fun h s hs =>
      h.escaped (errBytes, s) (by simp [escaped, Option.mem_def.mp hs])
  have hver := val_text (p := Sound c err fwVersion) (m := verBytes + 2) (n := verBytes)
    (o := fwVersion) (by decide) (by decide) fun h s hs =>
      h.escaped (verBytes, s) (by simp [escaped, Option.mem_def.mp hs])
  have hall := ((((((Piece.key (l := ascii ",\"mountedDiskId\":") (k := ascii "mountedDiskId")
    ⟨rfl, by decide⟩ hdisk).add (l := ascii ",\"version\":") (k := ascii "version")
      ⟨rfl, by decide⟩ (val_u32 c.mountedVersion)).add (l := ascii ",\"error\":")
        (k := ascii "error") ⟨rfl, by decide⟩ herr).add (l := ascii ",\"psramFree\":")
          (k := ascii "psramFree") ⟨rfl, by decide⟩ (val_signed psramFree)).add
            (l := ascii ",\"firmwareVersion\":") (k := ascii "firmwareVersion") ⟨rfl, by decide⟩
              hver).add (l := ascii ",\"rssi\":") (k := ascii "rssi") ⟨rfl, by decide⟩
                (val_signed rssi)).add (l := ascii ",\"trackMaxBytes\":")
                  (k := ascii "trackMaxBytes") ⟨rfl, by decide⟩
                    (val_decimal (k := 5) (n := trackMaxBytes) (by decide) (by decide))
  exact hall.mono (by decide)

theorem piece_tails (c : Client) (err fwVersion : Option Bytes) :
    Piece 990 (Sound c err fwVersion) (tails c) := by
  have hfw := piece_fwTail (p := Sound c err fwVersion) (c := c) fun h f hf hpos =>
    ⟨fun s hs => h.escaped (32, s) (by simp [escaped, Option.mem_def.mp hf, Option.mem_def.mp hs, hpos]),
      fun s hs => h.escaped (201, s) (by
        simp [escaped, Option.mem_def.mp hf, Option.mem_def.mp hs, hpos])⟩
  have hpreload := piece_preloadTail (p := Sound c err fwVersion) (c := c) fun h hon =>
    h.asIs _ (by
      cases hl : c.preload.loading with
      | true => simp [asIs, hl]
      | false =>
        have hslot : c.preload.slot ≠ slotNone := by simpa [hl] using hon
        simp [asIs, hl, hslot])
  have hdisplay := piece_displayTail (p := Sound c err fwVersion) (c := c) fun h hon _ =>
    h.escaped (96, c.displayError.1) (by simp [escaped, hon])
  have hdf1 := piece_df1Tail (p := Sound c err fwVersion) (c := c) fun h hon s hs =>
    h.asIs s (by simp [asIs, hon, Option.mem_def.mp hs])
  have hall := ((((((((hfw.append (piece_nfcTail (c := c))).append hdisplay).append hpreload).append
    (piece_playsHd c.playsHd)).append (piece_sel1Tail (c := c))).append hdf1).append
      (piece_driveTail (c := c))).append (piece_netTail (c := c))).append (piece_serverTail (c := c))
  exact hall.mono (by decide)

theorem statusHead_members (c : Client) (psramFree rssi : Int32) (err fwVersion : Option Bytes) :
    ∃ t, statusHead c psramFree rssi err fwVersion = 0x7b :: t ∧
      Members 1660 (Sound c err fwVersion) t := by
  have hsha := val_mounted (p := Sound c err fwVersion) (c := c) c.mountedSha256.2 fun h hm =>
    h.asIs _ (by simp [asIs, hm])
  have hmore := (piece_fixedMembers c psramFree rssi err fwVersion).append (piece_tails c err fwVersion)
  have hall := Members.of (k := ascii "mountedSha256") (by decide) hsha hmore
  have hopen : ascii "\x7b\"mountedSha256\":" =
      0x7b :: 0x22 :: (ascii "mountedSha256" ++ [0x22, 0x3a]) := rfl
  rw [statusHead, hopen]
  refine ⟨_, by rw [List.cons_append, List.cons_append], ?_⟩
  have hshort := hall.short
  refine ⟨?_, ?_⟩
  · simp only [List.length_cons, List.length_append, List.length_nil] at hshort ⊢
    have hkey : (ascii "mountedSha256").length = 13 := rfl
    omega
  · simpa using hall.spells

/-- What `addOwed` adds keeps room for the brace. -/
theorem addOwed_short (key : Option Bytes) (h : body.length + 1 < bodyBytes) :
    (addOwed body key).1.length + 1 < bodyBytes := by
  rw [addOwed.eq_def]
  cases key with
  | none => exact h
  | some k =>
    dsimp only
    split
    · rename_i hfits
      rw [List.length_append]
      exact hfits.2
    · exact h

theorem addOwed_spells {body : Bytes} (key : Option Bytes)
    (hkey : ∀ k ∈ key, p → ∃ ms, SpellsMore ms k)
    (h : p → ∃ ms t, body = 0x7b :: t ∧ SpellsMembers ms t) :
    p → ∃ ms t, (addOwed body key).1 = 0x7b :: t ∧ SpellsMembers ms t := by
  rw [addOwed.eq_def]
  cases key with
  | none => exact h
  | some k =>
    dsimp only
    split
    · rintro hp
      obtain ⟨ms, t, rfl, ht⟩ := h hp
      obtain ⟨ms', hk⟩ := hkey k rfl hp
      exact ⟨_, t ++ k, rfl, ht.more hk⟩
    · exact h

theorem spells_lastBootKey (c : Client) : ∀ k ∈ lastBootKey c, p → ∃ ms, SpellsMore ms k := by
  rintro k hk
  rw [lastBootKey] at hk
  cases hb : c.lastBoot with
  | none =>
    rw [hb] at hk
    cases hk
  | some b =>
    rw [hb] at hk
    dsimp only at hk
    split at hk
    · rename_i hhead
      obtain rfl := Option.some.inj hk
      have htext : btHwJson b = btText b := by
        rw [btHwJson, btJson] at hhead ⊢
        split
        · rename_i hlong
          rw [if_pos hlong] at hhead
          cases hhead
        · rfl
      rw [htext]
      exact (Piece.key (l := ascii ",\"lastBoot\":") (k := ascii "lastBoot") ⟨rfl, by decide⟩
        (val_btText b)).spells
    · cases hk

theorem spells_nfcFailKey (h : p → ∀ s ∈ c.nfcFail, Utf8Text (kept 50 s.1)) :
    ∀ k ∈ nfcFailKey c, p → ∃ ms, SpellsMore ms k := by
  rintro k hk
  rw [nfcFailKey] at hk
  obtain ⟨s, hs, rfl⟩ := Option.map_eq_some_iff.mp hk
  exact (Piece.key (l := ascii ",\"nfcFail\":") (k := ascii "nfcFail") ⟨rfl, by decide⟩
    (val_escaped 50 fun hp => h hp s hs)).spells

theorem spells_upKeyKey (h : p → ∀ key ∈ c.upKey, 4 ≤ key.length → Clean (key.take 4)) :
    ∀ k ∈ upKeyKey c, p → ∃ ms, SpellsMore ms k := by
  rintro k hk
  rw [upKeyKey] at hk
  cases hu : c.upKey with
  | none =>
    rw [hu] at hk
    cases hk
  | some key =>
    rw [hu] at hk
    dsimp only at hk
    split at hk
    · rename_i hlen
      obtain rfl := Option.some.inj hk
      exact (Piece.key (l := ascii ",\"upKey\":") (k := ascii "upKey") ⟨rfl, by decide⟩
        (val_quoted (List.length_take_le 4 key) fun hp => h hp key hu hlen)).spells
    · cases hk

/-- A report's body is always built and fits; it is JSON where what is reported goes
into JSON. -/
theorem statusBody_fits (c : Client) (psramFree rssi : Int32) (err fwVersion : Option Bytes) :
    ∃ r, statusBody c psramFree rssi err fwVersion = some r ∧ r.body.length < bodyBytes ∧
      (Sound c err fwVersion → ∃ ms, readJson r.body = some (.obj ms)) := by
  obtain ⟨t, hhead, hmembers⟩ := statusHead_members c psramFree rssi err fwVersion
  have hshort := hmembers.short
  have hmax : bodyBytes = 1712 := rfl
  have hlen : (statusHead c psramFree rssi err fwVersion).length ≤ 1661 := by
    rw [hhead, List.length_cons]
    omega
  have hi2c := piece_i2c (p := Sound c err fwVersion) c.i2c
    (bodyBytes - (statusHead c psramFree rssi err fwVersion).length)
  rw [statusBody, snprintf_fits (by omega)]
  dsimp only
  rw [if_neg (by omega)]
  have hbody : Sound c err fwVersion → ∃ ms u, statusHead c psramFree rssi err fwVersion ++
      i2cScanJson c.i2c (bodyBytes - (statusHead c psramFree rssi err fwVersion).length) = 0x7b :: u ∧
        SpellsMembers ms u := by
    rintro hp
    obtain ⟨ms, hms⟩ := hmembers.spells hp
    obtain ⟨ms', hms'⟩ := hi2c.spells hp
    exact ⟨_, _, by rw [hhead, List.cons_append], hms.more hms'⟩
  have hroom : (statusHead c psramFree rssi err fwVersion ++
      i2cScanJson c.i2c (bodyBytes - (statusHead c psramFree rssi err fwVersion).length)).length + 1 <
        bodyBytes := by
    have h := hi2c.short
    rw [List.length_append]
    omega
  generalize statusHead c psramFree rssi err fwVersion ++
    i2cScanJson c.i2c (bodyBytes - (statusHead c psramFree rssi err fwVersion).length) = body
    at hbody hroom ⊢
  have hkeys := addOwed_spells (upKeyKey c)
    (spells_upKeyKey fun (h : Sound c err fwVersion) key hkey hfour =>
      h.asIs _ (by simp [asIs, Option.mem_def.mp hkey, hfour]))
    (addOwed_spells (nfcFailKey c) (spells_nfcFailKey fun h s hs =>
      h.escaped (50, s.1) (by simp [escaped, Option.mem_def.mp hs]))
      (addOwed_spells (lastBootKey c) (spells_lastBootKey c) hbody))
  have hfits := addOwed_short (upKeyKey c)
    (addOwed_short (nfcFailKey c) (addOwed_short (lastBootKey c) hroom))
  rw [if_neg (Nat.not_le.mpr hfits)]
  refine ⟨_, rfl, ?_, fun hp => ?_⟩
  · rw [List.length_append, List.length_singleton]
    exact hfits
  · obtain ⟨ms, u, hu, hms⟩ := hkeys hp
    exact ⟨ms, by rw [hu, List.cons_append]; exact (Spells.obj hms).readJson⟩

def empty (cap : Nat) (h : 0 < cap) : CStr cap := ⟨[], h⟩

/-- A board with one disk mounted, and nothing else to say. -/
def mounted (diskId : Bytes) (h : diskId.length < 65) : Client where
  mountedSha256 := ⟨ascii "e3b0c442", by decide⟩
  mountedDiskId := ⟨diskId, h⟩
  mountedVersion := 7
  fwReport := none
  nfcReader := .present
  preload := ⟨false, empty 65 (by decide), slotNone, empty 65 (by decide)⟩
  displayLayouts := false
  displayAck := 0
  displayError := empty 48 (by decide)
  playsHd := true
  sel1 := none
  df1Capable := true
  df1Mode := .off
  df1Slot := slotNone
  df1Pick := empty 65 (by decide)
  driveAck := 0
  net := none
  server := some (false, false)
  i2c := none
  lastBoot := none
  nfcFail := none
  upKey := none

theorem statusBody_fits_workbench :
    ∃ r, statusBody (mounted (ascii "workbench-1.3") (by decide)) 1 (-60) none (some (ascii "1.21.0")) =
        some r ∧ r.body.length < bodyBytes ∧ ∃ ms, readJson r.body = some (.obj ms) := by
  obtain ⟨r, hr, hlen, hjson⟩ := statusBody_fits (mounted (ascii "workbench-1.3") (by decide)) 1 (-60)
    none (some (ascii "1.21.0"))
  have hplain : ∀ s ∈ asIs (mounted (ascii "workbench-1.3") (by decide)), Plain s := by decide
  refine ⟨r, hr, hlen, hjson ⟨fun s hs => (hplain s hs).clean, ?_⟩⟩
  rintro x hx
  have hascii : ∀ x ∈ escaped (mounted (ascii "workbench-1.3") (by decide)) none
      (some (ascii "1.21.0")), Plain (kept x.1 x.2) := by decide
  exact (hascii x hx).clean.1

/-- A disk's id with a quote in it: the body is no JSON. -/
theorem quoted_id_breaks : ∃ r, statusBody (mounted (ascii "work\"bench") (by decide)) 1 (-60) none
      (some (ascii "1.21.0")) = some r ∧ (readJson r.body).isNone := by
  have hany : (statusBody (mounted (ascii "work\"bench") (by decide)) 1 (-60) none
      (some (ascii "1.21.0"))).any (fun r => (readJson r.body).isNone) = true := by decide +kernel
  exact (Option.any_eq_true ..).mp hany

end WebAdf.Firmware.Status
