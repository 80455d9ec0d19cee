import Mathlib
import WebAdf.Firmware.NfcWrites

/-!
# What a reader writes on, and reports

The mailbox is empty whenever `handle` runs, a run belongs to a tag that arrived
under its arm, and with the taps and the books that is all a reader promises.
-/

namespace WebAdf.Firmware.Nfc

open Lib NfcReader

variable {r r' : NfcReader}

/-- The tag arrived, under the arm. -/
def Came (notes : List NfcNote) (uid : Uid) (arm : NfcArm) (time : Nat) : Prop :=
  ∃ now ≤ time, ∃ told, .arrived now uid told (some arm) ∈ notes

structure Safe (r : NfcReader) : Prop where
  lost : ∀ e, .overwritten e ∉ r.notes
  came : r.writing = true → Came r.notes r.uid r.run r.clock
  wrote : ∀ time uid arm kind place bytes, .wrote time uid arm kind place bytes ∈ r.notes → Came r.notes uid arm time

/-- What a step inside a run leaves alone, but for the frame it may have sent. -/
structure Onward (r r' : NfcReader) : Prop where
  ev : r'.ev = r.ev
  fails : r'.fails = r.fails
  clock : r'.clock = r.clock
  uid : r'.uid = r.uid
  run : r'.run = r.run
  writing : r'.writing = r.writing
  notes : r'.notes = r.notes ∨ r.writing = true ∧ ∃ kind place bytes,
    r'.notes = r.notes ++ [.wrote r.clock r.uid r.run kind place bytes]

-- ---------------------------------------------------------------------------
-- Inside a run
-- ---------------------------------------------------------------------------

theorem Onward.refl (r : NfcReader) : Onward r r := ⟨rfl, rfl, rfl, rfl, rfl, rfl, .inl rfl⟩

theorem onward_finish (r : NfcReader) (kind : NfcEvKind) (why : Option String) : Onward r (r.finish kind why) :=
  ⟨rfl, rfl, rfl, rfl, rfl, rfl, .inl rfl⟩

theorem onward_tagSelected (r : NfcReader) (sak : UInt8) : Onward r (r.tagSelected sak) := by
  rw [tagSelected]
  cases classify r.uid.length sak with
  | none => exact ⟨rfl, rfl, rfl, rfl, rfl, rfl, .inl rfl⟩
  | classic => exact ⟨rfl, rfl, rfl, rfl, rfl, rfl, .inl rfl⟩
  | t2 => exact ⟨rfl, rfl, rfl, rfl, rfl, rfl, .inl rfl⟩

theorem onward_authDone (r : NfcReader) (ok : Bool) : Onward r (r.authDone ok) := by
  cases ok with
  | false => exact onward_finish r _ _
  | true => exact ⟨rfl, rfl, rfl, rfl, rfl, rfl, .inl rfl⟩

theorem onward_blockWritten (r : NfcReader) : Onward r r.blockWritten := by
  rw [blockWritten]
  split
  · exact ⟨rfl, rfl, rfl, rfl, rfl, rfl, .inl rfl⟩
  · exact ⟨rfl, rfl, rfl, rfl, rfl, rfl, .inl rfl⟩

theorem onward_writeAcked (r : NfcReader) : Onward r r.writeAcked := by
  rw [writeAcked]
  split
  · rw [pageWritten]
    split
    · exact ⟨rfl, rfl, rfl, rfl, rfl, rfl, .inl rfl⟩
    · have hnext := onward_blockWritten { r with sub := 0 }
      exact ⟨hnext.ev, hnext.fails, hnext.clock, hnext.uid, hnext.run, hnext.writing, hnext.notes⟩
  · exact onward_blockWritten r

theorem onward_writeNaked (r : NfcReader) : Onward r r.writeNaked := by
  rw [writeNaked]
  split
  · exact onward_finish r _ _
  · exact onward_finish r _ _

theorem onward_sendWrite (h : r.writing = true) : Onward r r.sendWrite := by
  rw [sendWrite]
  split
  · split
    · exact onward_finish r _ _
    · exact ⟨rfl, rfl, rfl, rfl, rfl, rfl, .inr ⟨h, _, _, _, rfl⟩⟩
  · exact ⟨rfl, rfl, rfl, rfl, rfl, rfl, .inr ⟨h, _, _, _, rfl⟩⟩

theorem onward_blockIn (r : NfcReader) (b : Bytes) : Onward r (r.blockIn b) := by
  rw [blockIn]
  split
  · exact ⟨rfl, rfl, rfl, rfl, rfl, rfl, .inl rfl⟩
  · rw [decoded]
    split
    · exact ⟨rfl, rfl, rfl, rfl, rfl, rfl, .inl rfl⟩
    · exact ⟨rfl, rfl, rfl, rfl, rfl, rfl, .inl rfl⟩
    · exact ⟨rfl, rfl, rfl, rfl, rfl, rfl, .inl rfl⟩
    · exact ⟨rfl, rfl, rfl, rfl, rfl, rfl, .inl rfl⟩

theorem onward_blockBack (r : NfcReader) (b : Bytes) : Onward r (r.blockBack b) := by
  rw [blockBack]
  split
  · exact ⟨rfl, rfl, rfl, rfl, rfl, rfl, .inl rfl⟩
  · exact ⟨rfl, rfl, rfl, rfl, rfl, rfl, .inl rfl⟩

-- ---------------------------------------------------------------------------
-- Notes
-- ---------------------------------------------------------------------------

theorem Came.more {notes notes' : List NfcNote} {uid : Uid} {arm : NfcArm} (h : Came notes uid arm time) (hsub : ∀ n ∈ notes, n ∈ notes') (hle : time ≤ time') :
    Came notes' uid arm time' := by
  obtain ⟨now, hnow, told, hmem⟩ := h
  exact ⟨now, Nat.le_trans hnow hle, told, hsub _ hmem⟩

/-- The notes have grown by ones that are no frame and no loss. -/
theorem Safe.noted (h : Safe r) {more : List NfcNote} (hnotes : r'.notes = r.notes ++ more)
    (hcame : r'.writing = true → Came r.notes r'.uid r'.run r'.clock)
    (hmore : ∀ n ∈ more, n.isOverwritten = false ∧ ∀ time uid arm kind place bytes, n ≠ .wrote time uid arm kind place bytes) :
    Safe r' where
  lost e hmem := by
    rw [hnotes] at hmem
    rcases List.mem_append.1 hmem with hmem | hmem
    · exact h.lost e hmem
    · cases (hmore _ hmem).1
  came hw := by
    rw [hnotes]
    exact (hcame hw).more (fun _ hn => List.mem_append_left _ hn) (Nat.le_refl _)
  wrote time uid arm kind place bytes hmem := by
    rw [hnotes] at hmem ⊢
    rcases List.mem_append.1 hmem with hmem | hmem
    · exact (h.wrote _ _ _ _ _ _ hmem).more (fun _ hn => List.mem_append_left _ hn) (Nat.le_refl _)
    · exact absurd rfl ((hmore _ hmem).2 _ _ _ _ _ _)

theorem Safe.grown (h : Safe r) {more : List NfcNote} (hnotes : r'.notes = r.notes ++ more) (hw : r'.writing = false)
    (hmore : ∀ n ∈ more, n.isOverwritten = false ∧ ∀ time uid arm kind place bytes, n ≠ .wrote time uid arm kind place bytes) :
    Safe r' :=
  h.noted hnotes (fun ht => (Bool.false_ne_true (hw.symm.trans ht)).elim) hmore

theorem Safe.same (h : Safe r) (hnotes : r'.notes = r.notes) (hw : r'.writing = false) : Safe r' :=
  h.grown (hnotes.trans (List.append_nil _).symm) hw nofun

theorem Safe.onward (h : Safe r) (ho : Onward r r') : Safe r' := by
  have hsub : ∀ n ∈ r.notes, n ∈ r'.notes := by
    intro n hn
    rcases ho.notes with heq | ⟨-, kind, place, bytes, heq⟩
    · rw [heq]
      exact hn
    · rw [heq]
      exact List.mem_append_left _ hn
  refine ⟨fun e hmem => ?_, fun hw => ?_, fun time uid arm kind place bytes hmem => ?_⟩
  · rcases ho.notes with heq | ⟨-, kind, place, bytes, heq⟩
    · exact h.lost e (heq ▸ hmem)
    · rw [heq] at hmem
      rcases List.mem_append.1 hmem with hmem | hmem
      · exact h.lost e hmem
      · cases List.mem_singleton.1 hmem
  · rw [ho.uid, ho.run, ho.clock]
    exact (h.came (ho.writing ▸ hw)).more hsub (Nat.le_refl _)
  · rcases ho.notes with heq | ⟨hw, kind', place', bytes', heq⟩
    · exact (h.wrote _ _ _ _ _ _ (heq ▸ hmem)).more hsub (Nat.le_refl _)
    · rw [heq] at hmem
      rcases List.mem_append.1 hmem with hmem | hmem
      · exact (h.wrote _ _ _ _ _ _ hmem).more hsub (Nat.le_refl _)
      · obtain ⟨rfl, rfl, rfl, rfl, rfl, rfl⟩ := NfcNote.wrote.inj (List.mem_singleton.1 hmem)
        exact (h.came hw).more hsub (Nat.le_refl _)

theorem emit_empty (h : r.ev = none) (e : NfcEvent) : r.emit e = { r with ev := some e } := by
  rw [emit, h]

theorem notes_emit (h : r.ev = none) (e : NfcEvent) : (r.emit e).notes = r.notes := by
  rw [emit_empty h]

theorem notes_expireHold (r : NfcReader) : r.expireHold.notes = r.notes := by
  rw [expireHold]
  split
  · rfl
  · rfl

theorem writing_emit (r : NfcReader) (e : NfcEvent) : (r.emit e).writing = r.writing := by
  rw [emit]
  cases r.ev with
  | none => rfl
  | some lost => rfl

theorem fails_emit (r : NfcReader) (e : NfcEvent) : (r.emit e).fails = r.fails := by
  rw [emit]
  cases r.ev with
  | none => rfl
  | some lost => rfl

-- ---------------------------------------------------------------------------
-- One turn
-- ---------------------------------------------------------------------------

/-- After `handle`: a third failure in a row has reported nothing yet. -/
def Settling (r : NfcReader) : Prop := r.fails < lossFails ∨ r.ev = none ∧ r.state ≠ .absent

theorem Safe.chipFound (h : Safe r) (hw : r.writing = false) (he : r.ev = none) : Safe r.chipFound := by
  rw [NfcReader.chipFound]
  split
  · exact h.same (notes_emit (r := { r with lastSeen := r.nowMs, seenAt := r.clock, lastDetect := r.nowMs, missed := false }) he _)
      ((writing_emit _ _).trans hw)
  · exact h.same (notes_emit (r := { r with missed := false }) he _) ((writing_emit _ _).trans hw)

theorem fails_chipFound (r : NfcReader) : r.chipFound.fails = r.fails := by
  rw [NfcReader.chipFound, fails_emit]
  split
  · rfl
  · rfl

theorem Safe.loseChip (h : Safe r) (he : r.ev = none) : Safe r.loseChip :=
  h.same (notes_emit (r := { r with
    state := .absent, chip := .none, probing := false, pnProbeDue := false, t0 := r.nowMs, checkedOnce := true, fails := 0
    writing := false }) he _) (writing_emit _ _)

theorem fails_loseChip (r : NfcReader) : r.loseChip.fails = 0 := fails_emit _ _

theorem Safe.report (h : Safe r) (he : r.ev = none) : Safe r.report := by
  have hev : ∀ r : NfcReader, ∀ (P : Prop) [Decidable P] n, (if P then r.note n else r).ev = r.ev := by
    intro r P _ n
    split
    · rfl
    · rfl
  have hnotes : r.report.notes = r.notes ++
      ((if r.built.kind = .writeDone then [.done r.run r.built r.got] else []) ++ [.reported r.uid r.built.kind]) := by
    rw [NfcReader.report]
    show (enterIdle (emit _ _) _).notes = _
    rw [show ∀ (r : NfcReader) b, (r.enterIdle b).notes = r.notes from fun _ _ => rfl, notes_emit]
    · rw [note, ← List.append_assoc]
      split
      · rename_i hk
        rw [if_pos (show r.built.kind = .writeDone from hk)]
        rfl
      · rename_i hk
        rw [if_neg (show r.built.kind ≠ .writeDone from hk)]
        rw [List.append_nil]
        rfl
    · show (ite _ _ _ : NfcReader).ev = none
      exact (hev _ _ _).trans he
  have hwriting : r.report.writing = false := by
    rw [show r.report.writing = r.report.book.writing from rfl, book_report]
    split
    · rfl
    · rfl
  refine h.grown hnotes hwriting fun n hn => ?_
  rcases List.mem_append.1 hn with hn | hn
  · split at hn
    · rw [List.mem_singleton.1 hn]
      exact ⟨rfl, fun _ _ _ _ _ _ hn => by cases hn⟩
    · cases hn
  · rw [List.mem_singleton.1 hn]
    exact ⟨rfl, fun _ _ _ _ _ _ hn => by cases hn⟩

theorem fails_report (r : NfcReader) : r.report.fails = r.fails := by
  rw [NfcReader.report]
  show (enterIdle (emit _ _) _).fails = _
  rw [show ∀ (r : NfcReader) b, (r.enterIdle b).fails = r.fails from fun _ _ => rfl, fails_emit]
  show (ite _ _ _ : NfcReader).fails = _
  split
  · rfl
  · rfl

/-- A tag arrives, and with a write armed the run is its own. -/
theorem Safe.newTap (h : Safe r) (hw : r.writing = false) : Safe r.newTap := by
  have hnoted : Safe (r.note (.arrived r.clock r.uid r.told (if r.armed then some r.arm else none))) := by
    refine h.grown rfl hw fun n hn => ?_
    rw [List.mem_singleton.1 hn]
    exact ⟨rfl, fun _ _ _ _ _ _ hn => by cases hn⟩
  cases ha : r.armed with
  | true =>
    rw [newTap_armed ha]
    rw [ha] at hnoted
    exact ⟨hnoted.lost, fun _ => ⟨r.clock, Nat.le_refl _, r.told, List.mem_append_right _ (List.mem_singleton_self _)⟩, hnoted.wrote⟩
  | false =>
    rw [newTap_unarmed ha]
    rw [ha] at hnoted
    exact hnoted.same rfl rfl

theorem fails_newTap (r : NfcReader) : r.newTap.fails = r.fails := by
  cases ha : r.armed with
  | true =>
    rw [newTap_armed ha]
    rfl
  | false =>
    rw [newTap_unarmed ha]
    rfl

theorem Safe.arrival (h : Safe r) (hw : r.writing = false) (next : NfcReader → NfcReader)
    (hnext : ∀ r, Onward r (next r)) : Safe (r.arrival next) ∧ (r.arrival next).fails = r.fails := by
  have hexp : Safe r.expireHold ∧ r.expireHold.writing = false ∧ r.expireHold.fails = r.fails := by
    rw [expireHold]
    split
    · exact ⟨h, hw, rfl⟩
    · exact ⟨h.same rfl hw, hw, rfl⟩
  obtain ⟨hsafe, hwriting, hfails⟩ := hexp
  rw [NfcReader.arrival, ← hfails]
  generalize r.expireHold = r at hsafe hwriting
  split
  · rw [sighted, sameTap]
    split
    · exact ⟨hsafe.same rfl hwriting, rfl⟩
    · exact ⟨hsafe.same rfl hwriting, rfl⟩
  · have hnew := hsafe.newTap hwriting
    have hseen : Safe (r.newTap.sighted r.uid) := ⟨hnew.lost, hnew.came, hnew.wrote⟩
    exact ⟨hseen.onward (hnext _), (hnext _).fails.trans (fails_newTap r)⟩

theorem Safe.handle (hh : Handle r r') (hs : Writes r) (h : Safe r) (he : r.ev = none) (hf : r.fails < lossFails) :
    Safe r' ∧ Settling r' := by
  have hidle : r.state.inRun = false → r.writing = false := hs.stage.idle
  have hgo : Onward r r' → Safe r' ∧ Settling r' := fun ho => ⟨h.onward ho, .inl (by rw [ho.fails]; exact hf)⟩
  cases hh with
  | wait => exact ⟨h, .inl hf⟩
  | transfer ok _ hst => exact ⟨⟨h.lost, h.came, h.wrote⟩, .inr ⟨he, hst⟩⟩
  | probe hst => exact ⟨h.same rfl (hidle (by rw [hst]; rfl)), .inl hf⟩
  | check answered hst =>
    have hw := hidle (by rw [hst]; rfl)
    rw [absentCheck]
    split
    · exact ⟨Safe.chipFound (h.same rfl hw) hw he, .inl (by rw [fails_chipFound]; show 0 < 3; decide)⟩
    · exact ⟨h.same rfl hw, .inl (by show 0 < 3; decide)⟩
  | report => exact ⟨h.report he, .inl (by rw [fails_report]; exact hf)⟩
  | resetSent hst => exact ⟨h.same rfl (hidle (by rw [hst]; rfl)), .inl (by show 0 < 3; decide)⟩
  | resetDone hst => exact ⟨h.same rfl (hidle (by rw [hst]; rfl)), .inl (by show 0 < 3; decide)⟩
  | resetLate hst =>
    have hsame : Safe { r with fails := 0 } := ⟨h.lost, h.came, h.wrote⟩
    split
    · exact ⟨hsame.loseChip he, .inl (by rw [fails_loseChip]; decide)⟩
    · exact ⟨hsame, .inl (by show 0 < 3; decide)⟩
  | initDone hst => exact ⟨h.same rfl (hidle (by rw [hst]; rfl)), .inl hf⟩
  | isOff hst => exact ⟨h.same rfl (hidle (by rw [hst]; rfl)), .inl hf⟩
  | si512Back answered hst =>
    have hw := hidle (by rw [hst]; rfl)
    rw [si512Back]
    split
    · exact ⟨h.same rfl hw, .inl (by show 0 < 3; decide)⟩
    · exact ⟨h.same rfl hw, .inl (by show 0 < 3; decide)⟩
  | pollDue hst =>
    have hw := hidle (by rw [hst]; rfl)
    rw [expireHold]
    split
    · exact ⟨h.same rfl hw, .inl hf⟩
    · exact ⟨h.same rfl hw, .inl hf⟩
  | isOn hst => exact ⟨h.same rfl (hidle (by rw [hst]; rfl)), .inl hf⟩
  | atqa hst => exact ⟨h.same rfl (hidle (by rw [hst]; rfl)), .inl hf⟩
  | noTag hst => exact ⟨h.same rfl (hidle (by rcases hst with hst | hst <;> rw [hst] <;> rfl)), .inl hf⟩
  | collision hst => exact ⟨h.same rfl (hidle (by rcases hst with hst | hst <;> rw [hst] <;> rfl)), .inl hf⟩
  | double part hst => exact ⟨h.same rfl (hidle (by rw [hst]; rfl)), .inl hf⟩
  | single part hst =>
    have hw := hidle (by rw [hst]; rfl)
    obtain ⟨hsafe, hfails⟩ := Safe.arrival (r := { r with uid := part }) (h.same rfl hw) hw (fun r => r.go .select)
      fun _ => ⟨rfl, rfl, rfl, rfl, rfl, rfl, .inl rfl⟩
    exact ⟨hsafe, .inl (by rw [hfails]; exact hf)⟩
  | whole rest hst =>
    have hw := hidle (by rw [hst]; rfl)
    obtain ⟨hsafe, hfails⟩ := Safe.arrival (r := { r with uid := r.uid.drop 1 ++ rest }) (h.same rfl hw) hw
      (fun r => r.go .select) fun _ => ⟨rfl, rfl, rfl, rfl, rfl, rfl, .inl rfl⟩
    exact ⟨hsafe, .inl (by rw [hfails]; exact hf)⟩
  | listed uid sak hst =>
    have hw := hidle (by rw [hst]; rfl)
    obtain ⟨hsafe, hfails⟩ := Safe.arrival (r := { r with uid := uid }) (h.same rfl hw) hw (fun r => r.tagSelected sak)
      fun r => onward_tagSelected r sak
    exact ⟨hsafe, .inl (by rw [hfails]; exact hf)⟩
  | tooLong uid hst =>
    have hw := hidle (by rw [hst]; rfl)
    obtain ⟨hsafe, hfails⟩ := Safe.arrival (r := { r with uid := uid }) (h.same rfl hw) hw
      (fun r => r.finish .notSupported none) fun r => onward_finish r _ _
    exact ⟨hsafe, .inl (by rw [hfails]; exact hf)⟩
  | selected sak => exact hgo (onward_tagSelected r sak)
  | moved => exact hgo (onward_finish r _ _)
  | authed ok => exact hgo (onward_authDone r ok)
  | block b => exact hgo (onward_blockIn r b)
  | back b => exact hgo (onward_blockBack r b)
  | send hst => exact hgo (onward_sendWrite (hs.sending (.inl hst)).writing)
  | ack => exact hgo (onward_writeAcked r)
  | nak => exact hgo (onward_writeNaked r)
  | pnFound hst =>
    have hw := hidle (by rw [hst]; rfl)
    have hfound : Safe ({ r with probing := false, tSi512 := r.nowMs } : NfcReader).chipFound :=
      Safe.chipFound (h.same rfl hw) hw he
    exact ⟨⟨hfound.lost, hfound.came, hfound.wrote⟩, .inl (by
      show (NfcReader.chipFound _).fails < _
      rw [fails_chipFound]
      exact hf)⟩
  | pnReady hst => exact ⟨h.same rfl (hidle (by rw [hst]; rfl)), .inl hf⟩
  | pnGiveUp hst => exact ⟨h.same rfl (hidle (by rw [hst]; rfl)), .inl hf⟩
  | pnLost => exact ⟨h.loseChip he, .inl (by rw [fails_loseChip]; decide)⟩

theorem Safe.settle (h : Safe r) (hs : Settling r) : Safe r.settle ∧ r.settle.fails < lossFails := by
  rw [NfcReader.settle]
  split
  · rename_i hlost
    rcases hs with hlt | ⟨he, -⟩
    · exact absurd hlost.1 (Nat.not_le_of_lt hlt)
    · exact ⟨h.loseChip he, by rw [fails_loseChip]; decide⟩
  · rename_i hkept
    refine ⟨h, ?_⟩
    rcases hs with hlt | ⟨-, hst⟩
    · exact hlt
    · exact Nat.lt_of_not_le fun hle => hkept ⟨hle, hst⟩

-- ---------------------------------------------------------------------------
-- Every run
-- ---------------------------------------------------------------------------

theorem Safe.armWith (h : Safe r) (seq : UInt32) (payload : Option Bytes) : Safe (r.armWith seq payload) := by
  obtain ⟨held, seenAt, lastSeen, gap, told, arm, heq⟩ := armGate_stage r seq payload
  cases payload with
  | some b =>
    rw [NfcReader.armWith, heq]
    exact ⟨h.lost, h.came, h.wrote⟩
  | none =>
    rw [NfcReader.armWith, heq]
    exact ⟨h.lost, h.came, h.wrote⟩

theorem fails_armWith (r : NfcReader) (seq : UInt32) (payload : Option Bytes) : (r.armWith seq payload).fails = r.fails := by
  obtain ⟨held, seenAt, lastSeen, gap, told, arm, heq⟩ := armGate_stage r seq payload
  cases payload with
  | some b =>
    rw [NfcReader.armWith, heq]
  | none =>
    rw [NfcReader.armWith, heq]

theorem Safe.refuseArm (h : Safe r) (he : r.ev = none) : Safe r.refuseArm ∧ r.refuseArm.fails = r.fails := by
  rw [NfcReader.refuseArm, emit_empty (by exact he)]
  refine ⟨h.noted rfl h.came fun n hn => ?_, rfl⟩
  rw [List.mem_singleton.1 hn]
  exact ⟨rfl, fun _ _ _ _ _ _ hn => by cases hn⟩

/-- What every reader keeps. -/
structure Ruled (r : NfcReader) : Prop where
  taps : Taps r.tap
  writes : Writes r
  safe : Safe r
  fails : r.fails < lossFails

theorem Ruled.start (clock : Nat) : Ruled { clock := clock } where
  taps := ⟨rfl, Nat.zero_le _, fun _ => rfl, nofun, nofun, Nat.zero_le _, nofun, nofun, nofun⟩
  writes := ⟨⟨nofun, nofun, nofun, List.nodup_nil, nofun, nofun⟩, rfl, fun _ => Nat.le_refl _, rfl⟩
  safe := ⟨nofun, nofun, nofun⟩
  fails := by show 0 < 3; decide

theorem Ruled.step (hs : NfcStep r r') (h : Ruled r) : Ruled r' := by
  have hsafe : Safe r' ∧ r'.fails < lossFails := by
    have hs' := h.safe
    have hf := h.fails
    cases hs with
    | tick ms => exact ⟨⟨hs'.lost, fun hw => (hs'.came hw).more (fun _ hn => hn) (Nat.le_add_right _ _), hs'.wrote⟩, hf⟩
    | takeEvent => exact ⟨⟨hs'.lost, hs'.came, hs'.wrote⟩, hf⟩
    | takeGap => exact ⟨⟨hs'.lost, hs'.came, hs'.wrote⟩, hf⟩
    | armWrite seq diskId => exact ⟨hs'.armWith seq _, (fails_armWith r seq _).symm ▸ hf⟩
    | armWriteNext seq => exact ⟨hs'.armWith seq _, (fails_armWith r seq _).symm ▸ hf⟩
    | disarm => exact ⟨⟨hs'.lost, hs'.came, hs'.wrote⟩, hf⟩
    | disable => exact ⟨⟨hs'.lost, hs'.came, hs'.wrote⟩, hf⟩
    | attach => exact ⟨⟨hs'.lost, hs'.came, hs'.wrote⟩, hf⟩
    | refuseArm _ he =>
      obtain ⟨hsafe, hfails⟩ := hs'.refuseArm he
      exact ⟨hsafe, hfails.symm ▸ hf⟩
    | turn _ he _ hh =>
      obtain ⟨hsafe, hsettling⟩ := hs'.handle hh h.writes he hf
      exact hsafe.settle hsettling
  exact ⟨h.taps.step hs, h.writes.step hs, hsafe.1, hsafe.2⟩

theorem Reached.ruled (h : Reached r) : Ruled r := by
  obtain ⟨clock, hrun⟩ := h
  induction hrun with
  | refl => exact Ruled.start clock
  | tail _ hs ih => exact ih.step hs

theorem Ruled.notes (h : Ruled r) : r.book.notes = r.notes := by
  rw [book, List.filter_eq_self.2 fun n hn => ?_]
  cases n with
  | overwritten e => exact absurd hn (h.safe.lost e)
  | arrived => rfl
  | reported => rfl
  | done => rfl
  | wrote => rfl

end WebAdf.Firmware.Nfc
