import Mathlib
import WebAdf.Firmware.NfcTaps

/-!
# Writes

Whose write is running, what it has read back, and what each arm has come to. A
run belongs to the arm that its tag arrived under; the arm is over with the
report of that run, a later arm is another one.
-/

namespace WebAdf.Firmware.Nfc

open Lib

/-- Three blocks of sixteen bytes, and together the payload. -/
structure ReadBack (payload : Bytes) (got : List Bytes) : Prop where
  three : got.length = 3
  sixteen : ∀ b ∈ got, b.length = 16
  same : got.flatten = payload

/-- A write carries its arm's number and says ok only with the payload read back; what
is sent is the payload's own bytes, to their own place. -/
def NfcNote.WriteOk : NfcNote → Prop
  | .done arm ev got => ev.seq = arm.seq ∧ (ev.ok = true → ∃ payload, arm.payload = some payload ∧ ReadBack payload got)
  | .wrote _ _ arm kind place bytes => ∃ payload, arm.payload = some payload ∧
      if kind = .t2 then t2FirstPage ≤ place ∧ place ≤ t2LastPage ∧
        bytes = (payload.drop ((place - t2FirstPage) * 4)).take 4
      else firstBlock ≤ place ∧ place ≤ lastBlock ∧ bytes = (payload.drop ((place - firstBlock) * 16)).take 16
  | _ => True

def NfcNote.doneNo : NfcNote → Option Nat
  | .done arm _ _ => some arm.no
  | _ => none

def NfcNote.isOverwritten : NfcNote → Bool
  | .overwritten _ => true
  | _ => false

def doneNos (notes : List NfcNote) : List Nat := notes.filterMap (·.doneNo)

/-- What arms and runs are accounted by. -/
structure NfcBook where
  writing : Bool
  writeSeq : UInt32
  data : Bytes
  armed : Bool
  armBad : Bool
  armSeq : UInt32
  armPayload : Bytes
  no : Nat
  seq : UInt32
  payload : Option Bytes
  run : NfcArm
  notes : List NfcNote

def NfcReader.book (r : NfcReader) : NfcBook :=
  ⟨r.writing, r.writeSeq, r.data, r.armed, r.armBad, r.armSeq, r.armPayload, r.arm.no, r.arm.seq, r.arm.payload, r.run,
    r.notes.filter (!·.isOverwritten)⟩

/-- The running write's arm: still without a result, and the last one or an older. -/
structure Owner (b : NfcBook) : Prop where
  seq : b.writeSeq = b.run.seq
  payload : b.run.payload = some b.data
  fresh : b.run.no ∉ doneNos b.notes
  le : b.run.no ≤ b.no
  last : b.run.no = b.no → b.payload ≠ none ∧ b.seq = b.run.seq

structure Books (b : NfcBook) : Prop where
  armed : b.armed = true → b.payload = some b.armPayload ∧ b.armSeq = b.seq ∧ b.no ∉ doneNos b.notes
  bad : b.armBad = true → b.payload = none ∧ b.armSeq = b.seq ∧ b.no ∉ doneNos b.notes
  nos : ∀ k ∈ doneNos b.notes, k ≤ b.no
  nodup : (doneNos b.notes).Nodup
  owner : b.writing = true → Owner b
  notes : ∀ n ∈ b.notes, n.WriteOk

/-- What holds where the session is. -/
def StageOk (r : NfcReader) : Prop :=
  match r.state with
  | .select => r.writing = true → r.got = []
  | .auth => r.kind = .classic ∧ (r.writing = true → r.got = [])
  | .read => r.writing = false ∧ firstBlock ≤ r.block ∧ r.block ≤ lastBlock
  | .write | .written => r.writing = true ∧ firstBlock ≤ r.block ∧ r.block ≤ lastBlock ∧ (r.kind = .t2 → r.sub < 4) ∧ r.got = []
  | .readback => r.writing = true ∧ firstBlock ≤ r.block ∧ r.block ≤ lastBlock ∧ r.got.length = r.block - firstBlock ∧
      (∀ b ∈ r.got, b.length = 16) ∧ r.back.take r.blockAt = r.got.flatten
  | .report => r.built.kind = .writeDone → r.writing = true ∧ r.built.seq = r.writeSeq ∧
      (r.built.ok = true → ReadBack r.data r.got)
  | _ => r.writing = false

def NfcState.inRun : NfcState → Bool
  | .select | .auth | .read | .write | .written | .readback | .report => true
  | _ => false

def arrivedOf (uid : Uid) : NfcNote → Bool
  | .arrived _ u _ _ => u == uid
  | _ => false

def reportedOf (uid : Uid) : NfcNote → Bool
  | .reported u _ => u == uid
  | _ => false

/-- Every report of a tag is of an arrival of its own. -/
def Counted (r : NfcReader) : Prop :=
  ∀ uid, r.book.notes.countP (reportedOf uid) + (if r.state.inRun = true ∧ r.uid = uid then 1 else 0) ≤
    r.book.notes.countP (arrivedOf uid)

structure Writes (r : NfcReader) : Prop where
  books : Books r.book
  stage : StageOk r
  counted : Counted r
  back : r.back.length = nfcTagBytes

-- ---------------------------------------------------------------------------
-- Books
-- ---------------------------------------------------------------------------

theorem doneNos_concat (notes : List NfcNote) (n : NfcNote) : doneNos (notes ++ [n]) = doneNos notes ++ n.doneNo.toList := by
  rw [doneNos, List.filterMap_append, doneNos]
  cases h : n.doneNo with
  | none => rw [List.filterMap_cons_none h]; rfl
  | some k => rw [List.filterMap_cons_some h]; rfl

/-- A note that is no result. -/
theorem Books.note {b : NfcBook} (h : Books b) (hn : n.WriteOk) (hno : n.doneNo = none) :
    Books { b with notes := b.notes ++ [n] } := by
  have hdone : doneNos (b.notes ++ [n]) = doneNos b.notes := by
    rw [doneNos_concat, hno]
    exact List.append_nil _
  refine ⟨fun ha => ?_, fun hb => ?_, ?_, ?_, fun hw => ?_, fun m hm => ?_⟩
  · exact ⟨(h.armed ha).1, (h.armed ha).2.1, hdone ▸ (h.armed ha).2.2⟩
  · exact ⟨(h.bad hb).1, (h.bad hb).2.1, hdone ▸ (h.bad hb).2.2⟩
  · exact hdone ▸ h.nos
  · exact hdone ▸ h.nodup
  · have ho := h.owner hw
    exact ⟨ho.seq, ho.payload, hdone ▸ ho.fresh, ho.le, ho.last⟩
  · rcases List.mem_append.1 hm with hm | hm
    · exact h.notes m hm
    · rw [List.mem_singleton.1 hm]
      exact hn

/-- The run is over and its arm has a result; that arm, or one with its number, is no
longer armed. -/
theorem Books.over {b : NfcBook} (h : Books b) (hw : b.writing = true) (hseq : ev.seq = b.writeSeq)
    (hok : ev.ok = true → ReadBack b.data got) :
    Books { b with
      armed := b.armed && !(b.armSeq == ev.seq), writing := false, notes := b.notes ++ [.done b.run ev got] } := by
  have ho := h.owner hw
  have hdone : doneNos (b.notes ++ [.done b.run ev got]) = doneNos b.notes ++ [b.run.no] := doneNos_concat _ _
  have hmem : ∀ k, k ∉ doneNos b.notes → k ≠ b.run.no → k ∉ doneNos (b.notes ++ [.done b.run ev got]) := by
    intro k hk hne hmem
    rw [hdone] at hmem
    rcases List.mem_append.1 hmem with hmem | hmem
    · exact hk hmem
    · exact hne (List.mem_singleton.1 hmem)
  refine ⟨fun ha => ?_, fun hb => ?_, fun k hk => ?_, ?_, nofun, fun m hm => ?_⟩
  · simp only [Bool.and_eq_true, Bool.not_eq_true', beq_eq_false_iff_ne, ne_eq] at ha
    obtain ⟨hp, hs, hno⟩ := h.armed ha.1
    refine ⟨hp, hs, hmem _ hno fun heq => ha.2 ?_⟩
    rw [hs, hseq, ho.seq]
    exact (ho.last heq.symm).2
  · obtain ⟨hp, hs, hno⟩ := h.bad hb
    exact ⟨hp, hs, hmem _ hno fun heq => (ho.last heq.symm).1 hp⟩
  · have hk' : k ∈ doneNos b.notes ++ [b.run.no] := hdone ▸ hk
    rcases List.mem_append.1 hk' with hk' | hk'
    · exact h.nos k hk'
    · rw [List.mem_singleton.1 hk']
      exact ho.le
  · show (doneNos (b.notes ++ [.done b.run ev got])).Nodup
    rw [hdone]
    exact List.nodup_append.2 ⟨h.nodup, List.nodup_singleton _, fun x hx y hy heq => ho.fresh (by
      rw [← List.mem_singleton.1 hy, ← heq]; exact hx)⟩
  · rcases List.mem_append.1 hm with hm | hm
    · exact h.notes m hm
    · rw [List.mem_singleton.1 hm]
      exact ⟨hseq.trans ho.seq, fun ht => ⟨b.data, ho.payload, hok ht⟩⟩

/-- An event that is no write's result. -/
theorem Books.quiet {b : NfcBook} (h : Books b) : Books { b with writing := false } :=
  ⟨h.armed, h.bad, h.nos, h.nodup, nofun, h.notes⟩

/-- A new tap under the arm that stands. -/
theorem Books.begin {b : NfcBook} (h : Books b) (ha : b.armed = true) (hrun : run.no = b.no ∧ run.seq = b.seq ∧
    run.payload = b.payload) : Books { b with writing := true, writeSeq := b.armSeq, data := b.armPayload, run := run } := by
  obtain ⟨hp, hs, hno⟩ := h.armed ha
  obtain ⟨hrno, hrseq, hrpay⟩ := hrun
  refine ⟨h.armed, h.bad, h.nos, h.nodup, fun _ => ⟨?_, ?_, ?_, ?_, fun _ => ⟨?_, ?_⟩⟩, h.notes⟩
  · exact hs.trans hrseq.symm
  · exact hrpay.trans hp
  · show run.no ∉ _
    rw [hrno]
    exact hno
  · exact Nat.le_of_eq hrno
  · show b.payload ≠ none
    rw [hp]
    exact Option.some_ne_none _
  · exact hrseq.symm

theorem Books.disarm {b : NfcBook} (h : Books b) : Books { b with armed := false, armBad := false } :=
  ⟨nofun, nofun, h.nos, h.nodup,
    fun hw => ⟨(h.owner hw).seq, (h.owner hw).payload, (h.owner hw).fresh, (h.owner hw).le, (h.owner hw).last⟩, h.notes⟩

/-- A further arm. -/
theorem Books.arm {b : NfcBook} (h : Books b) (seq : UInt32) (payload : Option Bytes) (place : Bytes)
    (hplace : ∀ p, payload = some p → place = p) :
    Books { b with
      no := b.no + 1, seq := seq, payload := payload, armSeq := seq, armed := payload.isSome, armBad := payload.isNone
      armPayload := place } := by
  have hfresh : b.no + 1 ∉ doneNos b.notes := fun hmem => by
    have := h.nos _ hmem
    omega
  refine ⟨fun ha => ⟨?_, rfl, hfresh⟩, fun hb => ⟨Option.isNone_iff_eq_none.1 hb, rfl, hfresh⟩,
    fun k hk => Nat.le_succ_of_le (h.nos k hk), h.nodup, fun hw => ?_, h.notes⟩
  · obtain ⟨p, hp⟩ := Option.isSome_iff_exists.1 ha
    show payload = some place
    rw [hp, hplace p hp]
  · have ho := h.owner hw
    refine ⟨ho.seq, ho.payload, ho.fresh, Nat.le_succ_of_le ho.le, fun heq => ?_⟩
    have hle := ho.le
    have heq' : b.run.no = b.no + 1 := heq
    omega

/-- A refused arm has its result. -/
theorem Books.refuse {b : NfcBook} {arm : NfcArm} (h : Books b) (hb : b.armBad = true) (harm : arm.no = b.no) (hseq : ev.seq = arm.seq)
    (hok : ev.ok = false) : Books { b with armBad := false, notes := b.notes ++ [.done arm ev []] } := by
  obtain ⟨hp, hs, hno⟩ := h.bad hb
  have hdone : doneNos (b.notes ++ [.done arm ev []]) = doneNos b.notes ++ [arm.no] := doneNos_concat _ _
  refine ⟨fun ha => ?_, nofun, fun k hk => ?_, ?_, fun hw => ?_, fun m hm => ?_⟩
  · have hsome := (h.armed ha).1
    rw [hp] at hsome
    cases hsome
  · have hk' : k ∈ doneNos b.notes ++ [arm.no] := hdone ▸ hk
    rcases List.mem_append.1 hk' with hk' | hk'
    · exact h.nos k hk'
    · rw [List.mem_singleton.1 hk']
      exact Nat.le_of_eq harm
  · show (doneNos (b.notes ++ [.done arm ev []])).Nodup
    rw [hdone]
    refine List.nodup_append.2 ⟨h.nodup, List.nodup_singleton _, fun x hx y hy heq => hno ?_⟩
    rw [← harm, ← List.mem_singleton.1 hy, ← heq]
    exact hx
  · have ho := h.owner hw
    refine ⟨ho.seq, ho.payload, fun hmem => ?_, ho.le, ho.last⟩
    have hmem' : b.run.no ∈ doneNos b.notes ++ [arm.no] := hdone ▸ hmem
    rcases List.mem_append.1 hmem' with hmem' | hmem'
    · exact ho.fresh hmem'
    · exact (ho.last ((List.mem_singleton.1 hmem').trans harm)).1 hp
  · rcases List.mem_append.1 hm with hm | hm
    · exact h.notes m hm
    · rw [List.mem_singleton.1 hm]
      exact ⟨hseq, fun ht => by rw [hok] at ht; cases ht⟩

-- ---------------------------------------------------------------------------
-- What leaves the books alone
-- ---------------------------------------------------------------------------

open NfcReader

variable {r r' : NfcReader}

theorem book_note (r : NfcReader) (h : n.isOverwritten = false) :
    (r.note n).book = { r.book with notes := r.book.notes ++ [n] } := by
  rw [book, note, List.filter_append, List.filter_cons_of_pos (by rw [h]; rfl), List.filter_nil]
  rfl

theorem book_emit (r : NfcReader) (e : NfcEvent) : (r.emit e).book = r.book := by
  rw [emit]
  cases r.ev with
  | none => rfl
  | some lost =>
    show (r.note (.overwritten lost)).book = r.book
    rw [book, book, note, List.filter_append, List.filter_cons_of_neg (fun hf => Bool.false_ne_true hf), List.filter_nil,
      List.append_nil]

theorem book_expireHold (r : NfcReader) : r.expireHold.book = r.book := by
  rw [expireHold]
  split
  · rfl
  · rfl

theorem book_sameTap (r : NfcReader) : r.sameTap.book = r.book := by
  rw [sameTap]
  split
  · rfl
  · rfl

theorem book_chipFound (r : NfcReader) : r.chipFound.book = r.book := by
  rw [chipFound, book_emit]
  split
  · rfl
  · rfl

theorem state_emit (r : NfcReader) (e : NfcEvent) : (r.emit e).state = r.state := by
  rw [emit]
  cases r.ev with
  | none => rfl
  | some lost => rfl

theorem back_emit (r : NfcReader) (e : NfcEvent) : (r.emit e).back = r.back := by
  rw [emit]
  cases r.ev with
  | none => rfl
  | some lost => rfl

theorem uid_emit (r : NfcReader) (e : NfcEvent) : (r.emit e).uid = r.uid := by
  rw [emit]
  cases r.ev with
  | none => rfl
  | some lost => rfl

-- ---------------------------------------------------------------------------
-- Between runs and in one
-- ---------------------------------------------------------------------------

theorem StageOk.idle (h : StageOk r) (hs : r.state.inRun = false) : r.writing = false := by
  rw [StageOk] at h
  cases hst : r.state <;> rw [hst] at h hs <;> first | exact h | cases hs

theorem stageOk_idle (hs : r.state.inRun = false) (hw : r.writing = false) : StageOk r := by
  rw [StageOk]
  cases hst : r.state <;> rw [hst] at hs <;> first | exact hw | cases hs

/-- From idle to idle. -/
theorem Writes.idle (h : Writes r) (hs : r.state.inRun = false) (hbook : r'.book = r.book) (hs' : r'.state.inRun = false)
    (hb : r'.back = r.back) : Writes r' where
  books := hbook ▸ h.books
  stage := stageOk_idle hs' (by
    rw [show r'.writing = r.writing from congrArg NfcBook.writing hbook]
    exact h.stage.idle hs)
  counted uid := by
    have hc := h.counted uid
    rw [hs, if_neg (fun hf => Bool.false_ne_true hf.1)] at hc
    rw [hbook, hs', if_neg (fun hf => Bool.false_ne_true hf.1)]
    exact hc
  back := hb ▸ h.back

/-- A tag that arrived is being handled. -/
structure Running (r : NfcReader) : Prop where
  books : Books r.book
  pending : ∀ uid, r.book.notes.countP (reportedOf uid) + (if r.uid = uid then 1 else 0) ≤
    r.book.notes.countP (arrivedOf uid)
  back : r.back.length = nfcTagBytes

theorem Writes.running (h : Writes r) (hs : r.state.inRun = true) : Running r where
  books := h.books
  pending uid := by
    have hc := h.counted uid
    rw [hs] at hc
    simpa using hc
  back := h.back

theorem Running.writes (h : Running r) (hstage : StageOk r) : Writes r where
  books := h.books
  stage := hstage
  counted uid := by
    refine Nat.le_trans (Nat.add_le_add_left ?_ _) (h.pending uid)
    by_cases hu : r.uid = uid
    · rw [if_pos hu]
      split
      · exact Nat.le_refl _
      · exact Nat.zero_le _
    · refine Nat.le_of_eq ?_
      rw [if_neg hu, if_neg fun hf => hu hf.2]
  back := h.back

theorem Running.finish {k : NfcEvKind} (h : Running r) (hk : k = .writeDone → r.writing = true ∧ (why = none → ReadBack r.data r.got)) :
    Writes (r.finish k why) := by
  refine Running.writes ⟨h.books, h.pending, h.back⟩ ?_
  intro hkind
  have hkind' : k = .writeDone := hkind
  refine ⟨(hk hkind').1, ?_, fun hok => (hk hkind').2 ?_⟩
  · show (if k = .writeDone then r.writeSeq else 0) = r.writeSeq
    rw [if_pos hkind']
  · have hok' : (decide (k = .writeDone) && why.isNone) = true := hok
    rw [Bool.and_eq_true] at hok'
    exact Option.isNone_iff_eq_none.1 hok'.2

/-- A failed exchange, whatever the run was. -/
theorem Running.failed (h : Running r) (why : String) :
    Writes (r.finish (if r.writing then .writeDone else .unreadable) (some why)) := by
  refine h.finish fun hk => ⟨?_, fun hw => by cases hw⟩
  cases hw : r.writing with
  | true => rfl
  | false =>
    rw [hw] at hk
    cases hk

theorem Running.moved (h : Running r) : Writes r.moved := h.failed _

/-- The first block is next, to be read or written. -/
theorem Running.first (h : Running r) (hgot : r.writing = true → r.got = []) (hsub : r.kind = .t2 → r.sub < 4) :
    Writes (({ r with block := firstBlock } : NfcReader).go (if r.writing then .write else .read)) := by
  refine Running.writes ⟨h.books, h.pending, h.back⟩ ?_
  by_cases hw : r.writing = true
  · rw [if_pos hw]
    exact ⟨hw, Nat.le_refl _, (by decide : firstBlock ≤ lastBlock), hsub, hgot hw⟩
  · rw [if_neg hw]
    exact ⟨Bool.eq_false_iff.2 hw, Nat.le_refl _, (by decide : firstBlock ≤ lastBlock)⟩

theorem Running.tagSelected (h : Running r) (hgot : r.writing = true → r.got = []) (sak : UInt8) :
    Writes (r.tagSelected sak) := by
  rw [NfcReader.tagSelected]
  cases hk : classify r.uid.length sak with
  | none => exact Running.finish (r := { r with kind := .none }) ⟨h.books, h.pending, h.back⟩ fun hk => by cases hk
  | classic => exact Running.writes ⟨h.books, h.pending, h.back⟩ ⟨rfl, hgot⟩
  | t2 =>
    exact Running.first (r := { r with kind := .t2, sub := 0 }) ⟨h.books, h.pending, h.back⟩ hgot fun _ => by
      show 0 < 4
      decide

theorem Running.authDone (h : Running r) (hgot : r.writing = true → r.got = []) (hsub : r.kind = .t2 → r.sub < 4) (ok : Bool) :
    Writes (r.authDone ok) := by
  cases ok with
  | false => exact h.failed _
  | true => exact h.first hgot hsub

-- ---------------------------------------------------------------------------
-- The blocks
-- ---------------------------------------------------------------------------

/-- What a write that is under way knows. -/
structure Sending (r : NfcReader) : Prop where
  running : Running r
  writing : r.writing = true
  first : firstBlock ≤ r.block
  last : r.block ≤ lastBlock
  sub : r.kind = .t2 → r.sub < 4
  got : r.got = []

theorem Writes.sending (h : Writes r) (hs : r.state = .write ∨ r.state = .written) : Sending r := by
  have hstage := h.stage
  rw [StageOk] at hstage
  rcases hs with hs | hs
  · rw [hs] at hstage
    obtain ⟨hw, hf, hl, hsub, hg⟩ := hstage
    exact ⟨h.running (by rw [hs]; rfl), hw, hf, hl, hsub, hg⟩
  · rw [hs] at hstage
    obtain ⟨hw, hf, hl, hsub, hg⟩ := hstage
    exact ⟨h.running (by rw [hs]; rfl), hw, hf, hl, hsub, hg⟩

theorem Sending.blockWritten (h : Sending r) : Writes r.blockWritten := by
  rw [NfcReader.blockWritten]
  split
  · rename_i hlt
    exact Running.writes ⟨h.running.books, h.running.pending, h.running.back⟩
      ⟨h.writing, Nat.le_succ_of_le h.first, hlt, h.sub, h.got⟩
  · refine Running.writes ⟨h.running.books, h.running.pending, h.running.back⟩
      ⟨h.writing, Nat.le_refl _, (by decide : firstBlock ≤ lastBlock), ?_, ?_, ?_⟩
    · show r.got.length = _
      rw [h.got]
      rfl
    · show ∀ b ∈ r.got, _
      rw [h.got]
      exact fun _ hb => by cases hb
    · show r.back.take 0 = r.got.flatten
      rw [h.got]
      rfl

theorem Sending.pageWritten (h : Sending r) : Writes r.pageWritten := by
  rw [NfcReader.pageWritten]
  split
  · rename_i hlt
    exact Running.writes ⟨h.running.books, h.running.pending, h.running.back⟩
      ⟨h.writing, h.first, h.last, fun _ => hlt, h.got⟩
  · exact Sending.blockWritten (r := { r with sub := 0 }) ⟨⟨h.running.books, h.running.pending, h.running.back⟩, h.writing,
      h.first, h.last, fun _ => (by decide : 0 < 4), h.got⟩

theorem Sending.writeAcked (h : Sending r) : Writes r.writeAcked := by
  rw [NfcReader.writeAcked]
  split
  · exact h.pageWritten
  · exact h.blockWritten

theorem Sending.writeNaked (h : Sending r) : Writes r.writeNaked := by
  rw [NfcReader.writeNaked]
  split
  · exact h.running.finish fun _ => ⟨h.writing, fun hw => by cases hw⟩
  · exact h.running.moved

/-- A frame of the payload's own bytes goes out. -/
theorem Sending.sent (h : Sending r) (hn : (NfcNote.wrote r.clock r.uid r.run kd place bytes).WriteOk) :
    Writes ((r.note (.wrote r.clock r.uid r.run kd place bytes)).go .written) := by
  have hbook : (r.note (.wrote r.clock r.uid r.run kd place bytes)).book =
      { r.book with notes := r.book.notes ++ [.wrote r.clock r.uid r.run kd place bytes] } := book_note r rfl
  refine Running.writes ⟨?_, fun uid => ?_, h.running.back⟩ ⟨h.writing, h.first, h.last, h.sub, h.got⟩
  · show Books (r.note _).book
    rw [hbook]
    exact h.running.books.note hn rfl
  · show (r.note _).book.notes.countP _ + _ ≤ (r.note _).book.notes.countP _
    rw [hbook, List.countP_append, List.countP_append]
    exact h.running.pending uid

theorem Sending.sendWrite (h : Sending r) : Writes r.sendWrite := by
  have howner := h.running.books.owner h.writing
  have hf := h.first
  have hl := h.last
  simp only [firstBlock, lastBlock] at hf hl
  have hclassic : ∀ kd, kd ≠ .t2 → Writes ((r.note (.wrote r.clock r.uid r.run kd r.block r.blockOut)).go .written) := by
    intro kd hkd
    refine h.sent ⟨r.data, howner.payload, ?_⟩
    rw [if_neg hkd]
    exact ⟨hf, hl, rfl⟩
  rw [NfcReader.sendWrite]
  split
  · rename_i hkind
    have hsub := h.sub hkind
    cases hpg : r.t2Page with
    | none => exact h.running.moved
    | some pg =>
      rw [t2Page] at hpg
      split at hpg
      · rename_i hrange
        cases hpg
        refine h.sent ⟨r.data, howner.payload, ?_⟩
        rw [if_pos rfl]
        refine ⟨hrange.1, hrange.2, ?_⟩
        rw [t2PageOut, blockAt]
        have hoff : (r.block - firstBlock) * 16 + r.sub * 4 =
            (t2FirstPage + (r.block - firstBlock) * 4 + r.sub - t2FirstPage) * 4 := by
          omega
        rw [hoff]
      · cases hpg
  · rename_i kd hkd
    exact hclassic _ hkd

theorem Running.decoded (h : Running r) : Writes r.decoded := by
  rw [NfcReader.decoded]
  split
  · exact ⟨h.books, (fun hk => by cases hk), fun uid => (Running.writes (r := r.finish .tagRead none) ⟨h.books, h.pending, h.back⟩
      (fun hk => by cases hk)).counted uid, h.back⟩
  · exact h.finish fun hk => by cases hk
  · exact h.finish fun hk => by cases hk
  · exact h.finish fun hk => by cases hk

/-- A read's data is no write's. -/
theorem Books.read {b : NfcBook} (h : Books b) (hw : b.writing = false) (data : Bytes) : Books { b with data := data } :=
  ⟨h.armed, h.bad, h.nos, h.nodup, fun ht => (Bool.false_ne_true (hw.symm.trans ht)).elim, h.notes⟩

theorem Writes.blockIn (h : Writes r) (hs : r.state = .read) (b : Bytes) : Writes (r.blockIn b) := by
  have hrun := h.running (by rw [hs]; rfl)
  have hstage := h.stage
  rw [StageOk, hs] at hstage
  obtain ⟨hw, hf, hl⟩ := hstage
  have hread : Running { r with data := paste r.data r.blockAt b } :=
    ⟨h.books.read hw _, hrun.pending, hrun.back⟩
  rw [NfcReader.blockIn]
  split
  · rename_i hlt
    refine Running.writes ⟨hread.books, hread.pending, hread.back⟩ ?_
    rw [StageOk, hs]
    exact ⟨hw, Nat.le_succ_of_le hf, hlt⟩
  · exact hread.decoded

theorem length_paste (h : off + b.length ≤ dst.length) : (paste dst off b).length = dst.length := by
  rw [paste, List.length_append, List.length_append, List.length_take, List.length_drop]
  omega

theorem take_paste (h : off ≤ dst.length) : (paste dst off b).take (off + b.length) = dst.take off ++ b := by
  rw [paste, List.take_append_of_le_length (by rw [List.length_append, List.length_take]; omega), List.take_of_length_le]
  rw [List.length_append, List.length_take]
  omega

/-- The last block read back decides. -/
theorem Writes.blockBack (h : Writes r) (hs : r.state = .readback) (hlen : b.length = 16) : Writes (r.blockBack b) := by
  have hrun := h.running (by rw [hs]; rfl)
  have hstage := h.stage
  rw [StageOk, hs] at hstage
  obtain ⟨hw, hf, hl, hn, hall, hback⟩ := hstage
  have h48 : r.back.length = 48 := h.back
  simp only [firstBlock, lastBlock] at hf hl hn
  have hat : r.blockAt + 16 ≤ 48 := by
    rw [blockAt, firstBlock]
    omega
  have hpaste : (paste r.back r.blockAt b).length = nfcTagBytes := by
    rw [length_paste (by omega), h48]
    rfl
  have hgot : (paste r.back r.blockAt b).take (r.blockAt + 16) = (r.got ++ [b]).flatten := by
    rw [← hlen, take_paste (by omega), hback, List.flatten_append, List.flatten_singleton]
  have hall' : ∀ x ∈ r.got ++ [b], x.length = 16 := by
    intro x hx
    rcases List.mem_append.1 hx with hx | hx
    · exact hall x hx
    · rw [List.mem_singleton.1 hx]
      exact hlen
  rw [NfcReader.blockBack]
  split
  · rename_i hlt
    refine Running.writes ⟨hrun.books, hrun.pending, hpaste⟩ ?_
    rw [StageOk, hs]
    refine ⟨hw, Nat.le_succ_of_le hf, hlt, ?_, hall', ?_⟩
    · show (r.got ++ [b]).length = r.block + 1 - 4
      rw [List.length_append, hn, List.length_singleton]
      omega
    · show (paste r.back r.blockAt b).take ((r.block + 1 - firstBlock) * 16) = (r.got ++ [b]).flatten
      rw [← hgot, blockAt, firstBlock]
      congr 1
      omega
  · rename_i hlast
    simp only [lastBlock] at hlast
    have hsix : r.block = 6 := by omega
    refine Running.finish (r := { r with back := paste r.back r.blockAt b, got := r.got ++ [b] })
      ⟨hrun.books, hrun.pending, hpaste⟩ fun _ => ⟨hw, fun hwhy => ⟨?_, hall', ?_⟩⟩
    · show (r.got ++ [b]).length = 3
      rw [List.length_append, hn, List.length_singleton]
      omega
    · have hsame : paste r.back r.blockAt b = r.data := by
        by_contra hne
        rw [if_neg hne] at hwhy
        cases hwhy
      show (r.got ++ [b]).flatten = r.data
      have hwhole : r.blockAt + 16 = nfcTagBytes := by
        rw [blockAt, hsix]
        rfl
      rw [← hgot, hwhole, ← hpaste, List.take_length, hsame]

-- ---------------------------------------------------------------------------
-- Arrival, report and the rest
-- ---------------------------------------------------------------------------

theorem book_sighted (r : NfcReader) (uid : Uid) : (r.sighted uid).book = r.book := rfl

theorem newTap_armed (h : r.armed = true) : r.newTap =
    { r.note (.arrived r.clock r.uid r.told (some r.arm)) with
      writing := true, writeSeq := r.armSeq, data := r.armPayload, run := r.arm, got := [] } := by
  simp [newTap, note, h]

theorem newTap_unarmed (h : r.armed = false) : r.newTap =
    { r.note (.arrived r.clock r.uid r.told none) with writing := false } := by
  simp [newTap, note, h]

/-- A new tap: the arrival is noted and, where a write is armed, the run is that arm's. -/
theorem Writes.newTap (h : Writes r) (hs : r.state.inRun = false) :
    Running r.newTap ∧ (r.newTap.writing = true → r.newTap.got = []) := by
  have hpend : ∀ (told : Option NfcTold) (arm : Option NfcArm) uid,
      (r.note (.arrived r.clock r.uid told arm)).book.notes.countP (reportedOf uid) + (if r.uid = uid then 1 else 0) ≤
        (r.note (.arrived r.clock r.uid told arm)).book.notes.countP (arrivedOf uid) := by
    intro told arm uid
    have hc := h.counted uid
    rw [hs] at hc
    rw [book_note r rfl, List.countP_append, List.countP_append]
    by_cases hu : r.uid = uid
    · simpa [reportedOf, arrivedOf, hu] using hc
    · simpa [reportedOf, arrivedOf, hu] using hc
  have hnoted : ∀ (told : Option NfcTold) (arm : Option NfcArm),
      Books (r.note (.arrived r.clock r.uid told arm)).book := fun told arm => by
    rw [book_note r rfl]
    exact h.books.note trivial rfl
  cases ha : r.armed with
  | true =>
    rw [newTap_armed ha]
    exact ⟨⟨(hnoted r.told (some r.arm)).begin ha ⟨rfl, rfl, rfl⟩, hpend r.told (some r.arm), h.back⟩, fun _ => rfl⟩
  | false =>
    rw [newTap_unarmed ha]
    exact ⟨⟨(hnoted r.told none).quiet, hpend r.told none, h.back⟩, nofun⟩

theorem Writes.arrival (h : Writes r) (hs : r.state.inRun = false) {next : NfcReader → NfcReader}
    (hnext : ∀ r, Running r → (r.writing = true → r.got = []) → Writes (next r)) : Writes (r.arrival next) := by
  have hexp : Writes r.expireHold ∧ r.expireHold.state.inRun = false := by
    have hstate : r.expireHold.state = r.state ∧ r.expireHold.back = r.back := by
      rw [expireHold]
      split
      · exact ⟨rfl, rfl⟩
      · exact ⟨rfl, rfl⟩
    exact ⟨h.idle hs (book_expireHold r) (hstate.1 ▸ hs) hstate.2, hstate.1 ▸ hs⟩
  obtain ⟨hw, hs⟩ := hexp
  rw [NfcReader.arrival]
  generalize r.expireHold = r at hw hs
  split
  · refine hw.idle hs ((book_sighted _ _).trans (book_sameTap r)) rfl ?_
    rw [sighted, sameTap]
    split
    · rfl
    · rfl
  · obtain ⟨hrun, hgot⟩ := hw.newTap hs
    exact hnext _ ⟨hrun.books, hrun.pending, hrun.back⟩ hgot

theorem book_report (r : NfcReader) : r.report.book =
    if r.built.kind = .writeDone then
      { r.book with
        armed := r.armed && !(r.armSeq == r.built.seq), writing := false
        notes := r.book.notes ++ [.done r.run r.built r.got] ++ [.reported r.uid r.built.kind] }
    else { r.book with writing := false, notes := r.book.notes ++ [.reported r.uid r.built.kind] } := by
  rw [NfcReader.report]
  show (enterIdle (emit _ _) _).book = _
  rw [show ∀ (r : NfcReader) b, (r.enterIdle b).book = r.book from fun _ _ => rfl, book_emit, book_note _ rfl]
  have hkind : (r.sighted r.uid).built.kind = r.built.kind := rfl
  rw [hkind]
  by_cases hk : r.built.kind = .writeDone
  · rw [if_pos hk, if_pos hk, book_note _ rfl]
    simp only [hk, beq_self_eq_true, Bool.true_and]
    rfl
  · rw [if_neg hk, if_neg hk]
    have hbeq : (r.built.kind == NfcEvKind.writeDone) = false := beq_eq_false_iff_ne.2 hk
    simp only [hbeq, Bool.false_and, Bool.not_false, Bool.and_true]
    rfl

theorem Writes.report (h : Writes r) (hs : r.state = .report) : Writes r.report := by
  have hrun := h.running (by rw [hs]; rfl)
  have hstage := h.stage
  rw [StageOk, hs] at hstage
  have hstate : r.report.state = .fieldOff := rfl
  have hwriting : r.report.writing = false := by
    rw [show r.report.writing = r.report.book.writing from rfl, book_report]
    split
    · rfl
    · rfl
  have hback : r.report.back = r.back := by
    rw [NfcReader.report]
    show (enterIdle (emit _ _) _).back = _
    rw [show ∀ (r : NfcReader) b, (r.enterIdle b).back = r.back from fun _ _ => rfl, back_emit]
    show (ite _ _ _ : NfcReader).back = _
    split
    · rfl
    · rfl
  refine ⟨?_, stageOk_idle (by rw [hstate]; rfl) hwriting, fun uid => ?_, hback ▸ h.back⟩
  · rw [book_report]
    split
    · rename_i hk
      obtain ⟨hw, hseq, hok⟩ := hstage hk
      exact (h.books.over hw hseq hok).note trivial rfl
    · exact h.books.quiet.note trivial rfl
  · have hp := hrun.pending uid
    rw [hstate, if_neg (fun hf => Bool.false_ne_true hf.1), book_report]
    split
    · by_cases hu : r.uid = uid
      · simpa [reportedOf, arrivedOf, hu, List.countP_append] using hp
      · simpa [reportedOf, arrivedOf, hu, List.countP_append] using hp
    · by_cases hu : r.uid = uid
      · simpa [reportedOf, arrivedOf, hu, List.countP_append] using hp
      · simpa [reportedOf, arrivedOf, hu, List.countP_append] using hp

theorem Writes.loseChip (h : Writes r) : Writes r.loseChip := by
  have hbook : r.loseChip.book = { r.book with writing := false } := book_emit _ _
  have hstate : r.loseChip.state = .absent := state_emit _ _
  refine ⟨hbook ▸ h.books.quiet, stageOk_idle (by rw [hstate]; rfl) ?_, fun uid => ?_, ?_⟩
  · exact congrArg NfcBook.writing hbook
  · rw [hbook, hstate, if_neg (fun hf => Bool.false_ne_true hf.1)]
    exact Nat.le_trans (Nat.add_le_add_left (Nat.zero_le _) _) (h.counted uid)
  · rw [show r.loseChip.back = r.back from back_emit _ _]
    exact h.back

theorem Writes.settle (h : Writes r) : Writes r.settle := by
  rw [NfcReader.settle]
  split
  · exact h.loseChip
  · exact h

/-- One turn. -/
theorem Writes.handle (hh : Handle r r') (h : Writes r) : Writes r' := by
  cases hh with
  | wait => exact h
  | transfer => exact ⟨h.books, h.stage, h.counted, h.back⟩
  | probe hs => exact h.idle (by rw [hs]; rfl) rfl rfl rfl
  | check answered hs =>
    rw [absentCheck]
    split
    · exact h.idle (by rw [hs]; rfl) (book_chipFound _) (by rw [chipFound, state_emit]; split <;> rfl)
        (by rw [chipFound, back_emit]; split <;> rfl)
    · exact h.idle (by rw [hs]; rfl) rfl (by rw [show _ = r.state from rfl, hs]; rfl) rfl
  | report hs => exact h.report hs
  | resetSent hs => exact h.idle (by rw [hs]; rfl) rfl rfl rfl
  | resetDone hs => exact h.idle (by rw [hs]; rfl) rfl rfl rfl
  | resetLate hs =>
    have hsame : Writes { r with fails := 0 } := ⟨h.books, h.stage, h.counted, h.back⟩
    split
    · exact hsame.loseChip
    · exact hsame
  | initDone hs => exact h.idle (by rw [hs]; rfl) rfl rfl rfl
  | isOff hs => exact h.idle (by rw [hs]; rfl) rfl rfl rfl
  | si512Back answered hs =>
    rw [si512Back]
    split
    · exact h.idle (by rw [hs]; rfl) rfl rfl rfl
    · exact h.idle (by rw [hs]; rfl) rfl (by rw [show _ = r.state from rfl, hs]; rfl) rfl
  | pollDue hs =>
    refine h.idle (by rw [hs]; rfl) (book_expireHold r) ?_ ?_
    · show NfcState.inRun (if r.chip = .pn532 then .pnPoll else .fieldOn) = false
      split
      · rfl
      · rfl
    · show r.expireHold.back = r.back
      rw [expireHold]
      split
      · rfl
      · rfl
  | isOn hs => exact h.idle (by rw [hs]; rfl) rfl rfl rfl
  | atqa hs => exact h.idle (by rw [hs]; rfl) rfl rfl rfl
  | noTag hs => exact h.idle (by rcases hs with hs | hs <;> rw [hs] <;> rfl) rfl rfl rfl
  | collision hs => exact h.idle (by rcases hs with hs | hs <;> rw [hs] <;> rfl) rfl rfl rfl
  | double part hs => exact h.idle (by rw [hs]; rfl) rfl rfl rfl
  | single part hs =>
    refine Writes.arrival (r := { r with uid := part }) (h.idle (by rw [hs]; rfl) rfl (by rw [show _ = r.state from rfl, hs]; rfl) rfl)
      (by rw [show _ = r.state from rfl, hs]; rfl) fun r hr hg => Running.writes ⟨hr.books, hr.pending, hr.back⟩ hg
  | whole rest hs =>
    refine Writes.arrival (r := { r with uid := r.uid.drop 1 ++ rest }) (h.idle (by rw [hs]; rfl) rfl (by rw [show _ = r.state from rfl, hs]; rfl) rfl)
      (by rw [show _ = r.state from rfl, hs]; rfl) fun r hr hg => Running.writes ⟨hr.books, hr.pending, hr.back⟩ hg
  | listed uid sak hs =>
    exact Writes.arrival (r := { r with uid := uid }) (h.idle (by rw [hs]; rfl) rfl (by rw [show _ = r.state from rfl, hs]; rfl) rfl)
      (by rw [show _ = r.state from rfl, hs]; rfl) fun r hr hg => hr.tagSelected hg sak
  | tooLong uid hs =>
    exact Writes.arrival (r := { r with uid := uid }) (h.idle (by rw [hs]; rfl) rfl (by rw [show _ = r.state from rfl, hs]; rfl) rfl)
      (by rw [show _ = r.state from rfl, hs]; rfl) fun r hr _ => hr.finish fun hk => by cases hk
  | selected sak hs =>
    have hstage := h.stage
    rw [StageOk, hs] at hstage
    exact (h.running (by rw [hs]; rfl)).tagSelected hstage sak
  | moved hs =>
    refine (h.running ?_).moved
    simp only [List.mem_cons, List.not_mem_nil, or_false] at hs
    rcases hs with hs | hs | hs | hs <;> rw [hs] <;> rfl
  | authed ok hs =>
    have hstage := h.stage
    rw [StageOk, hs] at hstage
    exact (h.running (by rw [hs]; rfl)).authDone hstage.2 (fun ht => by rw [hstage.1] at ht; cases ht) ok
  | block b hs => exact h.blockIn hs b
  | back b hs hlen => exact h.blockBack hs hlen
  | send hs => exact (h.sending (.inl hs)).sendWrite
  | ack hs => exact (h.sending (.inr hs)).writeAcked
  | nak hs => exact (h.sending (.inr hs)).writeNaked
  | pnFound hs => exact h.idle (by rw [hs]; rfl) (book_chipFound _) rfl (by
      show (chipFound _).back = _
      rw [chipFound, back_emit]
      split <;> rfl)
  | pnReady hs => exact h.idle (by rw [hs]; rfl) rfl rfl rfl
  | pnGiveUp hs => exact h.idle (by rw [hs]; rfl) rfl rfl rfl
  | pnLost => exact h.loseChip

-- ---------------------------------------------------------------------------
-- Steps
-- ---------------------------------------------------------------------------

/-- A step that moves the books and nothing a run knows. -/
theorem Writes.rebook (h : Writes r) (hbooks : Books r'.book) (hstage : StageOk r → StageOk r')
    (hnotes : ∀ uid, r'.book.notes.countP (reportedOf uid) = r.book.notes.countP (reportedOf uid) ∧
      r'.book.notes.countP (arrivedOf uid) = r.book.notes.countP (arrivedOf uid))
    (hsame : r'.state = r.state ∧ r'.uid = r.uid ∧ r'.back = r.back) : Writes r' where
  books := hbooks
  stage := hstage h.stage
  counted uid := by
    rw [(hnotes uid).1, (hnotes uid).2, hsame.1, hsame.2.1]
    exact h.counted uid
  back := hsame.2.2 ▸ h.back

theorem armGate_book (r : NfcReader) (seq : UInt32) (payload : Option Bytes) : (r.armGate seq payload).book =
    { r.book with no := r.book.no + 1, seq := seq, payload := payload, armSeq := seq } := by
  have hexp : (if r.present then r.expireHold else r).book = r.book := by
    split
    · exact book_expireHold r
    · rfl
  rw [armGate, ← hexp]
  generalize (if r.present then r.expireHold else r) = r
  cases r.held with
  | false => rfl
  | true => rfl

/-- What a run knows is not the armer's to change. -/
theorem armGate_stage (r : NfcReader) (seq : UInt32) (payload : Option Bytes) : ∃ held seenAt lastSeen gap told arm,
    r.armGate seq payload = { r with held, seenAt, lastSeen, gap, told, arm, armSeq := seq } := by
  have hexp : ∃ held gap told, (if r.present then r.expireHold else r) = { r with held, gap, told } := by
    rw [expireHold]
    split
    · split
      · exact ⟨r.held, r.gap, r.told, rfl⟩
      · exact ⟨_, _, _, rfl⟩
    · exact ⟨r.held, r.gap, r.told, rfl⟩
  obtain ⟨held, gap, told, heq⟩ := hexp
  rw [armGate, heq]
  cases held with
  | false => exact ⟨_, _, _, _, _, _, rfl⟩
  | true => exact ⟨_, _, _, _, _, _, rfl⟩

theorem Writes.armWith (h : Writes r) (seq : UInt32) (payload : Option Bytes) : Writes (r.armWith seq payload) := by
  have hgate := armGate_book r seq payload
  obtain ⟨held, seenAt, lastSeen, gap, told, arm, heq⟩ := armGate_stage r seq payload
  cases payload with
  | some b =>
    have hbook : (r.armWith seq (some b)).book = { r.book with
        no := r.book.no + 1, seq := seq, payload := some b, armSeq := seq, armed := true, armBad := false, armPayload := b } := by
      show ({ (r.armGate seq (some b)).book with armed := true, armBad := false, armPayload := b } : NfcBook) = _
      rw [hgate]
    have hstage : StageOk r → StageOk (r.armWith seq (some b)) := by
      rw [NfcReader.armWith, heq]
      exact id
    refine h.rebook (hbook ▸ h.books.arm seq (some b) b fun p hp => Option.some.inj hp) hstage (fun uid => by
      rw [hbook]
      exact ⟨rfl, rfl⟩) ?_
    rw [NfcReader.armWith, heq]
    exact ⟨rfl, rfl, rfl⟩
  | none =>
    have hbook : (r.armWith seq none).book = { r.book with
        no := r.book.no + 1, seq := seq, payload := none, armSeq := seq, armed := false, armBad := true } := by
      show ({ (r.armGate seq none).book with armed := false, armBad := true } : NfcBook) = _
      rw [hgate]
    have hstage : StageOk r → StageOk (r.armWith seq none) := by
      rw [NfcReader.armWith, heq]
      exact id
    refine h.rebook (hbook ▸ h.books.arm seq none r.book.armPayload nofun) hstage (fun uid => by
      rw [hbook]
      exact ⟨rfl, rfl⟩) ?_
    rw [NfcReader.armWith, heq]
    exact ⟨rfl, rfl, rfl⟩

theorem Writes.refuseArm (h : Writes r) (hb : r.armBad = true) : Writes r.refuseArm := by
  have hbad := h.books.bad hb
  have hbook : r.refuseArm.book = { r.book with
      armBad := false
      notes := r.book.notes ++ [.done r.arm { kind := .writeDone, seq := r.armSeq, ok := false, why := some "bad data" } []] } := by
    rw [NfcReader.refuseArm, book_emit, book_note _ rfl]
    rfl
  have hfield : r.refuseArm.state = r.state ∧ r.refuseArm.uid = r.uid ∧ r.refuseArm.back = r.back :=
    ⟨state_emit _ _, uid_emit _ _, back_emit _ _⟩
  have hstage : StageOk r → StageOk r.refuseArm := by
    rw [NfcReader.refuseArm, emit]
    cases r.ev with
    | none => exact id
    | some lost => exact id
  refine h.rebook (hbook ▸ h.books.refuse hb rfl hbad.2.1 rfl) hstage (fun uid => ?_) hfield
  rw [hbook]
  exact ⟨by simp [reportedOf], by simp [arrivedOf]⟩

theorem Writes.step (hs : NfcStep r r') (h : Writes r) : Writes r' := by
  cases hs with
  | tick => exact ⟨h.books, h.stage, h.counted, h.back⟩
  | takeEvent => exact ⟨h.books, h.stage, h.counted, h.back⟩
  | takeGap => exact ⟨h.books, h.stage, h.counted, h.back⟩
  | armWrite seq diskId => exact h.armWith seq _
  | armWriteNext seq => exact h.armWith seq _
  | disarm => exact ⟨h.books.disarm, h.stage, h.counted, h.back⟩
  | disable => exact ⟨h.books, h.stage, h.counted, h.back⟩
  | attach => exact ⟨h.books, h.stage, h.counted, h.back⟩
  | refuseArm _ _ hb => exact h.refuseArm hb
  | turn _ _ _ hh => exact (h.handle hh).settle

end WebAdf.Firmware.Nfc
