import Mathlib
import WebAdf.Receive.Ends
import WebAdf.Receive.FeedLaws

/-!
# A file is confirmed when it is there

What was written to the temporary file is counted and taken into the CRC byte by
byte, so the file that takes its name has the size and the CRC announced. OK is
told of that file, or again of the one saved last.
-/

namespace WebAdf.Receive

open Lib
open Relation (ReflTransGen)

variable {φ π : Type} {fs : Fs φ} {k : Shelf φ π}

/-- The file of this name has this size and this CRC. -/
def HeldAt (k : Shelf φ π) (d : φ) (name : Bytes) (size crc : Nat) : Prop :=
  ∃ b, k.node d (k.place name) = some (.file b) ∧ b.length = size ∧ (crc32Update 0 b).toNat = crc

-- ---------------------------------------------------------------------------
-- The disk while a file ends
-- ---------------------------------------------------------------------------

theorem Fs.Prep.node {c : Cur} {d d' : φ} (hl : fs.Lawful k) (h : fs.Prep c d d') (l : π) :
    k.node d' l = k.node d l ∨ k.node d' l = none := by
  cases h with
  | ask h => exact .inl (congrFun (hl.ask h) l)
  | removeOld hmode =>
    rcases hrem : fs.remove c.path d with ⟨ok, d'⟩
    by_cases hkeep : ok = false ∨ l ≠ k.place c.path
    · exact .inl (hl.remove_stays hrem hkeep)
    · obtain ⟨rfl, rfl⟩ : ok = true ∧ l = k.place c.path := by simpa using hkeep
      exact .inr (hl.remove hrem)
  | noRename h => exact .inl (congrFun (hl.rename_failed h) l)

theorem prep_node {c : Cur} {d d' : φ} (hl : fs.Lawful k) (h : ReflTransGen (fs.Prep c) d d') (l : π) :
    k.node d' l = k.node d l ∨ k.node d' l = none := by
  induction h with
  | refl => exact .inl rfl
  | tail _ hlast ih =>
    rcases hlast.node hl l with heq | hnone
    · rw [heq]
      exact ih
    · exact .inr hnone

/-- What a rename gives the name is what was in the temporary file. -/
theorem rename_held {c : Cur} {d d' d'' : φ} {name b : Bytes} (hl : fs.Lawful k)
    (hfile : k.node d (k.place c.tmp) = some (.file b)) (hprep : ReflTransGen (fs.Prep c) d d')
    (hrename : fs.rename c.tmp name d' = (true, d'')) : k.node d'' (k.place name) = some (.file b) := by
  obtain ⟨n, hsource, htarget, -⟩ := hl.rename hrename
  rcases prep_node hl hprep (k.place c.tmp) with heq | hnone
  · rw [htarget, ← hsource, heq, hfile]
  · simp [hsource] at hnone

theorem call_opened {d d' : φ} (hl : fs.Lawful k) (h : ReflTransGen (fs.Call true) d d') :
    k.opened d' = k.opened d := by
  induction h with
  | refl => rfl
  | tail _ hlast ih => exact (hl.call hlast).trans ih

namespace Session

/-- The file a FILE line announces. -/
abbrev Name := Bytes × Nat × Nat

def announced (s : Session φ) : Name := (s.cur.id, s.cur.size, s.cur.crcWant)

/-- The file saved last is the one being received. -/
def Repeats (s : Session φ) (D : Done) : Prop :=
  s.doneOf = some D ∧ D.id ≠ [] ∧ (D.id, D.size, D.crc) = s.announced

/-- What is known of the file being received. -/
structure Receiving (k : Shelf φ π) (s : Session φ) : Prop where
  writes : s.cur.dup = false → s.cur.off = false → s.cur.isOpen = true ∧
    ∃ b, k.opened s.disk = some (k.place s.cur.tmp, b) ∧ (s.cur.writeFailed = false →
      b.length + s.cur.left = s.cur.size ∧ s.cur.crc = crc32Update 0 b)
  shut : s.cur.dup = true ∨ s.cur.off = true → s.cur.isOpen = false
  repeats : s.cur.dup = true → ∃ D, s.Repeats D

def Writing (k : Shelf φ π) (s : Session φ) : Prop := s.inData = true → s.Receiving k

-- ---------------------------------------------------------------------------
-- A pass
-- ---------------------------------------------------------------------------

theorem Receiving.aside {s s' : Session φ} (hl : fs.Lawful k) (hr : s.Receiving k)
    (h : Aside fs true s s') : s'.Receiving k := by
  have hopen := call_opened hl h.disk
  refine ⟨?_, ?_, ?_⟩
  · rw [h.cur, hopen]
    exact hr.writes
  · rw [h.cur]
    exact hr.shut
  · unfold Repeats announced
    rw [h.cur, h.done]
    exact hr.repeats

theorem Receiving.switchChanged {s : Session φ} (hr : s.Receiving k) :
    (s.switchChanged fs).Receiving k := by
  unfold Session.switchChanged dropTmp
  dsimp only
  split
  · exact hr
  · split
    · exact ⟨nofun, fun _ => rfl, hr.repeats⟩
    · rename_i hshut
      exact ⟨nofun, fun _ => by simpa using hshut, hr.repeats⟩

theorem Receiving.eaten {s : Session φ} (hl : fs.Lawful k) (hr : s.Receiving k) {data : Bytes}
    (hlen : data.length ≤ s.cur.left) : ((s.writeData fs data).countData data).Receiving k := by
  rcases @writeData_cases φ fs s data with ⟨heq, hskip⟩ | ⟨hgo, ⟨d, hwrite, heq⟩ | ⟨d, hwrite, heq⟩⟩ <;>
    rw [heq]
  · refine ⟨fun hdup hoff => ?_, hr.shut, hr.repeats⟩
    obtain ⟨hopen, b, hb, -⟩ := hr.writes hdup hoff
    refine ⟨hopen, b, hb, fun hfine => ?_⟩
    simp only [countData] at hdup hoff hfine
    simp [hdup, hoff, hfine] at hskip
  · refine ⟨fun hdup hoff => ?_, hr.shut, hr.repeats⟩
    obtain ⟨hopen, b, hb, hcount⟩ := hr.writes hdup hoff
    refine ⟨hopen, b ++ data, hl.write hwrite hb, fun hfine => ?_⟩
    obtain ⟨hsize, hcrc⟩ := hcount hfine
    simp only [countData, List.length_append, crc32Update_append, hcrc]
    exact ⟨by omega, trivial⟩
  · refine ⟨fun hdup hoff => ?_, hr.shut, hr.repeats⟩
    obtain ⟨hopen, b, hb, -⟩ := hr.writes hdup hoff
    obtain ⟨b', hb'⟩ := hl.write_failed hwrite hb
    exact ⟨hopen, b', (hl.look (.err d)).1.trans hb', fun hfine => by cases hfine⟩

theorem markData_receiving {s : Session φ} (hr : s.Receiving k) : s.markData.Receiving k := by
  unfold markData
  dsimp only
  split
  · exact ⟨hr.writes, hr.shut, hr.repeats⟩
  · exact hr

-- ---------------------------------------------------------------------------
-- What is told
-- ---------------------------------------------------------------------------

def okEvent (f : Name) (name : Bytes) : Event :=
  { kind := .done, id := some f.1, path := some name, size := f.2.1, bytes := f.2.1 }

/-- The answer OK under `name` to the file received: its line is queued and the
front end is told. -/
structure Answers (s s' : Session φ) (name : Bytes) : Prop where
  oks : s'.oks = s.oks ++ [okEvent s'.announced name]
  line : ∃ t : Session φ, t.announced = s'.announced ∧ s'.out = (t.replyOk name).out
  inData : s'.inData = false

/-- What a step tells of the files saved. -/
inductive Told (k : Shelf φ π) (s s' : Session φ) : Prop
  | nothing (hoks : s'.oks = s.oks) (hdone : s'.doneOf = s.doneOf)
  | saved (name : Bytes) (hanswer : Answers s s' name)
      (hdone : s'.doneOf = s.doneOf.map fun _ => ⟨s'.cur.id, s'.cur.size, s'.cur.crcWant, name⟩)
      (hheld : HeldAt k s'.disk name s'.cur.size s'.cur.crcWant)
  | again (D : Done) (hanswer : Answers s s' D.saved) (hrepeats : s'.Repeats D)
      (hdone : s'.doneOf = s.doneOf)

theorem GaveUp.told {s s' : Session φ} (h : GaveUp s s') : Told k s s' := .nothing h.oks h.done

theorem emit_ok (s : Session φ) (e : Event) (h : e.kind = .done) : (s.emit e).oks = s.oks ++ [e] := by
  simp [oks, emit, h]

theorem puts_inData (s : Session φ) (ps : List Bytes) : (s.puts ps).inData = s.inData := by
  induction ps generalizing s with
  | nil => rfl
  | cons p ps ih => exact ih (s.put p)

theorem replyOk_same (s : Session φ) (name : Bytes) : (s.replyOk name).doneOf = s.doneOf ∧
    (s.replyOk name).oks = s.oks ∧ (s.replyOk name).cur = s.cur := puts_same ..

/-- The file has its name: its answer, and the record of the file saved last. -/
theorem saved_answers (hl : fs.Lawful k) (s : Session φ) (name : Bytes)
    (hheld : HeldAt k s.disk name s.cur.size s.cur.crcWant) :
    Answers s (s.saved fs name) name ∧ HeldAt k (s.saved fs name).disk name s.cur.size s.cur.crcWant ∧
      (s.saved fs name).doneOf = s.doneOf.map (fun _ => ⟨s.cur.id, s.cur.size, s.cur.crcWant, name⟩) ∧
      (s.saved fs name).cur = s.cur := by
  let d := (fs.setMeta name s.cur.prot s.cur.comment s.disk).2
  have hmeta : k.node d = k.node s.disk := hl.setMeta rfl
  obtain ⟨hdone, hoks, hcur⟩ := replyOk_same (s.onDisk d) name
  have hdisk : ((s.onDisk d).replyOk name).disk = d := puts_disk ..
  have hsaved : s.saved fs name = { ((s.onDisk d).replyOk name).doneKeep name with inData := false }.emit
      { kind := .done, id := some s.cur.id, path := some name, size := s.cur.size, bytes := s.cur.size } := by
    unfold Session.saved
    dsimp only
    rw [show (((s.onDisk d).replyOk name).doneKeep name).cur = s.cur from hcur]
    rfl
  have hout : (s.saved fs name).out = ((s.onDisk d).replyOk name).out := by
    rw [hsaved]
    rfl
  have hcur' : (s.saved fs name).cur = s.cur := by
    rw [hsaved]
    exact hcur
  have hann : (s.saved fs name).announced = s.announced := by
    unfold announced
    rw [hcur']
  refine ⟨⟨?_, ⟨s.onDisk d, hann.symm, hout⟩, ?_⟩, ?_, ?_, hcur'⟩
  · rw [hann, hsaved, emit_ok _ _ rfl]
    exact congrArg (· ++ [_]) hoks
  · rw [hsaved]
    rfl
  rotate_left
  · rw [hsaved]
    show (((s.onDisk d).replyOk name).upq.map _).map _ = _
    rw [hcur, show s.doneOf = ((s.onDisk d).replyOk name).doneOf from hdone.symm, doneOf, Option.map_map,
      Option.map_map]
    rfl
  · rw [hsaved]
    show HeldAt k ((s.onDisk d).replyOk name).disk name _ _
    rw [hdisk]
    unfold HeldAt
    rw [hmeta]
    exact hheld

theorem repeated_disk (s : Session φ) : s.repeated.disk = s.disk := by
  unfold repeated
  exact puts_disk ..

theorem repeated_inData (s : Session φ) : s.repeated.inData = false := by
  unfold repeated
  dsimp only
  generalize s.upq.elim [] _ = name
  have hput := puts_inData { s with cur := { s.cur with dup := false }, inData := false }
    ([ascii "OK ", s.cur.id, ascii " "] ++ lenPieces name ++ [ascii "\n"])
  exact hput

/-- A repeat's end: the answer once more. -/
theorem repeated_answers (s : Session φ) {D : Done} (h : s.Repeats D) :
    Answers s s.repeated D.saved ∧ s.repeated.Repeats D ∧ s.repeated.doneOf = s.doneOf ∧
      s.repeated.announced = s.announced := by
  obtain ⟨hD, hid, hname⟩ := h
  let t : Session φ := { s with cur := { s.cur with dup := false }, inData := false }
  obtain ⟨hdone, hoks, hcur⟩ := replyOk_same t D.saved
  have hsaved : s.upq.elim [] (·.done.saved) = D.saved := by
    cases hq : s.upq with
    | none => simp [doneOf, hq] at hD
    | some q =>
      simp only [doneOf, hq, Option.map_some, Option.some.injEq] at hD
      simp [hD]
  have hrep : s.repeated = (t.replyOk D.saved).emit
      { kind := .done, id := some s.cur.id, path := some D.saved, size := s.cur.size,
        bytes := s.cur.size } := by
    unfold Session.repeated
    dsimp only
    rw [hsaved]
    show (t.replyOk D.saved).emit { kind := .done, id := some (t.replyOk D.saved).cur.id, path := some D.saved, size := (t.replyOk D.saved).cur.size, bytes := (t.replyOk D.saved).cur.size } = _
    rw [hcur]
  have hann : s.repeated.announced = s.announced := by
    rw [hrep]
    show ((t.replyOk D.saved).cur.id, (t.replyOk D.saved).cur.size, (t.replyOk D.saved).cur.crcWant) = _
    rw [hcur]
    rfl
  have hdone' : s.repeated.doneOf = s.doneOf := by
    rw [hrep]
    exact hdone
  refine ⟨⟨?_, ⟨t, hann.symm, ?_⟩, ?_⟩, ⟨?_, hid, hname.trans hann.symm⟩, hdone', hann⟩
  · rw [hann, hrep, emit_ok _ _ rfl]
    exact congrArg (· ++ [_]) hoks
  · rw [hrep]
    rfl
  · rw [hrep]
    exact puts_inData ..
  · rw [hdone', hD]

theorem stopped_gaveUp (s : Session φ) : GaveUp s s.stopped := by
  let t : Session φ := { s with cur := { s.cur with off := false }, inData := false }
  have hdone : (t.replyErr t.cur.id "readonly" (ascii "writing is off in Transfer")).doneOf = t.doneOf :=
    (puts_same ..).1
  have hoks : (t.replyErr t.cur.id "readonly" (ascii "writing is off in Transfer")).oks = t.oks :=
    (puts_same ..).2.1
  have hdata : (t.replyErr t.cur.id "readonly" (ascii "writing is off in Transfer")).inData = false :=
    puts_inData ..
  unfold stopped
  dsimp only
  rw [show { s with cur := { s.cur with off := false }, inData := false } = t from rfl]
  generalize t.replyErr t.cur.id "readonly" (ascii "writing is off in Transfer") = u at hdone hoks hdata ⊢
  exact ⟨hdata, hdone, (emit_oks _ _ (by simp)).trans hoks⟩

/-- The last byte. -/
theorem finish_told (hl : fs.Lawful k) (s : Session φ) (hr : s.Receiving k) (hleft : s.cur.left = 0) :
    Told k s (s.finishFile fs) ∧
      ((s.finishFile fs).oks = s.oks ∨ (s.finishFile fs).announced = s.announced) := by
  have hfin := @finishFile_finished φ fs s
  generalize s.finishFile fs = t at hfin
  cases hfin with
  | repeated hdup =>
    obtain ⟨D, hD⟩ := hr.repeats hdup
    obtain ⟨hanswer, hrepeats, hdone, hann⟩ := repeated_answers s hD
    exact ⟨.again D hanswer hrepeats hdone, .inr hann⟩
  | stopped hdup hoff =>
    exact ⟨(stopped_gaveUp s).told, .inl (stopped_gaveUp s).oks⟩
  | failed hdup hoff hclose hprep hend hup => exact ⟨hup.told, .inl hup.oks⟩
  | saved hdup hoff hwrite hcrc hclose hprep hrename =>
    obtain ⟨hopen, b, hb, hcount⟩ := hr.writes hdup hoff
    obtain ⟨hsize, hcrc'⟩ := hcount hwrite
    rename_i name d d' d''
    have hfile := rename_held hl (hl.closeW hclose hb) hprep hrename
    have hheld : HeldAt k d'' name s.cur.size s.cur.crcWant := by
      refine ⟨b, hfile, by omega, ?_⟩
      rw [← hcrc']
      exact hcrc
    obtain ⟨hanswer, hheld', hdone, hcur⟩ := saved_answers hl (s.closed d'') name hheld
    have hanswer' : Answers s ((s.closed d'').saved fs name) name :=
      ⟨hanswer.oks, hanswer.line, hanswer.inData⟩
    refine ⟨.saved name hanswer' ?_ ?_, .inr ?_⟩
    · rw [hcur]
      exact hdone
    · rw [hcur]
      exact hheld'
    · unfold announced
      rw [hcur]
      rfl

-- ---------------------------------------------------------------------------
-- Steps
-- ---------------------------------------------------------------------------

/-- Nothing was told, and the file is the same. -/
structure Quiet (s s' : Session φ) : Prop where
  oks : s'.oks = s.oks
  done : s'.doneOf = s.doneOf
  announced : s'.announced = s.announced

theorem Quiet.trans {s s' s'' : Session φ} (h : Quiet s s') (h' : Quiet s' s'') : Quiet s s'' :=
  ⟨h'.oks.trans h.oks, h'.done.trans h.done, h'.announced.trans h.announced⟩

theorem Told.after {s s' s'' : Session φ} (h' : Told k s' s'') (hoks : s'.oks = s.oks)
    (hdone : s'.doneOf = s.doneOf) : Told k s s'' := by
  cases h' with
  | nothing hoks' hdone' => exact .nothing (hoks'.trans hoks) (hdone'.trans hdone)
  | saved name ha hd hh =>
    exact .saved name ⟨by rw [← hoks]; exact ha.oks, ha.line, ha.inData⟩ (by rw [← hdone]; exact hd) hh
  | again D ha hr hd => exact .again D ⟨by rw [← hoks]; exact ha.oks, ha.line, ha.inData⟩ hr (hd.trans hdone)

theorem switchChanged_quiet (s : Session φ) : Quiet s (s.switchChanged fs) := by
  unfold Session.switchChanged dropTmp
  dsimp only
  split
  · exact ⟨rfl, rfl, rfl⟩
  · split <;> exact ⟨rfl, rfl, rfl⟩

theorem writeData_quiet (s : Session φ) (data : Bytes) : Quiet s (s.writeData fs data) := by
  rcases @writeData_cases φ fs s data with ⟨heq, -⟩ | ⟨-, ⟨d, -, heq⟩ | ⟨d, -, heq⟩⟩ <;> rw [heq] <;>
    exact ⟨rfl, rfl, rfl⟩

theorem countData_quiet (s : Session φ) (data : Bytes) : Quiet s (s.countData data) := ⟨rfl, rfl, rfl⟩

theorem markData_quiet (s : Session φ) : Quiet s s.markData := by
  unfold markData
  dsimp only
  split
  · exact ⟨emit_oks _ _ (by simp), rfl, rfl⟩
  · exact ⟨rfl, rfl, rfl⟩

theorem eat_told (hl : fs.Lawful k) {s : Session φ} (hr : s.Receiving k) {data : Bytes}
    (hlen : data.length ≤ s.cur.left) :
    Writing k (s.eat fs data) ∧ Told k s (s.eat fs data) ∧
      ((s.eat fs data).inData = true ∨ (s.eat fs data).oks ≠ s.oks →
        (s.eat fs data).announced = s.announced) := by
  have hpass : (s.switchChanged fs).Receiving k := hr.switchChanged
  have hcount : (((s.switchChanged fs).writeData fs data).countData data).Receiving k :=
    hpass.eaten hl (by rw [switchChanged_left]; exact hlen)
  have hmark := markData_receiving hcount
  have hquiet : Quiet s (((s.switchChanged fs).writeData fs data).countData data).markData :=
    ((switchChanged_quiet s).trans (writeData_quiet _ data)).trans
      ((countData_quiet _ data).trans (markData_quiet _))
  unfold eat
  dsimp only
  generalize (((s.switchChanged fs).writeData fs data).countData data).markData = t at hmark hquiet
  split
  · rename_i hleft
    obtain ⟨htold, hann⟩ := finish_told hl t hmark hleft
    have hdata : (t.finishFile fs).inData = false := finishFile_inData ..
    refine ⟨fun hd => absurd (hd.symm.trans hdata) (by simp), htold.after hquiet.oks hquiet.done, ?_⟩
    rintro (hd | hne)
    · exact absurd (hd.symm.trans hdata) (by simp)
    · rcases hann with hsame | hann
      · exact absurd (hsame.trans hquiet.oks) hne
      · exact hann.trans hquiet.announced
  · exact ⟨fun _ => hmark, .nothing hquiet.oks hquiet.done, fun _ => hquiet.announced⟩

/-- A file the board sends after GO. -/
def lineName (f : FileLine) : Name := (f.id, f.size, f.crc)

/-- A session ready for a file's bytes. -/
def fileReady (s : Session φ) (f : FileLine) (dup : Bool) : Session φ :=
  { s with
    inData := true
    cur := { s.cur with
      id := f.id, size := f.size, left := f.size, crcWant := f.crc, crc := 0, prot := f.prot
      mark := 0, isOpen := !dup, writeFailed := false, off := false, dup := dup } }

/-- GO is queued and told. -/
def goState (s : Session φ) (f : FileLine) (dup : Bool) : Session φ :=
  ((s.fileReady f dup).puts [ascii "GO ", f.id, ascii "\n"]).emitFile .began 0 none

theorem go_goState (s : Session φ) (f : FileLine) (dup : Bool) : s.go fs f dup =
    if f.size = 0 then (s.goState f dup).finishFile fs else s.goState f dup := rfl

theorem goState_aside {w : Bool} (s : Session φ) (f : FileLine) (dup : Bool) :
    Aside fs w (s.fileReady f dup) (s.goState f dup) := (puts_aside ..).trans (emit_aside _ _ (by simp))

theorem goState_disk (s : Session φ) (f : FileLine) (dup : Bool) : (s.goState f dup).disk = s.disk :=
  puts_disk ..

theorem goState_receiving (hl : fs.Lawful k) (s : Session φ) (f : FileLine) (dup : Bool)
    (hopened : dup = false → k.opened s.disk = some (k.place s.cur.tmp, []))
    (hrepeat : dup = true → ∃ D, s.doneOf = some D ∧ D.id ≠ [] ∧ (D.id, D.size, D.crc) = lineName f) :
    (s.goState f dup).Receiving k := by
  refine Receiving.aside hl ?_ (goState_aside s f dup)
  refine ⟨fun hdup _ => ?_, ?_, fun hdup => hrepeat hdup⟩
  · have hdup' : dup = false := hdup
    refine ⟨by simp [fileReady, hdup'], [], hopened hdup', fun _ => ⟨by simp [fileReady], ?_⟩⟩
    exact (crc32Update_nil 0).symm
  · rintro (hdup | hoff)
    · have hdup' : dup = true := hdup
      simp [fileReady, hdup']
    · simp [fileReady] at hoff

/-- GO from a state that is ready for the file. -/
theorem go_told (hl : fs.Lawful k) (s : Session φ) (f : FileLine) (dup : Bool)
    (hopened : dup = false → k.opened s.disk = some (k.place s.cur.tmp, []))
    (hrepeat : dup = true → ∃ D, s.doneOf = some D ∧ D.id ≠ [] ∧ (D.id, D.size, D.crc) = lineName f) :
    Writing k (s.go fs f dup) ∧ Told k s (s.go fs f dup) ∧
      ((s.go fs f dup).inData = true ∨ (s.go fs f dup).oks ≠ s.oks →
        (s.go fs f dup).announced = lineName f) := by
  have hr := goState_receiving hl s f dup hopened hrepeat
  have hgo := @goState_aside φ fs true s f dup
  have hoks : (s.goState f dup).oks = s.oks := hgo.oks
  have hdone : (s.goState f dup).doneOf = s.doneOf := hgo.done
  have hann : (s.goState f dup).announced = lineName f := by
    unfold announced
    rw [hgo.cur]
    rfl
  have hleft : (s.goState f dup).cur.left = f.size := by
    rw [hgo.cur]
    rfl
  rw [go_goState]
  generalize s.goState f dup = u at hr hoks hdone hann hleft ⊢
  split
  · rename_i hsize
    obtain ⟨htold, hsame⟩ := finish_told hl u hr (hleft.trans hsize)
    have hdata : (u.finishFile fs).inData = false := finishFile_inData ..
    refine ⟨fun hd => absurd (hd.symm.trans hdata) (by simp), htold.after hoks hdone, ?_⟩
    rintro (hd | hne)
    · exact absurd (hd.symm.trans hdata) (by simp)
    · rcases hsame with hsame | hsame
      · exact absurd (hsame.trans hoks) hne
      · exact hsame.trans hann
  · exact ⟨fun _ => hr, .nothing hoks hdone, fun _ => hann⟩

theorem Checked.quiet {s : Session φ} {r : Bool × Session φ} (h : Checked fs s r) :
    r.2.oks = s.oks ∧ r.2.doneOf = s.doneOf := by
  cases h with
  | refused hl => exact ⟨hl.oks, hl.done⟩
  | unopened hl hopen hend => exact ⟨hend.oks.trans hl.oks, hend.done.trans hl.done⟩
  | opened hl hopen => exact ⟨hl.oks, hl.done⟩

theorem Checked.opens {s s' : Session φ} (hl : fs.Lawful k) (h : Checked fs s (true, s')) :
    k.opened s'.disk = some (k.place s'.cur.tmp, []) := by
  cases h with
  | opened hlook hopen => exact hl.openW hopen

/-- A FILE that is the file saved last, and its copy there. -/
theorem doneRepeat_true {s s' : Session φ} {f : FileLine} (h : s.doneRepeat fs f = (true, s')) :
    ∃ D d, s.doneOf = some D ∧ D.id ≠ [] ∧ (D.id, D.size, D.crc) = lineName f ∧
      fs.existsRel D.saved s.disk = (true, d) ∧ s' = s.onDisk d := by
  unfold doneRepeat at h
  split at h
  · simp at h
  · rename_i q hq
    split at h
    · rename_i hsame
      obtain ⟨hid, hid', hsize, hcrc⟩ := hsame
      rcases hex : fs.existsRel q.done.saved s.disk with ⟨ok, d⟩
      rw [hook_eq hex] at h
      cases h
      exact ⟨q.done, d, by rw [doneOf, hq]; rfl, hid, by rw [hid', hsize, hcrc]; rfl, hex, rfl⟩
    · simp at h

theorem startFile_told (hl : fs.Lawful k) {s : Session φ} (hd : s.inData = false) (f : FileLine) :
    Writing k (s.startFile fs f) ∧ Told k s (s.startFile fs f) ∧
      ((s.startFile fs f).inData = true ∨ (s.startFile fs f).oks ≠ s.oks →
        (s.startFile fs f).announced = lineName f) := by
  have hstart := @startFile_started φ fs s f
  generalize s.startFile fs f = t at hstart
  cases hstart with
  | repeated h =>
    obtain ⟨D, d, hD, hid, hname, -, rfl⟩ := doneRepeat_true h
    obtain ⟨hw, htold, hann⟩ := go_told hl ((s.withLine f).onDisk d) f true nofun fun _ => ⟨D, hD, hid, hname⟩
    exact ⟨hw, htold.after rfl rfl, hann⟩
  | refused h =>
    have hdata : t.inData = false := h.inData.trans hd
    refine ⟨fun hd' => absurd (hd'.symm.trans hdata) (by simp), .nothing h.quiet.1 h.quiet.2, ?_⟩
    rintro (hd' | hne)
    · exact absurd (hd'.symm.trans hdata) (by simp)
    · exact absurd h.quiet.1 hne
  | began h =>
    rename_i s'
    obtain ⟨hw, htold, hann⟩ := go_told hl s' f false (fun _ => h.opens hl) nofun
    refine ⟨hw, htold.after h.quiet.1 h.quiet.2, fun hor => hann (hor.imp_right fun hne => ?_)⟩
    rw [show s'.oks = s.oks from h.quiet.1]
    exact hne

/-- A step that reads a FILE line, and its file. -/
def Reads (fs : Fs φ) (s s' : Session φ) (f : FileLine) : Prop :=
  s.inData = false ∧ s' = s.endLine fs ∧ s.listExpect = 0 ∧
    ∃ c, tok (chomp s.line) = (some (ascii "FILE"), c) ∧ parseFile c = .ok f

/-- The file a step speaks of is the one being received, or its line's. -/
def Speaks (fs : Fs φ) (s s' : Session φ) : Prop :=
  s.inData = true ∧ s'.announced = s.announced ∨ ∃ f, Reads fs s s' f ∧ s'.announced = lineName f

/-- What one step does to the files saved. -/
structure Tells (fs : Fs φ) (k : Shelf φ π) (s s' : Session φ) : Prop where
  writing : Writing k s'
  told : Told k s s'
  speaks : s'.inData = true ∨ s'.oks ≠ s.oks → Speaks fs s s'

theorem Aside.tells (hl : fs.Lawful k) {s s' : Session φ} (hw : Writing k s) (h : Aside fs true s s') :
    Tells fs k s s' := by
  refine ⟨fun hd => (hw (h.inData.symm.trans hd)).aside hl h, .nothing h.oks h.done, ?_⟩
  rintro (hd | hne)
  · refine .inl ⟨h.inData.symm.trans hd, ?_⟩
    unfold announced
    rw [h.cur]
  · exact absurd h.oks hne

theorem endLine_tells (hl : fs.Lawful k) {s : Session φ} (hd : s.inData = false) :
    Tells fs k s (s.endLine fs) := by
  rcases @endLine_cases φ fs true s with haside | ⟨f, c, hlist, hword, hparse, heq⟩
  · have hnone : (s.endLine fs).inData = false := haside.inData.trans hd
    refine ⟨fun hd' => absurd (hd'.symm.trans hnone) (by simp), .nothing haside.oks haside.done, ?_⟩
    rintro (hd' | hne)
    · exact absurd (hd'.symm.trans hnone) (by simp)
    · exact absurd haside.oks hne
  · obtain ⟨hw, htold, hann⟩ := startFile_told hl (s := { s with line := [] }) hd f
    rw [← heq] at hw htold hann
    exact ⟨hw, htold.after rfl rfl,
      fun hor => .inr ⟨f, ⟨hd, rfl, hlist, c, hword, hparse⟩, hann hor⟩⟩

theorem live_tells (hl : fs.Lawful k) {s s' : Session φ} (hw : Writing k s) (h : Live fs s s') :
    Tells fs k s s' := by
  cases h with
  | char c hd =>
    exact ⟨fun hd' => absurd (hd'.symm.trans hd) (by simp), .nothing rfl rfl,
      fun hor => .inl ⟨hor.resolve_right fun hne => hne rfl, rfl⟩⟩
  | line hd => exact endLine_tells hl hd
  | bytes data hd hlen =>
    have hle : data.length ≤ s.cur.left := by
      unfold passLen at hlen
      omega
    obtain ⟨hwrite, htold, hann⟩ := eat_told hl (hw hd) hle
    exact ⟨hwrite, htold, fun hor => .inl ⟨hd, hann hor⟩⟩
  | takeOutput cap => exact Aside.tells hl hw (takeOutput_aside s cap nofun)
  | upCancel tag => exact Aside.tells hl hw (upCancel_aside s tag)
  | trustNow => exact Aside.tells hl hw (trustNow_aside s)
  | switchChanged =>
    have hq := @switchChanged_quiet φ fs s
    have hd : (s.switchChanged fs).inData = s.inData := (switchChanged_passed s).inData
    exact ⟨fun hd' => (hw (hd.symm.trans hd')).switchChanged, .nothing hq.oks hq.done,
      fun hor => .inl ⟨hd.symm.trans (hor.resolve_right fun hne => hne hq.oks), hq.announced⟩⟩
  | front q q' hq hdone =>
    have hsame : ({ s with upq := some q' } : Session φ).doneOf = s.doneOf := by
      simp [doneOf, hq, hdone]
    refine ⟨fun hd => ⟨(hw hd).writes, (hw hd).shut, ?_⟩, .nothing rfl hsame,
      fun hor => .inl ⟨hor.resolve_right fun hne => hne rfl, rfl⟩⟩
    intro hdup
    obtain ⟨D, hD, hrest⟩ := (hw hd).repeats hdup
    exact ⟨D, hsame.trans hD, hrest⟩

theorem lostFile_quiet (s : Session φ) : (s.lostFile fs).oks = s.oks ∧ (s.lostFile fs).doneOf = s.doneOf := by
  unfold lostFile
  dsimp only
  split
  · exact ⟨rfl, rfl⟩
  · split <;> split <;> exact ⟨emit_oks _ _ (by simp), rfl⟩

theorem step_tells (hl : fs.Lawful k) {s s' : Session φ} (hw : Writing k s) (h : Step fs s s') :
    Tells fs k s s' := by
  have hidle : ∀ {s' : Session φ}, s'.inData = false → s'.oks = s.oks → s'.doneOf = s.doneOf →
      Tells fs k s s' := fun hd hoks hdone =>
    ⟨fun hd' => absurd (hd'.symm.trans hd) (by simp), .nothing hoks hdone, fun hor =>
      absurd hoks (hor.resolve_left fun hd' => absurd (hd'.symm.trans hd) (by simp))⟩
  cases h with
  | live h => exact live_tells hl hw h
  | disconnected =>
    have haside := @disconnected_aside φ fs true s nofun
    exact hidle (disconnected_inData s) (haside.oks.trans (lostFile_quiet s).1)
      (haside.done.trans (lostFile_quiet s).2)
  | connect hd => exact hidle rfl rfl rfl

theorem Reached.writing (hl : fs.Lawful k) {s : Session φ} (h : Reached fs s) : Writing k s :=
  h.keeps (fun _ _ => nofun) fun _ _ hw hstep => (step_tells hl hw hstep).writing

-- ---------------------------------------------------------------------------
-- Runs
-- ---------------------------------------------------------------------------

/-- A FILE line was read in this run. -/
def Announced (fs : Fs φ) (s₀ s : Session φ) (n : Name) : Prop :=
  ∃ t t' f, Run fs s₀ t ∧ Reads fs t t' f ∧ n = lineName f ∧ Run fs t' s

/-- In this run the file had this name. -/
def WasHeld (fs : Fs φ) (k : Shelf φ π) (s₀ s : Session φ) (n : Name) (name : Bytes) : Prop :=
  ∃ t, Run fs s₀ t ∧ Run fs t s ∧ HeldAt k t.disk name n.2.1 n.2.2

/-- What a run remembers. -/
structure Past (fs : Fs φ) (k : Shelf φ π) (s₀ s : Session φ) : Prop where
  queue : s.doneOf.isSome
  announced : s.inData = true → Announced fs s₀ s s.announced
  held : ∀ D, s.doneOf = some D → D.id ≠ [] → WasHeld fs k s₀ s (D.id, D.size, D.crc) D.saved

theorem Past.speaks {s₀ s s' : Session φ} (hp : Past fs k s₀ s) (hrun : Run fs s₀ s) (hstep : Step fs s s')
    (h : Speaks fs s s') : Announced fs s₀ s' s'.announced := by
  rcases h with ⟨hd, hann⟩ | ⟨f, hreads, hann⟩
  · obtain ⟨t, t', f, ht, hreads, hname, ht'⟩ := hp.announced hd
    exact ⟨t, t', f, ht, hreads, hann.trans hname, ht'.tail hstep⟩
  · exact ⟨s, s', f, hrun, hreads, hann, .refl⟩

theorem WasHeld.tail {s₀ s s' : Session φ} {n : Name} {name : Bytes} (h : WasHeld fs k s₀ s n name)
    (hstep : Step fs s s') : WasHeld fs k s₀ s' n name := by
  obtain ⟨t, ht, ht', hheld⟩ := h
  exact ⟨t, ht, ht'.tail hstep, hheld⟩

/-- The record of a file saved. -/
def record (n : Name) (name : Bytes) : Done := ⟨n.1, n.2.1, n.2.2, name⟩

/-- A step answers OK to nothing, or to one file that was announced and that was
saved under the name it answers; that file is then the one saved last. -/
def Confirms (fs : Fs φ) (k : Shelf φ π) (s₀ s s' : Session φ) : Prop :=
  s'.oks = s.oks ∧ s'.doneOf = s.doneOf ∨
    ∃ name, Answers s s' name ∧ Announced fs s₀ s' s'.announced ∧
      WasHeld fs k s₀ s' s'.announced name ∧ s'.doneOf = some (record s'.announced name)

theorem step_past (hl : fs.Lawful k) {s₀ s s' : Session φ} (hp : Past fs k s₀ s) (hw : Writing k s)
    (hrun : Run fs s₀ s) (hstep : Step fs s s') : Past fs k s₀ s' ∧ Confirms fs k s₀ s s' := by
  obtain ⟨hwrite, htold, hspeaks⟩ := step_tells hl hw hstep
  have hann : s'.inData = true → Announced fs s₀ s' s'.announced :=
    fun hd => hp.speaks hrun hstep (hspeaks (.inl hd))
  have hmore : ∀ {name}, Answers s s' name → Announced fs s₀ s' s'.announced := by
    intro name ha
    refine hp.speaks hrun hstep (hspeaks (.inr fun hsame => ?_))
    rw [ha.oks] at hsame
    simp at hsame
  cases htold with
  | nothing hoks hdone =>
    refine ⟨⟨by rw [hdone]; exact hp.queue, hann, fun D hD hid => (hp.held D ?_ hid).tail hstep⟩,
      .inl ⟨hoks, hdone⟩⟩
    rw [← hdone, hD]
  | saved name ha hdone hheld =>
    have hnow : WasHeld fs k s₀ s' s'.announced name := ⟨s', hrun.tail hstep, .refl, hheld⟩
    have hrecord : s'.doneOf = some (record s'.announced name) := by
      obtain ⟨D, hD⟩ := Option.isSome_iff_exists.mp hp.queue
      rw [hdone, hD]
      rfl
    refine ⟨⟨by rw [hrecord]; rfl, hann, fun D hD hid => ?_⟩, .inr ⟨name, ha, hmore ha, hnow, hrecord⟩⟩
    obtain rfl := Option.some.inj (hrecord.symm.trans hD)
    exact hnow
  | again D ha hrepeats hdone =>
    obtain ⟨hD, hid, hname⟩ := hrepeats
    have hbefore : WasHeld fs k s₀ s' s'.announced D.saved := by
      rw [← hname]
      exact (hp.held D (hdone.symm.trans hD) hid).tail hstep
    have hrecord : s'.doneOf = some (record s'.announced D.saved) := by
      rw [hD, ← hname]
      rfl
    refine ⟨⟨by rw [hD]; rfl, hann, fun D' hD' hid' => (hp.held D' ?_ hid').tail hstep⟩,
      .inr ⟨D.saved, ha, hmore ha, hbefore, hrecord⟩⟩
    rw [← hdone, hD']

theorem run_past (hl : fs.Lawful k) {d : φ} {q : Upq} {s : Session φ} (hrun : Run fs (start d q) s) :
    Past fs k (start d q) s := by
  induction hrun with
  | refl =>
    refine ⟨rfl, nofun, fun D hD hid => absurd ?_ hid⟩
    obtain rfl : ({} : Done) = D := Option.some.inj hD
    rfl
  | tail hrun hstep ih =>
    exact (step_past hl ih (Reached.writing hl ⟨d, q, hrun⟩) hrun hstep).1

end Session

end WebAdf.Receive
