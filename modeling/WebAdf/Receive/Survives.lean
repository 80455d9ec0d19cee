import WebAdf.Receive.Saved

/-!
# Replacing a file

The old file is removed only when the new one is complete, and the new one is
kept when it cannot take the name. It may then stand in the temporary file's
place, where the next file of its drawer is written: what a replacement leaves
survives every FILE that spares that place.
-/

namespace WebAdf.Receive

open Lib
open Relation (ReflTransGen)

variable {φ π : Type} {fs : Fs φ} {k : Shelf φ π}

-- ---------------------------------------------------------------------------
-- What a file's hooks leave alone
-- ---------------------------------------------------------------------------

theorem stays_of_node {d d' : φ} {l : π} (h : k.node d' l = k.node d l) : k.Stays d d' l :=
  fun _ hb => h.trans hb

theorem look_stays {d d' : φ} (hl : fs.Lawful k) (h : ReflTransGen fs.Look d d') (l : π) :
    k.Stays d d' l := by
  induction h with
  | refl => exact fun _ => id
  | tail _ hlast ih => exact ih.trans ((hl.look hlast).2 l)

theorem call_stays {d d' : φ} (hl : fs.Lawful k) (h : ReflTransGen (fs.Call false) d d') (l : π) :
    k.Stays d d' l := look_stays hl (h.lift id fun _ _ => .call) l

theorem ask_node {d d' : φ} (hl : fs.Lawful k) (h : ReflTransGen fs.Ask d d') : k.node d' = k.node d := by
  induction h with
  | refl => rfl
  | tail _ hlast ih => exact (hl.ask hlast).trans ih

theorem try_node {c : Cur} {d d' : φ} (hl : fs.Lawful k) (h : ReflTransGen (fs.Try c) d d') :
    k.node d' = k.node d := by
  induction h with
  | refl => rfl
  | tail _ hlast ih =>
    cases hlast with
    | ask hask => exact (hl.ask hask).trans ih
    | noRename hno => exact (hl.rename_failed hno).trans ih

/-- A place that the file received has no business with. -/
structure Apart (k : Shelf φ π) (c : Cur) (l : π) : Prop where
  tmp : l ≠ k.place c.tmp
  path : c.mode = .replace → l ≠ k.place c.path

theorem prep_stays {c : Cur} {d d' : φ} {l : π} (hl : fs.Lawful k) (ha : Apart k c l)
    (h : ReflTransGen (fs.Prep c) d d') : k.Stays d d' l := by
  induction h with
  | refl => exact fun _ => id
  | tail _ hlast ih =>
    refine ih.trans ?_
    cases hlast with
    | ask hask => exact stays_of_node (congrFun (hl.ask hask) l)
    | removeOld hmode => exact stays_of_node (hl.remove_stays rfl (.inr (ha.path hmode)))
    | noRename hno => exact stays_of_node (congrFun (hl.rename_failed hno) l)

namespace Session

/-- The bytes received are written. -/
def Busy (s : Session φ) : Prop := s.inData = true ∧ s.cur.dup = false ∧ s.cur.off = false

theorem saved_node (hl : fs.Lawful k) (s : Session φ) (name : Bytes) :
    k.node (s.saved fs name).disk = k.node s.disk := by
  have hdisk : (s.saved fs name).disk = (fs.setMeta name s.cur.prot s.cur.comment s.disk).2 := puts_disk ..
  rw [hdisk]
  exact hl.setMeta rfl

theorem stopped_disk (s : Session φ) : s.stopped.disk = s.disk := puts_disk ..

/-- The end of a file leaves alone what stands apart. -/
theorem finish_stays (hl : fs.Lawful k) {s : Session φ} (hr : s.Receiving k) {l : π}
    (ha : s.cur.dup = false → s.cur.off = false → Apart k s.cur l) :
    k.Stays s.disk (s.finishFile fs).disk l := by
  have hfin := @finishFile_finished φ fs s
  generalize s.finishFile fs = t at hfin
  cases hfin with
  | repeated hdup =>
    rw [repeated_disk]
    exact fun _ => id
  | stopped hdup hoff =>
    rw [stopped_disk]
    exact fun _ => id
  | failed hdup hoff hclose hprep hend hup =>
    obtain ⟨-, b, hb, -⟩ := hr.writes hdup hoff
    have hapart := ha hdup hoff
    have hbefore := (hl.closeW_stays hclose hb hapart.tmp).trans (prep_stays hl hapart hprep)
    rcases hend with hend | hend <;> rw [hend]
    · exact hbefore
    · exact hbefore.trans (stays_of_node (hl.remove_stays rfl (.inr hapart.tmp)))
  | saved hdup hoff hwrite hcrc hclose hprep hrename =>
    obtain ⟨-, b, hb, -⟩ := hr.writes hdup hoff
    have hapart := ha hdup hoff
    have hbefore := (hl.closeW_stays hclose hb hapart.tmp).trans (prep_stays hl hapart hprep)
    refine (hbefore.trans ?_).trans (stays_of_node (congrFun (saved_node hl _ _) l))
    obtain ⟨n, hsource, -⟩ := hl.rename hrename
    have hfile := hl.closeW hclose hb
    rcases prep_node hl hprep (k.place s.cur.tmp) with heq | hnone
    · exact hl.rename_stays hrename (heq.trans hfile) hapart.tmp
    · simp [hsource] at hnone

theorem dropTmp_stays (hl : fs.Lawful k) {s : Session φ} (hr : s.Receiving k) (hdup : s.cur.dup = false)
    (hoff : s.cur.off = false) {l : π} (ha : l ≠ k.place s.cur.tmp) :
    k.Stays s.disk (s.dropTmp fs).disk l := by
  obtain ⟨hopen, b, hb, -⟩ := hr.writes hdup hoff
  unfold dropTmp
  dsimp only
  rw [if_pos hopen]
  exact (hl.closeW_stays rfl hb ha).trans (stays_of_node (hl.remove_stays rfl (.inr ha)))

theorem switchChanged_stays (hl : fs.Lawful k) {s : Session φ} (hw : Writing k s) {l : π}
    (ha : s.Busy → l ≠ k.place s.cur.tmp) : k.Stays s.disk (s.switchChanged fs).disk l := by
  unfold Session.switchChanged
  split
  · exact fun _ => id
  · rename_i hgo
    obtain ⟨hd, hoff, hdup⟩ : s.inData = true ∧ s.cur.off = false ∧ s.cur.dup = false := by
      simp only [Bool.or_eq_true, Bool.not_eq_true', not_or] at hgo
      simp_all
    exact dropTmp_stays hl (hw hd) hdup hoff (ha ⟨hd, hdup, hoff⟩)

theorem writeData_stays (hl : fs.Lawful k) {s : Session φ} (hr : s.Receiving k) (data : Bytes) {l : π}
    (ha : s.cur.dup = false → s.cur.off = false → l ≠ k.place s.cur.tmp) :
    k.Stays s.disk (s.writeData fs data).disk l := by
  rcases @writeData_cases φ fs s data with ⟨heq, -⟩ | ⟨hgo, ⟨d, hwrite, heq⟩ | ⟨d, hwrite, heq⟩⟩ <;>
    rw [heq]
  · exact fun _ => id
  all_goals
    obtain ⟨⟨hoff, hdup⟩, -⟩ : (s.cur.off = false ∧ s.cur.dup = false) ∧ _ := by simpa using hgo
    obtain ⟨-, b, hb, -⟩ := hr.writes hdup hoff
    have hstays := hl.write_stays hwrite hb (ha hdup hoff)
  · exact hstays
  · exact hstays.trans ((hl.look (.err d)).2 l)

/-- The same file is received; it may have been stopped. -/
structure SameFile (s s' : Session φ) : Prop where
  tmp : s'.cur.tmp = s.cur.tmp
  path : s'.cur.path = s.cur.path
  mode : s'.cur.mode = s.cur.mode
  dup : s'.cur.dup = s.cur.dup
  off : s'.cur.off = false → s.cur.off = false

theorem SameFile.trans {s s' s'' : Session φ} (h : SameFile s s') (h' : SameFile s' s'') : SameFile s s'' :=
  ⟨h'.tmp.trans h.tmp, h'.path.trans h.path, h'.mode.trans h.mode, h'.dup.trans h.dup,
    fun hoff => h.off (h'.off hoff)⟩

theorem SameFile.apart {s s' : Session φ} {l : π} (h : SameFile s s') (ha : Apart k s.cur l) :
    Apart k s'.cur l := by
  refine ⟨?_, fun hmode => ?_⟩
  · rw [h.tmp]
    exact ha.tmp
  · rw [h.path]
    exact ha.path (h.mode.symm.trans hmode)

theorem switchChanged_same (s : Session φ) : SameFile s (s.switchChanged fs) := by
  unfold Session.switchChanged dropTmp
  dsimp only
  split
  · exact ⟨rfl, rfl, rfl, rfl, id⟩
  · split <;> exact ⟨rfl, rfl, rfl, rfl, nofun⟩

theorem writeData_same (s : Session φ) (data : Bytes) : SameFile s (s.writeData fs data) := by
  rcases @writeData_cases φ fs s data with ⟨heq, -⟩ | ⟨-, ⟨d, -, heq⟩ | ⟨d, -, heq⟩⟩ <;> rw [heq] <;>
    exact ⟨rfl, rfl, rfl, rfl, id⟩

theorem markData_same (s : Session φ) (data : Bytes) : SameFile s (s.countData data).markData := by
  unfold markData
  dsimp only
  split <;> exact ⟨rfl, rfl, rfl, rfl, id⟩

theorem countMark_disk (s : Session φ) (data : Bytes) : (s.countData data).markData.disk = s.disk := by
  unfold markData
  dsimp only
  split <;> rfl

/-- A pass up to its end, and what it leaves alone. -/
theorem pass_stays (hl : fs.Lawful k) {s : Session φ} (hd : s.inData = true) (hr : s.Receiving k)
    {data : Bytes} {l : π} (ha : s.Busy → l ≠ k.place s.cur.tmp) :
    SameFile s (((s.switchChanged fs).writeData fs data).countData data).markData ∧
      k.Stays s.disk (((s.switchChanged fs).writeData fs data).countData data).markData.disk l := by
  have hswitch := @switchChanged_same φ fs s
  have hsame := hswitch.trans ((@writeData_same φ fs (s.switchChanged fs) data).trans (markData_same _ data))
  refine ⟨hsame, (switchChanged_stays hl (fun _ => hr) ha).trans ?_⟩
  rw [countMark_disk]
  refine writeData_stays hl hr.switchChanged data fun hdup hoff => ?_
  rw [hswitch.tmp]
  exact ha ⟨hd, hswitch.dup.symm.trans hdup, hswitch.off hoff⟩

theorem eat_stays (hl : fs.Lawful k) {s : Session φ} (hd : s.inData = true) (hr : s.Receiving k)
    {data : Bytes} (hlen : data.length ≤ s.cur.left) {l : π} (ha : s.Busy → Apart k s.cur l) :
    k.Stays s.disk (s.eat fs data).disk l ∧ ((s.eat fs data).Busy → Apart k (s.eat fs data).cur l) := by
  have hpass : (s.switchChanged fs).Receiving k := hr.switchChanged
  have hmark := markData_receiving (hpass.eaten hl (by rw [switchChanged_left]; exact hlen))
  obtain ⟨hsame, hstays⟩ := @pass_stays φ π fs k hl s hd hr data l fun hb => (ha hb).tmp
  unfold eat
  dsimp only
  generalize (((s.switchChanged fs).writeData fs data).countData data).markData = t at hmark hsame hstays ⊢
  have hapart : t.cur.dup = false → t.cur.off = false → Apart k t.cur l :=
    fun hdup hoff => hsame.apart (ha ⟨hd, hsame.dup.symm.trans hdup, hsame.off hoff⟩)
  split
  · refine ⟨hstays.trans (finish_stays hl hmark hapart), fun hb => absurd hb.1 ?_⟩
    rw [finishFile_inData]
    simp
  · exact ⟨hstays, fun hb => hapart hb.2.1 hb.2.2⟩

/-- GO leaves alone what stands apart. -/
theorem go_stays (hl : fs.Lawful k) (s : Session φ) (f : FileLine) (dup : Bool)
    (hopened : dup = false → k.opened s.disk = some (k.place s.cur.tmp, []))
    (hrepeat : dup = true → ∃ D, s.doneOf = some D ∧ D.id ≠ [] ∧ (D.id, D.size, D.crc) = lineName f)
    {l : π} (ha : dup = false → Apart k s.cur l) :
    k.Stays s.disk (s.go fs f dup).disk l ∧ ((s.go fs f dup).Busy → Apart k (s.go fs f dup).cur l) := by
  have hr := goState_receiving hl s f dup hopened hrepeat
  have hgo := @goState_aside φ fs true s f dup
  have hapart : (s.goState f dup).cur.dup = false → Apart k (s.goState f dup).cur l := by
    rw [hgo.cur]
    intro hdup
    exact ⟨(ha hdup).tmp, (ha hdup).path⟩
  have hdisk := goState_disk s f dup
  rw [go_goState]
  generalize s.goState f dup = u at hr hapart hdisk ⊢
  split
  · have hfin := @finish_stays _ _ fs k hl u hr l fun hdup _ => hapart hdup
    rw [hdisk] at hfin
    refine ⟨hfin, fun hb => absurd hb.1 ?_⟩
    rw [finishFile_inData]
    simp
  · rw [hdisk]
    exact ⟨fun _ => id, fun hb => hapart hb.2.1⟩

/-- The places a FILE may write: its temporary file's, and its own where it
replaces. -/
structure Spared (k : Shelf φ π) (f : FileLine) (l : π) : Prop where
  tmp : l ≠ k.place (parentOf f.path ++ tmpName)
  path : f.mode = .replace → l ≠ k.place f.path

theorem Checked.stays (hl : fs.Lawful k) {s : Session φ} {r : Bool × Session φ} {l : π}
    (h : Checked fs s r) (ha : l ≠ k.place s.tmpOf) : k.Stays s.disk r.2.disk l := by
  cases h with
  | refused hlook => exact look_stays hl hlook.disk l
  | unopened hlook hopen hend =>
    rename_i s' s'' d
    have htmp : s'.tmpOf = s.tmpOf := congrArg (fun c : Cur => parentOf c.path ++ tmpName) hlook.cur
    exact ((look_stays hl hlook.disk l).trans (hl.openW_stays hopen (htmp ▸ ha))).trans
      (look_stays hl hend.disk l)
  | opened hlook hopen =>
    rename_i s' d
    have htmp : s'.tmpOf = s.tmpOf := congrArg (fun c : Cur => parentOf c.path ++ tmpName) hlook.cur
    exact (look_stays hl hlook.disk l).trans (hl.openW_stays hopen (htmp ▸ ha))

theorem Checked.file {s s' : Session φ} (h : Checked fs s (true, s')) :
    s'.cur = { s.cur with tmp := s.tmpOf } := by
  cases h with
  | opened hlook hopen =>
    unfold withTmp tmpOf
    dsimp only
    rw [hlook.cur]

theorem startFile_stays (hl : fs.Lawful k) {s : Session φ} (hd : s.inData = false) (f : FileLine) {l : π}
    (ha : Spared k f l) :
    k.Stays s.disk (s.startFile fs f).disk l ∧ ((s.startFile fs f).Busy → Apart k (s.startFile fs f).cur l) := by
  have hstart := @startFile_started φ fs s f
  generalize s.startFile fs f = t at hstart
  cases hstart with
  | repeated h =>
    obtain ⟨D, d, hD, hid, hname, hex, rfl⟩ := doneRepeat_true h
    obtain ⟨hstays, hapart⟩ := go_stays hl ((s.withLine f).onDisk d) f true (l := l) nofun
      (fun _ => ⟨D, hD, hid, hname⟩) nofun
    refine ⟨Shelf.Stays.trans ?_ hstays, hapart⟩
    have hask := (hl.look (.existsRel D.saved s.disk)).2 l
    rwa [show (fs.existsRel D.saved s.disk).2 = d from congrArg (·.2) hex] at hask
  | refused h =>
    refine ⟨h.stays hl ha.tmp, fun hb => absurd (hb.1.symm.trans (h.inData.trans hd)) (by simp)⟩
  | began h =>
    rename_i s'
    have hfile := h.file
    have happart : Apart k s'.cur l := by
      rw [hfile]
      exact ⟨ha.tmp, ha.path⟩
    obtain ⟨hstays, hapart⟩ := go_stays hl s' f false (fun _ => h.opens hl) nofun fun _ => happart
    exact ⟨(h.stays hl ha.tmp).trans hstays, hapart⟩

-- ---------------------------------------------------------------------------
-- Steps that spare a copy
-- ---------------------------------------------------------------------------

/-- The old file or the new one is at this place. -/
def Copy (k : Shelf φ π) (old new : Bytes) (d : φ) (l : π) : Prop :=
  k.node d l = some (.file old) ∨ k.node d l = some (.file new)

theorem Copy.stays {old new : Bytes} {d d' : φ} {l : π} (h : Copy k old new d l) (hs : k.Stays d d' l) :
    Copy k old new d' l := h.imp (hs old) (hs new)

/-- A step that no request to take files away is behind; a FILE line names another
file than some copy, and its temporary file is not that copy. -/
structure Sparing (fs : Fs φ) (k : Shelf φ π) (old new : Bytes) (s s' : Session φ) : Prop where
  step : Step fs s s'
  asked : s.req.kind ≠ .delete ∧ ¬s.req.waitKind.isTaking
  file : ∀ f, Reads fs s s' f → ∃ l, Copy k old new s.disk l ∧ Spared k f l

/-- A copy is there that the file being received leaves alone. -/
def Safe (k : Shelf φ π) (old new : Bytes) (s : Session φ) : Prop :=
  ∃ l, Copy k old new s.disk l ∧ (s.Busy → Apart k s.cur l)

theorem Safe.aside {old new : Bytes} {s s' : Session φ} (hl : fs.Lawful k) (h : Safe k old new s)
    (ha : Aside fs false s s') : Safe k old new s' := by
  obtain ⟨l, hcopy, hapart⟩ := h
  refine ⟨l, hcopy.stays (call_stays hl ha.disk l), ?_⟩
  unfold Busy
  rw [ha.inData, ha.cur]
  exact hapart

theorem lostFile_stays (hl : fs.Lawful k) {s : Session φ} (hw : Writing k s) {l : π}
    (ha : s.Busy → Apart k s.cur l) : k.Stays s.disk (s.lostFile fs).disk l := by
  unfold lostFile
  dsimp only
  split
  · exact fun _ => id
  · rename_i hgo
    have hd : s.inData = true := by simpa using hgo
    have hr := hw hd
    by_cases hbusy : s.cur.dup = false ∧ s.cur.off = false
    · obtain ⟨hdup, hoff⟩ := hbusy
      have hapart := ha ⟨hd, hdup, hoff⟩
      obtain ⟨hopen, b, hb, -⟩ := hr.writes hdup hoff
      rw [if_pos hopen, if_pos (by simp [hdup, hoff])]
      exact (hl.closeW_stays rfl hb hapart.tmp).trans
        (stays_of_node (hl.remove_stays rfl (.inr hapart.tmp)))
    · have hopen : s.cur.isOpen = false := hr.shut (by
        cases hdup : s.cur.dup <;> simp_all)
      have hkeep : ¬(!s.cur.off && !s.cur.dup) = true := by
        simp only [Bool.and_eq_true, Bool.not_eq_true']
        exact fun h => hbusy ⟨h.2, h.1⟩
      have hshut : ¬s.cur.isOpen = true := by simp [hopen]
      rw [if_neg hshut, if_neg hkeep]
      exact fun _ => id

theorem Safe.line {old new : Bytes} {s : Session φ} (hl : fs.Lawful k) (h : Safe k old new s)
    (hd : s.inData = false)
    (hfile : ∀ f, Reads fs s (s.endLine fs) f → ∃ l, Copy k old new s.disk l ∧ Spared k f l) :
    Safe k old new (s.endLine fs) := by
  rcases @endLine_cases φ fs false s with haside | ⟨f, c, hlist, hword, hparse, heq⟩
  · exact Safe.aside (s := { s with line := [] }) hl h haside
  · obtain ⟨l, hcopy, hspared⟩ := hfile f ⟨hd, rfl, hlist, c, hword, hparse⟩
    obtain ⟨hstays, hapart⟩ := startFile_stays (s := { s with line := [] }) hl hd f hspared
    rw [heq]
    exact ⟨l, hcopy.stays hstays, hapart⟩

theorem Safe.live {old new : Bytes} {s s' : Session φ} (hl : fs.Lawful k) (hw : Writing k s)
    (h : Safe k old new s) (hlive : Live fs s s') (hasked : s.req.kind ≠ .delete ∧ ¬s.req.waitKind.isTaking)
    (hfile : ∀ f, Reads fs s s' f → ∃ l, Copy k old new s.disk l ∧ Spared k f l) : Safe k old new s' := by
  obtain ⟨l, hcopy, hapart⟩ := h
  cases hlive with
  | char c hd => exact ⟨l, hcopy, hapart⟩
  | line hd => exact Safe.line hl ⟨l, hcopy, hapart⟩ hd hfile
  | bytes data hd hlen =>
    have hle : data.length ≤ s.cur.left := by
      unfold passLen at hlen
      omega
    obtain ⟨hstays, hapart'⟩ := @eat_stays φ π fs k hl s hd (hw hd) data hle l hapart
    exact ⟨l, hcopy.stays hstays, hapart'⟩
  | takeOutput cap => exact Safe.aside hl ⟨l, hcopy, hapart⟩ (takeOutput_aside s cap fun _ => hasked)
  | upCancel tag => exact Safe.aside hl ⟨l, hcopy, hapart⟩ (upCancel_aside s tag)
  | trustNow => exact Safe.aside hl ⟨l, hcopy, hapart⟩ (trustNow_aside s)
  | switchChanged =>
    have hsame := @switchChanged_same φ fs s
    refine ⟨l, hcopy.stays (switchChanged_stays hl hw fun hb => (hapart hb).tmp), fun hb => hsame.apart (hapart ?_)⟩
    exact ⟨(switchChanged_passed s).inData.symm.trans hb.1, hsame.dup.symm.trans hb.2.1, hsame.off hb.2.2⟩
  | front q q' hq hdone => exact ⟨l, hcopy, hapart⟩

theorem Safe.step {old new : Bytes} {s s' : Session φ} (hl : fs.Lawful k) (hw : Writing k s)
    (h : Safe k old new s) (hstep : Sparing fs k old new s s') : Safe k old new s' := by
  obtain ⟨hstep, hasked, hfile⟩ := hstep
  cases hstep with
  | live hlive => exact Safe.live hl hw h hlive hasked hfile
  | disconnected =>
    obtain ⟨l, hcopy, hapart⟩ := h
    have haside := @disconnected_aside φ fs false s fun _ => hasked.1
    refine ⟨l, (hcopy.stays (lostFile_stays hl hw hapart)).stays (call_stays hl haside.disk l), fun hb => ?_⟩
    exact absurd (hb.1.symm.trans (disconnected_inData s)) (by simp)
  | connect hd =>
    obtain ⟨l, hcopy, hapart⟩ := h
    exact ⟨l, hcopy, fun hb => absurd hb.1 (by simp [init])⟩

-- ---------------------------------------------------------------------------
-- The replacement
-- ---------------------------------------------------------------------------

theorem saved_copy (hl : fs.Lawful k) {s : Session φ} {old new name : Bytes} {d d' : φ}
    (hnew : k.node d (k.place s.cur.tmp) = some (.file new))
    (hrename : fs.rename s.cur.tmp name d = (true, d')) :
    ∃ l, Copy k old new ((s.onDisk d').saved fs name).disk l := by
  obtain ⟨n, hsource, htarget, -⟩ := hl.rename hrename
  refine ⟨k.place name, .inr ?_⟩
  rw [saved_node hl]
  exact htarget.trans (hsource.symm.trans hnew)

/-- A file given up leaves the one it was to replace. -/
theorem failFile_copy (hl : fs.Lawful k) {s : Session φ} {old new : Bytes} (code : String) (text : Bytes)
    (hopen : s.cur.isOpen = false) (hold : k.node s.disk (k.place s.cur.path) = some (.file old))
    (hplace : k.place s.cur.path ≠ k.place s.cur.tmp) :
    ∃ l, Copy k old new (s.failFile fs code text).disk l := by
  obtain ⟨-, hdisk⟩ := @failFile_gaveUp φ fs s code text hopen
  refine ⟨k.place s.cur.path, .inl ?_⟩
  rw [hdisk, hl.remove_stays rfl (.inr hplace)]
  exact hold

theorem failFileErr_copy (hl : fs.Lawful k) {s : Session φ} {old new : Bytes} (e : Nat) (dflt : String)
    (hopen : s.cur.isOpen = false) (hold : k.node s.disk (k.place s.cur.path) = some (.file old))
    (hplace : k.place s.cur.path ≠ k.place s.cur.tmp) :
    ∃ l, Copy k old new (s.failFileErr fs e dflt).disk l := by
  obtain ⟨d, htext, hask⟩ := @faultText_ask φ fs s e dflt 80
  unfold failFileErr
  dsimp only
  rw [htext]
  refine failFile_copy (s := s.onDisk d) hl _ _ hopen ?_ hplace
  rw [← hold]
  exact congrFun (ask_node hl hask) _

/-- Complete, the new file takes the old one's name or another, or stays where it
was written. -/
theorem replaceFile_copy (hl : fs.Lawful k) {s : Session φ} {old new : Bytes}
    (hopen : s.cur.isOpen = false)
    (hold : k.node s.disk (k.place s.cur.path) = some (.file old))
    (hnew : k.node s.disk (k.place s.cur.tmp) = some (.file new))
    (hplace : k.place s.cur.path ≠ k.place s.cur.tmp) :
    ∃ l, Copy k old new (s.replaceFile fs).disk l := by
  obtain ⟨there, d, hhook, -, hask⟩ := hook_ask s (.existsRel s.cur.path s.disk)
  have hnode := hl.ask hask
  -- What has the name goes, and the new file does not.
  have hgone : ∃ ok d', s.removeOld fs s.cur.path = (ok, s.onDisk d') ∧
      k.node d' (k.place s.cur.tmp) = some (.file new) ∧
      (ok = false → k.node d' (k.place s.cur.path) = some (.file old)) := by
    unfold removeOld
    rw [hhook]
    cases there with
    | false => exact ⟨true, d, rfl, by rw [hnode, hnew], nofun⟩
    | true =>
      rcases hrem : fs.remove s.cur.path d with ⟨ok, d'⟩
      refine ⟨ok, d', hook_eq hrem, ?_, fun hok => ?_⟩
      · rw [hl.remove_stays hrem (.inr hplace.symm), hnode, hnew]
      · rw [hl.remove_stays hrem (.inl hok), hnode, hold]
  obtain ⟨ok, d', hremove, hnew', hold'⟩ := hgone
  unfold replaceFile
  rw [hremove]
  cases ok with
  | false =>
    obtain ⟨e, d'', herr, hask'⟩ := @ferr_ask φ fs (s.onDisk d')
    dsimp only
    rw [herr]
    refine failFileErr_copy (s := s.onDisk d'') hl e _ hopen ?_ hplace
    rw [← hold' rfl]
    exact congrFun (hl.ask hask') _
  | true =>
    rcases hren : fs.rename s.cur.tmp s.cur.path d' with ⟨ok, d''⟩
    have hhook : (s.onDisk d').hook (fs.rename s.cur.tmp s.cur.path) = (ok, s.onDisk d'') := hook_eq hren
    dsimp only
    rw [show (s.onDisk d').cur = s.cur from rfl, hhook]
    cases ok with
    | true => exact saved_copy hl hnew' hren
    | false =>
      obtain ⟨e, f, herr, hask'⟩ := @ferr_ask φ fs (s.onDisk d'')
      have hstill : k.node f (k.place s.cur.tmp) = some (.file new) := by
        rw [hl.ask hask', show (s.onDisk d'').disk = d'' from rfl, hl.rename_failed hren, hnew']
      dsimp only
      rw [herr, show (s.onDisk d'').onDisk f = s.onDisk f from rfl]
      rcases @renameFree_cases φ fs 98 2 (s.onDisk f) with ⟨g, heq, htry⟩ | ⟨name, g, g', heq, htry, hname⟩
      · dsimp only
        rw [heq]
        obtain ⟨hasks, -⟩ := @stranded_asks φ fs (s.onDisk g) e
        refine ⟨k.place s.cur.tmp, .inr ?_⟩
        rw [show ((s.onDisk f).onDisk g) = s.onDisk g from rfl, ask_node hl hasks]
        exact (congrFun (try_node hl htry) _).trans hstill
      · dsimp only
        rw [heq]
        refine saved_copy (s := s.onDisk f) hl ?_ hname
        rw [try_node hl htry]
        exact hstill

/-- The last byte of a replacement. -/
theorem finish_copy (hl : fs.Lawful k) {s : Session φ} {old new : Bytes} (hdup : s.cur.dup = false)
    (hmode : s.cur.mode = .replace) (hold : k.node s.disk (k.place s.cur.path) = some (.file old))
    (hplace : k.place s.cur.path ≠ k.place s.cur.tmp)
    (hnew : s.cur.off = false → s.cur.writeFailed = false →
      k.opened s.disk = some (k.place s.cur.tmp, new))
    (hopen : s.cur.off = false → ∃ b, k.opened s.disk = some (k.place s.cur.tmp, b)) :
    ∃ l, Copy k old new (s.finishFile fs).disk l := by
  unfold finishFile
  rw [hdup, if_neg Bool.false_ne_true]
  cases hoff : s.cur.off with
  | true =>
    refine ⟨k.place s.cur.path, .inl ?_⟩
    rw [if_pos rfl, stopped_disk]
    exact hold
  | false =>
    obtain ⟨b, hb⟩ := hopen hoff
    obtain ⟨ok, d, d', e, hfile, hclose, hask, hsame⟩ := @closeFile_closed φ fs s
    have hold' : k.node (s.closed d').disk (k.place (s.closed d').cur.path) = some (.file old) := by
      show k.node d' (k.place s.cur.path) = _
      rw [ask_node hl hask]
      exact hl.closeW_stays hclose hb hplace old hold
    rw [if_neg Bool.false_ne_true, hfile]
    dsimp only
    split
    · unfold failWrite
      split
      · exact failFileErr_copy hl _ _ rfl hold' hplace
      · exact failFile_copy hl _ _ rfl hold' hplace
    · rename_i hgood
      obtain ⟨hwrite, hok⟩ : s.cur.writeFailed = false ∧ ok = true := by simpa [closed] using hgood
      obtain rfl := hsame hok
      subst hok
      split
      · exact failFile_copy hl _ _ rfl hold' hplace
      · rw [if_pos (show (s.closed d').cur.mode = .replace from hmode)]
        exact replaceFile_copy hl rfl hold' (hl.closeW hclose (hnew hoff hwrite)) hplace

/-- What was written with the last bytes. -/
theorem pass_opened (hl : fs.Lawful k) {s : Session φ} {b : Bytes} (hbusy : s.Busy)
    (hb : k.opened s.disk = some (k.place s.cur.tmp, b)) (data : Bytes)
    (hoff : (((s.switchChanged fs).writeData fs data).countData data).markData.cur.off = false)
    (hwrite : (((s.switchChanged fs).writeData fs data).countData data).markData.cur.writeFailed = false) :
    k.opened (((s.switchChanged fs).writeData fs data).countData data).markData.disk =
      some (k.place s.cur.tmp, b ++ data) := by
  have hmark : ∀ t : Session φ, t.markData.cur.off = t.cur.off ∧ t.markData.cur.writeFailed = t.cur.writeFailed := by
    intro t
    unfold markData
    dsimp only
    split <;> exact ⟨rfl, rfl⟩
  rw [(hmark _).1] at hoff
  rw [(hmark _).2] at hwrite
  have hswitch : s.switchChanged fs = s := by
    have hsame := (@writeData_same φ fs (s.switchChanged fs) data).off hoff
    unfold Session.switchChanged at hsame ⊢
    split at hsame
    · rename_i hset
      exact if_pos hset
    · simp at hsame
  rw [countMark_disk, hswitch]
  rw [hswitch] at hwrite
  rcases @writeData_cases φ fs s data with ⟨heq, hskip⟩ | ⟨hgo, ⟨d, hok, heq⟩ | ⟨d, hok, heq⟩⟩ <;>
    rw [heq] at hwrite ⊢
  · have hfine : s.cur.writeFailed = false := hwrite
    simp [hbusy.2.1, hbusy.2.2, hfine] at hskip
  · exact hl.write hok hb
  · simp [countData] at hwrite

/-- The step with which a replacement's bytes are complete: its last ones come, or
its line says that it has none. `path` is its name, `tmp` where it was written. -/
inductive Replaces (fs : Fs φ) (k : Shelf φ π) (old : Bytes) :
    Bytes → Bytes → Bytes → Session φ → Session φ → Prop
  | bytes {s : Session φ} {b data : Bytes} (hbusy : s.Busy) (hmode : s.cur.mode = .replace)
      (hlen : data.length = s.cur.left) (hstep : data.length ≤ s.passLen data.length)
      (hopened : k.opened s.disk = some (k.place s.cur.tmp, b))
      (hold : k.node s.disk (k.place s.cur.path) = some (.file old)) :
      Replaces fs k old (b ++ data) s.cur.path s.cur.tmp s (s.eat fs data)
  | line {s : Session φ} {f : FileLine} (hreads : Reads fs s (s.endLine fs) f) (hmode : f.mode = .replace)
      (hsize : f.size = 0) (hold : k.node s.disk (k.place f.path) = some (.file old)) :
      Replaces fs k old [] f.path (parentOf f.path ++ tmpName) s (s.endLine fs)

theorem Copy.safe {old new : Bytes} {s : Session φ} (h : ∃ l, Copy k old new s.disk l)
    (hd : s.inData = false) : Safe k old new s := by
  obtain ⟨l, hcopy⟩ := h
  exact ⟨l, hcopy, fun hb => absurd (hb.1.symm.trans hd) (by simp)⟩

theorem startFile_copy (hl : fs.Lawful k) {s : Session φ} {f : FileLine} {old : Bytes} (hd : s.inData = false)
    (hmode : f.mode = .replace) (hsize : f.size = 0)
    (hold : k.node s.disk (k.place f.path) = some (.file old))
    (hplace : k.place f.path ≠ k.place (parentOf f.path ++ tmpName)) :
    Safe k old [] (s.startFile fs f) := by
  have hstart := @startFile_started φ fs s f
  generalize s.startFile fs f = t at hstart
  cases hstart with
  | repeated h =>
    obtain ⟨D, d, hD, hid, hname, hex, rfl⟩ := doneRepeat_true h
    have hgo := @goState_aside φ fs true ((s.withLine f).onDisk d) f true
    have hend : ((s.withLine f).onDisk d).go fs f true =
        (((s.withLine f).onDisk d).goState f true).repeated := by
      rw [go_goState, if_pos hsize]
      refine if_pos ?_
      rw [hgo.cur]
      rfl
    have hask := (hl.look (.existsRel D.saved s.disk)).2 (k.place f.path) old hold
    rw [show (fs.existsRel D.saved s.disk).2 = d from congrArg (·.2) hex] at hask
    rw [hend]
    refine Copy.safe ⟨k.place f.path, .inl ?_⟩ (repeated_inData _)
    rw [repeated_disk, goState_disk]
    exact hask
  | refused h =>
    exact Copy.safe ⟨k.place f.path, .inl (h.stays hl hplace old hold)⟩ (h.inData.trans hd)
  | began h =>
    rename_i s'
    have hfile := h.file
    have hgo := @goState_aside φ fs true s' f false
    have hpath : (s'.goState f false).cur.path = f.path := by
      rw [hgo.cur]
      exact congrArg Cur.path hfile
    have htmp : (s'.goState f false).cur.tmp = parentOf f.path ++ tmpName := by
      rw [hgo.cur]
      exact congrArg Cur.tmp hfile
    have hdup : (s'.goState f false).cur.dup = false := by
      rw [hgo.cur]
      rfl
    have hmode' : (s'.goState f false).cur.mode = .replace := by
      rw [hgo.cur]
      exact (congrArg Cur.mode hfile).trans hmode
    have hopens : k.opened (s'.goState f false).disk = some (k.place (s'.goState f false).cur.tmp, []) := by
      rw [goState_disk, h.opens hl, hgo.cur]
      rfl
    rw [go_goState, if_pos hsize]
    refine Copy.safe (finish_copy hl hdup hmode' ?_ ?_ (fun _ _ => hopens) fun _ => ⟨[], hopens⟩)
      (finishFile_inData ..)
    · rw [goState_disk, hpath]
      exact h.stays hl hplace old hold
    · rw [hpath, htmp]
      exact hplace

theorem Replaces.safe (hl : fs.Lawful k) {s s' : Session φ} {old new path tmp : Bytes} (hw : Writing k s)
    (h : Replaces fs k old new path tmp s s') (hplace : k.place path ≠ k.place tmp) :
    Safe k old new s' := by
  cases h with
  | bytes hbusy hmode hlen hstep hopened hold =>
    rename_i b data
    have hr := hw hbusy.1
    have hpass : (s.switchChanged fs).Receiving k := hr.switchChanged
    have hcount : (((s.switchChanged fs).writeData fs data).countData data).Receiving k :=
      hpass.eaten hl (by rw [switchChanged_left]; exact Nat.le_of_eq hlen)
    have hmark := markData_receiving hcount
    have hopens := @pass_opened _ _ fs k hl s b hbusy hopened data
    obtain ⟨hsame, hstays⟩ := @pass_stays φ π fs k hl s hbusy.1 hr data (k.place s.cur.path) fun _ => hplace
    have hdone : (s.eat fs data).inData = false := eat_inData fs s (Nat.le_of_eq hlen.symm)
    refine Copy.safe ?_ hdone
    have hleft : (((s.switchChanged fs).writeData fs data).countData data).markData.cur.left = 0 := by
      rw [markData_left]
      show ((s.switchChanged fs).writeData fs data).cur.left - data.length = 0
      rw [writeData_left, switchChanged_left]
      omega
    unfold eat
    dsimp only
    rw [if_pos hleft]
    generalize (((s.switchChanged fs).writeData fs data).countData data).markData = t at *
    refine finish_copy hl (hsame.dup.trans hbusy.2.1) (hsame.mode.trans hmode) ?_ ?_ ?_ ?_
    · rw [hsame.path]
      exact hstays old hold
    · rw [hsame.path, hsame.tmp]
      exact hplace
    · rw [hsame.tmp]
      exact hopens
    · intro hoff
      obtain ⟨-, b', hb', -⟩ := hmark.writes (hsame.dup.trans hbusy.2.1) hoff
      exact ⟨b', hb'⟩
  | line hreads hmode hsize hold =>
    obtain ⟨hd, -, hlist, c, hword, hparse⟩ := hreads
    rename_i f
    rcases @endLine_cases φ fs false s with haside | ⟨f', c', -, hword', hparse', heq⟩
    · exact Copy.safe ⟨k.place f.path, .inl (call_stays hl haside.disk _ old hold)⟩ (haside.inData.trans hd)
    · obtain ⟨-, rfl⟩ := Prod.mk.inj (hword.symm.trans hword')
      obtain rfl : f = f' := Except.ok.inj (hparse.symm.trans hparse')
      rw [heq]
      exact startFile_copy (s := { s with line := [] }) hl hd hmode hsize hold hplace

/-- Lines arrive; no FILE among them names `path`. -/
inductive Elsewhere (fs : Fs φ) (k : Shelf φ π) (path : Bytes) : Session φ → Session φ → Prop
  | char (s : Session φ) (c : UInt8) (hd : s.inData = false) :
      Elsewhere fs k path s { s with line := s.line ++ [c] }
  | line (s : Session φ) (hd : s.inData = false)
      (hfile : ∀ f, Reads fs s (s.endLine fs) f → k.place f.path ≠ k.place path) :
      Elsewhere fs k path s (s.endLine fs)

theorem chars_elsewhere {path : Bytes} {s : Session φ} (hd : s.inData = false) (l : Bytes) :
    ReflTransGen (Elsewhere fs k path) s { s with line := s.line ++ l } := by
  induction l generalizing s with
  | nil =>
    rw [List.append_nil]
  | cons c l ih =>
    have hmore := ih (s := { s with line := s.line ++ [c] }) hd
    rw [show s.line ++ [c] ++ l = s.line ++ c :: l by simp] at hmore
    exact .head (.char s c hd) hmore

theorem elsewhere_run {path : Bytes} {s s' : Session φ} (h : ReflTransGen (Elsewhere fs k path) s s') :
    Run fs s s' := by
  refine h.lift id fun _ _ hstep => ?_
  cases hstep with
  | char c hd => exact .live (.char _ c hd)
  | line hd => exact .live (.line _ hd)

/-- A line, whole. -/
def withEndedLine (s : Session Ram) (l : Bytes) : Session Ram :=
  { s with line := s.line ++ l }.endLine Ram.fs

theorem withEndedLine_elsewhere {path : Bytes} {s : Session Ram} (hd : s.inData = false) (l : Bytes)
    (hfile : ∀ f c, tok (chomp (s.line ++ l)) = (some (ascii "FILE"), c) → parseFile c = .ok f →
      f.path ≠ path) : ReflTransGen (Elsewhere Ram.fs Ram.shelf path) s (s.withEndedLine l) := by
  refine (chars_elsewhere hd l).tail (.line _ hd fun f hreads => ?_)
  obtain ⟨-, -, -, c, hword, hparse⟩ := hreads
  exact hfile f c hword hparse

/-- A disk that takes no renames for a while, with the file `Work:a`. -/
def stuckDisk : Ram := { files := [(ascii "Work:a", [0x31])], stuck := 99 }

def stuckHello : Session Ram :=
  (start stuckDisk { browse := true, write := true }).withEndedLine
    (ascii "WEBADF 6 " ++ List.replicate keyHex 0x30)

def stuckFile : Session Ram :=
  stuckHello.withEndedLine (ascii "FILE x 1 e8b7be43 0 6:Work:a 0: replace")

def stuckSaved : Session Ram := stuckFile.eat Ram.fs [0x61]

def stuckNext : Session Ram := stuckSaved.withEndedLine (ascii "FILE y 1 71beeff9 0 6:Work:b 0: replace")

theorem stuckFile_state : (stuckFile.Busy ∧ stuckFile.cur.mode = .replace ∧ stuckFile.cur.left = 1 ∧
    1 ≤ stuckFile.passLen 1) ∧ (stuckFile.disk.opened = some (ascii "Work:.webadf-rx", []) ∧
      stuckFile.disk.find (ascii "Work:a") = some [0x31]) ∧
      stuckFile.cur.tmp = ascii "Work:.webadf-rx" ∧ stuckFile.cur.path = ascii "Work:a" := by
  unfold Busy
  decide

theorem stuckNext_line : stuckSaved.inData = false ∧
    ∃ c, tok (chomp (stuckSaved.line ++ ascii "FILE y 1 71beeff9 0 6:Work:b 0: replace")) =
      (some (ascii "FILE"), c) ∧ (parseFile c).toOption.map (·.path) = some (ascii "Work:b") := by
  refine ⟨by decide, ascii "y 1 71beeff9 0 6:Work:b 0: replace", by decide, by decide⟩

theorem stuckNext_disk : stuckNext.disk.files = [(ascii "Work:.webadf-rx", [])] := by decide

theorem stuck_run : Run Ram.fs (start stuckDisk { browse := true, write := true }) stuckFile := by
  have hline : ∀ {s : Session Ram} (l : Bytes), s.inData = false → Run Ram.fs s (s.withEndedLine l) :=
    fun {s} l hd => (@elsewhere_run _ _ _ Ram.shelf [] _ _ (chars_elsewhere (s := s) hd l)).tail
      (.live (.line _ hd))
  exact (hline _ rfl).trans (hline _ (by decide))

theorem stuck_replaces : Replaces Ram.fs Ram.shelf [0x31] ([] ++ [0x61]) stuckFile.cur.path
    stuckFile.cur.tmp stuckFile stuckSaved := by
  obtain ⟨⟨hbusy, hmode, hleft, hpass⟩, ⟨hopened, hold⟩, htmp, hpath⟩ := stuckFile_state
  refine .bytes hbusy hmode hleft.symm hpass ?_ ?_
  · rw [htmp]
    exact hopened
  · rw [hpath]
    show (stuckFile.disk.find (ascii "Work:a")).map Node.file = _
    rw [hold]
    rfl

theorem stuck_apart : Ram.shelf.place stuckFile.cur.path ≠ Ram.shelf.place stuckFile.cur.tmp := by
  obtain ⟨-, -, htmp, hpath⟩ := stuckFile_state
  rw [hpath, htmp]
  decide

end Session

end WebAdf.Receive
