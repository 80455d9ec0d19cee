import Mathlib.Logic.Relation
import WebAdf.Receive.Feed

/-!
# What is beside the file received

Uploads and requests leave the file being received and the file saved last as
they are. Of the machine they call only the hooks listed here.
-/

namespace WebAdf.Receive

open Lib
open Relation (ReflTransGen)

variable {φ : Type}

/-- A request that may take files away. -/
def ReqKind.isTaking (k : ReqKind) : Bool := k = .rename || k = .delete

theorem ReqKind.small {k : ReqKind} (hwrite : k.isWrite = true) (htake : ¬k.isTaking = true) :
    k = .mkdir ∨ k = .protect ∨ k = .note := by
  cases k <;> simp_all [isWrite, isTaking]

/-- A hook that receives no file; `w` where it may take one away. -/
inductive Fs.Call (fs : Fs φ) : Bool → φ → φ → Prop
  | malloc (d : φ) : Call fs w d (fs.malloc d).2
  | openR (p : Bytes) (d : φ) : Call fs w d (fs.openR p d).2
  | read (n : Nat) (d : φ) : Call fs w d (fs.read n d).2
  | closeR (d : φ) : Call fs w d (fs.closeR d)
  | vols (d : φ) : Call fs w d (fs.vols d).2
  | dirOpen (p : Bytes) (d : φ) : Call fs w d (fs.dirOpen p d).2
  | dirNext (d : φ) : Call fs w d (fs.dirNext d).2
  | dirClose (d : φ) : Call fs w d (fs.dirClose d)
  | stat (p : Bytes) (d : φ) : Call fs w d (fs.stat p d).2.2.2
  | fault (e : Nat) (d : φ) : Call fs w d (fs.fault e d).2
  | wMkdir (p : Bytes) (d : φ) : Call fs w d (fs.wMkdir p d).2
  | wRename (a b : Bytes) (d : φ) : Call fs true d (fs.wRename a b d).2
  | wDelete (p : Bytes) (d : φ) : Call fs true d (fs.wDelete p d).2
  | wProtect (p : Bytes) (bits : Nat) (d : φ) : Call fs w d (fs.wProtect p bits d).2
  | wNote (p c : Bytes) (d : φ) : Call fs w d (fs.wNote p c d).2
  | wIcon (p : Bytes) (d : φ) : Call fs w d (fs.wIcon p d).2

namespace Session

/-- The file saved last. -/
def doneOf (s : Session φ) : Option Done := s.upq.map (·.done)

/-- The files answered with OK. -/
def oks (s : Session φ) : List Event := s.events.filter (·.kind == .done)

structure Aside (fs : Fs φ) (w : Bool) (s s' : Session φ) : Prop where
  inData : s'.inData = s.inData
  cur : s'.cur = s.cur
  done : s'.doneOf = s.doneOf
  oks : s'.oks = s.oks
  disk : ReflTransGen (fs.Call w) s.disk s'.disk

variable {fs : Fs φ} {w : Bool}

theorem Aside.refl (s : Session φ) : Aside fs w s s := ⟨rfl, rfl, rfl, rfl, .refl⟩

theorem Aside.trans {s s' s'' : Session φ} (h : Aside fs w s s') (h' : Aside fs w s' s'') :
    Aside fs w s s'' :=
  ⟨h'.inData.trans h.inData, h'.cur.trans h.cur, h'.done.trans h.done, h'.oks.trans h.oks,
    h.disk.trans h'.disk⟩

theorem Aside.after {s s' s'' : Session φ} (h' : Aside fs w s' s'') (h : Aside fs w s s') :
    Aside fs w s s'' := h.trans h'

theorem Aside.call {s s' : Session φ} {d : φ} (h : fs.Call w s.disk d)
    (hs : Aside fs w { s with disk := d } s') : Aside fs w s s' :=
  ⟨hs.inData, hs.cur, hs.done, hs.oks, .head h hs.disk⟩

theorem Aside.calls {s s' : Session φ} {d : φ} (h : ReflTransGen (fs.Call w) s.disk d)
    (hs : Aside fs w { s with disk := d } s') : Aside fs w s s' :=
  ⟨hs.inData, hs.cur, hs.done, hs.oks, h.trans hs.disk⟩

theorem Aside.setReq {s s' : Session φ} (h : Aside fs w s s') (r : Req) :
    Aside fs w s { s' with req := r } := ⟨h.inData, h.cur, h.done, h.oks, h.disk⟩

/-- A step that only queues bytes. -/
theorem puts_aside (s : Session φ) (ps : List Bytes) : Aside fs w s (s.puts ps) := by
  induction ps generalizing s with
  | nil => exact .refl s
  | cons p ps ih =>
    have hput : Aside fs w s (s.put p) := ⟨rfl, rfl, rfl, rfl, .refl⟩
    exact hput.trans (ih (s.put p))

theorem emit_aside (s : Session φ) (e : Event) (h : e.kind ≠ .done) : Aside fs w s (s.emit e) :=
  ⟨rfl, rfl, rfl, by simp [oks, emit, h], .refl⟩

theorem replyErr_aside (s : Session φ) (id : Bytes) (code : String) (text : Bytes) :
    Aside fs w s (s.replyErr id code text) := puts_aside ..

theorem reqErr_aside (s : Session φ) (id : Bytes) (code : String) (text : Bytes) :
    Aside fs w s (s.reqErr id code text) := puts_aside ..

theorem refuse_aside (s : Session φ) (id path : Bytes) (code : String) (text : Bytes) :
    Aside fs w s (s.refuse id path code text) := (replyErr_aside ..).trans (emit_aside _ _ nofun)

theorem faultText_aside (s : Session φ) (e : Nat) (dflt : String) (cap : Nat) :
    Aside fs w s (s.faultText fs e dflt cap).2 := by
  unfold faultText
  split
  · exact .refl s
  · exact .call (.fault e _) (.refl _)

-- ---------------------------------------------------------------------------
-- Uploads
-- ---------------------------------------------------------------------------

theorem judge_aside (s : Session φ) : Aside fs w s s.judge.1 := by
  unfold judge
  split
  · rename_i h
    exact ⟨rfl, rfl, rfl, rfl, .refl⟩
  · rename_i q h
    split
    · exact ⟨rfl, rfl, rfl, rfl, .refl⟩
    · split
      · exact ⟨rfl, rfl, by rw [doneOf, doneOf, h]; rfl, rfl, .refl⟩
      · split <;> exact ⟨rfl, rfl, rfl, rfl, .refl⟩

theorem ready_aside (s : Session φ) : Aside fs w s s.ready := by
  unfold ready
  dsimp only
  split
  · exact (puts_aside ..).after ⟨rfl, rfl, rfl, rfl, .refl⟩
  · split <;> exact ⟨rfl, rfl, rfl, rfl, .refl⟩

theorem onHello_aside (s : Session φ) (c : Bytes) : Aside fs w s (s.onHello c) := by
  unfold onHello
  dsimp only
  split
  · split <;> exact ⟨rfl, rfl, rfl, by simp [oks, emitTrust, emit, put], .refl⟩
  · let s₁ : Session φ := { s with
      peerV := min (((tok c).1.bind (num · 10)).getD 1) 6
      peerKey := ((tok (tok c).2).1.bind hexKey).getD [] }
    have hjudge : Aside fs w s₁ s₁.judge.1 := judge_aside s₁
    have hready := (hjudge.trans (ready_aside _)).trans (emit_aside _ { kind := .hello } nofun)
    split
    · exact hready.after ⟨rfl, rfl, rfl, rfl, .refl⟩
    · exact (hready.trans (emit_aside _ _ (by simp))).after ⟨rfl, rfl, rfl, rfl, .refl⟩

theorem trustNow_aside (s : Session φ) : Aside fs w s s.trustNow := by
  unfold trustNow
  split
  · exact .refl s
  · rename_i q h
    split
    · exact .refl s
    · exact ⟨rfl, rfl, by simp [doneOf, emitTrust, emit, h], by simp [Session.oks, emitTrust, emit], .refl⟩

theorem upAddAt_aside (s : Session φ) (i : Nat) (path name rid : Bytes) :
    Aside fs w s (s.upAddAt fs i path name rid).2 := by
  unfold upAddAt
  split
  · exact .refl s
  · rename_i q h
    have hq : ∀ (d : φ) (q' : Upq), q'.done = q.done →
        Aside fs w { s with disk := d } { s with disk := d, upq := some q' } :=
      fun d q' hdone => ⟨rfl, rfl, by simp [doneOf, h, hdone], rfl, .refl⟩
    split
    · exact hq _ _ rfl
    · split
      · exact hq _ _ rfl
      · dsimp only
        split
        · exact .call (.malloc _) (hq _ _ rfl)
        · exact .call (.malloc _) (hq _ _ rfl)

theorem upqRemove_aside (s : Session φ) (tag : Nat) : Aside fs w s (s.upqRemove tag) := by
  refine ⟨rfl, rfl, ?_, rfl, .refl⟩
  simp only [doneOf, upqRemove, Option.map_map]
  rfl

theorem upClose_aside (s : Session φ) : Aside fs w s (s.upClose fs) :=
  .call (.closeR _) ⟨rfl, rfl, rfl, rfl, .refl⟩

theorem upFailed_aside (s : Session φ) (text code : Bytes) : Aside fs w s (s.upFailed fs text code) :=
  (upClose_aside s).trans (emit_aside _ _ nofun)

theorem upDone_aside (s : Session φ) (stored : Bytes) : Aside fs w s (s.upDone fs stored) :=
  (upClose_aside s).trans (emit_aside _ _ nofun)

theorem protocolError_aside (s : Session φ) (why : String) : Aside fs w s (s.protocolError fs why) := by
  unfold protocolError
  dsimp only
  split
  · have h : Aside fs w s (s.upFailed fs (ascii why) (ascii "local")) := upFailed_aside ..
    exact ⟨h.inData, h.cur, h.done, h.oks, h.disk⟩
  · exact ⟨rfl, rfl, rfl, rfl, .refl⟩

theorem upRefuse_aside (s : Session φ) (it : UpItem) (size : Nat) (code reqText text : String) :
    Aside fs w s (s.upRefuse it size code reqText text) := by
  unfold upRefuse
  dsimp only
  split
  · exact (reqErr_aside ..).trans (emit_aside _ _ nofun)
  · exact emit_aside _ _ nofun

theorem upPutOne_aside (s : Session φ) (it : UpItem) : Aside fs w s (s.upPutOne fs it).2 := by
  unfold upPutOne
  dsimp only
  refine (upqRemove_aside s it.tag).trans ?_
  split
  · exact upRefuse_aside ..
  · split
    · rename_i d hopen
      have hd : d = (fs.openR it.path (s.upqRemove it.tag).disk).2 := (congrArg (·.2) hopen).symm
      subst hd
      exact .call (.openR it.path _) ((upRefuse_aside ..).after ⟨rfl, rfl, rfl, rfl, .refl⟩)
    · rename_i info d hopen
      have hd : d = (fs.openR it.path (s.upqRemove it.tag).disk).2 := (congrArg (·.2) hopen).symm
      subst hd
      refine .call (.openR it.path _) ?_
      split
      · exact .call (.closeR _) ((upRefuse_aside ..).after ⟨rfl, rfl, rfl, rfl, .refl⟩)
      · exact (puts_aside ..).after ⟨rfl, rfl, rfl, rfl, .refl⟩

theorem upPutFrom_aside (k : Nat) (s : Session φ) : Aside fs w s (s.upPutFrom fs k) := by
  induction k generalizing s with
  | zero => exact .refl s
  | succ k ih =>
    unfold upPutFrom
    split
    · exact .refl s
    · rename_i it _
      split
      · have hone : Aside fs w s (s.upPutOne fs it).2 := upPutOne_aside ..
        split
        · rename_i heq
          rw [heq] at hone
          exact hone.trans (ih _)
        · rename_i heq
          rw [heq] at hone
          exact hone
      · exact .refl s

theorem upPut_aside (s : Session φ) : Aside fs w s (s.upPut fs) := upPutFrom_aside ..

theorem upEnd_aside (s : Session φ) : Aside fs w s s.upEnd :=
  (puts_aside ..).after ⟨rfl, rfl, rfl, rfl, .refl⟩

theorem upDataBegins_aside (s : Session φ) : Aside fs w s s.upDataBegins := by
  unfold upDataBegins
  dsimp only
  split
  · exact (upEnd_aside ..).after ⟨rfl, rfl, rfl, rfl, .refl⟩
  · exact ⟨rfl, rfl, rfl, rfl, .refl⟩

theorem upReadFailed_aside (s : Session φ) : Aside fs w s (s.upReadFailed fs) :=
  have h : Aside fs w s (s.upFailed fs (ascii "cannot read the file") (ascii "local")) :=
    upFailed_aside ..
  ⟨h.inData, h.cur, h.done, h.oks, h.disk⟩

theorem upBytes_aside (s : Session φ) (cap : Nat) : Aside fs w s (s.upBytes fs cap).2 := by
  unfold upBytes
  dsimp only
  generalize (if s.up.phase = .skip then min s.up.skip (min cap upBlock)
    else min (s.up.credit - s.up.sent) (min cap upBlock)) = want
  split
  · exact .refl s
  · split
    · rename_i d hread
      have hd : d = (fs.read want s.disk).2 := (congrArg (·.2) hread).symm
      subst hd
      exact .call (.read want _) (upReadFailed_aside ..)
    · rename_i b d hread
      have hd : d = (fs.read want s.disk).2 := (congrArg (·.2) hread).symm
      subst hd
      refine .call (.read want _) ?_
      split
      · exact upReadFailed_aside ..
      · split
        · dsimp only
          split
          · exact (upDataBegins_aside ..).after ⟨rfl, rfl, rfl, rfl, .refl⟩
          · exact ⟨rfl, rfl, rfl, rfl, .refl⟩
        · dsimp only
          split
          · exact (upEnd_aside ..).after ⟨rfl, rfl, rfl, rfl, .refl⟩
          · exact ⟨rfl, rfl, rfl, rfl, .refl⟩

theorem onTake_aside (s : Session φ) (c : Bytes) : Aside fs w s (s.onTake fs c) := by
  unfold onTake
  split
  · exact .refl s
  · split
    · exact .refl s
    · split
      · exact protocolError_aside ..
      · split
        · exact protocolError_aside ..
        · split
          · have h : Aside fs w s (s.upFailed fs (ascii "cancelled") (ascii "local")) := upFailed_aside ..
            exact ⟨h.inData, h.cur, h.done, h.oks, h.disk⟩
          · dsimp only
            split
            · exact ⟨rfl, rfl, rfl, by simp [oks, emitUp, emit], .refl⟩
            · exact (upDataBegins_aside ..).after ⟨rfl, rfl, rfl, by simp [oks, emitUp, emit], .refl⟩

theorem onMore_aside (s : Session φ) (c : Bytes) : Aside fs w s (s.onMore fs c) := by
  unfold onMore
  split
  · exact .refl s
  · split
    · exact .refl s
    · split
      · exact protocolError_aside ..
      · split
        · exact protocolError_aside ..
        · exact ⟨rfl, rfl, rfl, by simp [oks, emitUp, emit], .refl⟩

theorem onDone_aside (s : Session φ) (c : Bytes) : Aside fs w s (s.onDone fs c) := by
  unfold onDone
  split
  · exact .refl s
  · split
    · exact .refl s
    · exact upDone_aside ..

theorem onNo_aside (s : Session φ) (c : Bytes) : Aside fs w s (s.onNo fs c) := by
  unfold onNo
  split
  · exact .refl s
  · dsimp only
    split
    · refine ⟨rfl, rfl, rfl, ?_, .single (.closeR _)⟩
      simp [oks, upFailed, emitUp, emit, upClose]
    · exact upFailed_aside ..

theorem upCancel_aside (s : Session φ) (tag : Nat) : Aside fs w s (s.upCancel fs tag) := by
  unfold upCancel
  split
  · exact (upqRemove_aside ..).trans (emit_aside _ _ nofun)
  · split
    · exact .refl s
    · split
      · split
        · exact .refl s
        · exact (puts_aside s _).trans ⟨rfl, rfl, rfl, rfl, .refl⟩
      · have h : Aside fs w s (s.upFailed fs (ascii "cancelled") (ascii "local")) := upFailed_aside ..
        exact ⟨h.inData, h.cur, h.done, h.oks, h.disk⟩

-- ---------------------------------------------------------------------------
-- Requests
-- ---------------------------------------------------------------------------

theorem readVols_aside (s : Session φ) : Aside fs w s (s.readVols fs).2 := by
  unfold readVols
  split
  · rename_i d h
    obtain rfl : (fs.vols s.disk).2 = d := congrArg (·.2) h
    exact .call (.vols _) (.refl _)
  · rename_i vs d h
    obtain rfl : (fs.vols s.disk).2 = d := congrArg (·.2) h
    exact .call (.vols _) ⟨rfl, rfl, rfl, rfl, .refl⟩

theorem reqEnd_aside (s : Session φ) : Aside fs w s (s.reqEnd fs) := by
  unfold reqEnd
  dsimp only
  split
  · exact .call (.dirClose _) ⟨rfl, rfl, rfl, rfl, .refl⟩
  · exact ⟨rfl, rfl, rfl, rfl, .refl⟩

theorem emitReq_aside (s : Session φ) (kind : ReqKind) (id path : Bytes) (count : Nat) (cut : Bool)
    (why : Option Bytes) : Aside fs w s (s.emitReq kind id path count cut why) := emit_aside _ _ nofun

theorem reqFailText_aside (s : Session φ) (code : String) (text : Bytes) :
    Aside fs w s (s.reqFailText fs code text) :=
  ((reqErr_aside ..).trans (emitReq_aside ..)).trans (reqEnd_aside _)

theorem reqDone_aside (s : Session φ) (cut : Bool) : Aside fs w s (s.reqDone fs cut) :=
  ((puts_aside ..).trans (emitReq_aside ..)).trans (reqEnd_aside _)

theorem reqFail_aside (s : Session φ) (e : Nat) (wantDir : Bool) :
    Aside fs w s (s.reqFail fs e wantDir) :=
  .call (.fault e _) (reqFailText_aside ..)

theorem getStart_aside (s : Session φ) : Aside fs w s (s.getStart fs) := by
  unfold getStart
  split
  rename_i e info isDir d h
  obtain rfl : (fs.stat s.req.path s.disk).2.2.2 = d := congrArg (·.2.2.2) h
  refine .call (.stat s.req.path _) ?_
  split
  · exact reqFail_aside ..
  · split
    · exact reqFail_aside ..
    · split
      · exact reqFail_aside ..
      · split
        · exact reqFailText_aside ..
        · dsimp only
          have hadd : ∀ x : Session φ, Aside fs w x (x.upAddFront fs s.req.path (baseName s.req.path)
              s.req.id).2 := fun x => upAddAt_aside ..
          split
          · rename_i heq
            have hadd := hadd { s with disk := (fs.stat s.req.path s.disk).2.2.2 }
            rw [heq] at hadd
            split
            · exact hadd.trans (reqFailText_aside ..)
            · split <;> exact hadd.trans (reqFailText_aside ..)
          · rename_i heq
            have hadd := hadd { s with disk := (fs.stat s.req.path s.disk).2.2.2 }
            rw [heq] at hadd
            exact ((hadd.trans (puts_aside ..)).trans (emitReq_aside ..)).trans (reqEnd_aside _)

theorem hideFrom_aside (h cut k i : Nat) (s : Session φ) :
    Aside fs true s (s.hideFrom fs h cut k i) := by
  induction k generalizing i s with
  | zero => exact ⟨rfl, rfl, rfl, rfl, .refl⟩
  | succ k ih =>
    unfold hideFrom
    dsimp only
    refine .call (.wRename s.req.arg (s.req.arg.take cut ++ hiddenName (h + i)) _) ?_
    split
    · exact ⟨rfl, rfl, rfl, rfl, .refl⟩
    · split
      · exact ⟨rfl, rfl, rfl, rfl, .refl⟩
      · exact ih ..

theorem delHide_aside (s : Session φ) (spelled : Bytes) : Aside fs true s (s.delHide fs spelled) := by
  unfold delHide
  dsimp only
  split
  · exact .refl s
  · exact (hideFrom_aside ..).after ⟨rfl, rfl, rfl, rfl, .refl⟩

theorem delUnhide_aside (s : Session φ) : Aside fs true s (s.delUnhide fs).2 := by
  unfold delUnhide
  dsimp only
  split
  · exact ⟨rfl, rfl, rfl, rfl, .refl⟩
  · exact .call (.wRename (s.req.path.take s.req.delTop) s.req.arg _) ⟨rfl, rfl, rfl, rfl, .refl⟩

theorem delStopText_aside (s : Session φ) (code : String) (why : Bytes) :
    Aside fs true s (s.delStopText fs code why) := by
  unfold delStopText
  dsimp only
  have hput : Aside fs true s (if s.req.delDrawer then s.putDel else s) := by
    split
    · exact puts_aside ..
    · exact .refl s
  have hback := hput.trans (delUnhide_aside _)
  split <;> rename_i heq <;> rw [heq] at hback <;> exact hback.trans (reqFailText_aside ..)

theorem delStop_aside (s : Session φ) (e : Nat) : Aside fs true s (s.delStop fs e) :=
  .call (.fault e _) (delStopText_aside ..)

theorem delCounted_aside (s : Session φ) : Aside fs w s s.delCounted := by
  unfold delCounted
  split
  · exact puts_aside ..
  · exact .refl s

theorem delEmpty_aside (s : Session φ) : Aside fs true s (s.delEmpty fs) := by
  unfold delEmpty
  dsimp only
  refine .call (.wDelete s.req.path _) ?_
  split
  · exact delStop_aside ..
  · split
    · split <;> exact (reqDone_aside ..).after ⟨rfl, rfl, rfl, rfl, .refl⟩
    · exact (delCounted_aside _).after ⟨rfl, rfl, rfl, rfl, .refl⟩

theorem delFirst_aside (s : Session φ) : Aside fs true s (s.delFirst fs).2 := by
  unfold delFirst
  split
  · rename_i d hopen
    obtain rfl : (fs.dirOpen s.req.path s.disk).2 = d := congrArg (·.2) hopen
    refine .call (.dirOpen s.req.path _) ?_
    split <;>
    · rename_i d hnext
      obtain rfl : (fs.dirNext (fs.dirOpen s.req.path s.disk).2).2 = d := congrArg (·.2) hnext
      exact .call (.dirNext _) (.call (.dirClose _) (.refl _))
  · rename_i r d _ hopen
    obtain rfl : (fs.dirOpen s.req.path s.disk).2 = d := congrArg (·.2) hopen
    exact .call (.dirOpen s.req.path _) (.refl _)

theorem enter_aside (s : Session φ) (name : Bytes) : Aside fs w s (s.enter name) :=
  ⟨rfl, rfl, rfl, rfl, .refl⟩

theorem delEntry_aside (s : Session φ) (drawer : Bytes) : Aside fs true s (s.delEntry fs drawer) := by
  unfold delEntry
  dsimp only
  refine .call (.wDelete s.req.path _) ?_
  split
  · exact delStop_aside ..
  · exact (delCounted_aside _).after ⟨rfl, rfl, rfl, rfl, .refl⟩

theorem delWalk_aside (s : Session φ) : Aside fs true s (s.delWalk fs) := by
  have hfirst : ∀ {s s' : Session φ} {r}, s.delFirst fs = (r, s') → Aside fs true s s' := by
    intro s s' r heq
    have h : Aside fs true s (s.delFirst fs).2 := delFirst_aside s
    rw [heq] at h
    exact h
  fun_induction delWalk fs s with
  | case1 s r s' heq => exact (hfirst heq).trans (delStop_aside ..)
  | case2 s s' heq => exact (hfirst heq).trans (delEmpty_aside ..)
  | case3 s e s' heq hbad => exact (hfirst heq).trans (delStopText_aside ..)
  | case4 s e s' heq hbad hlong => exact (hfirst heq).trans (delStopText_aside ..)
  | case5 s e s' heq hbad hlong hdir ih => exact (hfirst heq).trans ((enter_aside ..).trans ih)
  | case6 s e s' heq hbad hlong hdir =>
    exact (hfirst heq).trans ((enter_aside ..).trans (delEntry_aside ..))

theorem delStep_aside (s : Session φ) : Aside fs true s (s.delStep fs) := by
  unfold delStep
  split
  · exact delStopText_aside ..
  · exact delWalk_aside ..

theorem findEntry_calls (name : Bytes) (d : φ) :
    ReflTransGen (fs.Call w) d (findEntry fs name d).2 := by
  have hnext : ∀ {d d' : φ} {n}, fs.dirNext d = (n, d') → fs.Call w d d' := by
    intro d d' n heq
    obtain rfl : (fs.dirNext d).2 = d' := congrArg (·.2) heq
    exact .dirNext d
  fun_induction findEntry fs name d with
  | case1 d e d' heq => exact .single (hnext heq)
  | case2 d d' heq => exact .single (hnext heq)
  | case3 d e d' heq hname => exact .single (hnext heq)
  | case4 d e d' heq hname ih => exact .head (hnext heq) ih

theorem entryKind_aside (s : Session φ) (path : Bytes) : Aside fs w s (s.entryKind fs path).2 := by
  unfold entryKind
  dsimp only
  split
  · rename_i d hopen
    obtain rfl : (fs.dirOpen (splitPath path).1 s.disk).2 = d := congrArg (·.2) hopen
    exact .call (.dirOpen _ _) (.calls (findEntry_calls ..) (.call (.dirClose _) (.refl _)))
  · rename_i r d _ hopen
    obtain rfl : (fs.dirOpen (splitPath path).1 s.disk).2 = d := congrArg (·.2) hopen
    exact .call (.dirOpen _ _) (.refl _)

theorem writeEnd_aside (s : Session φ) (e : Nat) : Aside fs w s (s.writeEnd fs e) := by
  unfold writeEnd
  split
  · exact (reqFail_aside ..).after ⟨rfl, rfl, rfl, rfl, .refl⟩
  · exact reqDone_aside ..

theorem writeHook_aside (s : Session φ) {hook : φ → Nat × φ} (h : fs.Call w s.disk (hook s.disk).2) :
    Aside fs w s (s.writeHook fs hook) := .call h (writeEnd_aside ..)

theorem startMkdir_aside (s : Session φ) : Aside fs w s (s.startMkdir fs) := by
  unfold startMkdir
  dsimp only
  refine .call (.wMkdir s.req.path _) ?_
  split
  · exact .call (.wIcon s.req.path _) (writeEnd_aside ..)
  · exact writeEnd_aside ..

theorem startRename_aside (s : Session φ) (vols : List Vol) (v : Vol) :
    Aside fs true s (s.startRename fs vols v) := by
  unfold startRename
  split
  · exact reqFail_aside ..
  · split
    · exact reqFailText_aside ..
    · exact writeHook_aside s (.wRename s.req.path s.req.arg _)

theorem deleteOne_aside (s : Session φ) : Aside fs true s (s.deleteOne fs) := by
  unfold deleteOne
  dsimp only
  refine .call (.wDelete s.req.path _) ?_
  split
  · exact .call (.fault _ _) ((reqFailText_aside ..).after ⟨rfl, rfl, rfl, rfl, .refl⟩)
  · exact writeEnd_aside ..

theorem startWalk_aside (s : Session φ) (spelled : Bytes) : Aside fs true s (s.startWalk fs spelled) := by
  let s₀ : Session φ := { s with req := { s.req with count := 0 } }
  have hhide : Aside fs true s (if 5 ≤ s₀.peerV then s₀.delHide fs spelled else s₀) := by
    split
    · exact (delHide_aside ..).after ⟨rfl, rfl, rfl, rfl, .refl⟩
    · exact ⟨rfl, rfl, rfl, rfl, .refl⟩
  exact hhide.trans ⟨rfl, rfl, rfl, rfl, .refl⟩

theorem startDelete_aside (s : Session φ) : Aside fs true s (s.startDelete fs) := by
  unfold startDelete
  split
  · exact deleteOne_aside s
  · have hkind : Aside fs true s (s.entryKind fs s.req.path).2 := entryKind_aside ..
    split
    · rename_i heq
      rw [heq] at hkind
      exact hkind.trans (writeEnd_aside ..)
    · rename_i entry s' heq
      rw [heq] at hkind
      refine hkind.trans ?_
      split
      · exact writeHook_aside s' (.wDelete s'.req.path _)
      · exact startWalk_aside ..

theorem readVols_req (s : Session φ) : (s.readVols fs).2.req = s.req := by
  unfold readVols
  split <;> rfl

theorem writeStart_aside (s : Session φ)
    (hw : w = false → s.req.kind = .mkdir ∨ s.req.kind = .protect ∨ s.req.kind = .note) :
    Aside fs w s (s.writeStart fs) := by
  unfold writeStart
  split
  · exact reqFailText_aside ..
  · have hvols : Aside fs w s (s.readVols fs).2 := readVols_aside s
    split
    · rename_i heq
      rw [heq] at hvols
      exact hvols.trans (reqFailText_aside ..)
    · rename_i heq
      rw [heq] at hvols
      refine hvols.trans ?_
      split
      · exact reqFail_aside ..
      · dsimp only
        split
        · exact (startMkdir_aside _).after ⟨rfl, rfl, rfl, rfl, .refl⟩
        · cases w with
          | true => exact (startRename_aside ..).after ⟨rfl, rfl, rfl, rfl, .refl⟩
          | false => exact absurd (hw rfl) (by grind [readVols_req])
        · exact (writeHook_aside _ (.wProtect _ _ _)).after ⟨rfl, rfl, rfl, rfl, .refl⟩
        · exact (writeHook_aside _ (.wNote _ _ _)).after ⟨rfl, rfl, rfl, rfl, .refl⟩
        · cases w with
          | true => exact (startDelete_aside _).after ⟨rfl, rfl, rfl, rfl, .refl⟩
          | false => exact absurd (hw rfl) (by grind [readVols_req])

theorem readStart_aside (s : Session φ) : Aside fs w s (s.readStart fs) := by
  unfold readStart
  have hvols : Aside fs w s (s.readVols fs).2 := readVols_aside s
  split
  · rename_i heq
    rw [heq] at hvols
    exact hvols.trans (reqFailText_aside ..)
  · rename_i vols s' heq
    rw [heq] at hvols
    refine hvols.trans ?_
    split
    · exact reqFail_aside ..
    · split
      · dsimp only
        refine .call (.dirOpen s'.req.path _) ?_
        split
        · exact reqFail_aside ..
        · exact ⟨rfl, rfl, rfl, rfl, .refl⟩
      · exact getStart_aside _

theorem reqStart_aside (s : Session φ) (hw : w = false → ¬s.req.waitKind.isTaking) :
    Aside fs w s (s.reqStart fs) := by
  unfold reqStart
  dsimp only
  split
  · rename_i hwrite
    refine (writeStart_aside _ fun hf => ?_).after ⟨rfl, rfl, rfl, rfl, .refl⟩
    exact ReqKind.small hwrite (hw hf)
  · split
    · exact (reqFailText_aside ..).after ⟨rfl, rfl, rfl, rfl, .refl⟩
    · split
      · let s₁ : Session φ := { s with req := Req.take s.req }
        have hvols : Aside fs w s₁ (s₁.readVols fs).2 := readVols_aside s₁
        split
        · rename_i heq
          rw [heq] at hvols
          exact (hvols.trans (reqFailText_aside ..)).after ⟨rfl, rfl, rfl, rfl, .refl⟩
        · rename_i heq
          rw [heq] at hvols
          exact (hvols.setReq _).after ⟨rfl, rfl, rfl, rfl, .refl⟩
      · exact (readStart_aside _).after ⟨rfl, rfl, rfl, rfl, .refl⟩

theorem volLine_aside (s : Session φ) (v : Vol) : Aside fs w s (s.volLine v) := puts_aside ..

theorem entLine_aside (s : Session φ) (e : Dent) : Aside fs w s (s.entLine e) := puts_aside ..

theorem pumpVols_aside (k : Nat) (s : Session φ) : Aside fs w s (s.pumpVols fs k) := by
  induction k generalizing s with
  | zero => exact .refl s
  | succ k ih =>
    unfold pumpVols
    split
    · exact .refl s
    · split
      · exact reqDone_aside ..
      · refine (ih _).after ?_
        split
        · exact ⟨rfl, rfl, rfl, rfl, .refl⟩
        · have hnext : Aside fs w s { s with req := { s.req with i := s.req.i + 1 } } :=
            (Aside.refl s).setReq _
          exact (hnext.trans (volLine_aside _ _)).setReq _

theorem pumpDir_aside (s : Session φ) : Aside fs w s (s.pumpDir fs) := by
  have hnext : ∀ {s : Session φ} {n d'}, fs.dirNext s.disk = (n, d') →
      Aside fs w s { s with disk := d' } := by
    intro s n d' heq
    obtain rfl : (fs.dirNext s.disk).2 = d' := congrArg (·.2) heq
    exact .call (.dirNext _) (.refl _)
  fun_induction pumpDir fs s with
  | case1 s => exact .refl s
  | case2 s hgo e d heq => exact (hnext heq).trans (reqFail_aside ..)
  | case3 s hgo d heq => exact (hnext heq).trans (reqDone_aside ..)
  | case4 s hgo e d heq s' hname ih => exact (hnext heq).trans ih
  | case5 s hgo e d heq s' hname hmax => exact (hnext heq).trans (reqDone_aside ..)
  | case6 s hgo e d heq s' hname hmax s'' ih =>
    exact (hnext heq).trans (((entLine_aside s' e).setReq _).trans ih)

theorem pumpDel_aside (k : Nat) (s : Session φ) : Aside fs true s (s.pumpDel fs k) := by
  induction k generalizing s with
  | zero => exact .refl s
  | succ k ih =>
    unfold pumpDel
    split
    · exact (delStep_aside s).trans (ih _)
    · exact .refl s

/-- The request being answered is the same, or over. -/
def ReqKept (s s' : Session φ) : Prop := s'.req.kind = s.req.kind ∨ s'.req.kind = .none

theorem ReqKept.trans {s s' s'' : Session φ} (h : ReqKept s s') (h' : ReqKept s' s'') :
    ReqKept s s'' := by
  unfold ReqKept at *
  grind

theorem ReqKept.other {s s' : Session φ} (h : ReqKept s s') (hkind : s.req.kind ≠ .delete) :
    s'.req.kind ≠ .delete := by
  unfold ReqKept at h
  grind

theorem puts_req (s : Session φ) (ps : List Bytes) : (s.puts ps).req = s.req := by
  induction ps generalizing s with
  | nil => rfl
  | cons p ps ih => exact ih (s.put p)

theorem pumpVols_kept (k : Nat) (s : Session φ) : ReqKept s (s.pumpVols fs k) := by
  induction k generalizing s with
  | zero => exact .inl rfl
  | succ k ih =>
    unfold pumpVols
    split
    · exact .inl rfl
    · split
      · exact .inr rfl
      · refine ReqKept.trans (.inl ?_) (ih _)
        split
        · rfl
        · exact congrArg (·.kind) (puts_req ..)

theorem pumpDir_kept (s : Session φ) : ReqKept s (s.pumpDir fs) := by
  fun_induction pumpDir fs s with
  | case1 s => exact .inl rfl
  | case2 s hgo e d heq => exact .inr rfl
  | case3 s hgo d heq => exact .inr rfl
  | case4 s hgo e d heq s' hname ih => exact ih
  | case5 s hgo e d heq s' hname hmax => exact .inr rfl
  | case6 s hgo e d heq s' hname hmax s'' ih =>
    exact ReqKept.trans (.inl (congrArg (·.kind) (puts_req s' _))) ih

theorem pumpDel_other (k : Nat) (s : Session φ) (h : s.req.kind ≠ .delete) : s.pumpDel fs k = s := by
  cases k with
  | zero => rfl
  | succ k => exact if_neg fun hgo => h hgo.1

theorem getStart_over (s : Session φ) : (s.getStart fs).req.kind = .none := by
  unfold getStart
  dsimp only
  split
  · rfl
  · split
    · rfl
    · split
      · rfl
      · split
        · rfl
        · split
          · split
            · rfl
            · split <;> rfl
          · rfl

theorem writeStart_over (s : Session φ)
    (h : s.req.kind = .mkdir ∨ s.req.kind = .protect ∨ s.req.kind = .note) :
    (s.writeStart fs).req.kind = .none := by
  have hend : ∀ (s : Session φ) (e : Nat), (s.writeEnd fs e).req.kind = .none := by
    intro s e
    unfold writeEnd
    split <;> rfl
  have hvols := @readVols_req φ fs s
  unfold writeStart
  split
  · rfl
  · split
    · rfl
    · rename_i heq
      rw [heq] at hvols
      split
      · rfl
      · dsimp only
        rw [hvols]
        rcases h with h | h | h <;> rw [h] <;> exact hend ..

theorem readStart_kept (s : Session φ) : ReqKept s (s.readStart fs) := by
  have hvols := @readVols_req φ fs s
  unfold readStart
  split
  · exact .inr rfl
  · rename_i heq
    rw [heq] at hvols
    split
    · exact .inr rfl
    · split
      · dsimp only
        split
        · exact .inr rfl
        · exact .inl (congrArg (·.kind) hvols)
      · exact .inr (getStart_over _)

theorem reqStart_other (s : Session φ) (h : ¬s.req.waitKind.isTaking) : (s.reqStart fs).req.kind ≠ .delete := by
  have hother : s.req.waitKind ≠ .delete := by
    rintro hdelete
    simp [hdelete, ReqKind.isTaking] at h
  unfold reqStart
  dsimp only
  split
  · rename_i hwrite
    rw [writeStart_over _ (ReqKind.small hwrite h)]
    nofun
  · split
    · nofun
    · split
      · have hvols := @readVols_req φ fs { s with req := Req.take s.req }
        split
        · nofun
        · rename_i heq
          rw [heq] at hvols
          exact fun hdelete => hother ((congrArg (·.kind) hvols).symm.trans hdelete)
      · exact (readStart_kept _).other hother

theorem reqPump_aside (s : Session φ) (hw : w = false → s.req.kind ≠ .delete ∧ ¬s.req.waitKind.isTaking) :
    Aside fs w s (s.reqPump fs) := by
  unfold reqPump
  dsimp only
  have hstart : Aside fs w s
      (if s.req.kind = .none ∧ s.req.waitKind ≠ .none ∧ s.reqIdle then s.reqStart fs else s) := by
    split
    · exact reqStart_aside s fun hf => (hw hf).2
    · exact .refl s
  have hother : w = false → (if s.req.kind = .none ∧ s.req.waitKind ≠ .none ∧ s.reqIdle
      then s.reqStart fs else s).req.kind ≠ .delete := by
    intro hf
    split
    · exact reqStart_other s (hw hf).2
    · exact (hw hf).1
  revert hstart hother
  generalize (if s.req.kind = .none ∧ s.req.waitKind ≠ .none ∧ s.reqIdle then s.reqStart fs else s) = t
  intro hstart hother
  have hpump := (hstart.trans (pumpVols_aside (t.req.nvols + 1 - t.req.i) t)).trans (pumpDir_aside _)
  cases w with
  | true => exact hpump.trans (pumpDel_aside ..)
  | false =>
    rw [pumpDel_other]
    · exact hpump
    · exact (pumpDir_kept _).other ((pumpVols_kept _ t).other (hother rfl))

theorem refuseReq_aside (s : Session φ) (kind : ReqKind) (id path : Bytes) (code text : String) :
    Aside fs w s (s.refuseReq kind id path code text) := (reqErr_aside ..).trans (emitReq_aside ..)

theorem onRequest_aside (s : Session φ) (c : Bytes) (kind : ReqKind) :
    Aside fs w s (s.onRequest c kind) := by
  unfold onRequest
  split
  · exact reqErr_aside ..
  · split
    · exact reqErr_aside ..
    · split
      · exact refuseReq_aside ..
      · split
        · exact refuseReq_aside ..
        · split
          · exact refuseReq_aside ..
          · split
            · exact refuseReq_aside ..
            · exact ⟨rfl, rfl, rfl, rfl, .refl⟩

-- ---------------------------------------------------------------------------
-- Lines and output
-- ---------------------------------------------------------------------------

theorem addItem_aside (s : Session φ) (c : Bytes) : Aside fs w s (s.addItem c) := by
  unfold addItem
  split
  · split <;> exact ⟨rfl, rfl, rfl, rfl, .refl⟩
  · exact .refl s

theorem onListItem_aside (s : Session φ) (c : Bytes) : Aside fs w s (s.onListItem c) := by
  have hitem : Aside fs w s (s.addItem c) := addItem_aside ..
  unfold onListItem
  dsimp only
  split
  · exact (emit_aside _ _ (by simp)).after ⟨hitem.inData, hitem.cur, hitem.done, hitem.oks, hitem.disk⟩
  · exact ⟨hitem.inData, hitem.cur, hitem.done, hitem.oks, hitem.disk⟩

theorem onList_aside (s : Session φ) (c : Bytes) : Aside fs w s (s.onList c) := by
  unfold onList
  split
  · exact .refl s
  · split
    · exact .refl s
    · dsimp only
      split
      · exact (emit_aside _ _ (by simp)).after ⟨rfl, rfl, rfl, rfl, .refl⟩
      · exact ⟨rfl, rfl, rfl, rfl, .refl⟩

/-- A line that is no FILE's. -/
theorem onWord_aside (s : Session φ) {t : Bytes} (c : Bytes) (ht : t ≠ ascii "FILE") :
    Aside fs w s (s.onWord fs t c) := by
  unfold onWord
  rw [if_neg ht]
  split
  · exact onHello_aside ..
  · split
    · exact ⟨rfl, rfl, rfl, rfl, .refl⟩
    · split
      · exact onList_aside ..
      · split
        · exact onTake_aside ..
        · split
          · exact onMore_aside ..
          · split
            · exact onDone_aside ..
            · split
              · exact onNo_aside ..
              · split
                · exact onRequest_aside ..
                · exact .refl s

theorem takeOutput_aside (s : Session φ) (cap : Nat)
    (hw : w = false → s.req.kind ≠ .delete ∧ ¬s.req.waitKind.isTaking) :
    Aside fs w s (s.takeOutput fs cap).2 := by
  unfold takeOutput
  split
  · exact .refl s
  · split
    · exact upBytes_aside ..
    · have hpump : Aside fs w s (s.reqPump fs) := reqPump_aside s hw
      have hput : Aside fs w s (if (s.reqPump fs).out = [] then (s.reqPump fs).upPut fs else s.reqPump fs) := by
        split
        · exact hpump.trans (upPut_aside _)
        · exact hpump
      exact hput.trans ⟨rfl, rfl, rfl, rfl, .refl⟩

-- ---------------------------------------------------------------------------
-- The link goes
-- ---------------------------------------------------------------------------

theorem lostUp_aside (s : Session φ) : Aside fs w s (s.lostUp fs) := by
  unfold lostUp
  split
  · exact .refl s
  · exact upFailed_aside ..

theorem lostReq_aside (s : Session φ) (hw : w = false → s.req.kind ≠ .delete) :
    Aside fs w s (s.lostReq fs) := by
  unfold lostReq
  dsimp only
  split
  · exact .refl s
  · refine (reqEnd_aside _).after ((emitReq_aside ..).after ?_)
    split
    · rename_i hdelete
      cases w with
      | true => exact delUnhide_aside s
      | false => exact absurd hdelete (hw rfl)
    · exact .refl s

theorem foldl_aside (step : Session φ → α → Session φ) (h : ∀ s x, Aside fs w s (step s x)) (xs : List α)
    (s : Session φ) : Aside fs w s (xs.foldl step s) := by
  induction xs generalizing s with
  | nil => exact .refl s
  | cons x xs ih => exact (h s x).trans (ih (step s x))

theorem lostGets_aside (s : Session φ) : Aside fs w s s.lostGets := by
  unfold lostGets
  split
  · exact .refl s
  · exact foldl_aside _ (fun s (it : UpItem) => (upqRemove_aside s it.tag).trans (emit_aside _ _ (by simp))) _ s

theorem lost_other (s : Session φ) (h : s.req.kind ≠ .delete) :
    ((s.lostFile fs).lostUp fs).req.kind ≠ .delete := by
  have hup : ∀ s : Session φ, (s.lostUp fs).req = s.req := by
    intro s
    unfold lostUp
    split <;> rfl
  rw [hup]
  unfold lostFile
  dsimp only
  split
  · exact h
  · show (if !_ && !_ then _ else _ : Session φ).req.kind ≠ .delete
    split <;> split <;> exact h

theorem disconnected_aside (s : Session φ) (hw : w = false → s.req.kind ≠ .delete) :
    Aside fs w (s.lostFile fs) (s.disconnected fs) := by
  have hlost : Aside fs w (s.lostFile fs) (((s.lostFile fs).lostUp fs).lostReq fs) :=
    (lostUp_aside _).trans (lostReq_aside _ fun hf => lost_other s (hw hf))
  unfold disconnected
  generalize ((s.lostFile fs).lostUp fs).lostReq fs = t at hlost
  have hgets : Aside fs w { t with req := { t.req with waitKind := .none }, helloBrowse := false }
    { t with req := { t.req with waitKind := .none }, helloBrowse := false }.lostGets := lostGets_aside _
  exact ⟨hgets.inData.trans hlost.inData, hgets.cur.trans hlost.cur, hgets.done.trans hlost.done,
    hgets.oks.trans hlost.oks, hlost.disk.trans hgets.disk⟩

theorem lostFile_inData (s : Session φ) : (s.lostFile fs).inData = false := by
  unfold lostFile
  split
  · rename_i h
    simpa using h
  · rfl

theorem disconnected_inData (s : Session φ) : (s.disconnected fs).inData = false :=
  (@disconnected_aside φ fs true s nofun).inData.trans (lostFile_inData s)

end Session

end WebAdf.Receive
