import WebAdf.Receive.Disk

/-!
# How a file ends

With its last byte a file is answered again, stopped, given up, or takes a name.
Until a rename works nothing is done but to ask, to remove the file it replaces,
and to try names.
-/

namespace WebAdf.Receive

open Lib
open Relation (ReflTransGen)

variable {φ : Type} {fs : Fs φ}

/-- A hook before the file has its name. -/
inductive Fs.Prep (fs : Fs φ) (c : Cur) : φ → φ → Prop
  | ask {d d' : φ} (h : fs.Ask d d') : Prep fs c d d'
  | removeOld (h : c.mode = .replace) (d : φ) : Prep fs c d (fs.remove c.path d).2
  | noRename {q : Bytes} {d d' : φ} (h : fs.rename c.tmp q d = (false, d')) : Prep fs c d d'

/-- A name is looked for. -/
inductive Fs.Try (fs : Fs φ) (c : Cur) : φ → φ → Prop
  | ask {d d' : φ} (h : fs.Ask d d') : Try fs c d d'
  | noRename {q : Bytes} {d d' : φ} (h : fs.rename c.tmp q d = (false, d')) : Try fs c d d'

theorem Fs.Try.prep {c : Cur} {d d' : φ} (h : ReflTransGen (fs.Try c) d d') :
    ReflTransGen (fs.Prep c) d d' :=
  h.lift id fun _ _ h => match h with
    | .ask h => .ask h
    | .noRename h => .noRename h

theorem Fs.Ask.prep {c : Cur} {d d' : φ} (h : ReflTransGen fs.Ask d d') : ReflTransGen (fs.Prep c) d d' :=
  h.lift id fun _ _ => .ask

namespace Session

/-- A session on another disk. -/
def onDisk (s : Session φ) (d : φ) : Session φ := { s with disk := d }

/-- A session whose temporary file is closed. -/
def closed (s : Session φ) (d : φ) : Session φ := { s with disk := d, cur := { s.cur with isOpen := false } }

/-- Nothing is received and nothing was saved. -/
structure GaveUp (s s' : Session φ) : Prop where
  inData : s'.inData = false
  done : s'.doneOf = s.doneOf
  oks : s'.oks = s.oks

/-- What becomes of a file with its last byte. -/
inductive Finished (fs : Fs φ) (s : Session φ) : Session φ → Prop
  | repeated (hdup : s.cur.dup = true) : Finished fs s s.repeated
  | stopped (hdup : s.cur.dup = false) (hoff : s.cur.off = true) : Finished fs s s.stopped
  | failed {s' : Session φ} {ok : Bool} {d d' : φ} (hdup : s.cur.dup = false) (hoff : s.cur.off = false)
      (hclose : fs.closeW s.disk = (ok, d)) (hprep : ReflTransGen (fs.Prep s.cur) d d')
      (hend : s'.disk = d' ∨ s'.disk = (fs.remove s.cur.tmp d').2) (hup : GaveUp s s') : Finished fs s s'
  | saved {name : Bytes} {d d' d'' : φ} (hdup : s.cur.dup = false) (hoff : s.cur.off = false)
      (hwrite : s.cur.writeFailed = false) (hcrc : s.cur.crc.toNat = s.cur.crcWant)
      (hclose : fs.closeW s.disk = (true, d)) (hprep : ReflTransGen (fs.Prep s.cur) d d')
      (hrename : fs.rename s.cur.tmp name d' = (true, d'')) :
      Finished fs s ((s.closed d'').saved fs name)

-- ---------------------------------------------------------------------------
-- Failures
-- ---------------------------------------------------------------------------

theorem faultText_ask (s : Session φ) (e : Nat) (dflt : String) (cap : Nat) :
    ∃ d, (s.faultText fs e dflt cap).2 = s.onDisk d ∧ ReflTransGen fs.Ask s.disk d := by
  unfold faultText
  split
  · exact ⟨s.disk, rfl, .refl⟩
  · exact ⟨_, rfl, .single (.fault e _)⟩

theorem GaveUp.of_aside {s s' : Session φ} (h : Aside fs true s s') (hd : s'.inData = false) : GaveUp s s' :=
  ⟨hd, h.done, h.oks⟩

theorem GaveUp.after {s s' s'' : Session φ} (h' : GaveUp s' s'') (hdone : s'.doneOf = s.doneOf)
    (hoks : s'.oks = s.oks) : GaveUp s s'' :=
  ⟨h'.inData, h'.done.trans hdone, h'.oks.trans hoks⟩

theorem puts_same (s : Session φ) (ps : List Bytes) :
    (s.puts ps).doneOf = s.doneOf ∧ (s.puts ps).oks = s.oks ∧ (s.puts ps).cur = s.cur := by
  induction ps generalizing s with
  | nil => exact ⟨rfl, rfl, rfl⟩
  | cons p ps ih => exact ih (s.put p)

theorem emit_oks (s : Session φ) (e : Event) (h : e.kind ≠ .done) : (s.emit e).oks = s.oks := by
  simp [oks, emit, h]

/-- An answer, and the file is over. -/
theorem ended_gaveUp (s : Session φ) (code : String) (text : Bytes) :
    GaveUp s ({ s.replyErr s.cur.id code text with inData := false }.emitFile .failed 0 (some text)) ∧
      ({ s.replyErr s.cur.id code text with inData := false }.emitFile .failed 0 (some text)).disk = s.disk := by
  have hreply : (s.replyErr s.cur.id code text).doneOf = s.doneOf ∧
      (s.replyErr s.cur.id code text).oks = s.oks ∧ (s.replyErr s.cur.id code text).cur = s.cur :=
    puts_same ..
  have hdisk : (s.replyErr s.cur.id code text).disk = s.disk := puts_disk ..
  generalize s.replyErr s.cur.id code text = t at hreply hdisk ⊢
  exact ⟨⟨rfl, hreply.1, (emit_oks _ _ (by simp)).trans hreply.2.1⟩, hdisk⟩

/-- A file given up, its temporary file closed before. -/
theorem failFile_gaveUp (s : Session φ) (code : String) (text : Bytes) (h : s.cur.isOpen = false) :
    GaveUp s (s.failFile fs code text) ∧ (s.failFile fs code text).disk = (fs.remove s.cur.tmp s.disk).2 := by
  have hdrop : s.dropTmp fs = s.onDisk (fs.remove s.cur.tmp s.disk).2 := by
    unfold dropTmp onDisk
    simp [h]
  obtain ⟨hup, hdisk⟩ := ended_gaveUp (s.onDisk (fs.remove s.cur.tmp s.disk).2) code text
  unfold failFile
  rw [hdrop]
  exact ⟨hup.after rfl rfl, hdisk⟩

/-- Given up after asking what went wrong. -/
def Fails (fs : Fs φ) (s s' : Session φ) : Prop :=
  ∃ d, ReflTransGen (fs.Prep s.cur) s.disk d ∧ (s'.disk = d ∨ s'.disk = (fs.remove s.cur.tmp d).2) ∧
    GaveUp s s'

theorem Fails.after {s s' : Session φ} {d : φ} (h : Fails fs (s.onDisk d) s')
    (hprep : ReflTransGen (fs.Prep s.cur) s.disk d) : Fails fs s s' := by
  obtain ⟨d', hd', hend, hup⟩ := h
  exact ⟨d', hprep.trans hd', hend, hup.after rfl rfl⟩

theorem failFile_fails (s : Session φ) (code : String) (text : Bytes) (h : s.cur.isOpen = false) :
    Fails fs s (s.failFile fs code text) := by
  obtain ⟨hup, hdisk⟩ := @failFile_gaveUp φ fs s code text h
  exact ⟨s.disk, .refl, .inr hdisk, hup⟩

theorem failFileErr_fails (s : Session φ) (e : Nat) (dflt : String) (h : s.cur.isOpen = false) :
    Fails fs s (s.failFileErr fs e dflt) := by
  obtain ⟨d, htext, hask⟩ := @faultText_ask φ fs s e dflt 80
  unfold failFileErr
  dsimp only
  rw [htext]
  exact (failFile_fails (s.onDisk d) _ _ h).after (Fs.Ask.prep hask)

theorem failWrite_fails (s : Session φ) (e : Nat) (h : s.cur.isOpen = false) :
    Fails fs s (s.failWrite fs e) := by
  unfold failWrite
  split
  · exact failFileErr_fails s e _ h
  · exact failFile_fails s _ _ h

theorem stranded_asks (s : Session φ) (e : Nat) :
    ReflTransGen fs.Ask s.disk (s.stranded fs e).disk ∧ GaveUp s (s.stranded fs e) := by
  obtain ⟨d, htext, hask⟩ := @faultText_ask φ fs s e "cannot write" 80
  obtain ⟨hup, hdisk⟩ := ended_gaveUp (s.onDisk d) (fileCode e)
    ((s.faultText fs e "cannot write" 80).1 ++ ascii "; the new copy is " ++ s.cur.tmp)
  unfold stranded
  dsimp only
  rw [htext]
  refine ⟨?_, hup.after rfl rfl⟩
  rw [show (s.onDisk d).cur.tmp = s.cur.tmp from rfl, hdisk]
  exact hask

theorem stranded_fails (s : Session φ) (e : Nat) : Fails fs s (s.stranded fs e) := by
  obtain ⟨hask, hup⟩ := @stranded_asks φ fs s e
  exact ⟨_, Fs.Ask.prep hask, .inl rfl, hup⟩

-- ---------------------------------------------------------------------------
-- Names
-- ---------------------------------------------------------------------------

theorem hook_ask (s : Session φ) {f : φ → Bool × φ} (h : fs.Ask s.disk (f s.disk).2) :
    ∃ ok d, s.hook f = (ok, s.onDisk d) ∧ f s.disk = (ok, d) ∧ fs.Ask s.disk d :=
  ⟨_, _, rfl, rfl, h⟩

theorem freeName_ask (k n : Nat) (s : Session φ) :
    ∃ r d, s.freeName fs k n = (r, s.onDisk d) ∧ ReflTransGen fs.Ask s.disk d := by
  induction k generalizing s n with
  | zero => exact ⟨none, s.disk, rfl, .refl⟩
  | succ k ih =>
    unfold freeName
    split
    · exact ⟨none, s.disk, rfl, .refl⟩
    · rename_i name hname
      obtain ⟨there, d, hhook, -, hask⟩ := hook_ask s (.existsRel name s.disk)
      rw [hhook]
      cases there with
      | false => exact ⟨some name, d, rfl, .single hask⟩
      | true =>
        obtain ⟨r, d', heq, hd'⟩ := ih (n + 1) (s.onDisk d)
        exact ⟨r, d', heq, .head hask hd'⟩

/-- A name is found, by a rename that worked, or none. -/
theorem renameFree_cases (k n : Nat) (s : Session φ) :
    (∃ d, s.renameFree fs k n = (none, s.onDisk d) ∧ ReflTransGen (fs.Try s.cur) s.disk d) ∨
      ∃ name d d', s.renameFree fs k n = (some name, s.onDisk d') ∧
        ReflTransGen (fs.Try s.cur) s.disk d ∧ fs.rename s.cur.tmp name d = (true, d') := by
  induction k generalizing s n with
  | zero => exact .inl ⟨s.disk, rfl, .refl⟩
  | succ k ih =>
    unfold renameFree
    split
    · exact .inl ⟨s.disk, rfl, .refl⟩
    · rename_i name hname
      obtain ⟨there, d, hhook, -, hask⟩ := hook_ask s (.existsRel name s.disk)
      have hprep : ReflTransGen (fs.Try s.cur) s.disk d := .single (.ask hask)
      have hlater : ∀ {d' : φ}, ReflTransGen (fs.Try s.cur) s.disk d' →
          (∃ d, (s.onDisk d').renameFree fs k (n + 1) = (none, s.onDisk d) ∧
            ReflTransGen (fs.Try s.cur) s.disk d) ∨
          ∃ name d d'', (s.onDisk d').renameFree fs k (n + 1) = (some name, s.onDisk d'') ∧
            ReflTransGen (fs.Try s.cur) s.disk d ∧ fs.rename s.cur.tmp name d = (true, d'') := by
        intro d' hd'
        rcases ih (n + 1) (s.onDisk d') with ⟨e, heq, he⟩ | ⟨name, e, e', heq, he, hren⟩
        · exact .inl ⟨e, heq, hd'.trans he⟩
        · exact .inr ⟨name, e, e', heq, hd'.trans he, hren⟩
      rw [hhook]
      cases there with
      | true => exact hlater hprep
      | false =>
        rcases hren : fs.rename s.cur.tmp name d with ⟨ok, d'⟩
        have hhook : (s.onDisk d).hook (fs.rename s.cur.tmp name) = (ok, s.onDisk d') := hook_eq hren
        dsimp only
        rw [show (s.onDisk d).cur.tmp = s.cur.tmp from rfl, hhook]
        cases ok with
        | true => exact .inr ⟨name, d, d', rfl, hprep, hren⟩
        | false => exact hlater (hprep.tail (.noRename hren))

-- ---------------------------------------------------------------------------
-- The last byte
-- ---------------------------------------------------------------------------

/-- A closed file is given up or takes a name. -/
inductive Named (fs : Fs φ) (s : Session φ) : Session φ → Prop
  | failed {s' : Session φ} (h : Fails fs s s') : Named fs s s'
  | saved {name : Bytes} {d d' : φ} (hprep : ReflTransGen (fs.Prep s.cur) s.disk d)
      (hrename : fs.rename s.cur.tmp name d = (true, d')) : Named fs s ((s.onDisk d').saved fs name)

theorem ferr_ask (s : Session φ) : ∃ e d, s.ferr fs = (e, s.onDisk d) ∧ fs.Ask s.disk d :=
  ⟨_, _, rfl, .err _⟩

theorem removeOld_prep (s : Session φ) (h : s.cur.mode = .replace) :
    ∃ ok d, s.removeOld fs s.cur.path = (ok, s.onDisk d) ∧ ReflTransGen (fs.Prep s.cur) s.disk d := by
  obtain ⟨there, d, hhook, -, hask⟩ := hook_ask s (.existsRel s.cur.path s.disk)
  have hprep : ReflTransGen (fs.Prep s.cur) s.disk d := .single (.ask hask)
  unfold removeOld
  rw [hhook]
  cases there with
  | true => exact ⟨_, _, rfl, hprep.tail (.removeOld h d)⟩
  | false => exact ⟨true, d, rfl, hprep⟩

theorem replaceFile_named (s : Session φ) (hmode : s.cur.mode = .replace) (hopen : s.cur.isOpen = false) :
    Named fs s (s.replaceFile fs) := by
  obtain ⟨gone, d, hold, hprep⟩ := @removeOld_prep φ fs s hmode
  unfold replaceFile
  rw [hold]
  cases gone with
  | false =>
    obtain ⟨e, d', herr, hask⟩ := @ferr_ask φ fs (s.onDisk d)
    dsimp only
    rw [herr]
    exact .failed ((failFileErr_fails (s.onDisk d') e _ hopen).after (hprep.tail (.ask hask)))
  | true =>
    rcases hren : fs.rename s.cur.tmp s.cur.path d with ⟨ok, d'⟩
    have hhook : (s.onDisk d).hook (fs.rename s.cur.tmp s.cur.path) = (ok, s.onDisk d') := hook_eq hren
    dsimp only
    rw [show (s.onDisk d).cur = s.cur from rfl, hhook]
    cases ok with
    | true => exact .saved hprep hren
    | false =>
      obtain ⟨e, d'', herr, hask⟩ := @ferr_ask φ fs (s.onDisk d')
      have hall : ReflTransGen (fs.Prep s.cur) s.disk d'' := (hprep.tail (.noRename hren)).tail (.ask hask)
      dsimp only
      rw [herr, show (s.onDisk d').onDisk d'' = s.onDisk d'' from rfl]
      rcases @renameFree_cases φ fs 98 2 (s.onDisk d'') with ⟨f, heq, hf⟩ | ⟨name, f, f', heq, hf, hname⟩
      · dsimp only
        rw [heq]
        exact .failed ((stranded_fails (s.onDisk f) e).after (hall.trans (Fs.Try.prep hf)))
      · dsimp only
        rw [heq]
        exact .saved (hall.trans (Fs.Try.prep hf)) hname

theorem keepFile_named (s : Session φ) (hopen : s.cur.isOpen = false) : Named fs s (s.keepFile fs) := by
  obtain ⟨r, d, hfree, hask⟩ := @freeName_ask φ fs 99 1 s
  have hprep : ReflTransGen (fs.Prep s.cur) s.disk d := Fs.Ask.prep hask
  unfold keepFile
  rw [hfree]
  cases r with
  | none => exact .failed ((failFile_fails (s.onDisk d) _ _ hopen).after hprep)
  | some name =>
    rcases hren : fs.rename s.cur.tmp name d with ⟨ok, d'⟩
    have hhook : (s.onDisk d).hook (fs.rename s.cur.tmp name) = (ok, s.onDisk d') := hook_eq hren
    dsimp only
    rw [show (s.onDisk d).cur.tmp = s.cur.tmp from rfl, hhook]
    cases ok with
    | true => exact .saved hprep hren
    | false =>
      have hno := hprep.tail (.noRename hren)
      dsimp only
      split
      · obtain ⟨e, d'', herr, hask⟩ := @ferr_ask φ fs (s.onDisk d')
        rw [herr]
        exact .failed ((failFileErr_fails (s.onDisk d'') e _ hopen).after (hno.tail (.ask hask)))
      · exact .failed ((failFile_fails (s.onDisk d') _ _ hopen).after hno)

/-- The disk and the words of a file that could not be closed. -/
theorem closeFile_closed (s : Session φ) : ∃ ok d d' e, s.closeFile fs = (ok, e, s.closed d') ∧
    fs.closeW s.disk = (ok, d) ∧ ReflTransGen fs.Ask d d' ∧ (ok = true → d' = d) := by
  rcases hclose : fs.closeW s.disk with ⟨ok, d⟩
  have hhook : s.hook fs.closeW = (ok, s.onDisk d) := hook_eq hclose
  unfold closeFile
  rw [hhook]
  cases ok with
  | true => exact ⟨true, d, d, 0, rfl, rfl, .refl, fun _ => rfl⟩
  | false =>
    obtain ⟨e, d', herr, hask⟩ := @ferr_ask φ fs (s.onDisk d)
    dsimp only
    rw [herr]
    exact ⟨false, d, d', e, rfl, rfl, .single hask, nofun⟩

theorem prep_closed {s : Session φ} {d x y : φ} (h : fs.Prep (s.closed d).cur x y) : fs.Prep s.cur x y := by
  cases h with
  | ask h => exact .ask h
  | removeOld h => exact Fs.Prep.removeOld (c := s.cur) h x
  | noRename h => exact .noRename h

theorem Fails.finished {s s' : Session φ} {ok : Bool} {d d' : φ} (hdup : s.cur.dup = false)
    (hoff : s.cur.off = false) (hclose : fs.closeW s.disk = (ok, d)) (hask : ReflTransGen fs.Ask d d')
    (h : Fails fs (s.closed d') s') : Finished fs s s' := by
  obtain ⟨e, he, hend, hup⟩ := h
  exact .failed hdup hoff hclose ((Fs.Ask.prep hask).trans (he.lift id fun _ _ => prep_closed)) hend
    (hup.after rfl rfl)

theorem finishFile_finished (s : Session φ) : Finished fs s (s.finishFile fs) := by
  unfold finishFile
  cases hdup : s.cur.dup with
  | true => exact .repeated hdup
  | false =>
    cases hoff : s.cur.off with
    | true => exact .stopped hdup hoff
    | false =>
      obtain ⟨ok, d, d', e, hfile, hclose, hask, hsame⟩ := @closeFile_closed φ fs s
      rw [if_neg Bool.false_ne_true, if_neg Bool.false_ne_true, hfile]
      dsimp only
      split
      · exact (failWrite_fails (s.closed d') _ rfl).finished hdup hoff hclose hask
      · rename_i hgood
        obtain ⟨hwrite, hok⟩ : s.cur.writeFailed = false ∧ ok = true := by simpa [closed] using hgood
        obtain rfl := hsame hok
        subst hok
        split
        · exact (failFile_fails (s.closed d') _ _ rfl).finished hdup hoff hclose hask
        · rename_i hcrc
          have hnamed : Named fs (s.closed d')
              (if (s.closed d').cur.mode = .replace then (s.closed d').replaceFile fs
                else (s.closed d').keepFile fs) := by
            split
            · rename_i hmode
              exact replaceFile_named _ hmode rfl
            · exact keepFile_named _ rfl
          revert hnamed
          generalize (if (s.closed d').cur.mode = .replace then (s.closed d').replaceFile fs
            else (s.closed d').keepFile fs) = t
          intro hnamed
          cases hnamed with
          | failed h => exact h.finished hdup hoff hclose hask
          | saved hprep hrename =>
            exact .saved hdup hoff hwrite (not_not.mp hcrc) hclose (hprep.lift id fun _ _ => prep_closed)
              hrename

end Session

end WebAdf.Receive
