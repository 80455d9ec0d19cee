import WebAdf.Receive.Runs

/-!
# What a FILE line and its last byte can do

A FILE is refused, answered again, or its bytes follow into the temporary file;
a file that ends is answered again, given up, or takes a name.
-/

namespace WebAdf.Receive

open Lib
open Relation (ReflTransGen)

variable {φ : Type} {fs : Fs φ}

/-- A hook that looks around and makes drawers. -/
inductive Fs.Look (fs : Fs φ) : φ → φ → Prop
  | call (h : fs.Call false d d') : Look fs d d'
  | folderOk (d : φ) : Look fs d (fs.folderOk d).2
  | freeBytes (d : φ) : Look fs d (fs.freeBytes d).2
  | freeAt (p : Bytes) (d : φ) : Look fs d (fs.freeAt p d).2
  | existsRel (p : Bytes) (d : φ) : Look fs d (fs.existsRel p d).2
  | makeDir (p : Bytes) (d : φ) : Look fs d (fs.makeDir p d).2
  | err (d : φ) : Look fs d (fs.err d).2

namespace Session

-- ---------------------------------------------------------------------------
-- Looking around
-- ---------------------------------------------------------------------------

structure Looked (fs : Fs φ) (s s' : Session φ) : Prop where
  inData : s'.inData = s.inData
  cur : s'.cur = s.cur
  done : s'.doneOf = s.doneOf
  oks : s'.oks = s.oks
  disk : ReflTransGen fs.Look s.disk s'.disk

theorem Looked.refl (s : Session φ) : Looked fs s s := ⟨rfl, rfl, rfl, rfl, .refl⟩

theorem Looked.trans {s s' s'' : Session φ} (h : Looked fs s s') (h' : Looked fs s' s'') :
    Looked fs s s'' :=
  ⟨h'.inData.trans h.inData, h'.cur.trans h.cur, h'.done.trans h.done, h'.oks.trans h.oks,
    h.disk.trans h'.disk⟩

theorem Looked.hook (s : Session φ) {f : φ → Bool × φ} (h : fs.Look s.disk (f s.disk).2) :
    Looked fs s (s.hook f).2 := ⟨rfl, rfl, rfl, rfl, .single h⟩

theorem hook_eq {s : Session φ} {f : φ → Bool × φ} {ok : Bool} {d : φ} (h : f s.disk = (ok, d)) :
    s.hook f = (ok, { s with disk := d }) := by
  simp [hook, h]

theorem Aside.looked {s s' : Session φ} (h : Aside fs false s s') : Looked fs s s' :=
  ⟨h.inData, h.cur, h.done, h.oks, h.disk.lift id fun _ _ => .call⟩

theorem makeParents_looked (ps : List Bytes) (s : Session φ) : Looked fs s (s.makeParents fs ps).2 := by
  induction ps generalizing s with
  | nil => exact .refl s
  | cons p ps ih =>
    have hthere : Looked fs s (s.hook (fs.existsRel p)).2 := .hook s (.existsRel p _)
    unfold makeParents
    split
    · rename_i heq
      rw [heq] at hthere
      exact hthere.trans (ih _)
    · rename_i s' heq
      rw [heq] at hthere
      have hmake : Looked fs s' (s'.hook (fs.makeDir p)).2 := .hook s' (.makeDir p _)
      split <;> rename_i heq <;> rw [heq] at hmake
      · exact (hthere.trans hmake).trans (ih _)
      · exact hthere.trans hmake

theorem refuseErr_looked (s : Session φ) (id : Bytes) (dflt : String) :
    Looked fs s (s.refuseErr fs id dflt) := by
  have herr : Looked fs s (s.ferr fs).2 := ⟨rfl, rfl, rfl, rfl, .single (.err _)⟩
  exact (herr.trans (faultText_aside ..).looked).trans (refuse_aside ..).looked

theorem doneRepeat_looked (s : Session φ) (f : FileLine) : Looked fs s (s.doneRepeat fs f).2 := by
  unfold doneRepeat
  split
  · exact .refl s
  · split
    · exact .hook s (.existsRel _ _)
    · exact .refl s

/-- The place of a file's temporary file. -/
def tmpOf (s : Session φ) : Bytes := parentOf s.cur.path ++ tmpName

/-- A session whose temporary file has its name. -/
def withTmp (s : Session φ) : Session φ := { s with cur := { s.cur with tmp := s.tmpOf } }

/-- What became of a FILE that was checked: refused before its temporary file, at
it, or under way. -/
inductive Checked (fs : Fs φ) (s : Session φ) : Bool × Session φ → Prop
  | refused {s' : Session φ} (h : Looked fs s s') : Checked fs s (false, s')
  | unopened {s' s'' : Session φ} {d : φ} (h : Looked fs s s')
      (hopen : fs.openW s'.tmpOf s'.disk = (false, d))
      (hend : Looked fs { s'.withTmp with disk := d } s'') : Checked fs s (false, s'')
  | opened {s' : Session φ} {d : φ} (h : Looked fs s s')
      (hopen : fs.openW s'.tmpOf s'.disk = (true, d)) : Checked fs s (true, { s'.withTmp with disk := d })

theorem Checked.after {s s' : Session φ} {r : Bool × Session φ} (h' : Checked fs s' r)
    (h : Looked fs s s') : Checked fs s r := by
  cases h' with
  | refused hl => exact .refused (h.trans hl)
  | unopened hl hopen hend => exact .unopened (h.trans hl) hopen hend
  | opened hl hopen => exact .opened (h.trans hl) hopen

/-- The temporary file's opening, with the answer to its failure. -/
theorem openTmp_checked (s : Session φ) {refusal : String → Session φ → Session φ}
    (hrefusal : ∀ text s, Looked fs s (refusal text s)) :
    Checked fs s (match s.openTmp fs with
      | (some text, s) => (false, refusal text s)
      | (none, s) => (true, s)) := by
  have hparents : Looked fs s (s.makeParents fs (parentsOf s.cur.path)).2 := makeParents_looked ..
  unfold openTmp
  rcases hmake : s.makeParents fs (parentsOf s.cur.path) with ⟨ok, s'⟩
  rw [hmake] at hparents
  cases ok with
  | false => exact .refused (hparents.trans (hrefusal ..))
  | true =>
    dsimp only
    rcases hopen : fs.openW s'.tmpOf s'.disk with ⟨ok, d⟩
    have hhook : s'.withTmp.hook (fs.openW s'.tmpOf) = (ok, { s'.withTmp with disk := d }) := hook_eq hopen
    unfold withTmp tmpOf at hhook
    rw [hhook]
    cases ok with
    | false => exact .unopened hparents hopen (hrefusal ..)
    | true => exact .opened hparents hopen

theorem relFileStart_checked (s : Session φ) (id : Bytes) (size : Nat) :
    Checked fs s (s.relFileStart fs id size) := by
  unfold relFileStart
  split
  · exact .refused (refuse_aside ..).looked
  · have hfolder : Looked fs s (s.hook fs.folderOk).2 := .hook s (.folderOk _)
    split <;> rename_i heq <;> rw [heq] at hfolder
    · exact .refused (hfolder.trans (refuse_aside ..).looked)
    · rename_i s'
      have hfree : Looked fs s' { s' with disk := (fs.freeBytes s'.disk).2 } :=
        ⟨rfl, rfl, rfl, rfl, .single (.freeBytes _)⟩
      dsimp only
      split
      · exact .refused (hfolder.trans (hfree.trans (refuse_aside ..).looked))
      · exact ((openTmp_checked _ fun text s => (refuse_aside s ..).looked).after hfree).after hfolder

theorem absFileStart_checked (s : Session φ) (id : Bytes) (size : Nat) :
    Checked fs s (s.absFileStart fs id size) := by
  unfold absFileStart
  split
  · exact .refused (refuse_aside ..).looked
  · split
    · exact .refused (refuse_aside ..).looked
    · have hvols : Looked fs s (s.readVols fs).2 := (readVols_aside s).looked
      split <;> rename_i heq <;> rw [heq] at hvols
      · exact .refused (hvols.trans (refuse_aside ..).looked)
      · rename_i vols s'
        have hstat : Looked fs s' (s'.statPath fs).2.2 :=
          ⟨rfl, rfl, rfl, rfl, .single (.call (.stat _ _))⟩
        have hfree : Looked fs (s'.statPath fs).2.2
            { (s'.statPath fs).2.2 with
              disk := (fs.freeAt (s'.statPath fs).2.2.cur.path (s'.statPath fs).2.2.disk).2 } :=
          ⟨rfl, rfl, rfl, rfl, .single (.freeAt _ _)⟩
        dsimp only
        split
        · exact .refused (hvols.trans (refuse_aside ..).looked)
        · split
          · exact .refused (hvols.trans (hstat.trans ((puts_aside ..).trans (emit_aside _ _ (by simp))).looked))
          · split
            · exact .refused (hvols.trans (hstat.trans (refuse_aside ..).looked))
            · split
              · exact .refused (hvols.trans (hstat.trans (hfree.trans (refuse_aside ..).looked)))
              · exact (((openTmp_checked _ fun text s => refuseErr_looked s id text).after hfree).after
                  hstat).after hvols

/-- A FILE line's path, comment and mode. -/
def withLine (s : Session φ) (f : FileLine) : Session φ :=
  { s with cur := { s.cur with path := f.path, comment := f.comment, mode := f.mode } }

/-- What a FILE line does. -/
inductive Started (fs : Fs φ) (s : Session φ) (f : FileLine) : Session φ → Prop
  | repeated {s' : Session φ} (h : (s.withLine f).doneRepeat fs f = (true, s')) : Started fs s f (s'.go fs f true)
  | refused {s' : Session φ} (h : Checked fs (s.withLine f) (false, s')) : Started fs s f s'
  | began {s' : Session φ} (h : Checked fs (s.withLine f) (true, s')) : Started fs s f (s'.go fs f false)

theorem startFile_started (s : Session φ) (f : FileLine) : Started fs s f (s.startFile fs f) := by
  have hdone : Looked fs (s.withLine f) ((s.withLine f).doneRepeat fs f).2 := doneRepeat_looked ..
  unfold startFile
  dsimp only
  split
  · rename_i heq
    exact .repeated heq
  · rename_i s' heq
    rw [show s.withLine f = { s with cur := { s.cur with path := f.path, comment := f.comment, mode := f.mode } }
      from rfl, heq] at hdone
    have hcheck : Checked fs s' (if f.mode ≠ .none then s'.absFileStart fs f.id f.size
        else s'.relFileStart fs f.id f.size) := by
      split
      · exact absFileStart_checked ..
      · exact relFileStart_checked ..
    split <;> rename_i heq <;> rw [heq] at hcheck
    · exact .began (hcheck.after hdone)
    · exact .refused (hcheck.after hdone)

theorem onWord_file (s : Session φ) (c : Bytes) : s.onWord fs (ascii "FILE") c =
    if s.up.phase = .skip ∨ s.up.phase = .data then
      s.protocolError fs "the board sent a file mid-upload"
    else s.onFile fs c := rfl

/-- A line starts a file, or leaves the file received alone. -/
theorem endLine_cases {w : Bool} (s : Session φ) : Aside fs w { s with line := [] } (s.endLine fs) ∨
    ∃ f c, s.listExpect = 0 ∧ tok (chomp s.line) = (some (ascii "FILE"), c) ∧ parseFile c = .ok f ∧
      s.endLine fs = { s with line := [] }.startFile fs f := by
  unfold endLine onLine
  split
  · exact .inl (onListItem_aside ..)
  · rename_i hlist
    split
    · exact .inl (.refl _)
    · rename_i t c heq
      by_cases ht : t = ascii "FILE"
      · subst ht
        rw [onWord_file]
        split
        · exact .inl (protocolError_aside ..)
        · unfold onFile
          split
          · exact .inl (refuse_aside ..)
          · rename_i f hparse
            exact .inr ⟨f, c, not_not.mp hlist, heq, hparse, rfl⟩
      · exact .inl (onWord_aside _ c ht)

end Session

end WebAdf.Receive
