import WebAdf.Receive.Saved

/-!
# A file is never written twice

The file saved last may come again because its OK was lost. With its copy still
there the bytes are read and dropped, and the answer is the same OK.
-/

namespace WebAdf.Receive

open Lib
open Relation (ReflTransGen)

variable {φ π : Type} {fs : Fs φ} {k : Shelf φ π}

theorem parseFile_id {c : Bytes} {f : FileLine} (h : parseFile c = .ok f) : f.id ≠ [] := by
  unfold parseFile at h
  split at h
  · simp at h
  · rename_i id rest htok
    split at h
    · simp at h
    · rename_i hid
      have hne : id ≠ [] := by
        rintro rfl
        simp [idOk] at hid
      dsimp only at h
      split at h
      · simp at h
      · split at h
        · simp at h
        · split at h
          · split at h
            · simp at h
            · split at h
              · simp at h
              · split at h
                · simp at h
                · cases h
                  exact hne
          · simp at h

namespace Session

/-- The FILE line in `s` announces the file saved last, and its copy is there. -/
structure Resent (fs : Fs φ) (s : Session φ) (f : FileLine) (D : Done) (d : φ) : Prop where
  idle : s.inData = false
  items : s.listExpect = 0
  phase : s.up.phase ≠ .skip ∧ s.up.phase ≠ .data
  line : ∃ c, tok (chomp s.line) = (some (ascii "FILE"), c) ∧ parseFile c = .ok f
  last : s.doneOf = some D
  same : (D.id, D.size, D.crc) = lineName f
  there : fs.existsRel D.saved s.disk = (true, d)

/-- The bytes of a repeat are awaited; only requests touched the disk. -/
structure Repeating (fs : Fs φ) (n : Name) (D : Done) (d : φ) (s : Session φ) : Prop where
  inData : s.inData = true
  dup : s.cur.dup = true
  left : 0 < s.cur.left
  announced : s.announced = n
  last : s.doneOf = some D
  id : D.id ≠ []
  same : (D.id, D.size, D.crc) = n
  disk : ReflTransGen (fs.Call true) d s.disk

/-- The OK of the file saved last, once more. -/
structure Answered (fs : Fs φ) (n : Name) (D : Done) (d : φ) (oks : List Event) (s : Session φ) : Prop where
  idle : s.inData = false
  oks : s.oks = oks ++ [okEvent n D.saved]
  line : ∃ t : Session φ, t.announced = n ∧ s.out = (t.replyOk D.saved).out
  last : s.doneOf = some D
  disk : ReflTransGen (fs.Call true) d s.disk

/-- A pass over a repeat's bytes. -/
theorem eat_dup {s : Session φ} (hd : s.inData = true) (hdup : s.cur.dup = true) (data : Bytes) :
    s.eat fs data = if (s.countData data).markData.cur.left = 0 then (s.countData data).markData.repeated
      else (s.countData data).markData := by
  have hswitch : s.switchChanged fs = s := switchChanged_settled (by simp [Settled, hdup])
  have hwrite : s.writeData fs data = s := by
    unfold writeData
    exact if_pos (by simp [hdup])
  unfold eat
  dsimp only
  rw [hswitch, hwrite]
  split
  · unfold finishFile
    refine if_pos ?_
    unfold markData
    dsimp only
    split <;> exact hdup
  · rfl

theorem Repeats.answered {n : Name} {D : Done} {d : φ} {s : Session φ} (h : s.Repeats D)
    (hann : s.announced = n) (hdisk : ReflTransGen (fs.Call true) d s.disk) :
    Answered fs n D d s.oks s.repeated := by
  obtain ⟨hanswer, hrepeats, -, hsame⟩ := repeated_answers s h
  refine ⟨hanswer.inData, ?_, ?_, hrepeats.1, ?_⟩
  · rw [hanswer.oks, hsame, hann]
  · obtain ⟨t, ht, hline⟩ := hanswer.line
    exact ⟨t, ht.trans (hsame.trans hann), hline⟩
  · rw [repeated_disk]
    exact hdisk

theorem markData_disk (s : Session φ) : s.markData.disk = s.disk := by
  unfold markData
  dsimp only
  split <;> rfl

theorem markData_inData (s : Session φ) : s.markData.inData = s.inData := by
  unfold markData
  dsimp only
  split <;> rfl

theorem markData_dup (s : Session φ) : s.markData.cur.dup = s.cur.dup := by
  unfold markData
  dsimp only
  split <;> rfl

/-- Bytes of a repeat are dropped; its last is answered. -/
theorem Repeating.eat {n : Name} {D : Done} {d : φ} {s : Session φ} (h : Repeating fs n D d s) (data : Bytes) :
    (s.eat fs data).disk = s.disk ∧
      (data.length < s.cur.left ∧ Repeating fs n D d (s.eat fs data) ∧ (s.eat fs data).oks = s.oks ∧
        (s.eat fs data).cur.left = s.cur.left - data.length ∨
      s.cur.left ≤ data.length ∧ Answered fs n D d s.oks (s.eat fs data)) := by
  have hquiet : Quiet s (s.countData data).markData := (countData_quiet s data).trans (markData_quiet _)
  have hleft : (s.countData data).markData.cur.left = s.cur.left - data.length := markData_left _
  have hdisk : (s.countData data).markData.disk = s.disk := markData_disk _
  rw [eat_dup h.inData h.dup]
  split
  · rename_i hzero
    have hann : (s.countData data).markData.announced = n := hquiet.announced.trans h.announced
    have hrepeats : (s.countData data).markData.Repeats D :=
      ⟨hquiet.done.trans h.last, h.id, h.same.trans hann.symm⟩
    refine ⟨(repeated_disk _).trans hdisk, .inr ⟨by omega, ?_⟩⟩
    rw [← hquiet.oks]
    exact hrepeats.answered hann (by rw [hdisk]; exact h.disk)
  · rename_i hmore
    refine ⟨hdisk, .inl ⟨by omega, ⟨?_, ?_, by omega, ?_, ?_, h.id, h.same, ?_⟩, hquiet.oks, hleft⟩⟩
    · rw [markData_inData]
      exact h.inData
    · rw [markData_dup]
      exact h.dup
    · exact hquiet.announced.trans h.announced
    · exact hquiet.done.trans h.last
    · rw [hdisk]
      exact h.disk

theorem Repeating.aside {n : Name} {D : Done} {d : φ} {s s' : Session φ} (h : Repeating fs n D d s)
    (ha : Aside fs true s s') : Repeating fs n D d s' := by
  refine ⟨ha.inData.trans h.inData, ?_, ?_, ?_, ha.done.trans h.last, h.id, h.same, h.disk.trans ha.disk⟩
  · rw [ha.cur]
    exact h.dup
  · rw [ha.cur]
    exact h.left
  · unfold Session.announced
    rw [ha.cur]
    exact h.announced

/-- While the link stays, a repeat goes on or is answered. -/
theorem Repeating.live {n : Name} {D : Done} {d : φ} {s s' : Session φ} (h : Repeating fs n D d s)
    (hstep : Live fs s s') :
    Repeating fs n D d s' ∧ s'.oks = s.oks ∨ Answered fs n D d s.oks s' := by
  have haside : Aside fs true s s' → Repeating fs n D d s' ∧ s'.oks = s.oks ∨ Answered fs n D d s.oks s' :=
    fun ha => .inl ⟨h.aside ha, ha.oks⟩
  cases hstep with
  | char c hd => exact absurd (hd.symm.trans h.inData) (by simp)
  | line hd => exact absurd (hd.symm.trans h.inData) (by simp)
  | bytes data hd hlen =>
    obtain ⟨-, ⟨-, hmore, hoks, -⟩ | ⟨-, hend⟩⟩ := h.eat data
    · exact .inl ⟨hmore, hoks⟩
    · exact .inr hend
  | takeOutput cap => exact haside (takeOutput_aside s cap nofun)
  | upCancel tag => exact haside (upCancel_aside s tag)
  | trustNow => exact haside (trustNow_aside s)
  | switchChanged =>
    rw [switchChanged_settled (by simp [Settled, h.dup])]
    exact .inl ⟨h, rfl⟩
  | front q q' hq hdone =>
    refine .inl ⟨⟨h.inData, h.dup, h.left, h.announced, ?_, h.id, h.same, h.disk⟩, rfl⟩
    rw [← h.last]
    simp [doneOf, hq, hdone]

theorem Resent.endLine {s : Session φ} {f : FileLine} {D : Done} {d : φ} (h : Resent fs s f D d) :
    s.endLine fs = (({ s with line := [] }.withLine f).onDisk d).go fs f true := by
  obtain ⟨c, htok, hparse⟩ := h.line
  have hid := parseFile_id hparse
  have hdone : ({ s with line := [] }.withLine f).doneRepeat fs f =
      (true, ({ s with line := [] }.withLine f).onDisk d) := by
    obtain ⟨q, hq, hD⟩ := Option.map_eq_some_iff.mp h.last
    have hq' : ({ s with line := [] }.withLine f).upq = some q := hq
    obtain ⟨hsame, hsize, hcrc⟩ : D.id = f.id ∧ D.size = f.size ∧ D.crc = f.crc := by
      simpa [lineName] using h.same
    unfold doneRepeat
    rw [hq']
    dsimp only
    rw [hD, if_pos ⟨hsame ▸ hid, hsame, hsize, hcrc⟩]
    exact hook_eq h.there
  have hstart : { s with line := [] }.startFile fs f =
      (({ s with line := [] }.withLine f).onDisk d).go fs f true := by
    unfold startFile
    dsimp only
    rw [show ({ s with line := [], cur := _ } : Session φ) = { s with line := [] }.withLine f from rfl, hdone]
  rw [← hstart]
  unfold Session.endLine onLine
  rw [if_neg (not_not.mpr h.items), htok]
  dsimp only
  rw [onWord_file, if_neg (not_or.mpr h.phase)]
  unfold onFile
  rw [hparse]

theorem Resent.go {s : Session φ} {f : FileLine} {D : Done} {d : φ} (h : Resent fs s f D d) :
    (s.endLine fs).disk = d ∧
      (Repeating fs (lineName f) D d (s.endLine fs) ∧ (s.endLine fs).oks = s.oks ∧
        (s.endLine fs).cur.left = f.size ∨
      f.size = 0 ∧ Answered fs (lineName f) D d s.oks (s.endLine fs)) := by
  obtain ⟨c, -, hparse⟩ := h.line
  let u := ({ s with line := [] }.withLine f).onDisk d
  have haside := @goState_aside φ fs true u f true
  have hid : D.id ≠ [] := by
    have hsame : D.id = f.id := congrArg (·.1) h.same
    rw [hsame]
    exact parseFile_id hparse
  have hdisk : (u.goState f true).disk = d := goState_disk ..
  rw [h.endLine, go_goState]
  generalize u.goState f true = v at haside hdisk ⊢
  have hann : v.announced = lineName f := by
    unfold Session.announced
    rw [haside.cur]
    rfl
  have hlast : v.doneOf = some D := haside.done.trans h.last
  have hdup : v.cur.dup = true := by
    rw [haside.cur]
    rfl
  have hleft : v.cur.left = f.size := by
    rw [haside.cur]
    rfl
  split
  · rename_i hsize
    have hend : v.finishFile fs = v.repeated := if_pos hdup
    rw [hend]
    refine ⟨(repeated_disk v).trans hdisk, .inr ⟨hsize, ?_⟩⟩
    rw [show s.oks = v.oks from haside.oks.symm]
    exact Repeats.answered ⟨hlast, hid, h.same.trans hann.symm⟩ hann (by rw [hdisk])
  · rename_i hsize
    refine ⟨hdisk, .inl ⟨⟨haside.inData, hdup, by omega, hann, hlast, hid, h.same, by rw [hdisk]⟩,
      haside.oks, hleft⟩⟩

/-- All bytes of a repeat, at once or in parts, and its answer. -/
theorem Repeating.feed {n : Name} {D : Done} {d : φ} (data : Bytes) (s : Session φ)
    (h : Repeating fs n D d s) (hlen : data.length = s.cur.left) :
    ∃ s', s.feed fs data = (true, s') ∧ Answered fs n D d s.oks s' ∧ s'.disk = s.disk := by
  generalize hn : data.length = m
  induction m using Nat.strongRecOn generalizing data s with
  | ind m ih =>
    subst hn
    have hne : data ≠ [] := by
      rintro rfl
      exact absurd hlen (by simpa using Nat.ne_of_lt h.left)
    have hk := s.passLen_le data.length
    have hpos := s.passLen_pos (List.length_pos_of_ne_nil hne) h.left
    rw [feed_bytes h.inData hne]
    obtain ⟨hdisk, ⟨hlt, hmore, hoks, hleft⟩ | ⟨hle, hend⟩⟩ := h.eat (data.take (s.passLen data.length))
    · rw [List.length_take] at hlt hleft
      have hrest : (data.drop (s.passLen data.length)).length = data.length - s.passLen data.length :=
        List.length_drop
      obtain ⟨s', hfeed, hans, hsame⟩ := ih (data.length - s.passLen data.length) (by omega)
        (data.drop (s.passLen data.length)) _ hmore (by omega) hrest
      exact ⟨s', hfeed, hoks ▸ hans, hsame.trans hdisk⟩
    · rw [List.length_take] at hle
      rw [List.drop_of_length_le (by omega), feed_nil]
      exact ⟨_, rfl, hend, hdisk⟩

theorem Resent.live {s s' : Session φ} {f : FileLine} {D : Done} {d : φ} (h : Resent fs s f D d)
    (hrun : ReflTransGen (Live fs) (s.endLine fs) s') :
    Repeating fs (lineName f) D d s' ∧ s'.oks = s.oks ∨
      ∃ t, ReflTransGen (Live fs) (s.endLine fs) t ∧ ReflTransGen (Live fs) t s' ∧
        Answered fs (lineName f) D d s.oks t := by
  induction hrun with
  | refl =>
    obtain ⟨-, ⟨hmore, hoks, -⟩ | ⟨-, hend⟩⟩ := h.go
    · exact .inl ⟨hmore, hoks⟩
    · exact .inr ⟨_, .refl, .refl, hend⟩
  | tail hbefore hstep ih =>
    rcases ih with ⟨hmore, hoks⟩ | ⟨t, ht, ht', hend⟩
    · rcases hmore.live hstep with ⟨hmore', hoks'⟩ | hend
      · exact .inl ⟨hmore', hoks'.trans hoks⟩
      · exact .inr ⟨_, hbefore.tail hstep, .refl, hoks ▸ hend⟩
    · exact .inr ⟨t, ht, ht'.tail hstep, hend⟩

theorem Resent.feed {s : Session φ} {f : FileLine} {D : Done} {d : φ} (h : Resent fs s f D d) {data : Bytes}
    (hlen : data.length = f.size) :
    ∃ s', (s.endLine fs).feed fs data = (true, s') ∧ Answered fs (lineName f) D d s.oks s' ∧ s'.disk = d := by
  obtain ⟨hdisk, ⟨hmore, hoks, hleft⟩ | ⟨hzero, hend⟩⟩ := h.go
  · obtain ⟨s', hfeed, hans, hsame⟩ := hmore.feed data _ (hlen.trans hleft.symm)
    exact ⟨s', hfeed, hoks ▸ hans, hsame.trans hdisk⟩
  · obtain rfl : data = [] := List.eq_nil_of_length_eq_zero (hlen.trans hzero)
    exact ⟨_, feed_nil _, hend, hdisk⟩

end Session

end WebAdf.Receive
