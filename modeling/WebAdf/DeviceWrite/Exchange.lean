import WebAdf.DeviceWrite.ServerSteps

/-!
# Exchanges nothing interrupts

What the board and a handler do when nothing comes between: an upload goes out
and is staged, and a close records what was staged. Such a run is timely.
-/

namespace WebAdf.DeviceWrite

open Lib DiskHistory Relation

section
variable {σ : Type} [DecidableEq σ] (sha256Of : Bytes → σ) {s : State σ} {d : Disk σ}
  {e : BoardSession} {i : Nat}

theorem step_serve {task : Task σ} (h : s.tasks[i]? = some task) (base head : Bytes) :
    step sha256Of s (.serve i base head) = some (match task with
      | .stage q pc =>
        s.ran (stageTrack s.tables q pc).1 i (.stage q (stageTrack s.tables q pc).2) []
      | .close q pc =>
        let r := closeSession sha256Of s.tables s.made q base head pc
        s.ran r.1 i (.close q r.2.1) r.2.2.toList) := by
  cases task with
  | stage q pc => simp [step, h, serve, State.ran]
  | close q pc => simp [step, h, serve, State.ran]

omit [DecidableEq σ] in
theorem ran_ran (T T' : Tables σ) (x y : Task σ) (rs rs' : List (Recorded σ)) :
    (s.ran T i x rs).ran T' i y rs' = s.ran T' i y (rs ++ rs') := by
  simp [State.ran]

omit [DecidableEq σ] in
theorem ran_task (h : i < s.tasks.length) (T : Tables σ) (x : Task σ) (rs : List (Recorded σ)) :
    (s.ran T i x rs).tasks[i]? = some x := by
  simp [State.ran, h]

-- ---------------------------------------------------------------------------
-- The board
-- ---------------------------------------------------------------------------

/-- The board as an upload or a close leaves it: `waiting` is what it waits for. -/
structure Sending (b : Board σ) (e : BoardSession) (seq : Nat) (waiting : Option (Request σ)) :
    Prop where
  current : b.current = some e
  seq : b.seq = seq
  parked : b.parked = false
  waiting : b.waiting = waiting

omit [DecidableEq σ] in
theorem openSession_image (b : Board σ) (k : Nat) :
    (b.openSession.1.clearDirty k).image = b.image ∧ b.openSession.1.dirty = b.dirty ∧
      b.openSession.1.parked = b.parked ∧ b.openSession.1.current = some b.openSession.2 := by
  rw [Board.openSession]
  split
  · rename_i hcur
    exact ⟨rfl, rfl, rfl, hcur⟩
  · exact ⟨rfl, rfl, rfl, rfl⟩

omit [DecidableEq σ] in
theorem sendTrack_upload (b : Board σ) (k : Nat) :
    (b.sendTrack k).2 = ⟨b.openSession.2, k, b.openSession.1.seq + 1, b.image k⟩ := by
  rw [← (openSession_image b k).1]
  rfl

/-- A track goes out and arrives. -/
theorem send_track (hfree : s.board.free = true) (hnext : s.board.nextDirty = some k) :
    ReachesTimely sha256Of s
      ⟨(s.board.sendTrack k).1, s.tables, s.requests ++ [.upload (s.board.sendTrack k).2],
        s.tasks ++ [.stage (s.board.sendTrack k).2 .start],
        s.made ++ [(s.board.sendTrack k).2], s.records⟩ := by
  let t : State σ :=
    ⟨(s.board.sendTrack k).1, s.tables, s.requests ++ [.upload (s.board.sendTrack k).2], s.tasks,
      s.made ++ [(s.board.sendTrack k).2], s.records⟩
  have hsend : step sha256Of s .sendTrack = some t := by
    simp only [step, if_pos hfree, hnext, Option.map_some]
    rfl
  have hdeliver : step sha256Of t (.deliver s.requests.length) =
      some { t with tasks := t.tasks ++ [.stage (s.board.sendTrack k).2 .start] } := by
    simp [step, t, Request.task]
  exact .head ⟨.sendTrack, trivial, hsend⟩ (.single ⟨.deliver _, trivial, hdeliver⟩)

/-- The Amiga writes a track, and it goes out. -/
theorem write_send (hfree : s.board.free = true) (hk : k < tracks)
    (hclean : ∀ i, i ≠ k → s.board.dirty i = false) (data : Bytes) (u : Upload)
    (hu : u = ⟨s.board.openSession.2, k, s.board.openSession.1.seq + 1, data⟩) :
    ∃ b, ReachesTimely sha256Of s
        ⟨b, s.tables, s.requests ++ [.upload u], s.tasks ++ [.stage u .start], s.made ++ [u],
          s.records⟩ ∧
      Sending b u.session u.seq (some (.upload u)) ∧ ∀ i, b.dirty i = false := by
  let b : Board σ :=
    { s.board with image := Function.update s.board.image k data }.setDirty k
  have hdirty (i : Nat) : b.dirty i = (i == k) := by
    by_cases hi : i = k
    · simp [b, Board.setDirty, hi]
    · simp [b, Board.setDirty, hclean i hi]
  have hnext : b.nextDirty = some k := by
    rw [Board.nextDirty, List.find?_eq_some_iff_getElem]
    refine ⟨by simp [hdirty], k, by simpa using hk, by simp, fun j hj => ?_⟩
    have hne : j ≠ k := by omega
    simp [hdirty, hne]
  have hsent : (b.sendTrack k).2 = u := by
    rw [sendTrack_upload, hu]
    have himage : b.image k = data := by simp [b, Board.setDirty]
    rw [himage]
    simp only [Board.openSession, b, Board.setDirty]
    cases s.board.current <;> rfl
  obtain ⟨-, hsame, hparked, hcur⟩ := openSession_image b k
  refine ⟨(b.sendTrack k).1, ?_, ⟨?_, ?_, ?_, ?_⟩, ?_⟩
  · have hwrite : step sha256Of s (.write k data) = some { s with board := b } := if_pos hk
    have hfree' : b.free = true := hfree
    have hsend := send_track sha256Of (s := { s with board := b }) hfree' hnext
    rw [hsent] at hsend
    exact .head ⟨.write k data, trivial, hwrite⟩ hsend
  · rw [← hsent]
    exact hcur
  · rw [← hsent]
    rfl
  · simp only [Board.free, Bool.and_eq_true, Bool.not_eq_true'] at hfree
    exact hparked.trans hfree.2
  · rw [← hsent]
    rfl
  · intro i
    have hclear : (b.sendTrack k).1.dirty i = (i != k && b.openSession.1.dirty i) := rfl
    rw [hclear, hsame, hdirty]
    by_cases hi : i = k <;> simp [hi]

/-- No answer comes: the track goes again. -/
theorem lost_upload (hs : Sending s.board e seq (some (.upload u)))
    (hclean : ∀ i, s.board.dirty i = false) :
    ∃ b, ReachesTimely sha256Of s { s with board := b } ∧ Sending b e seq none ∧
      ∀ i, i ≠ u.track → b.dirty i = false := by
  refine ⟨s.board.unanswered (.upload u), .single ⟨.lost, trivial, ?_⟩,
    ⟨hs.current, hs.seq, hs.parked, rfl⟩, fun i hi => ?_⟩
  · simp [step, hs.waiting]
  · simp [Board.unanswered, Board.setDirty, hclean i, hi]

/-- The track was staged, and the board learns of it. -/
theorem answer_upload (hs : Sending s.board e seq (some (.upload u)))
    (hclean : ∀ i, s.board.dirty i = false)
    (htask : s.tasks[i]? = some (.stage u (.answered (.staged u.track)))) :
    ∃ b, ReachesTimely sha256Of s { s with board := b } ∧ Sending b e seq none ∧
      ∀ i, b.dirty i = false := by
  refine ⟨s.board.answered (.upload u) (.staged u.track), .single ⟨.answer i, trivial, ?_⟩,
    ⟨hs.current, hs.seq, hs.parked, rfl⟩, hclean⟩
  simp [step, htask, Task.answer, hs.waiting]

/-- With nothing left to send, the close goes out and arrives. -/
theorem send_close (hs : Sending s.board e seq none) (hclean : ∀ i, s.board.dirty i = false)
    (hq : q = ⟨e, seq, sha256Of (imageOf s.board)⟩) :
    ∃ b, ReachesTimely sha256Of s
      ⟨b, s.tables, s.requests ++ [.close q], s.tasks ++ [.close q .start], s.made,
        s.records⟩ := by
  let t : State σ :=
    ⟨{ s.board with waiting := some (.close q) }, s.tables, s.requests ++ [.close q], s.tasks,
      s.made, s.records⟩
  have hfree : s.board.free = true := by
    simp [Board.free, hs.waiting, hs.parked]
  have hnext : s.board.nextDirty = none := by
    rw [Board.nextDirty, List.find?_eq_none]
    exact fun i _ => by simp [hclean i]
  have hsend : step sha256Of s .sendClose = some t := by
    simp [step, hfree, hnext, hs.current, hs.seq, t, hq]
  have hdeliver : step sha256Of t (.deliver s.requests.length) =
      some { t with tasks := t.tasks ++ [.close q .start] } := by
    simp [step, t, Request.task]
  exact ⟨_, .head ⟨.sendClose, trivial, hsend⟩ (.single ⟨.deliver _, trivial, hdeliver⟩)⟩

-- ---------------------------------------------------------------------------
-- stageTrack
-- ---------------------------------------------------------------------------

/-- The board holds the disk `d`, an unprotected DD image, with nothing newer. -/
structure Serves (T : Tables σ) (e : BoardSession) (d : Disk σ) : Prop where
  diskId : T.device.mountedDiskId = some e.diskId
  version : T.device.mountedVersion = e.mount
  desired : T.device.desiredVersion ≤ e.mount
  disk : T.disks e.diskId = some d
  unprotected : d.writeProtected = false
  format : d.imageFormat = .adf
  size : d.sizeBytes = adfBytes

/-- The session's row at its mount, and the tracks staged. -/
structure Open (T : Tables σ) (e : BoardSession) (baseSha256 : σ) (lastSeq : Nat)
    (table : Nat → Option Bytes) : Prop where
  row : T.sessions e.mount = some ⟨e.diskId, lastSeq, e.token, baseSha256, e⟩
  table : T.tracks e.mount = table
  taken : T.taken e = 0

omit [DecidableEq σ] in
theorem Serves.held (h : Serves T e d) : holdsMount T.device e = .held .current := by
  have hcurrent : ¬ T.device.desiredVersion > e.mount := Nat.not_lt.mpr h.desired
  simp [holdsMount, h.diskId, h.version, hcurrent]

theorem run_stage (htask : s.tasks[i]? = some (.stage q pc)) (ht : pc.Timely s q)
    (hrun : stageTrack s.tables q pc = (T, pc')) :
    ReachesTimely sha256Of s (s.ran T i (.stage q pc') []) := by
  refine .single ⟨.serve i [] [], fun task h => ?_, ?_⟩
  · obtain rfl := Option.some.inj (htask.symm.trans h)
    exact ht
  · rw [step_serve sha256Of htask]
    simp only [hrun]

/-- The statements before the session's row is read. -/
theorem stage_held (htask : s.tasks[i]? = some (.stage q .start)) (hs : Serves s.tables q.session d)
    (htrack : q.track < tracks) (hlen : q.data.length = trackDataBytes) :
    ReachesTimely sha256Of s (s.ran s.tables i (.stage q (.session .current d)) []) := by
  have hi : i < s.tasks.length := (List.getElem?_eq_some_iff.mp htask).1
  have hstart : stageTrack s.tables q .start = (s.tables, .held .current) := by
    simp [stageTrack, isTrackUpload, htrack, hlen, hs.held]
  have hheld : stageTrack s.tables q (.held .current) = (s.tables, .session .current d) := by
    simp [stageTrack, hs.disk, trackBytesForDisk, hs.format, hs.size, trackBytesForImage, hlen]
  have hfirst := run_stage sha256Of htask trivial hstart
  have hnext := run_stage sha256Of (ran_task hi s.tables (.stage q (.held .current)) [])
    trivial hheld
  rw [ran_ran] at hnext
  exact hfirst.trans hnext

/-- An upload past the row's `lastSeq` is on its way to the batch. -/
theorem stage_next (htask : s.tasks[i]? = some (.stage q .start)) (hs : Serves s.tables q.session d)
    (htrack : q.track < tracks) (hlen : q.data.length = trackDataBytes)
    (hopen : Open s.tables q.session sha lastSeq table) (hseq : lastSeq < q.seq) :
    ReachesTimely sha256Of s (s.ran s.tables i (.stage q .commit) []) := by
  have hi : i < s.tasks.length := (List.getElem?_eq_some_iff.mp htask).1
  have hrow : stageTrack s.tables q (.session .current d) = (s.tables, .commit) := by
    have hnew : ¬ q.seq ≤ lastSeq := Nat.not_le.mpr hseq
    simp [stageTrack, hopen.row, seqCheck, hnew]
  have hnext := run_stage sha256Of
    (ran_task hi s.tables (.stage q (.session .current d)) []) ?_ hrow
  · rw [ran_ran] at hnext
    exact (stage_held sha256Of htask hs htrack hlen).trans hnext
  · rintro - row ⟨hs, -⟩ hle
    obtain rfl := Option.some.inj (hopen.row.symm.trans hs)
    exact absurd hle (Nat.not_le.mpr hseq)

/-- The session's first upload opens it. -/
theorem stage_first (htask : s.tasks[i]? = some (.stage q .start))
    (hs : Serves s.tables q.session d) (htrack : q.track < tracks)
    (hlen : q.data.length = trackDataBytes) (hseq : 0 < q.seq)
    (hnone : s.tables.sessions q.session.mount = none)
    (hempty : s.tables.tracks q.session.mount = fun _ => none)
    (htaken : s.tables.taken q.session = 0) (hcur : s.board.current = some q.session) :
    ∃ T, ReachesTimely sha256Of s (s.ran T i (.stage q .commit) []) ∧
      Serves T q.session d ∧ Open T q.session d.sha256 0 fun _ => none := by
  have hi : i < s.tasks.length := (List.getElem?_eq_some_iff.mp htask).1
  let S := s.tables.discardOthers q.session
  let T := S.insertSession q.session d.sha256
  have hrow : stageTrack s.tables q (.session .current d) = (s.tables, .discard d) := by
    simp [stageTrack, hnone, mayOpen, hs.unprotected, hs.format]
  have hdiscard : stageTrack s.tables q (.discard d) = (S, .insert d) := rfl
  have hinsert : stageTrack S q (.insert d) = (T, .commit) := by
    have hnew : ¬ q.seq ≤ 0 := Nat.not_le.mpr hseq
    simp [stageTrack, seqCheck, hnew, T]
  have hS : S.sessions q.session.mount = none := by
    simp [S, Tables.discardOthers, hnone]
  let row : Session σ := ⟨q.session.diskId, 0, q.session.token, d.sha256, q.session⟩
  have hT : T = { S with sessions := Function.update S.sessions q.session.mount (some row) } := by
    simp only [T, Tables.insertSession, hS, row]
  refine ⟨T, ?_, ?_, ?_, ?_, ?_⟩
  · have hthird := run_stage sha256Of
      (ran_task hi s.tables (.stage q (.session .current d)) []) ?_ hrow
    · have hfourth := run_stage sha256Of
        (ran_task hi s.tables (.stage q (.discard d)) []) hcur hdiscard
      have hfifth := run_stage sha256Of
        (ran_task hi S (.stage q (.insert d)) []) hcur hinsert
      rw [ran_ran] at hthird hfourth hfifth
      exact (((stage_held sha256Of htask hs htrack hlen).trans hthird).trans hfourth).trans hfifth
    · rintro - row ⟨hs, -⟩
      cases hnone.symm.trans hs
  · rw [hT]
    exact ⟨hs.diskId, hs.version, hs.desired, hs.disk, hs.unprotected, hs.format, hs.size⟩
  · rw [hT]
    exact Function.update_self ..
  · rw [hT]
    simp [S, Tables.discardOthers, hempty]
  · rw [hT]
    exact htaken

omit [DecidableEq σ] in
/-- The batch of an upload, late or not. -/
theorem commit_track (h : Open T q.session sha lastSeq table) (hs : Serves T q.session d) :
    ∃ T', stageTrack T q .commit = (T', .answered (.staged q.track)) ∧ Serves T' q.session d ∧
      Open T' q.session sha q.seq (Function.update table q.track (some q.data)) := by
  refine ⟨_, by simp only [stageTrack, Tables.commitTrack, h.row]; rfl, ?_, ?_, ?_, ?_⟩
  · exact ⟨hs.diskId, hs.version, hs.desired, hs.disk, hs.unprotected, hs.format, hs.size⟩
  · simp
  · simp [h.table]
  · exact h.taken

-- ---------------------------------------------------------------------------
-- closeSession
-- ---------------------------------------------------------------------------

theorem run_close (htask : s.tasks[i]? = some (.close q pc)) (ht : pc.Timely s q)
    (base head : Bytes)
    (hrun : closeSession sha256Of s.tables s.made q base head pc = (T, pc', r)) :
    ReachesTimely sha256Of s (s.ran T i (.close q pc') r.toList) := by
  refine .single ⟨.serve i base head, fun task h => ?_, ?_⟩
  · obtain rfl := Option.some.inj (htask.symm.trans h)
    exact ht
  · rw [step_serve sha256Of htask]
    simp only [hrun]

/-- The statements of a close up to the session's row, which is all staged. -/
theorem close_held (htask : s.tasks[i]? = some (.close q .start)) (hs : Serves s.tables q.session d)
    (hopen : Open s.tables q.session sha q.seq table) :
    ReachesTimely sha256Of s
      (s.ran s.tables i (.close q (.staged d.sha256 ⟨sha, 0⟩)) []) := by
  have hi : i < s.tasks.length := (List.getElem?_eq_some_iff.mp htask).1
  have hstart : closeSession sha256Of s.tables s.made q [] [] .start =
      (s.tables, .held, none) := by
    simp [closeSession, hs.held]
  have hheld : closeSession sha256Of s.tables s.made q [] [] .held =
      (s.tables, .session d.sha256, none) := by
    simp [closeSession, hs.disk]
  have hrow : closeSession sha256Of s.tables s.made q [] [] (.session d.sha256) =
      (s.tables, .staged d.sha256 ⟨sha, 0⟩, none) := by
    simp [closeSession, hopen.row, hopen.taken, Option.filter]
  have hfirst := run_close sha256Of htask trivial [] [] hstart
  have hsecond := run_close sha256Of (ran_task hi s.tables (.close q .held) [])
    trivial [] [] hheld
  have hthird := run_close sha256Of
    (ran_task hi s.tables (.close q (.session d.sha256)) []) ?_ [] [] hrow
  · rw [Option.toList_none, ran_ran] at hsecond hthird
    exact (hfirst.trans hsecond).trans hthird
  · rintro row ⟨hs, -⟩ -
    obtain rfl := Option.some.inj (hopen.row.symm.trans hs)
    rfl

/-- The staged tracks are read and recorded over `base`, the head as well. -/
theorem close_record (base : Bytes)
    (htask : s.tasks[i]? = some (.close q (.staged d.sha256 ⟨sha256Of base, 0⟩)))
    (hs : Serves s.tables q.session d)
    (hopen : Open s.tables q.session (sha256Of base) lastSeq table)
    (hsome : rowsOf table ≠ []) (hhead : sha256Of base = d.sha256)
    (hnext : overlayTracks base (rowsOf table) = some next) (hchanged : next ≠ base)
    (hlast : ∀ u ∈ s.made, u.session = q.session → u.seq ≤ q.seq) :
    ∃ t, ReachesTimely sha256Of s t ∧
      ⟨q.session, 0, sha256Of base, base, next, s.made⟩ ∈ t.records := by
  have hi : i < s.tasks.length := (List.getElem?_eq_some_iff.mp htask).1
  have hread : closeSession sha256Of s.tables s.made q base base
      (.staged d.sha256 ⟨sha256Of base, 0⟩) =
      (s.tables, .record d.sha256 ⟨sha256Of base, 0⟩ (rowsOf table), none) := by
    simp [closeSession, hopen.table, hsome]
  have hfirst := run_close sha256Of htask ?_ base base hread
  · let x : Task σ := .close q (.record d.sha256 ⟨sha256Of base, 0⟩ (rowsOf table))
    obtain ⟨T, pc, hrecord⟩ : ∃ T pc, closeSession sha256Of s.tables s.made q base base
        (.record d.sha256 ⟨sha256Of base, 0⟩ (rowsOf table)) =
        (T, pc, some ⟨q.session, 0, sha256Of base, base, next, s.made⟩) := by
      simp [closeSession, hhead, recordVersion, hnext, hs.disk, hchanged]
    have hsecond := run_close sha256Of (ran_task hi s.tables x []) hlast base base
      hrecord
    exact ⟨_, hfirst.trans hsecond, by simp [State.ran]⟩
  · rintro row hrow
    obtain rfl := Option.some.inj (hopen.row.symm.trans hrow)
    rfl

end

end WebAdf.DeviceWrite
