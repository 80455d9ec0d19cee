import WebAdf.DeviceWrite.Exchange
import WebAdf.Lib.Run

/-!
# What a recorded version holds

In a run of timely steps every version recorded for a session is its base with
each track as the board last uploaded it. One late step is enough to lose a
write: an upload whose answer was lost, still on its way to its batch, lands
after the newer upload of the same track.
-/

namespace WebAdf.DeviceWrite

open Lib DiskHistory

section
variable {σ : Type} [DecidableEq σ] {sha256Of : Bytes → σ} {s t : State σ}

omit [DecidableEq σ] in
theorem Fresh.inv (h : Fresh s) : Inv s := by
  obtain ⟨hreq, htasks, hmade, hrec, hcur, hwait, hsess, htracks, hcomm⟩ := h
  refine ⟨⟨?_, ?_, ?_, ?_, ?_⟩, .left hcur fun u => by simp [hwait], ⟨?_, ?_, ?_⟩, ?_, ?_, ?_⟩
  · simp [hmade]
  · simp [hmade]
  · simp [hmade]
  · simp [hcur]
  · simp [hcomm]
  · simp [hsess]
  · exact fun mount _ t => htracks mount t
  · simp [hcur]
  · simp [hreq]
  · simp [htasks]
  · simp [hrec]

/-- A timely step keeps the invariant. -/
theorem step_inv (h : step sha256Of s a = some t) (ht : Timely s a) (hi : Inv s) : Inv t := by
  cases a with
  | write k data =>
    simp only [step, Option.ite_none_right_eq_some, Option.some.injEq] at h
    obtain ⟨-, rfl⟩ := h
    exact hi.dirtier ⟨rfl, .inr ⟨rfl, rfl, fun j hj => by simp [Board.setDirty, hj]⟩⟩ rfl rfl rfl
  | sendTrack =>
    simp only [step, Option.ite_none_right_eq_some, Option.map_eq_some_iff] at h
    obtain ⟨hfree, k, hnext, rfl⟩ := h
    exact hi.sendTrack hfree hnext
  | torn =>
    simp only [step, Option.ite_none_right_eq_some, Option.some.injEq] at h
    obtain ⟨-, rfl⟩ := h
    exact hi.torn
  | sendClose =>
    simp only [step, Option.ite_none_right_eq_some, Option.map_eq_some_iff, Bool.and_eq_true,
      Option.isNone_iff_eq_none] at h
    obtain ⟨⟨hfree, hnext⟩, e, hcur, rfl⟩ := h
    exact hi.sendClose hfree hnext hcur _
  | answer i =>
    simp only [step] at h
    split at h
    · rename_i r a hans
      obtain ⟨task, htask, ha⟩ := Option.bind_eq_some_iff.mp hans
      simp only [Option.ite_none_right_eq_some, Option.some.injEq] at h
      obtain ⟨hwait, rfl⟩ := h
      exact hi.answer (List.mem_of_getElem? htask) ha hwait
    · cases h
  | lost =>
    simp only [step, Option.map_eq_some_iff] at h
    obtain ⟨r, hwait, rfl⟩ := h
    exact hi.lost hwait
  | reboot =>
    obtain rfl := Option.some.inj h
    exact hi.reboot
  | mounted version diskId image =>
    simp only [step, Option.ite_none_right_eq_some, Option.some.injEq,
      Option.isNone_iff_eq_none] at h
    obtain ⟨hcur, rfl⟩ := h
    exact hi.mounted hcur version diskId image
  | bumped version =>
    obtain rfl := Option.some.inj h
    exact hi.dirtier ⟨rfl, .inr ⟨rfl, rfl, fun _ hj => hj⟩⟩ rfl rfl rfl
  | deliver j =>
    simp only [step, Option.map_eq_some_iff] at h
    obtain ⟨r, hr, rfl⟩ := h
    have hin := List.mem_of_getElem? hr
    have ho : Onward s { s with tasks := s.tasks ++ [r.task] } :=
      ⟨fun _ h => h, fun _ h => h, fun _ h => .inl h, fun _ h => h, fun _ h => .inl h,
        fun _ => .inl rfl, Nat.le_refl _, fun _ he => .inr ⟨he, Nat.le_refl _⟩⟩
    refine hi.onward ho (ho.madeOk hi.made rfl) hi.board rfl (fun _ he => .inl he)
      (fun _ hr => .inl hr) ?_ rfl
    intro x hx
    rcases List.mem_append.mp hx with hold | hnew
    · exact .inl hold
    · obtain rfl := List.mem_singleton.mp hnew
      cases r with
      | upload q => exact .inr ⟨hin, trivial⟩
      | close q => exact .inr ⟨hin, trivial⟩
  | serve i base head =>
    cases htask : s.tasks[i]? with
    | none => simp [step, htask] at h
    | some task =>
      have htimely := ht task htask
      rw [step_serve sha256Of htask, Option.some.injEq] at h
      cases task with
      | stage q pc => exact h ▸ hi.stageTrack (List.mem_of_getElem? htask) htimely
      | close q pc =>
        exact h ▸ hi.closeSession sha256Of (List.mem_of_getElem? htask) htimely base head
  | die i =>
    simp only [step, Option.map_eq_some_iff] at h
    obtain ⟨task, htask, rfl⟩ := h
    have hok := hi.tasks task (List.mem_of_getElem? htask)
    have hdone : TaskOk s task.die := by
      cases task with
      | stage q pc => exact ⟨hok.1, trivial⟩
      | close q pc => exact ⟨hok.1, trivial⟩
    have ho : Onward s { s with tasks := s.tasks.set i task.die } :=
      ⟨fun _ h => h, fun _ h => h, fun _ h => .inl h, fun _ h => h, fun _ h => .inl h,
        fun _ => .inl rfl, Nat.le_refl _, fun _ he => .inr ⟨he, Nat.le_refl _⟩⟩
    refine hi.onward ho (ho.madeOk hi.made rfl) hi.board rfl (fun _ he => .inl he)
      (fun _ hr => .inl hr) ?_ rfl
    intro x hx
    rcases List.mem_or_eq_of_mem_set hx with hold | rfl
    · exact .inl hold
    · cases task <;> exact .inr hdone
  | world device disks =>
    obtain rfl := Option.some.inj h
    have ho : Onward s { s with tables := { s.tables with device := device, disks := disks } } :=
      ⟨fun _ h => h, fun _ h => h, fun _ h => .inl h, fun _ h => h, fun _ h => .inl h,
        fun _ => .inl rfl, Nat.le_refl _, fun _ he => .inr ⟨he, Nat.le_refl _⟩⟩
    have hm := ho.madeOk hi.made rfl
    exact ⟨hm, hi.board, hi.tables.elsewhere device disks,
      fun r hr => ho.requestOk (hi.requests r hr), fun x hx => ho.taskOk hi hm (hi.tasks x hx),
      hi.records⟩

theorem reachesTimely_inv (h : ReachesTimely sha256Of s t) (hi : Inv s) : Inv t :=
  invariant_run (fun _ _ ⟨_, htimely, hstep⟩ hs => step_inv hstep htimely hs) h hi

/-- In every state a timely run reaches, each version recorded for a session is
its base overlaid with the uploads of the session, the last of each track. -/
theorem recorded_overlaid {s₀ : State σ} (hfresh : Fresh s₀) (h : ReachesTimely sha256Of s₀ s) :
    ∀ r ∈ s.records, r.Overlaid :=
  (reachesTimely_inv h hfresh.inv).records

end

-- ---------------------------------------------------------------------------
-- A first upload, and a late one
-- ---------------------------------------------------------------------------

/-- A board with the disk mounted and nothing to send, and the server's rows. -/
def mountedState (base : Bytes) : State Bytes where
  board :=
    { token := 7, mountedVersion := 1, mountedDiskId := "disk", image := fun _ => []
      dirty := fun _ => false, opened := 0, current := none, seq := 0, sent := fun _ => false
      parked := false, waiting := none }
  tables :=
    { device := ⟨some "disk", 1, some "disk", 1⟩
      disks := fun _ => some ⟨base, false, .adf, adfBytes⟩
      sessions := fun _ => none, tracks := fun _ _ => none, committed := [], taken := fun _ => 0 }
  requests := []
  tasks := []
  made := []
  records := []

theorem mountedState_fresh (base : Bytes) : Fresh (mountedState base) :=
  ⟨rfl, rfl, rfl, rfl, rfl, rfl, fun _ => rfl, fun _ _ => rfl, rfl⟩

/-- The board's session of this boot and mount. -/
def firstSession : BoardSession := ⟨1, 7, 1, "disk"⟩

/-- The first upload of a session, up to its batch. -/
theorem first_upload (base : Bytes) (hk : k < tracks) (hdata : data.length = trackDataBytes) :
    let u : Upload := ⟨firstSession, k, 1, data⟩
    ∃ b T, ReachesTimely id (mountedState base)
        ⟨b, T, [.upload u], [.stage u .commit], [u], []⟩ ∧
      Sending b firstSession 1 (some (.upload u)) ∧ (∀ i, b.dirty i = false) ∧
      Serves T firstSession ⟨base, false, .adf, adfBytes⟩ ∧
      Open T firstSession base 0 fun _ => none := by
  intro u
  obtain ⟨b, hsend, hb, hclean⟩ :=
    write_send id (s := mountedState base) rfl hk (fun _ _ => rfl) data u rfl
  let s : State Bytes := ⟨b, (mountedState base).tables, [.upload u], [.stage u .start], [u], []⟩
  have hserves : Serves s.tables u.session ⟨base, false, .adf, adfBytes⟩ :=
    ⟨rfl, rfl, Nat.le_refl _, rfl, rfl, rfl, rfl⟩
  have htask : s.tasks[0]? = some (.stage u .start) := rfl
  obtain ⟨T, hstage, hserves', hopen⟩ := stage_first id htask hserves hk hdata
    Nat.one_pos rfl rfl rfl hb.current
  exact ⟨b, T, hsend.trans hstage, hb, hclean, hserves', hopen⟩

/-- A close of all the session has staged, up to the tracks' rows. -/
theorem reach_close {s : State Bytes} (hs : Sending s.board firstSession seq none)
    (hclean : ∀ i, s.board.dirty i = false)
    (hserves : Serves s.tables firstSession ⟨base, false, .adf, adfBytes⟩)
    (hopen : Open s.tables firstSession base seq table) :
    ∃ b sha, let q : Close Bytes := ⟨firstSession, seq, sha⟩
      ReachesTimely id s
        ⟨b, s.tables, s.requests ++ [.close q], s.tasks ++ [.close q (.staged base ⟨base, 0⟩)],
          s.made, s.records⟩ := by
  obtain ⟨b, hsend⟩ := send_close id hs hclean rfl
  let q : Close Bytes := ⟨firstSession, seq, imageOf s.board⟩
  let t : State Bytes :=
    ⟨b, s.tables, s.requests ++ [.close q], s.tasks ++ [.close q .start], s.made, s.records⟩
  have htask : t.tasks[s.tasks.length]? = some (.close q .start) := by simp [t]
  have hheld := close_held id htask hserves hopen
  have hran : t.ran t.tables s.tasks.length (.close q (.staged base ⟨base, 0⟩)) [] =
      ⟨b, s.tables, s.requests ++ [.close q], s.tasks ++ [.close q (.staged base ⟨base, 0⟩)],
        s.made, s.records⟩ := by
    simp [State.ran, t]
  rw [hran] at hheld
  exact ⟨b, imageOf s.board, hsend.trans hheld⟩

theorem overlay_one (hlen : base.length = adfBytes) (hk : k < tracks)
    (hdata : data.length = trackDataBytes)
    (hnew : slice base (k * trackDataBytes) trackDataBytes ≠ data) :
    ∃ next, overlayTracks base [(k, data)] = some next ∧ next ≠ base ∧
      slice next (k * trackDataBytes) trackDataBytes = data := by
  obtain ⟨next, hnext⟩ : ∃ next, overlayTracks base [(k, data)] = some next := by
    simp [overlayTracks, trackBytesForImage, hlen, isTrackUpload, hk, hdata]
  obtain ⟨n, hn, -, hslice⟩ := overlayTracks_some hnext
  obtain rfl : trackDataBytes = n := by simpa [trackBytesForImage, hlen] using hn
  have htrack := hslice k
  rw [show lastWrite k [(k, data)] = some data by simp [lastWrite], Option.getD_some] at htrack
  refine ⟨next, hnext, ?_, htrack⟩
  rintro rfl
  exact hnew htrack

/-- A disk whose every byte is `x`, and one of its tracks. -/
def diskOf (x : UInt8) : Bytes := List.replicate adfBytes x

def trackOf (x : UInt8) : Bytes := List.replicate trackDataBytes x

theorem trackOf_length (x : UInt8) : (trackOf x).length = trackDataBytes :=
  List.length_replicate ..

theorem trackOf_inj (h : trackOf x = trackOf y) : x = y :=
  (List.replicate_inj.mp h).2.resolve_left (by decide)

theorem slice_diskOf (x : UInt8) (hk : k < tracks) :
    slice (diskOf x) (k * trackDataBytes) trackDataBytes = trackOf x := by
  have hfit : trackDataBytes ≤ adfBytes - k * trackDataBytes := by
    have hle := Nat.mul_le_mul_right trackDataBytes (Nat.succ_le_of_lt hk)
    rw [Nat.succ_mul] at hle
    exact Nat.le_sub_of_add_le' hle
  rw [slice, diskOf, trackOf, List.drop_replicate, List.take_replicate, Nat.min_eq_left hfit]

theorem overlay_diskOf (hk : k < tracks) (h : x ≠ y) :
    ∃ next, overlayTracks (diskOf x) [(k, trackOf y)] = some next ∧ next ≠ diskOf x ∧
      slice next (k * trackDataBytes) trackDataBytes = trackOf y :=
  overlay_one (List.length_replicate ..) hk (trackOf_length y)
    (slice_diskOf x hk ▸ fun heq => h (trackOf_inj heq))

theorem rowsOf_five (data : Bytes) :
    rowsOf (Function.update (fun _ => none) 5 (some data)) = [(5, data)] := rfl

/-- One track, written to a blank disk, uploaded and recorded. -/
theorem recorded_overlaid_five :
    ∃ s, Fresh (mountedState (diskOf 0)) ∧ ReachesTimely id (mountedState (diskOf 0)) s ∧
      (∃ r, r ∈ s.records) ∧ ∀ r ∈ s.records, r.Overlaid := by
  have hk : 5 < tracks := by decide
  obtain ⟨b₁, T₁, hrun₁, hb₁, hclean₁, hserves₁, hopen₁⟩ :=
    first_upload (diskOf 0) hk (trackOf_length 1)
  let u : Upload := ⟨firstSession, 5, 1, trackOf 1⟩
  let s₁ : State Bytes := ⟨b₁, T₁, [.upload u], [.stage u .commit], [u], []⟩
  obtain ⟨T₂, hcommit, hserves₂, hopen₂⟩ := commit_track (q := u) hopen₁ hserves₁
  have hrun₂ : ReachesTimely id s₁ (s₁.ran T₂ 0 (.stage u (.answered (.staged 5))) []) := by
    refine run_stage id rfl (fun row hrow => ?_) hcommit
    obtain rfl := Option.some.inj (hopen₁.row.symm.trans hrow)
    exact ⟨rfl, Nat.one_pos, Nat.lt_of_le_of_lt (Nat.le_of_eq hopen₁.taken) Nat.one_pos⟩
  obtain ⟨b₃, hrun₃, hb₃, hclean₃⟩ := answer_upload id (i := 0)
    (s := s₁.ran T₂ 0 (.stage u (.answered (.staged 5))) []) hb₁ hclean₁ rfl
  let s₃ : State Bytes :=
    ⟨b₃, T₂, [.upload u], [.stage u (.answered (.staged 5))], [u], []⟩
  obtain ⟨b₄, sha, hrun₄⟩ := reach_close (s := s₃) hb₃ hclean₃ hserves₂ hopen₂
  let q : Close Bytes := ⟨firstSession, 1, sha⟩
  let s₄ : State Bytes := ⟨b₄, T₂, [.upload u, .close q],
    [.stage u (.answered (.staged 5)), .close q (.staged (diskOf 0) ⟨diskOf 0, 0⟩)], [u], []⟩
  obtain ⟨next, hnext, hchanged, -⟩ := overlay_diskOf hk (show (0 : UInt8) ≠ 1 by decide)
  have hread : rowsOf (Function.update (fun _ => none) u.track (some u.data)) =
      [(5, trackOf 1)] := rowsOf_five _
  obtain ⟨t, hrun₅, hr⟩ := close_record id (diskOf 0) (s := s₄) (i := 1)
    (q := q) rfl hserves₂ hopen₂ (by rw [hread]; simp) rfl (by rw [hread]; exact hnext)
    hchanged (by simp [s₄, u, q])
  have hrun := (((hrun₁.trans hrun₂).trans hrun₃).trans hrun₄).trans hrun₅
  exact ⟨t, mountedState_fresh _, hrun, ⟨_, hr⟩, recorded_overlaid (mountedState_fresh _) hrun⟩

theorem ReachesTimely.reaches {σ : Type} [DecidableEq σ] {sha256Of : Bytes → σ} {s t : State σ}
    (h : ReachesTimely sha256Of s t) : Reaches sha256Of s t :=
  Relation.ReflTransGen.mono (fun _ _ ⟨a, _, hstep⟩ => ⟨a, hstep⟩) _ _ h

/-- The answer to a first upload is lost; the track is written again, uploaded
and staged; while its session closes, the first upload gets to its batch. -/
theorem late_upload_recorded :
    ¬ ∀ s₀ s : State Bytes, Fresh s₀ → Reaches id s₀ s → ∀ r ∈ s.records, r.Overlaid := by
  intro hall
  have hk : 5 < tracks := by decide
  let u : Upload := ⟨firstSession, 5, 1, trackOf 1⟩
  let v : Upload := ⟨firstSession, 5, 2, trackOf 2⟩
  obtain ⟨b₁, T₁, hrun₁, hb₁, hclean₁, hserves₁, hopen₁⟩ :=
    first_upload (diskOf 0) hk (trackOf_length 1)
  let s₁ : State Bytes := ⟨b₁, T₁, [.upload u], [.stage u .commit], [u], []⟩
  obtain ⟨b₂, hrun₂, hb₂, hclean₂⟩ := lost_upload id (s := s₁) hb₁ hclean₁
  have hfree : b₂.free = true := by simp [Board.free, hb₂.waiting, hb₂.parked]
  have hv : v = ⟨b₂.openSession.2, 5, b₂.openSession.1.seq + 1, trackOf 2⟩ := by
    simp [Board.openSession, hb₂.current, hb₂.seq, v]
  obtain ⟨b₃, hrun₃, hb₃, hclean₃⟩ := write_send id (s := { s₁ with board := b₂ })
    hfree hk hclean₂ (trackOf 2) v hv
  let s₃ : State Bytes :=
    ⟨b₃, T₁, [.upload u, .upload v], [.stage u .commit, .stage v .start], [u, v], []⟩
  have hrun₄ : ReachesTimely id s₃ (s₃.ran T₁ 1 (.stage v .commit) []) :=
    stage_next id rfl hserves₁ hk (trackOf_length 2) hopen₁ Nat.two_pos
  obtain ⟨T₅, hcommit₅, hserves₅, hopen₅⟩ := commit_track (q := v) hopen₁ hserves₁
  have hrun₅ : ReachesTimely id (s₃.ran T₁ 1 (.stage v .commit) [])
      ((s₃.ran T₁ 1 (.stage v .commit) []).ran T₅ 1 (.stage v (.answered (.staged 5))) []) := by
    refine run_stage id rfl (fun row hrow => ?_) hcommit₅
    obtain rfl := Option.some.inj (hopen₁.row.symm.trans hrow)
    exact ⟨rfl, Nat.two_pos, Nat.lt_of_le_of_lt (Nat.le_of_eq hopen₁.taken) Nat.two_pos⟩
  obtain ⟨b₆, hrun₆, hb₆, hclean₆⟩ := answer_upload id (i := 1) (u := v)
    (s := (s₃.ran T₁ 1 (.stage v .commit) []).ran T₅ 1 (.stage v (.answered (.staged 5))) [])
    hb₃ hclean₃ rfl
  let s₆ : State Bytes := ⟨b₆, T₅, [.upload u, .upload v],
    [.stage u .commit, .stage v (.answered (.staged 5))], [u, v], []⟩
  obtain ⟨b₇, sha, hrun₇⟩ := reach_close (s := s₆) hb₆ hclean₆ hserves₅ hopen₅
  let q : Close Bytes := ⟨firstSession, 2, sha⟩
  let s₇ : State Bytes := ⟨b₇, T₅, [.upload u, .upload v, .close q],
    [.stage u .commit, .stage v (.answered (.staged 5)), .close q (.staged (diskOf 0) ⟨diskOf 0, 0⟩)],
    [u, v], []⟩
  -- the first upload's batch: the track and `lastSeq` go back
  obtain ⟨T₈, hcommit₈, hserves₈, hopen₈⟩ := commit_track (q := u) hopen₅ hserves₅
  have hlate : step id s₇ (.serve 0 [] []) =
      some (s₇.ran T₈ 0 (.stage u (.answered (.staged 5))) []) := by
    rw [step_serve id (i := 0) rfl]
    simp only [s₇, hcommit₈]
    rfl
  obtain ⟨next, hnext, hchanged, hstale⟩ := overlay_diskOf hk (show (0 : UInt8) ≠ 1 by decide)
  have hread : rowsOf (Function.update (Function.update (fun _ => none) v.track (some v.data))
      u.track (some u.data)) = [(5, trackOf 1)] := rfl
  obtain ⟨t, hrun₉, hr⟩ := close_record id (diskOf 0) (i := 2) (q := q)
    (s := s₇.ran T₈ 0 (.stage u (.answered (.staged 5))) []) rfl
    hserves₈ hopen₈ (by rw [hread]; simp) rfl (by rw [hread]; exact hnext) hchanged
    (by simp [State.ran, s₇, u, v, q])
  have hbefore : ReachesTimely id (mountedState (diskOf 0)) s₇ := ((hrun₁.trans hrun₂).trans hrun₃).trans
    (hrun₄.trans (hrun₅.trans (hrun₆.trans hrun₇)))
  have hrun := (hbefore.reaches.tail ⟨_, hlate⟩).trans hrun₉.reaches
  obtain ⟨n, hn, -, hhighest, -⟩ := hall _ t (mountedState_fresh _) hrun _ hr
  obtain rfl : trackDataBytes = n := by
    simpa [trackBytesForImage, diskOf] using hn
  have hv2 : Highest [u, v] firstSession 0 v :=
    ⟨by simp, ⟨rfl, Nat.two_pos⟩, by simp [u, v]⟩
  have hfresh : slice next (5 * trackDataBytes) trackDataBytes = trackOf 2 :=
    hhighest v hv2
  exact absurd (trackOf_inj (hstale.symm.trans hfresh)) (by decide)

end WebAdf.DeviceWrite
