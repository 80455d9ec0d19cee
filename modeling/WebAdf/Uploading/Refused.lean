import WebAdf.Uploading.Kept

/-!
# A write the server refuses

A 409 `write_protected` gives up what the board has, and nothing of it is kept:
the runs here write a track of a high-density disk, have it refused, and open
the next session over another track.
-/

namespace WebAdf.Uploading

open Lib TrackCache DeviceWrite

section
variable {σ : Type}

/-- At rest over a high-density disk, with nothing staged. -/
structure Ready (s : State σ) : Prop where
  kind : s.board.psram.slotKind s.board.slot = .adfHd
  complete : Complete s.board.psram s.board.slot
  store : s.board.store = none
  pc : s.board.pc = .idle
  current : s.board.up.current = none
  parked : s.board.up.parked = false
  halted : s.board.client.halted = false
  sha : s.board.client.mountedSha.isSome = true
  rows : ∀ e, s.rows e = .empty

/-- What the uploader leaves alone on its way to an answer. -/
structure Beside (s s' : State σ) : Prop where
  turn : Turn s.board s'.board
  client : s'.board.client = s.board.client
  parked : s'.board.up.parked = s.board.up.parked
  base : s'.base = s.base
  rows : s'.rows = s.rows

theorem Beside.trans {s s' s'' : State σ} (h : Beside s s') (h' : Beside s' s'') : Beside s s'' :=
  ⟨h.turn.trans h'.turn, h'.client.trans h.client, h'.parked.trans h.parked, h'.base.trans h.base,
    h'.rows.trans h.rows⟩

/-- A session over, with nothing else touched. -/
theorem Ready.beside {s s' : State σ} (h : Ready s) (hb : Beside s s') (hpc : s'.board.pc = .idle)
    (hcur : s'.board.up.current = none) : Ready s' where
  kind := by
    rw [hb.turn.slot, same_slotKind (hb.turn.same 0)]
    exact h.kind
  complete := hb.turn.complete h.complete
  store := hb.turn.store.trans h.store
  pc := hpc
  current := hcur
  parked := hb.parked.trans h.parked
  halted := by
    rw [hb.client]
    exact h.halted
  sha := by
    rw [hb.client]
    exact h.sha
  rows := by
    rw [hb.rows]
    exact h.rows

/-- The board after a write of the drive's that nothing came between. -/
def Board.wrote (b : Board σ) (t : Nat) (adf : Bytes) : Board σ :=
  { b with
    psram := (b.psram.copyIn b.slot t 0 adf).setTrack b.slot t (hdTrackDataBytes * 8) .dirty
    gen := ((b.gen + 1) % 2 ^ 32 + 1) % 2 ^ 32
    store := none }

theorem wrote_drive {b : Board σ} (hc : Complete b.psram b.slot)
    (ht : t < tracks) (adf : Bytes) :
    (b.wrote t adf).dirty t = true ∧ Complete (b.wrote t adf).psram b.slot ∧
      ∀ i ≠ t, (b.wrote t adf).dirty i = b.dirty i ∧ (b.wrote t adf).held i = b.held i := by
  have hu := usable_of_have (hc t ht)
  have hset := trackState_setTrack (b.psram.copyIn b.slot t 0 adf) b.slot t (hdTrackDataBytes * 8)
    .dirty hu
  have hother : ∀ i ≠ t, Same b.psram (b.wrote t adf).psram b.slot i := fun i hi =>
    same_written b.psram adf _ .dirty (same_slot (.inr hi))
  refine ⟨?_, fun i hi => ?_, fun i hi => ⟨?_, same_held (hother i hi)⟩⟩
  · show dirtyAt _ b.slot t = true
    rw [dirtyAt, beq_iff_eq]
    exact hset
  · by_cases hne : i = t
    · subst hne
      exact congrArg (· != TrackState.absent) hset
    · exact (hother i hne).haveTrack.trans (hc i hi)
  · exact congrArg (· == TrackState.dirty)
      (trackState_setTrack_other (b.psram.copyIn b.slot t 0 adf) b.slot t _ b.slot i .dirty (.inr hi))

theorem wrote_held {b : Board σ} (hk : b.psram.slotKind b.slot = .adfHd) (hc : Complete b.psram b.slot)
    (ht : t < tracks) {adf : Bytes} (hlen : adf.length = hdTrackDataBytes) :
    (b.wrote t adf).held t = some adf := by
  have hhave := (wrote_drive hc ht adf).2.1 t ht
  have hkind : (b.wrote t adf).psram.slotKind b.slot = .adfHd := hk
  show held (b.wrote t adf).psram b.slot t = _
  rw [held, wholeTrack, if_pos hkind, if_pos hhave, rawLen, if_neg (by simp [hhave]), if_pos hkind]
  refine congrArg some (List.ext_getElem (by simp [Psram.bytes, hlen]) fun i hi hi' => ?_)
  have hmem : (b.wrote t adf).psram.mem b.slot t = fun i =>
      if 0 ≤ i ∧ i < 0 + adf.length then adf.getD (i - 0) 0 else b.psram.mem b.slot t i :=
    update2_self ..
  simp [Psram.bytes, hmem, hi']

theorem Ready.wrote {s : State σ} (h : Ready s) (ht : t < tracks) (adf : Bytes) :
    Ready { s with board := s.board.wrote t adf } :=
  ⟨h.kind, (wrote_drive h.complete ht adf).2.1, rfl, h.pc, h.current, h.parked, h.halted, h.sha,
    h.rows⟩

theorem Ready.hasWork {s : State σ} (h : Ready s) (ht : t < tracks) (hd : s.board.dirty t = true) :
    s.board.hasWork = true := by
  have hsome : s.board.nextDirty.isSome = true := by
    rw [Board.nextDirty, List.find?_isSome]
    exact ⟨t, List.mem_range.mpr ht, hd⟩
  simp [Board.hasWork, Board.pending, h.halted, h.sha, h.parked, hsome]

variable [DecidableEq σ]

/-- The drive writes a track. -/
theorem Ready.write {s : State σ} (h : Ready s) (sha256Of : Bytes → σ) (ht : t < tracks) {adf : Bytes}
    (hlen : adf.length = hdTrackDataBytes) :
    Reaches sha256Of s { s with board := s.board.wrote t adf } := by
  have hbegin : s.board.storeBegin t adf true = { s.board with
      gen := (s.board.gen + 1) % 2 ^ 32
      store := some ⟨s.board.slot, t, adf, hdTrackDataBytes * 8, 0, false⟩ } := by
    simp [Board.storeBegin, h.kind, List.take_of_length_le (Nat.le_of_eq hlen)]
  have hslice : slice adf 0 adf.length = adf := by simp [slice]
  refine .head ⟨.storeBegin t adf true, .storeBegin t adf true ht h.store⟩ ?_
  rw [hbegin]
  refine .head ⟨.storeCopy adf.length, .storeCopy _ _ rfl rfl⟩ ?_
  refine .head ⟨.storeFlag, .storeFlag _ rfl rfl ?_⟩ ?_
  · simp [hslice]
  refine .head ⟨.storeEnd, .storeEnd _ rfl rfl⟩ ?_
  simp only [Board.storeCopy, Board.storeFlag, Board.storeEnd, hslice]
  exact .refl

theorem Ready.refresh {s : State σ} (h : Ready s) : s.board.refresh = s.board := by
  simp [Board.refresh, h.parked]

/-- The uploader takes up a dirty track, and opens a session for it. -/
theorem Ready.opens {s : State σ} (h : Ready s) (sha256Of : Bytes → σ) (ht : t < tracks)
    (hd : s.board.dirty t = true) :
    Step sha256Of s (.sendTrack t) { s with board := s.board.openSession.clearDirty t } := by
  have hrefresh := h.refresh
  have hstep := @Step.sendTrack σ _ sha256Of s t ht h.pc
  rw [hrefresh] at hstep
  exact hstep (h.hasWork ht hd) hd

theorem Ready.sendTrack {s : State σ} (h : Ready s) (sha256Of : Bytes → σ) (ht : t < tracks)
    (hd : s.board.dirty t = true) :
    ∃ s' e, Reaches sha256Of s s' ∧ Beside s s' ∧ s'.board.pc = .cleared t ∧
      s'.board.up.current = some e ∧ ∀ i ≠ t, s'.board.owes i = s.board.dirty i := by
  let e : BoardSession := ⟨s.board.up.opened + 1, s.board.up.token, s.board.client.mountedVersion,
    s.board.client.mountedDiskId⟩
  have hopen : s.board.openSession = { s.board with up := { s.board.up with
      current := some e
      opened := s.board.up.opened + 1
      seq := 0
      sent := fun _ => false } } := by
    unfold Board.openSession
    rw [h.current]
  refine ⟨_, e, .single ⟨_, h.opens sha256Of ht hd⟩, ⟨?_, ?_, ?_, rfl, rfl⟩, ?_, ?_, fun i hi => ?_⟩
  · rw [hopen]
    exact ⟨rfl, rfl, fun _ => same_clearDirty ..⟩
  · rw [hopen]
    rfl
  · rw [hopen]
    rfl
  · rw [hopen]
    rfl
  · rw [hopen]
    rfl
  · rw [hopen]
    have hflag := (dirtyAt_clearDirty s.board.psram s.board.slot t).2 s.board.slot i (.inr hi)
    simp only [Board.owes, Board.clearDirty, Pc.inFlight, Bool.or_false]
    rw [beq_false_of_ne (Ne.symm hi), Bool.or_false]
    exact hflag

/-- A high-density track read at one go is read whole. -/
theorem read_whole {p : Psram} {slot t : Nat} (hk : p.slotKind slot = .adfHd) (hh : p.haveTrack slot t = true) :
    let r := (Reader.start p slot t).more p slot hdTrackDataBytes
    r.acc.length = r.n ∧ ∃ trk, r.finish p slot [] = some trk := by
  intro r
  have hn : (Reader.start p slot t).n = hdTrackDataBytes := Reader.start_sized hh hk
  refine ⟨?_, ?_⟩
  · have hacc : (Reader.start p slot t).acc = [] := rfl
    simp [r, Reader.more, hn, hacc]
  · rw [Reader.finish, wholeTrack, if_pos hk]
    exact ⟨_, if_pos hh⟩

theorem Ready.posting {s : State σ} (h : Ready s) (sha256Of : Bytes → σ) (ht : t < tracks)
    (hd : s.board.dirty t = true) :
    ∃ s' u, Reaches sha256Of s s' ∧ Beside s s' ∧ s'.board.pc = .posting u := by
  obtain ⟨s₁, e, hrun, hb, hpc, hcur, -⟩ := h.sendTrack sha256Of ht hd
  have hk : s₁.board.psram.slotKind s₁.board.slot = .adfHd := by
    rw [hb.turn.slot, same_slotKind (hb.turn.same 0)]
    exact h.kind
  obtain ⟨hall, trk, hfin⟩ := read_whole hk (hb.turn.complete h.complete t ht)
  let r := (Reader.start s₁.board.psram s₁.board.slot t).more s₁.board.psram s₁.board.slot
    hdTrackDataBytes
  let u : Upload := ⟨e, t, (s₁.board.up.seq + 1) % 2 ^ 32, trk⟩
  let s₂ : State σ := { s₁ with board := { s₁.board with pc := .sending r } }
  have hsend : s₂.board.sendTrack r [] true e = ({ s₂.board with
      up := { s₂.board.up with seq := u.seq }, pc := .posting u }, some u) := by
    have hfin' : r.finish s₂.board.psram s₂.board.slot [] = some trk := hfin
    unfold Board.sendTrack
    rw [hfin']
    rfl
  have hdone := @Step.readDone σ _ sha256Of s₂ [] true r e rfl hall hcur
  rw [hsend] at hdone
  have hstart := @Step.readStart σ _ sha256Of s₁ t hpc
  have hread := @Step.readTrack σ _ sha256Of { s₁ with board := { s₁.board with
      pc := .sending (.start s₁.board.psram s₁.board.slot t) } } hdTrackDataBytes _ rfl
  refine ⟨_, u, hrun.trans (.head ⟨_, hstart⟩ (.head ⟨_, hread⟩ (.single ⟨_, hdone⟩))), ?_, rfl⟩
  exact hb.trans ⟨⟨rfl, rfl, fun _ => .refl ..⟩, rfl, rfl, rfl, rfl⟩

theorem discardDirty_clean {p : Psram} {slot t : Nat} (h : p.usable slot t = true) :
    dirtyAt (p.discardDirty slot) slot t = false := by
  have hok : (!p.havePsram || !p.slotOk slot) = false := by
    simp only [Psram.usable, Bool.and_eq_true] at h
    simp [h.1.1, h.1.2]
  have hrange : Psram.inRange t = true := by
    simp only [Psram.usable, Bool.and_eq_true] at h
    exact h.2
  rw [Psram.discardDirty, hok, if_neg (by simp)]
  let cleared : Int → TrackState := fun track =>
    if Psram.inRange track && p.state slot track == .dirty then .present else p.state slot track
  have hu : ({ p with state := Function.update p.state slot cleared } : Psram).usable slot t = true := h
  rw [dirtyAt, Psram.trackState, if_pos hu]
  simp only [Function.update_self, hrange, Bool.true_and, beq_iff_eq]
  split
  · rfl
  · rename_i hno
    exact beq_false_of_ne hno

/-- A track sent and refused: the board is as it was, and knows of no dirty
track. -/
theorem Ready.refused {s : State σ} (h : Ready s) (sha256Of : Bytes → σ) (ht : t < tracks)
    (hd : s.board.dirty t = true) :
    ∃ s', Reaches sha256Of s s' ∧ Ready s' ∧ s'.base = s.base ∧
      (∀ i < tracks, s'.board.dirty i = false) ∧ ∀ i, s'.board.held i = s.board.held i := by
  obtain ⟨s₁, u, hrun, hb, hpc⟩ := h.posting sha256Of ht hd
  have hwins := serverWins_turn { s₁.board with pc := .idle }
  have hb' : Beside s { s₁ with
      board := s₁.board.uploadAnswered u.track .writeProtected, yielded := s₁.known } :=
    hb.trans ⟨⟨rfl, rfl, hwins.same⟩, rfl, rfl, rfl, rfl⟩
  refine ⟨_, hrun.tail ⟨.uploadAnswered .writeProtected, .uploadAnswered .writeProtected u hpc⟩,
    h.beside hb' rfl rfl, hb'.base, fun i hi => ?_, hb'.turn.held⟩
  have hhave := hb.turn.complete h.complete i hi
  exact discardDirty_clean (usable_of_have hhave)

/-- A write that is refused, and what the next session makes of it. -/
theorem Ready.forgotten {s : State σ} (h : Ready s) (sha256Of : Bytes → σ) (ht : t < tracks)
    (hi : i < tracks) (hne : i ≠ t) {adf : Bytes} (hlen : adf.length = hdTrackDataBytes) :
    ∃ s' e, Reaches sha256Of s s' ∧ s'.board.up.current = some e ∧ s'.board.held t = some adf ∧
      s'.view (some e) t = s.base t ∧ s'.board.owes t = false ∧ s'.board.copying t = false := by
  obtain ⟨s₁, hrun₁, h₁, hbase₁, hclean, hheld₁⟩ := (h.wrote ht adf).refused sha256Of ht
    (wrote_drive h.complete ht adf).1
  obtain ⟨hdirty, -, hother⟩ := wrote_drive h₁.complete hi adf
  obtain ⟨hclean₂, hheld₂⟩ := hother t (Ne.symm hne)
  obtain ⟨s₃, e, hrun₃, hb, -, hcur, howes⟩ := (h₁.wrote hi adf).sendTrack sha256Of hi hdirty
  refine ⟨s₃, e, (h.write sha256Of ht hlen).trans (hrun₁.trans ((h₁.write sha256Of hi hlen).trans hrun₃)), hcur, ?_, ?_,
    ?_, ?_⟩
  · rw [hb.turn.held]
    exact hheld₂.trans ((hheld₁ t).trans (wrote_held h.kind h.complete ht hlen))
  · rw [State.view, hb.rows, hb.base, Option.bind_some]
    rw [show ((s₁.rows e).staged t) = none by rw [h₁.rows e]; rfl]
    rw [hbase₁]
    rfl
  · rw [howes t (Ne.symm hne)]
    exact hclean₂.trans (hclean t ht)
  · rw [hb.turn.copying]
    exact copying_none rfl t

end

theorem blank_ready : Ready blank :=
  ⟨if_pos rfl, fun t ht => (blank_loaded t ht).1, rfl, rfl, rfl, rfl, rfl, rfl, fun _ => rfl⟩

end WebAdf.Uploading
