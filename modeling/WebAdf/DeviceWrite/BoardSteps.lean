import WebAdf.DeviceWrite.Onward

/-!
# The board's steps keep the invariant

An upload is the new last one of its track, and the board waits for it; only an
answer that it was staged leaves its track clean.
-/

namespace WebAdf.DeviceWrite

open Lib DiskHistory

section
variable {σ : Type} {s t : State σ} {b b' : Board σ}

/-- A step that leaves the tables alone. -/
theorem Inv.onward (h : Inv s) (ho : Onward s t) (hm : MadeOk t)
    (hboard : BoardOk t.board t.made t.tables.committed) (htables : t.tables = s.tables)
    (hkept : ∀ e, t.board.current = some e → s.board.current = some e ∨
      s.board.opened < e.number)
    (hreq : ∀ r ∈ t.requests, r ∈ s.requests ∨ RequestOk t r)
    (htasks : ∀ x ∈ t.tasks, x ∈ s.tasks ∨ TaskOk t x) (hrec : t.records = s.records) : Inv t := by
  refine ⟨hm, hboard, ⟨?_, ?_, ?_⟩, ?_, ?_, hrec ▸ h.records⟩
  · rw [htables]
    exact h.tables.rows
  · rw [htables]
    exact h.tables.noRow
  · intro e he
    rw [htables]
    rcases hkept e he with hsame | hnew
    · exact h.tables.kept e hsame
    · -- nothing was uploaded in a session just opened
      refine .inr fun u hu hue => ?_
      have hnum := (h.made.sent u (h.made.committed u hu)).2.2
      rw [hue] at hnum
      omega
  · intro r hr
    rcases hreq r hr with hold | hnew
    · exact ho.requestOk (h.requests r hold)
    · exact hnew
  · intro x hx
    rcases htasks x hx with hold | hnew
    · exact ho.taskOk h hm (h.tasks x hold)
    · exact hnew

/-- The board stays in its session, or leaves it. -/
structure Stays (b b' : Board σ) : Prop where
  opened : b'.opened = b.opened
  current : b'.current = none ∨ b'.current = b.current ∧ b'.seq = b.seq

theorem Stays.onward (hs : Stays s.board b) : Onward s { s with board := b } := by
  refine ⟨fun _ h => h, fun _ h => h, fun _ h => .inl h, fun _ h => h, fun _ h => .inl h,
    fun _ => .inl rfl, Nat.le_of_eq hs.opened.symm, ?_⟩
  intro e he
  rcases hs.current with hn | ⟨hc, hseq⟩
  · rw [hn] at he
    cases he
  · exact .inr ⟨hc ▸ he, Nat.le_of_eq hseq.symm⟩

theorem Inv.stays (h : Inv s) (hs : Stays s.board b)
    (hb : BoardOk b s.made s.tables.committed) : Inv { s with board := b } := by
  refine h.onward hs.onward (hs.onward.madeOk h.made rfl) hb rfl ?_ (fun _ hr => .inl hr) (fun _ hx => .inl hx) rfl
  intro e he
  rcases hs.current with hn | ⟨hc, -⟩
  · rw [hn] at he
    cases he
  · exact .inl (hc ▸ he)

/-- The board leaves its session, or goes on in it with no track cleaner. -/
structure Dirtier (b b' : Board σ) : Prop where
  opened : b'.opened = b.opened
  current : b'.current = none ∨ b'.current = b.current ∧ b'.seq = b.seq ∧
    ∀ i, b.dirty i = true → b'.dirty i = true

theorem Dirtier.stays (h : Dirtier b b') : Stays b b' :=
  ⟨h.opened, h.current.imp id fun ⟨hc, hseq, _⟩ => ⟨hc, hseq⟩⟩

/-- What the board waited for is staged, or its track is dirty. -/
theorem BoardOk.dirtier (h : BoardOk b made committed) (hd : Dirtier b b')
    (hwait : ∀ u, b.waiting = some (.upload u) → b'.current ≠ none →
      u ∈ committed ∨ b'.dirty u.track = true ∨ b'.waiting = some (.upload u))
    (hnext : ∀ u, b'.waiting = some (.upload u) → b.waiting = some (.upload u) ∧
      b'.current = b.current ∧ b'.seq = b.seq) : BoardOk b' made committed := by
  refine ⟨?_, ?_⟩
  · intro e he u hlast
    rcases hd.current with hn | ⟨hc, hseq, hdirty⟩
    · rw [hn] at he
      cases he
    · rw [hseq] at hlast
      rcases h.clean e (hc ▸ he) u hlast with hin | hdirt | hw
      · exact .inl hin
      · exact .inr (.inl (hdirty _ hdirt))
      · exact hwait u hw (by rw [he]; simp)
  · intro u hw
    obtain ⟨hold, hc, hseq⟩ := hnext u hw
    rw [hc, hseq]
    exact h.waiting u hold

theorem Dirtier.setDirty (b : Board σ) (t : Nat) : Dirtier b (b.setDirty t) :=
  ⟨rfl, .inr ⟨rfl, rfl, fun i hi => by simp [Board.setDirty, hi]⟩⟩

/-- An answer other than that the track was staged leaves it dirty, or ends the
session. -/
theorem uploadAnswered_dirtier (b : Board σ) (t : Nat) (a : Answer σ) :
    Dirtier b (b.uploadAnswered t a) ∧ (b.uploadAnswered t a).waiting = b.waiting ∧
      ((b.uploadAnswered t a).current = none ∨ (b.uploadAnswered t a).dirty t = true ∨
        (∃ k, a = .staged k) ∨ a = .duplicate) := by
  cases a with
  | staged k => exact ⟨⟨rfl, .inr ⟨rfl, rfl, fun _ h => h⟩⟩, rfl, .inr (.inr (.inl ⟨k, rfl⟩))⟩
  | duplicate => exact ⟨⟨rfl, .inr ⟨rfl, rfl, fun _ h => h⟩⟩, rfl, .inr (.inr (.inr rfl))⟩
  | writeProtected => exact ⟨⟨rfl, .inl rfl⟩, rfl, .inl rfl⟩
  | invalidBody => exact ⟨⟨rfl, .inl rfl⟩, rfl, .inl rfl⟩
  | notMounted behind => exact ⟨⟨rfl, .inl rfl⟩, rfl, .inl rfl⟩
  | notFound => exact ⟨⟨rfl, .inl rfl⟩, rfl, .inl rfl⟩
  | _ => exact ⟨.setDirty b t, rfl, .inr (.inl (by simp [Board.uploadAnswered, Board.setDirty]))⟩

theorem closeAnswered_dirtier (b : Board σ) (a : Answer σ) :
    Dirtier b (b.closeAnswered a) ∧ (b.closeAnswered a).waiting = b.waiting := by
  cases a with
  | closed sha unchanged => exact ⟨⟨rfl, .inl rfl⟩, rfl⟩
  | mismatch sha => exact ⟨⟨rfl, .inl rfl⟩, rfl⟩
  | incomplete =>
    refine ⟨⟨rfl, .inr ⟨rfl, rfl, fun i hi => ?_⟩⟩, rfl⟩
    simp [Board.closeAnswered, Board.redirty, hi]
  | invalidBody => exact ⟨⟨rfl, .inl rfl⟩, rfl⟩
  | notMounted behind => exact ⟨⟨rfl, .inl rfl⟩, rfl⟩
  | notFound => exact ⟨⟨rfl, .inl rfl⟩, rfl⟩
  | _ => exact ⟨⟨rfl, .inr ⟨rfl, rfl, fun _ h => h⟩⟩, rfl⟩

/-- The upload the board waits for was staged when it is answered so. -/
theorem Inv.was_staged (h : Inv s) (htask : .stage q (.answered a) ∈ s.tasks)
    (hwait : s.board.waiting = some (.upload q)) (ha : (∃ k, a = .staged k) ∨ a = .duplicate) :
    q ∈ s.tables.committed := by
  obtain ⟨-, hpc⟩ := h.tasks _ htask
  obtain ⟨hq, hcur, hseq⟩ := h.board.waiting q hwait
  rcases ha with ⟨k, rfl⟩ | rfl
  · exact hpc
  · obtain ⟨c, hc, hcq, hle⟩ := hpc hcur
    have hmade := h.made.committed c hc
    have hbelow := h.made.below c hmade (by rw [hcur, hcq])
    rwa [← h.made.unique c hmade q hq hcq (by omega)]

theorem Inv.answer (h : Inv s) (htask : task ∈ s.tasks) (ht : task.answer = some (r, a))
    (hwait : s.board.waiting = some r) : Inv { s with board := s.board.answered r a } := by
  cases task with
  | stage q pc =>
    cases pc with
    | answered a' =>
      obtain ⟨rfl, rfl⟩ : Request.upload q = r ∧ a' = a := by simpa [Task.answer] using ht
      obtain ⟨⟨hopened, hcurrent⟩, hw, hend⟩ :=
        uploadAnswered_dirtier { s.board with waiting := none } q.track a'
      have hd : Dirtier s.board (s.board.answered (.upload q) a') := ⟨hopened, hcurrent⟩
      refine h.stays hd.stays (h.board.dirtier hd ?_ ?_)
      · intro u hu hcur
        obtain rfl : q = u := by simpa [hwait] using hu
        rcases hend with hn | hdirt | hstaged
        · exact absurd hn hcur
        · exact .inr (.inl hdirt)
        · exact .inl (h.was_staged htask hwait hstaged)
      · intro u hu
        cases hw.symm.trans hu
    | _ => simp [Task.answer] at ht
  | close q pc =>
    cases pc with
    | answered a' =>
      obtain ⟨rfl, rfl⟩ : Request.close q = r ∧ a' = a := by simpa [Task.answer] using ht
      obtain ⟨⟨hopened, hcurrent⟩, hw⟩ := closeAnswered_dirtier { s.board with waiting := none } a'
      have hd : Dirtier s.board (s.board.answered (.close q) a') := ⟨hopened, hcurrent⟩
      refine h.stays hd.stays (h.board.dirtier hd ?_ ?_)
      · intro u hu
        rw [hwait] at hu
        cases hu
      · intro u hu
        cases hw.symm.trans hu
    | _ => simp [Task.answer] at ht

theorem Inv.lost (h : Inv s) (hwait : s.board.waiting = some r) :
    Inv { s with board := s.board.unanswered r } := by
  cases r with
  | upload q =>
    have hd : Dirtier s.board (s.board.unanswered (.upload q)) :=
      ⟨rfl, .inr ⟨rfl, rfl, fun i hi => by simp [Board.unanswered, Board.setDirty, hi]⟩⟩
    refine h.stays hd.stays (h.board.dirtier hd ?_ fun u hu => by cases hu)
    intro u hu _
    obtain rfl : q = u := by simpa [hwait] using hu
    exact .inr (.inl (by simp [Board.unanswered, Board.setDirty]))
  | close q =>
    have hd : Dirtier s.board (s.board.unanswered (.close q)) :=
      ⟨rfl, .inr ⟨rfl, rfl, fun _ hi => hi⟩⟩
    refine h.stays hd.stays (h.board.dirtier hd ?_ fun u hu => by cases hu)
    intro u hu
    rw [hwait] at hu
    cases hu

/-- Out of any session, there is nothing the board must remember. -/
theorem BoardOk.left (hcur : b.current = none) (hwait : ∀ u, b.waiting ≠ some (.upload u)) :
    BoardOk b made committed :=
  ⟨fun _ he => absurd (hcur.symm.trans he) (by simp), fun u hu => absurd hu (hwait u)⟩

theorem Inv.reboot (h : Inv s) : Inv { s with board := s.board.reboot } :=
  h.stays ⟨rfl, .inl rfl⟩ (.left rfl fun _ => by simp [Board.reboot])

theorem Inv.mounted (h : Inv s) (hcur : s.board.current = none) (version : Nat) (diskId : String)
    (image : Nat → Bytes) :
    Inv { s with board := { s.board with
      mountedVersion := version, mountedDiskId := diskId, image := image
      dirty := fun _ => false, parked := false } } := by
  refine h.stays ⟨rfl, .inl hcur⟩ (.left hcur fun u hu => ?_)
  have hw := (h.board.waiting u hu).2.1
  rw [hcur] at hw
  cases hw

/-- Steps that change nothing of the session, and make no track cleaner. -/
theorem Inv.dirtier (h : Inv s) (hd : Dirtier s.board b) (hcur : b.current = s.board.current)
    (hseq : b.seq = s.board.seq) (hwait : b.waiting = s.board.waiting) :
    Inv { s with board := b } := by
  refine h.stays hd.stays (h.board.dirtier hd ?_ ?_)
  · intro u hu _
    exact .inr (.inr (hwait ▸ hu))
  · intro u hu
    exact ⟨hwait ▸ hu, hcur, hseq⟩

-- ---------------------------------------------------------------------------
-- Sending
-- ---------------------------------------------------------------------------

/-- The session after `openSession` is the one before, or a new one. -/
theorem openSession_cases (b : Board σ) :
    (b.current = some b.openSession.2 ∧ b.openSession.1 = b) ∨
      b.current = none ∧ b.openSession.2.number = b.opened + 1 ∧
        b.openSession.1 = { b with
          current := some b.openSession.2, opened := b.opened + 1, seq := 0
          sent := fun _ => false } := by
  cases hc : b.current with
  | some e =>
    have ho : b.openSession = (b, e) := by simp [Board.openSession, hc]
    rw [ho]
    exact .inl ⟨rfl, rfl⟩
  | none =>
    have ho : b.openSession = ({ b with
        current := some ⟨b.opened + 1, b.token, b.mountedVersion, b.mountedDiskId⟩
        opened := b.opened + 1, seq := 0, sent := fun _ => false },
        ⟨b.opened + 1, b.token, b.mountedVersion, b.mountedDiskId⟩) := by
      simp [Board.openSession, hc]
    rw [ho]
    exact .inr ⟨rfl, rfl, rfl⟩

theorem openSession_fresh (h : MadeOk s) (hcur : s.board.current = none) (hu : u ∈ s.made) :
    u.session ≠ s.board.openSession.2 := by
  have hnum := (h.sent u hu).2.2
  rcases openSession_cases s.board with ⟨hsome, -⟩ | ⟨-, hnew, -⟩
  · rw [hcur] at hsome
    cases hsome
  · rintro he
    rw [he, hnew] at hnum
    omega

theorem Inv.torn (h : Inv s) : Inv { s with board := s.board.torn } := by
  rw [Board.torn]
  rcases openSession_cases s.board with ⟨-, hsame⟩ | ⟨hnone, hnum, hnew⟩
  · rwa [hsame]
  · have hfresh := fun u => openSession_fresh (u := u) h.made hnone
    generalize s.board.openSession.2 = e at hnum hnew hfresh
    rw [hnew]
    have ho : Onward s { s with board := { s.board with
        current := some e, opened := s.board.opened + 1, seq := 0, sent := fun _ => false } } := by
      refine ⟨fun _ h => h, fun _ h => h, fun _ h => .inl h, fun _ h => h, fun _ h => .inl h,
        fun _ => .inl rfl, Nat.le_succ _, ?_⟩
      rintro e' he
      obtain rfl := Option.some.inj he
      exact .inl ⟨by omega, by dsimp only; omega⟩
    refine h.onward ho (ho.madeOk h.made rfl) ?_ rfl ?_ (fun _ hr => .inl hr) (fun _ hx => .inl hx) rfl
    · refine ⟨?_, ?_⟩
      · rintro e' he u ⟨hu, hue, -⟩
        obtain rfl := Option.some.inj he
        exact absurd hue (hfresh u hu)
      · intro u hu
        have hw := (h.board.waiting u hu).2.1
        rw [hnone] at hw
        cases hw
    · rintro e' he
      obtain rfl := Option.some.inj he
      exact .inr (by omega)

theorem nextDirty_some (h : b.nextDirty = some i) : i < tracks :=
  List.mem_range.mp (List.mem_of_find?_eq_some h)

theorem nextDirty_none (h : b.nextDirty = none) (hi : i < tracks) : b.dirty i = false := by
  have hall := List.find?_eq_none.mp h i (List.mem_range.mpr hi)
  simpa using hall

theorem free_waiting (h : b.free = true) : b.waiting = none := by
  rw [Board.free, Bool.and_eq_true, Option.isNone_iff_eq_none] at h
  exact h.1

/-- When a close is sent, nothing is dirty or under way. -/
theorem Inv.sendClose (h : Inv s) (hfree : s.board.free = true) (hclean : s.board.nextDirty = none)
    (hcur : s.board.current = some e) (sha : σ) :
    Inv { s with
      board := { s.board with waiting := some (.close ⟨e, s.board.seq, sha⟩) }
      requests := s.requests ++ [.close ⟨e, s.board.seq, sha⟩] } := by
  have hwait := free_waiting hfree
  have ho : Onward s { s with
      board := { s.board with waiting := some (.close ⟨e, s.board.seq, sha⟩) }
      requests := s.requests ++ [.close ⟨e, s.board.seq, sha⟩] } :=
    ⟨fun _ h => List.mem_append_left _ h, fun _ h => h, fun _ h => .inl h, fun _ h => h,
      fun _ h => .inl h, fun _ => .inl rfl, Nat.le_refl _, fun _ he => .inr ⟨he, Nat.le_refl _⟩⟩
  refine h.onward ho (ho.madeOk h.made rfl) ?_ rfl (fun _ he => .inl he) ?_ (fun _ hx => .inl hx) rfl
  · refine ⟨?_, fun u hu => by cases hu⟩
    intro e' he u hlast
    rcases h.board.clean e' he u hlast with hin | hd | hw
    · exact .inl hin
    · exact .inr (.inl hd)
    · rw [hwait] at hw
      cases hw
  · intro r hr
    rcases List.mem_append.mp hr with hold | hnew
    · exact .inl hold
    · obtain rfl := List.mem_singleton.mp hnew
      refine .inr ⟨h.made.number e hcur, fun _ => Nat.le_refl _, ?_⟩
      intro u hlast
      rcases h.board.clean e hcur u hlast with hin | hd | hw
      · exact hin
      · rw [nextDirty_none hclean (h.made.sent u hlast.1).2.1] at hd
        cases hd
      · rw [hwait] at hw
        cases hw

theorem Inv.sendIn (h : Inv s) (hcur : s.board.current = some e) (hwait : s.board.waiting = none)
    (htrack : i < tracks) (hu : u = ⟨e, i, s.board.seq + 1, s.board.image i⟩) :
    Inv { s with
      board := { s.board.clearDirty i with
        seq := s.board.seq + 1, waiting := some (.upload u) }
      requests := s.requests ++ [.upload u], made := s.made ++ [u] } := by
  have hue : u.session = e ∧ u.track = i ∧ u.seq = s.board.seq + 1 := by simp [hu]
  clear hu
  obtain ⟨hue, hui, huseq⟩ := hue
  have hnew {v : Upload} (hv : v ∈ s.made) (hve : v.session = e) : v.seq ≤ s.board.seq :=
    h.made.below v hv (by rw [hcur, hve])
  have ho : Onward s { s with
      board := { s.board.clearDirty i with
        seq := s.board.seq + 1, waiting := some (.upload u) }
      requests := s.requests ++ [.upload u], made := s.made ++ [u] } := by
    refine ⟨fun _ h => List.mem_append_left _ h, fun _ h => List.mem_append_left _ h, ?_,
      fun _ h => h, fun _ h => .inl h, fun _ => .inl rfl, Nat.le_refl _,
      fun _ he => .inr ⟨he, Nat.le_succ _⟩⟩
    intro v hv
    rcases List.mem_append.mp hv with hv | hv
    · exact .inl hv
    · obtain rfl := List.mem_singleton.mp hv
      exact .inr (.inr ⟨by rw [hcur, hue], by omega⟩)
  have hm : MadeOk { s with
      board := { s.board.clearDirty i with
        seq := s.board.seq + 1, waiting := some (.upload u) }
      requests := s.requests ++ [.upload u], made := s.made ++ [u] } := by
    refine ⟨?_, ?_, ?_, h.made.number, fun v hv => List.mem_append_left _ (h.made.committed v hv)⟩
    · intro v hv
      rcases List.mem_append.mp hv with hv | hv
      · exact h.made.sent v hv
      · obtain rfl := List.mem_singleton.mp hv
        exact ⟨by omega, hui ▸ htrack, hue ▸ h.made.number e hcur⟩
    · intro v hv hve
      rcases List.mem_append.mp hv with hv | hv
      · exact Nat.le_succ_of_le (h.made.below v hv hve)
      · obtain rfl := List.mem_singleton.mp hv
        exact Nat.le_of_eq huseq
    · intro v hv w hw he hseq
      rcases List.mem_append.mp hv with hvs | hvu
      · rcases List.mem_append.mp hw with hws | hwu
        · exact h.made.unique v hvs w hws he hseq
        · rw [List.mem_singleton.mp hwu] at he hseq
          have := hnew hvs (he.trans hue)
          omega
      · rw [List.mem_singleton.mp hvu] at he hseq ⊢
        rcases List.mem_append.mp hw with hws | hwu
        · have := hnew hws (he.symm.trans hue)
          omega
        · exact (List.mem_singleton.mp hwu).symm
  refine h.onward ho hm ⟨?_, ?_⟩ rfl (fun _ he => .inl he) ?_ (fun _ hx => .inl hx) rfl
  · rintro e' he v ⟨hv, hve, hle, hmax⟩
    obtain rfl : e = e' := Option.some.inj (hcur.symm.trans he)
    rcases List.mem_append.mp hv with hv | hv
    · -- another track's last upload is still its last
      have hne : v.track ≠ i := by
        intro hvi
        have := hmax u (by simp) hue (hui.trans hvi.symm) (Nat.le_of_eq huseq)
        have := hnew hv hve
        omega
      have hlast : Last s.made e s.board.seq v := ⟨hv, hve, hnew hv hve, fun w hw hwe ht _ =>
        hmax w (List.mem_append_left _ hw) hwe ht (Nat.le_succ_of_le (hnew hw hwe))⟩
      rcases h.board.clean e hcur v hlast with hin | hd | hw
      · exact .inl hin
      · exact .inr (.inl (by simp [Board.clearDirty, hne, hd]))
      · rw [hwait] at hw
        cases hw
    · obtain rfl := List.mem_singleton.mp hv
      exact .inr (.inr rfl)
  · intro v hv
    obtain rfl : u = v := by simpa using hv
    exact ⟨by simp, by rw [hue]; exact hcur, huseq⟩
  · intro r hr
    rcases List.mem_append.mp hr with hold | hnew
    · exact .inl hold
    · obtain rfl := List.mem_singleton.mp hnew
      exact .inr (by simp [RequestOk])

theorem Inv.sendTrack (h : Inv s) (hfree : s.board.free = true)
    (hnext : s.board.nextDirty = some i) :
    Inv { s with
      board := (s.board.sendTrack i).1
      requests := s.requests ++ [.upload (s.board.sendTrack i).2]
      made := s.made ++ [(s.board.sendTrack i).2] } := by
  have hopen := h.torn
  have hsession : s.board.torn.current = some s.board.openSession.2 ∧
      s.board.torn.waiting = s.board.waiting := by
    rw [Board.torn]
    rcases openSession_cases s.board with ⟨hcur, hsame⟩ | ⟨-, -, hnew⟩
    · rw [hsame]
      exact ⟨hcur, rfl⟩
    · rw [hnew]
      exact ⟨rfl, rfl⟩
  exact hopen.sendIn hsession.1 (hsession.2.trans (free_waiting hfree)) (nextDirty_some hnext) rfl

end

end WebAdf.DeviceWrite
