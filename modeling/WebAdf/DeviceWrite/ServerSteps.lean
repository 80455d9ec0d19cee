import WebAdf.DeviceWrite.BoardSteps

/-!
# Timely statements keep the invariant

A handler's statement, taken while what it found still holds, keeps the tables
right; and a close that records then has every track as the board last
uploaded it.
-/

namespace WebAdf.DeviceWrite

open Lib DiskHistory

section
variable {σ : Type} {s : State σ} {S T : Tables σ} {i : Nat} {rs : List (Recorded σ)}

/-- The state after handler `i` ran a statement. -/
def State.ran (s : State σ) (T : Tables σ) (i : Nat) (task : Task σ) (records : List (Recorded σ)) :
    State σ :=
  { s with tables := T, tasks := s.tasks.set i task, records := s.records ++ records }

/-- What a statement does to the uploads staged and taken. -/
structure Forward (made : List Upload) (s t : Tables σ) : Prop where
  committed : ∀ u ∈ s.committed, u ∈ t.committed
  newCommitted : ∀ u ∈ t.committed, u ∈ s.committed ∨
    u ∈ made ∧ ∀ c ∈ s.committed, c.session = u.session → c.seq < u.seq
  taken : ∀ e, t.taken e = s.taken e ∨ ∀ c ∈ s.committed, c.session = e → c.seq ≤ t.taken e

theorem Forward.same (hc : T.committed = S.committed) (ht : T.taken = S.taken) :
    Forward made S T :=
  ⟨fun _ h => hc ▸ h, fun _ h => .inl (hc ▸ h), fun _ => .inl (ht ▸ rfl)⟩

theorem Inv.ran (h : Inv s) (hf : Forward s.made s.tables T)
    (htables : TablesOk s.board.current T) (htask : TaskOk (s.ran T i task rs) task)
    (hrec : ∀ r ∈ rs, r.Overlaid) : Inv (s.ran T i task rs) := by
  have ho : Onward s (s.ran T i task rs) :=
    ⟨fun _ h => h, fun _ h => h, fun _ h => .inl h, hf.committed, hf.newCommitted, hf.taken,
      Nat.le_refl _, fun _ he => .inr ⟨he, Nat.le_refl _⟩⟩
  have hm := ho.madeOk h.made rfl
  refine ⟨hm, ⟨?_, h.board.waiting⟩, htables, fun r hr => ho.requestOk (h.requests r hr), ?_, ?_⟩
  · intro e he u hlast
    exact (h.board.clean e he u hlast).imp (hf.committed u) id
  · intro x hx
    rcases List.mem_or_eq_of_mem_set hx with hold | rfl
    · exact ho.taskOk h hm (h.tasks x hold)
    · exact htask
  · intro r hr
    rcases List.mem_append.mp hr with hold | hnew
    · exact h.records r hold
    · exact hrec r hnew

/-- A statement that only reads. -/
theorem Inv.read (h : Inv s) (htask : TaskOk (s.ran s.tables i task []) task) :
    Inv (s.ran s.tables i task []) :=
  h.ran (.same rfl rfl) h.tables htask (fun _ hr => by cases hr)

-- ---------------------------------------------------------------------------
-- stageTrack
-- ---------------------------------------------------------------------------

theorem stagingOk_mayOpen (s : State σ) (q : Upload) (held : Held) (d : Disk σ) :
    StagingOk s q (mayOpen held d) := by
  rw [mayOpen]
  split
  · trivial
  · split
    · trivial
    · split <;> trivial

theorem Inv.stageTrack (h : Inv s) (htask : .stage q pc ∈ s.tasks) (ht : pc.Timely s q) :
    Inv (s.ran (stageTrack s.tables q pc).1 i (.stage q (stageTrack s.tables q pc).2) []) := by
  obtain ⟨hreq, hpc⟩ := h.tasks _ htask
  have hq : q ∈ s.made := h.requests _ hreq
  cases pc with
  | start =>
    simp only [DeviceWrite.stageTrack]
    split
    · exact h.read ⟨hreq, trivial⟩
    · split <;> exact h.read ⟨hreq, trivial⟩
  | heldSession =>
    simp only [DeviceWrite.stageTrack]
    split <;> exact h.read ⟨hreq, trivial⟩
  | held held =>
    simp only [DeviceWrite.stageTrack]
    split
    · exact h.read ⟨hreq, trivial⟩
    · split <;> exact h.read ⟨hreq, trivial⟩
  | session held d =>
    simp only [DeviceWrite.stageTrack]
    split
    · rename_i row hrow
      split
      · rename_i htoken
        rw [seqCheck]
        split
        · rename_i hle
          refine h.read ⟨hreq, fun hcur => ?_⟩
          -- the row is the session's own, so its `lastSeq` was staged
          have hown := ht hcur row ⟨hrow, htoken⟩ hle
          rcases (h.tables.rows _ row hrow).last with hz | ⟨c, hc, hcs, hseq⟩
          · have := (h.made.sent q hq).1
            omega
          · exact ⟨c, hc, hcs.trans hown, by omega⟩
        · exact h.read ⟨hreq, trivial⟩
      · exact h.read ⟨hreq, stagingOk_mayOpen _ _ _ _⟩
    · exact h.read ⟨hreq, stagingOk_mayOpen _ _ _ _⟩
  | discard d =>
    exact h.ran (.same rfl rfl) (h.tables.discardOthers ht) ⟨hreq, trivial⟩ (fun _ hr => by cases hr)
  | insert d =>
    have hsame : (s.tables.insertSession q.session d.sha256).committed = s.tables.committed ∧
        (s.tables.insertSession q.session d.sha256).taken = s.tables.taken := by
      rw [Tables.insertSession]
      split <;> exact ⟨rfl, rfl⟩
    have hcheck : seqCheck q 0 = (.commit : Staging σ) :=
      if_neg (Nat.not_le.mpr (h.made.sent q hq).1)
    simp only [DeviceWrite.stageTrack, hcheck]
    exact h.ran (.same hsame.1 hsame.2) (h.tables.insertSession ht _) ⟨hreq, trivial⟩
      (fun _ hr => by cases hr)
  | commit =>
    simp only [DeviceWrite.stageTrack]
    split
    · rename_i T hT
      cases hrow : s.tables.sessions q.session.mount with
      | none => simp [Tables.commitTrack, hrow] at hT
      | some row =>
        obtain ⟨hown, hlast, htaken⟩ := ht row hrow
        obtain ⟨hok, hc, htk, hbelow⟩ :=
          h.tables.commitTrack hrow hown hlast htaken hT
        have hf : Forward s.made s.tables T := by
          refine ⟨fun u hu => ?_, fun u hu => ?_, fun _ => .inl (htk ▸ rfl)⟩
          · rw [hc]
            exact List.mem_append_left _ hu
          · rw [hc] at hu
            rcases List.mem_append.mp hu with hold | hnew
            · exact .inl hold
            · obtain rfl := List.mem_singleton.mp hnew
              exact .inr ⟨hq, hbelow⟩
        refine h.ran hf hok ⟨hreq, ?_⟩ (fun _ hr => by cases hr)
        show q ∈ T.committed
        simp [hc]
    · exact h.read ⟨hreq, trivial⟩
  | answered a => exact h.read ⟨hreq, hpc⟩

-- ---------------------------------------------------------------------------
-- closeSession
-- ---------------------------------------------------------------------------

theorem Forward.delete (h : TablesOk current T)
    (hown : ∀ row, TokenRow T e row → row.opener = e) : Forward made T (T.deleteSession e) := by
  obtain ⟨-, hc, ht⟩ := h.deleteSession hown
  exact ⟨fun _ h => hc ▸ h, fun _ h => .inl (hc ▸ h), ht⟩

/-- Tracks read from the session's own row: what is staged above `floor`, or
the board has gone on. -/
theorem Inv.readRows (h : Inv s) (q : Close σ) (o : Opened σ)
    (hown : ∀ row, s.tables.sessions q.session.mount = some row → row.opener = q.session)
    (htaken : s.tables.taken q.session = o.floor ∨ q.seq ≤ s.tables.taken q.session)
    (hsome : rowsOf (s.tables.tracks q.session.mount) ≠ []) :
    GoneOn s q ∨ Holds (lastWrite · (rowsOf (s.tables.tracks q.session.mount))) s.tables.committed
      q.session o.floor := by
  cases hrow : s.tables.sessions q.session.mount with
  | none =>
    refine absurd ?_ hsome
    have hnone := h.tables.noRow _ hrow
    simp [rowsOf, hnone]
  | some row =>
    have hholds := (h.tables.rows _ row hrow).tracks
    rw [hown row hrow] at hholds
    rcases htaken with hfloor | hpast
    · rw [hfloor] at hholds
      refine .inr ⟨fun u hu => ?_, fun t ht => ?_⟩
      · have htrack := (h.made.sent u (h.made.committed u hu.1)).2.1
        rw [lastWrite_rowsOf, if_pos htrack]
        exact hholds.highest u hu
      · rw [lastWrite_rowsOf, hholds.none t ht]
        split <;> rfl
    · -- closes have taken all up to `seq`, so a track that is there came later
      obtain ⟨t, data, ht⟩ : ∃ t data, s.tables.tracks q.session.mount t = some data := by
        obtain ⟨p, hp⟩ := List.exists_mem_of_ne_nil _ hsome
        obtain ⟨t, -, ht⟩ := List.mem_filterMap.mp hp
        obtain ⟨data, hdata, -⟩ := Option.map_eq_some_iff.mp ht
        exact ⟨t, data, hdata⟩
      by_contra hno
      refine absurd (hholds.none t fun u hu hm _ => hno (.inl ?_)) (by rw [ht]; simp)
      exact ⟨u, h.made.committed u hu, hm.1, Nat.lt_of_le_of_lt hpast hm.2⟩

/-- The version a timely close records is the base overlaid. -/
theorem Inv.overlaid (h : Inv s) {q : Close σ} (hclose : CloseOk s q)
    (hgone : GoneOn s q ∨ Holds (lastWrite · ts) s.tables.committed q.session floor)
    (hlate : ∀ u ∈ s.made, u.session = q.session → u.seq ≤ q.seq)
    (hnext : overlayTracks base ts = some next) (sha : σ) :
    Recorded.Overlaid ⟨q.session, floor, sha, base, next, s.made⟩ := by
  have hholds : Holds (lastWrite · ts) s.tables.committed q.session floor := by
    rcases hgone with ⟨u, hu, huq, hlt⟩ | hholds
    · exact absurd (hlate u hu huq) (Nat.not_le.mpr hlt)
    · exact hholds
  obtain ⟨n, hn, hlen, hslice⟩ := overlayTracks_some hnext
  refine ⟨n, hn, hlen, ?_, ?_⟩
  · rintro u ⟨hu, hm, hmax⟩
    have hin : u ∈ s.tables.committed := by
      refine hclose.acked u ⟨hu, hm.1, hlate u hu hm.1, fun v hv hvq ht _ => ?_⟩
      rcases Nat.lt_or_ge floor v.seq with hlt | hge
      · exact hmax v hv ⟨hvq, hlt⟩ ht
      · exact Nat.le_trans hge (Nat.le_of_lt hm.2)
    have hwrite := hholds.highest u ⟨hin, hm, fun v hv => hmax v (h.made.committed v hv)⟩
    dsimp only at hwrite ⊢
    rw [hslice, hwrite, Option.getD_some]
  · intro t _ hnone
    have hwrite := hholds.none t fun u hu => hnone u (h.made.committed u hu)
    dsimp only at hwrite ⊢
    rw [hslice, hwrite, Option.getD_none]

variable [DecidableEq σ]

theorem closingOk_nothingStaged (s : State σ) (q : Close σ) (sha : σ) (session : Bool) :
    ClosingOk s q (nothingStaged q sha session) := by
  rw [nothingStaged]
  split
  · split <;> trivial
  · trivial

theorem Tables.finish_tables (T : Tables σ) (q : Close σ) (sha : σ) :
    ∃ device, T.finish q sha = { T.deleteSession q.session with device := device } := by
  rw [Tables.finish]
  split
  · exact ⟨_, rfl⟩
  · exact ⟨_, rfl⟩

theorem Inv.closeSession (sha256Of : Bytes → σ) (h : Inv s) (htask : .close q pc ∈ s.tasks)
    (ht : pc.Timely s q) (base head : Bytes) :
    let r := closeSession sha256Of s.tables s.made q base head pc
    Inv (s.ran r.1 i (.close q r.2.1) r.2.2.toList) := by
  obtain ⟨hreq, hpc⟩ := h.tasks _ htask
  have hclose : CloseOk s q := h.requests _ hreq
  dsimp only
  cases pc with
  | start =>
    simp only [DeviceWrite.closeSession]
    split <;> exact h.read ⟨hreq, trivial⟩
  | heldSession =>
    simp only [DeviceWrite.closeSession]
    split <;> exact h.read ⟨hreq, trivial⟩
  | held =>
    simp only [DeviceWrite.closeSession]
    split <;> exact h.read ⟨hreq, trivial⟩
  | session sha =>
    simp only [DeviceWrite.closeSession]
    split
    · exact h.read ⟨hreq, closingOk_nothingStaged _ _ _ _⟩
    · rename_i row hfilter
      rw [Option.filter_eq_some_iff] at hfilter
      obtain ⟨hrow, htoken⟩ := hfilter
      split
      · exact h.read ⟨hreq, trivial⟩
      · rename_i hseq
        have hlast : row.lastSeq = q.seq := by simpa using Eq.symm (not_not.mp hseq)
        have hown := ht row ⟨hrow, by simpa using htoken⟩ hlast
        refine h.read ⟨hreq, ?_, .inl (by rw [hown]; rfl)⟩
        rcases (h.tables.rows _ row hrow).last with hz | ⟨c, hc, hcs, hcq⟩
        · exact .inl (by omega)
        · exact .inr ⟨c, hc, hcs.trans hown, by omega⟩
  | staged sha o =>
    obtain ⟨hreach, htaken⟩ := hpc
    simp only [DeviceWrite.closeSession]
    by_cases hsome : rowsOf (s.tables.tracks q.session.mount) ≠ []
    · rw [if_pos hsome]
      exact h.read ⟨hreq, hreach, h.readRows q o ht htaken hsome⟩
    · rw [if_neg hsome]
      exact h.read ⟨hreq, closingOk_nothingStaged _ _ _ _⟩
  | record sha o staged =>
    obtain ⟨-, hgone⟩ := hpc
    simp only [DeviceWrite.closeSession]
    split
    · rw [recordVersion]
      split
      · rename_i next d hnext hd
        split
        · exact h.read ⟨hreq, trivial⟩
        · split
          · exact h.read ⟨hreq, trivial⟩
          · refine h.ran (.same rfl rfl) (h.tables.elsewhere _ _) ⟨hreq, trivial⟩ fun r hr => ?_
            obtain rfl := List.mem_singleton.mp hr
            exact h.overlaid hclose hgone ht hnext _
      · exact h.read ⟨hreq, trivial⟩
    · exact h.read ⟨hreq, trivial⟩
  | unchanged sha =>
    have hown := fun row hr => (ht row hr).1
    exact h.ran (.delete h.tables hown) (h.tables.deleteSession hown).1 ⟨hreq, trivial⟩
      (fun _ hr => by cases hr)
  | finish sha =>
    have hown := fun row hr => (ht row hr).1
    obtain ⟨device, hfinish⟩ := s.tables.finish_tables q sha
    have hok := (h.tables.deleteSession hown).1.elsewhere device
      (s.tables.deleteSession q.session).disks
    have hdelete : Forward s.made s.tables _ := Forward.delete h.tables hown
    obtain ⟨hc, hnew, htk⟩ := hdelete
    simp only [DeviceWrite.closeSession, hfinish]
    exact h.ran ⟨hc, hnew, htk⟩ hok ⟨hreq, trivial⟩ (fun _ hr => by cases hr)
  | answered a => exact h.read ⟨hreq, hpc⟩

end

end WebAdf.DeviceWrite
