import WebAdf.DeviceWrite.Inv

/-!
# The invariant of a timely run

`Inv` puts the tables, the board, the requests sent and the handlers under way
together. `Onward` is what every timely step does to the uploads made, staged
and taken; what was known of a request or a handler outlives such a step.
-/

namespace WebAdf.DeviceWrite

open Lib DiskHistory

section
variable {σ : Type} {s t : State σ}

structure MadeOk (s : State σ) : Prop where
  sent : ∀ u ∈ s.made, 0 < u.seq ∧ u.track < tracks ∧ u.session.number ≤ s.board.opened
  below : ∀ u ∈ s.made, s.board.current = some u.session → u.seq ≤ s.board.seq
  unique : ∀ u ∈ s.made, ∀ v ∈ s.made, u.session = v.session → u.seq = v.seq → u = v
  number : ∀ e, s.board.current = some e → e.number ≤ s.board.opened
  committed : ∀ u ∈ s.tables.committed, u ∈ s.made

/-- `u` is the last upload of its track, of those up to `seq`. -/
def Last (us : List Upload) (e : BoardSession) (seq : Nat) (u : Upload) : Prop :=
  u ∈ us ∧ u.session = e ∧ u.seq ≤ seq ∧
    ∀ v ∈ us, v.session = e → v.track = u.track → v.seq ≤ seq → v.seq ≤ u.seq

structure BoardOk (b : Board σ) (made committed : List Upload) : Prop where
  clean : ∀ e, b.current = some e → ∀ u, Last made e b.seq u →
    u ∈ committed ∨ b.dirty u.track = true ∨ b.waiting = some (.upload u)
  waiting : ∀ u, b.waiting = some (.upload u) →
    u ∈ made ∧ b.current = some u.session ∧ u.seq = b.seq

/-- When the close was sent, every track's last upload was staged. -/
structure CloseOk (s : State σ) (q : Close σ) : Prop where
  number : q.session.number ≤ s.board.opened
  below : s.board.current = some q.session → q.seq ≤ s.board.seq
  acked : ∀ u, Last s.made q.session q.seq u → u ∈ s.tables.committed

def RequestOk (s : State σ) : Request σ → Prop
  | .upload u => u ∈ s.made
  | .close q => CloseOk s q

/-- The session has staged up to the close's `seq`. -/
def Reached (s : State σ) (q : Close σ) : Prop :=
  q.seq = 0 ∨ ∃ c ∈ s.tables.committed, c.session = q.session ∧ q.seq ≤ c.seq

/-- The board has uploaded more since. -/
def GoneOn (s : State σ) (q : Close σ) : Prop := ∃ u ∈ s.made, u.session = q.session ∧ q.seq < u.seq

def StagingOk (s : State σ) (q : Upload) : Staging σ → Prop
  | .answered (.staged _) => q ∈ s.tables.committed
  | .answered .duplicate => s.board.current = some q.session →
    ∃ c ∈ s.tables.committed, c.session = q.session ∧ q.seq ≤ c.seq
  | _ => True

def ClosingOk (s : State σ) (q : Close σ) : Closing σ → Prop
  | .staged _ o => Reached s q ∧
    (s.tables.taken q.session = o.floor ∨ q.seq ≤ s.tables.taken q.session)
  | .record _ o staged => Reached s q ∧
    (GoneOn s q ∨ Holds (lastWrite · staged) s.tables.committed q.session o.floor)
  | _ => True

def TaskOk (s : State σ) : Task σ → Prop
  | .stage q pc => .upload q ∈ s.requests ∧ StagingOk s q pc
  | .close q pc => .close q ∈ s.requests ∧ ClosingOk s q pc

structure Inv (s : State σ) : Prop where
  made : MadeOk s
  board : BoardOk s.board s.made s.tables.committed
  tables : TablesOk s.board.current s.tables
  requests : ∀ r ∈ s.requests, RequestOk s r
  tasks : ∀ task ∈ s.tasks, TaskOk s task
  records : ∀ r ∈ s.records, r.Overlaid

-- ---------------------------------------------------------------------------
-- What every step does
-- ---------------------------------------------------------------------------

structure Onward (s t : State σ) : Prop where
  requests : ∀ r ∈ s.requests, r ∈ t.requests
  made : ∀ u ∈ s.made, u ∈ t.made
  newMade : ∀ u ∈ t.made, u ∈ s.made ∨ s.board.opened < u.session.number ∨
    s.board.current = some u.session ∧ s.board.seq < u.seq
  committed : ∀ u ∈ s.tables.committed, u ∈ t.tables.committed
  newCommitted : ∀ u ∈ t.tables.committed, u ∈ s.tables.committed ∨
    u ∈ s.made ∧ ∀ c ∈ s.tables.committed, c.session = u.session → c.seq < u.seq
  taken : ∀ e, t.tables.taken e = s.tables.taken e ∨
    ∀ c ∈ s.tables.committed, c.session = e → c.seq ≤ t.tables.taken e
  opened : s.board.opened ≤ t.board.opened
  current : ∀ e, t.board.current = some e →
    s.board.opened < e.number ∧ e.number ≤ t.board.opened ∨
      s.board.current = some e ∧ s.board.seq ≤ t.board.seq

/-- A session the board was in, or had been in, is current after only if before. -/
theorem Onward.stayed (h : Onward s t) (hcur : t.board.current = some e)
    (hnum : e.number ≤ s.board.opened) :
    s.board.current = some e ∧ s.board.seq ≤ t.board.seq := by
  rcases h.current e hcur with ⟨hlt, -⟩ | hsame
  · omega
  · exact hsame

theorem Onward.madeOk (h : Onward s t) (hs : MadeOk s) (hmade : t.made = s.made) : MadeOk t := by
  refine ⟨?_, ?_, ?_, ?_, ?_⟩
  · intro u hu
    obtain ⟨hpos, htrack, hnum⟩ := hs.sent u (hmade ▸ hu)
    exact ⟨hpos, htrack, Nat.le_trans hnum h.opened⟩
  · intro u hu hcur
    rw [hmade] at hu
    obtain ⟨hbefore, hle⟩ := h.stayed hcur (hs.sent u hu).2.2
    exact Nat.le_trans (hs.below u hu hbefore) hle
  · rw [hmade]
    exact hs.unique
  · intro e hcur
    rcases h.current e hcur with ⟨-, hle⟩ | ⟨hbefore, -⟩
    · exact hle
    · exact Nat.le_trans (hs.number e hbefore) h.opened
  · intro u hu
    rw [hmade]
    rcases h.newCommitted u hu with hu | ⟨hu, -⟩
    · exact hs.committed u hu
    · exact hu

theorem Onward.requestOk (h : Onward s t) (hr : RequestOk s r) : RequestOk t r := by
  cases r with
  | upload u => exact h.made u hr
  | close q =>
    obtain ⟨hnum, hbelow, hacked⟩ := hr
    refine ⟨Nat.le_trans hnum h.opened, fun hcur => ?_, ?_⟩
    · obtain ⟨hbefore, hle⟩ := h.stayed hcur hnum
      exact Nat.le_trans (hbelow hbefore) hle
    · -- an upload made since is above the close's `seq`
      rintro u ⟨hu, he, hseq, hmax⟩
      have hold : u ∈ s.made := by
        rcases h.newMade u hu with hu | hnew | ⟨hcur, hlt⟩
        · exact hu
        · rw [he] at hnew
          omega
        · have := hbelow (by rw [hcur, he])
          omega
      exact h.committed u (hacked u ⟨hold, he, hseq, fun v hv => hmax v (h.made v hv)⟩)

theorem Onward.reached (h : Onward s t) {q : Close σ} (hr : Reached s q) : Reached t q :=
  hr.imp id fun ⟨c, hc, hcq⟩ => ⟨c, h.committed c hc, hcq⟩

theorem Onward.taskOk (h : Onward s t) (hi : Inv s) (hmade : MadeOk t) (ht : TaskOk s task) :
    TaskOk t task := by
  cases task with
  | stage q pc =>
    obtain ⟨hreq, hpc⟩ := ht
    refine ⟨h.requests _ hreq, ?_⟩
    cases pc with
    | answered a =>
      cases a with
      | staged k => exact h.committed q hpc
      | duplicate =>
        intro hcur
        have hq : q ∈ s.made := hi.requests _ hreq
        obtain ⟨c, hc, hcq⟩ := hpc (h.stayed hcur (hi.made.sent q hq).2.2).1
        exact ⟨c, h.committed c hc, hcq⟩
      | _ => trivial
    | _ => trivial
  | close q pc =>
    obtain ⟨hreq, hpc⟩ := ht
    refine ⟨h.requests _ hreq, ?_⟩
    cases pc with
    | staged sha o =>
      obtain ⟨hreach, htaken⟩ := hpc
      refine ⟨h.reached hreach, ?_⟩
      rcases h.taken q.session with heq | hall
      · rwa [heq]
      · right
        rcases hreach with hz | ⟨c, hc, hcq, hle⟩
        · omega
        · exact Nat.le_trans hle (hall c hc hcq)
    | record sha o staged =>
      obtain ⟨hreach, hgone | hholds⟩ := hpc
      · obtain ⟨u, hu, huq⟩ := hgone
        exact ⟨h.reached hreach, .inl ⟨u, h.made u hu, huq⟩⟩
      · refine ⟨h.reached hreach, ?_⟩
        by_cases hnew : ∃ u ∈ t.tables.committed, u.session = q.session ∧ u ∉ s.tables.committed
        · -- a later commit of the session is of an upload past the close
          obtain ⟨u, hu, huq, hout⟩ := hnew
          have hin := hmade.committed u hu
          refine .inl ⟨u, hin, huq, ?_⟩
          obtain ⟨-, habove⟩ := (h.newCommitted u hu).resolve_left hout
          rcases hreach with hz | ⟨c, hc, hcq, hle⟩
          · rw [hz]
            exact (hmade.sent u hin).1
          · exact Nat.lt_of_le_of_lt hle (habove c hc (hcq.trans huq.symm))
        · refine .inr (hholds.congr fun u hu => ⟨fun ht => ?_, h.committed u⟩)
          by_contra hout
          exact hnew ⟨u, ht, hu, hout⟩
    | _ => trivial

end

end WebAdf.DeviceWrite
