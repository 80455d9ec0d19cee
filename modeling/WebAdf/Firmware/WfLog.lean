import Mathlib
import WebAdf.Lib.Ascii

/-!
# The board's log

A ring of records one slot short, which both cores push into under the lock, and a
drainer that takes one record a time under the lock and hands it to the sink outside
it. A push that finds the ring full is counted instead, and the count is reported when
the backlog is clear. Every locked section is one step here, and so is every line
handed to the sink, so that pushes may land in every gap.
-/

namespace WebAdf.Firmware.WfLog

abbrev Bytes := List UInt8

def wfLogSlots : Nat := 64
def wfLogMsg : Nat := 88

/-- `WF_EV__COUNT`, the event of a formatted record. -/
def evCount : UInt16 := 14

structure Rec where
  us : UInt64
  a : UInt32
  b : UInt32
  ev : UInt16
  lvl : UInt8
  core : UInt8
  msg : Bytes
  deriving DecidableEq

/-- What a producer pushes, and the clock and core it pushes at. -/
structure Push where
  us : UInt64
  core : UInt8
  ev : UInt16
  lvl : UInt8
  a : UInt32
  b : UInt32
  msg : {m : Bytes // m.length < wfLogMsg}

/-- `wf_logf`, with its text as formatted. -/
def wfLogf (us : UInt64) (core lvl : UInt8) (text : Bytes) : Push :=
  ⟨us, core, evCount, lvl, 0, 0, text.take (wfLogMsg - 1), by
    rw [List.length_take]
    exact Nat.lt_of_le_of_lt (Nat.min_le_left _ _) (by decide)⟩

def wfTrace (us : UInt64) (core : UInt8) (ev : UInt16) (a b : UInt32) : Push :=
  ⟨us, core, ev, 0, a, b, [], by decide⟩

def Push.fields (p : Push) : Rec := ⟨p.us, p.a, p.b, p.ev, p.lvl, p.core, p.msg.1⟩

-- ---------------------------------------------------------------------------
-- The ring
-- ---------------------------------------------------------------------------

/-- `head` is the next slot to write, `tail` the next to read. -/
structure Ring where
  slots : Nat → Rec
  head : Nat
  tail : Nat
  dropped : UInt32

namespace Ring

def next (i : Nat) : Nat := (i + 1) % wfLogSlots

def full (r : Ring) : Bool := next r.head == r.tail

/-- `wf_push`: the message is cut to its place in the slot. -/
def push (r : Ring) (p : Push) : Ring :=
  if r.full then { r with dropped := r.dropped + 1 }
  else
    let m := p.msg.1
    let n := if m.length ≥ wfLogMsg then wfLogMsg - 1 else m.length
    { r with
      slots := Function.update r.slots r.head ⟨p.us, p.a, p.b, p.ev, p.lvl, p.core, m.take n⟩
      head := next r.head }

/-- The section that takes one record. -/
def take (r : Ring) : Option (Rec × Ring) :=
  if r.tail = r.head then none else some (r.slots r.tail, { r with tail := next r.tail })

/-- The section that takes the drops, once the backlog is clear; 0 for none. -/
def clear (r : Ring) : UInt32 × Ring :=
  if r.tail = r.head ∧ r.dropped ≠ 0 then (r.dropped, { r with dropped := 0 }) else (0, r)

def count (r : Ring) : Nat := (r.head + wfLogSlots - r.tail) % wfLogSlots

/-- The records held, the oldest first. -/
def records (r : Ring) : List Rec :=
  (List.range r.count).map fun i => r.slots ((r.tail + i) % wfLogSlots)

structure Ok (r : Ring) : Prop where
  head : r.head < wfLogSlots
  tail : r.tail < wfLogSlots

end Ring

-- ---------------------------------------------------------------------------
-- The drainer
-- ---------------------------------------------------------------------------

/-- Where `wf_log_drain` stands, `left` records before its limit. -/
inductive Drain
  | idle
  | draining (left : Nat)
  | holding (r : Rec) (left : Nat)
  | clearing
  | reporting (d : UInt32)

/-- A line of the sink. -/
inductive Line
  | record (r : Rec)
  | drops (d : UInt32)

structure State where
  ring : Ring
  drain : Drain
  sink : List Line

inductive Event
  | push (p : Push)
  /-- `wf_log_drain` is called with the sink ready or not. -/
  | start (maxRecords : Nat) (ready : Bool)
  /-- The drainer goes on. -/
  | go

/-- One step of the drainer. -/
def State.go (s : State) : State :=
  match s.drain with
  | .idle => s
  | .draining 0 => { s with drain := .clearing }
  | .draining (left + 1) =>
    match s.ring.take with
    | none => { s with drain := .clearing }
    | some (r, ring) => { s with ring := ring, drain := .holding r left }
  | .holding r left => { s with drain := .draining left, sink := s.sink ++ [.record r] }
  | .clearing =>
    let (d, ring) := s.ring.clear
    { s with ring := ring, drain := if d = 0 then .idle else .reporting d }
  | .reporting d => { s with drain := .idle, sink := s.sink ++ [.drops d] }

def State.step (s : State) : Event → State
  | .push p => { s with ring := s.ring.push p }
  | .start maxRecords ready =>
    match s.drain with
    | .idle => if ready then { s with drain := .draining maxRecords } else s
    | _ => s
  | .go => s.go

/-- `wf_log_init`. -/
def init (slots : Nat → Rec) : State := ⟨⟨slots, 0, 0, 0⟩, .idle, []⟩

def run (s : State) (es : List Event) : State := es.foldl State.step s

-- ---------------------------------------------------------------------------
-- What came of the pushes
-- ---------------------------------------------------------------------------

def Line.rec? : Line → Option Rec
  | .record r => some r
  | .drops _ => none

def Line.count : Line → Nat
  | .record _ => 0
  | .drops d => d.toNat

def Drain.held : Drain → List Rec
  | .holding r _ => [r]
  | _ => []

def Drain.taken : Drain → Nat
  | .reporting d => d.toNat
  | _ => 0

/-- The records handed to the sink, the one the drainer holds for it among them. -/
def State.emitted (s : State) : List Rec := s.sink.filterMap Line.rec? ++ s.drain.held

/-- The drops reported, those taken to be reported among them. -/
def State.reported (s : State) : Nat := (s.sink.map Line.count).sum + s.drain.taken

/-- What a run accepts, in order. -/
def accepted : State → List Event → List Rec
  | _, [] => []
  | s, .push p :: es =>
    (if s.ring.full then [] else [p.fields]) ++ accepted (s.step (.push p)) es
  | s, e :: es => accepted (s.step e) es

def pushes (es : List Event) : Nat :=
  es.countP fun
    | .push _ => true
    | _ => false

/-- A push that is dropped with the counter at its end. -/
def wraps (s : State) : Event → Bool
  | .push _ => s.ring.full && s.ring.dropped == 0xFFFFFFFF
  | _ => false

/-- How often a run goes past the end of the counter. -/
def wrapCount : State → List Event → Nat
  | _, [] => 0
  | s, e :: es => (if wraps s e then 1 else 0) + wrapCount (s.step e) es

end WebAdf.Firmware.WfLog

/-!
# The log loses nothing silently

The records handed to the sink, with those still in the ring, are the accepted ones in
the order of their pushes, each as it was pushed. Every push is in the sink, in the
ring or counted, as long as the counter of drops has not gone past its end.
-/

namespace WebAdf.Firmware.WfLog

-- ---------------------------------------------------------------------------
-- The ring
-- ---------------------------------------------------------------------------

namespace Ring

variable {r : Ring}

theorem next_lt (i : Nat) : next i < wfLogSlots := Nat.mod_lt _ (by decide)

theorem full_iff : r.full = true ↔ next r.head = r.tail := beq_iff_eq

theorem push_full (h : r.full = true) (p : Push) : r.push p = { r with dropped := r.dropped + 1 } := by
  rw [push, if_pos h]

/-- A push that is taken keeps its message whole. -/
theorem push_room (h : r.full = false) (p : Push) :
    r.push p = { r with slots := Function.update r.slots r.head p.fields, head := next r.head } := by
  have hmsg := p.msg.2
  rw [push, if_neg (by simp [h])]
  simp only [if_neg (Nat.not_le.mpr hmsg), List.take_length]
  rfl

theorem Ok.push (h : r.Ok) (p : Push) : (r.push p).Ok := by
  cases hf : r.full with
  | true =>
    rw [push_full hf]
    exact ⟨h.head, h.tail⟩
  | false =>
    rw [push_room hf]
    exact ⟨next_lt _, h.tail⟩

theorem count_next (h : r.Ok) (hf : r.full = false) :
    (r.head + wfLogSlots - r.tail) % wfLogSlots + 1 =
      (next r.head + wfLogSlots - r.tail) % wfLogSlots := by
  have hhead := h.head
  have htail := h.tail
  have hne : next r.head ≠ r.tail := by
    rintro heq
    rw [full_iff.mpr heq] at hf
    cases hf
  simp only [next, wfLogSlots] at *
  omega

/-- What a push that is taken does to the records. -/
theorem records_push (h : r.Ok) (hf : r.full = false) (p : Push) :
    (r.push p).records = r.records ++ [p.fields] := by
  have hhead := h.head
  have htail := h.tail
  have hcount := count_next h hf
  rw [push_room hf, records, records, count, count]
  dsimp only
  rw [← hcount, List.range_succ, List.map_append, List.map_singleton]
  have hplace : (r.tail + (r.head + wfLogSlots - r.tail) % wfLogSlots) % wfLogSlots = r.head := by
    simp only [wfLogSlots] at *
    omega
  have hold : ∀ i < (r.head + wfLogSlots - r.tail) % wfLogSlots, (r.tail + i) % wfLogSlots ≠ r.head := by
    intro i hi
    simp only [wfLogSlots] at *
    omega
  rw [hplace, Function.update_self]
  congr 1
  refine List.map_congr_left fun i hi => ?_
  rw [Function.update_of_ne (hold i (List.mem_range.mp hi))]

theorem take_none (h : r.Ok) (ht : r.take = none) : r.records = [] := by
  have heq : r.tail = r.head := by
    by_contra hne
    rw [take, if_neg hne] at ht
    cases ht
  rw [records, count, heq, Nat.add_sub_cancel_left, Nat.mod_self]
  rfl

theorem take_some (h : r.Ok) (ht : r.take = some (x, r')) :
    r.records = x :: r'.records ∧ r'.Ok ∧ r'.dropped = r.dropped := by
  have hhead := h.head
  have htail := h.tail
  rw [take] at ht
  split at ht
  · cases ht
  · rename_i hne
    obtain ⟨rfl, rfl⟩ := Prod.mk.inj (Option.some.inj ht)
    refine ⟨?_, ⟨hhead, next_lt _⟩, rfl⟩
    have hcount : r.count = (r.head + wfLogSlots - next r.tail) % wfLogSlots + 1 := by
      simp only [count, next, wfLogSlots] at *
      omega
    rw [records, hcount, List.range_succ_eq_map, List.map_cons, List.map_map]
    congr 1
    · rw [Nat.add_zero, Nat.mod_eq_of_lt htail]
    · rw [records, count]
      refine List.map_congr_left fun i _ => ?_
      have hsame : (r.tail + Nat.succ i) % wfLogSlots = (next r.tail + i) % wfLogSlots := by
        simp only [next, wfLogSlots]
        omega
      simp only [Function.comp, hsame]

theorem clear_eq : ∃ d, r.clear = (d, { r with dropped := r.dropped - d }) ∧
    d.toNat + (r.dropped - d).toNat = r.dropped.toNat := by
  rw [clear]
  split
  · exact ⟨r.dropped, by simp, by simp⟩
  · exact ⟨0, by simp, by simp⟩

end Ring

-- ---------------------------------------------------------------------------
-- One step
-- ---------------------------------------------------------------------------

def acceptedOne (s : State) : Event → List Rec
  | .push p => if s.ring.full then [] else [p.fields]
  | _ => []

def droppedOne (s : State) : Event → Nat
  | .push _ => if s.ring.full then 1 else 0
  | _ => 0

/-- What the drainer holds or has handed on, and what the ring holds. -/
def State.all (s : State) : List Rec := s.emitted ++ s.ring.records

def State.missed (s : State) : Nat := s.reported + s.ring.dropped.toNat

theorem dropped_succ (d : UInt32) :
    (d + 1).toNat + 2 ^ 32 * (if d == 0xFFFFFFFF then 1 else 0) = d.toNat + 1 := by
  have hlt := d.toNat_lt
  rw [UInt32.toNat_add]
  split
  · rename_i heq
    rw [beq_iff_eq.mp heq]
    rfl
  · rename_i hne
    have hmax : d.toNat ≠ 2 ^ 32 - 1 := by
      rintro h
      exact hne (beq_iff_eq.mpr (UInt32.toNat_inj.mp h))
    have hone : (1 : UInt32).toNat = 1 := rfl
    rw [hone]
    omega

theorem go_ok (s : State) (h : s.ring.Ok) :
    s.go.ring.Ok ∧ s.go.all = s.all ∧ s.go.missed = s.missed := by
  have hall : s.all = s.sink.filterMap Line.rec? ++ s.drain.held ++ s.ring.records := rfl
  have hmissed : s.missed = (s.sink.map Line.count).sum + s.drain.taken + s.ring.dropped.toNat := rfl
  rw [State.go]
  cases hd : s.drain with
  | idle => exact ⟨h, rfl, rfl⟩
  | draining left =>
    rw [hd] at hall hmissed
    cases left with
    | zero => exact ⟨h, hall.symm, hmissed.symm⟩
    | succ left =>
      dsimp only
      split
      · exact ⟨h, hall.symm, hmissed.symm⟩
      · rename_i x ring htake
        obtain ⟨hrecords, hok, hdropped⟩ := Ring.take_some h htake
        refine ⟨hok, ?_, ?_⟩
        · rw [hall, hrecords]
          simp [State.all, State.emitted, Drain.held]
        · rw [hmissed, ← hdropped]
          rfl
  | holding x left =>
    rw [hd] at hall hmissed
    refine ⟨h, ?_, ?_⟩
    · rw [hall]
      simp [State.all, State.emitted, Drain.held, Line.rec?]
    · rw [hmissed]
      simp [State.missed, State.reported, Drain.taken, Line.count]
  | clearing =>
    rw [hd] at hall hmissed
    obtain ⟨d, hclear, hsum⟩ := s.ring.clear_eq
    dsimp only
    rw [hclear]
    refine ⟨⟨h.head, h.tail⟩, ?_, ?_⟩
    · rw [hall]
      by_cases hzero : d = 0
      · simp only [if_pos hzero]
        rfl
      · simp only [if_neg hzero]
        rfl
    · rw [hmissed, ← hsum]
      by_cases hzero : d = 0
      · simp [State.missed, State.reported, Drain.taken, hzero]
      · simp [State.missed, State.reported, Drain.taken, hzero, Nat.add_assoc]
  | reporting d =>
    rw [hd] at hall hmissed
    refine ⟨h, ?_, ?_⟩
    · rw [hall]
      simp [State.all, State.emitted, Drain.held, Line.rec?]
    · rw [hmissed]
      simp [State.missed, State.reported, Drain.taken, Line.count]

/-- A step loses no record and no count, but a count past the counter's end. -/
theorem step_ok (s : State) (h : s.ring.Ok) (e : Event) :
    (s.step e).ring.Ok ∧ (s.step e).all = s.all ++ acceptedOne s e ∧
      (s.step e).missed + 2 ^ 32 * (if wraps s e then 1 else 0) = s.missed + droppedOne s e := by
  cases e with
  | push p =>
    refine ⟨h.push p, ?_, ?_⟩
    · rw [State.all, State.all, acceptedOne, List.append_assoc]
      congr 1
      rw [State.step]
      dsimp only
      cases hf : s.ring.full with
      | true =>
        rw [Ring.push_full hf, if_pos rfl, List.append_nil]
        rfl
      | false => rw [Ring.records_push h hf, if_neg Bool.false_ne_true]
    · rw [State.missed, State.missed, droppedOne, wraps, State.step]
      dsimp only
      cases hf : s.ring.full with
      | true =>
        have hsucc := dropped_succ s.ring.dropped
        rw [Ring.push_full hf, Bool.true_and, if_pos rfl]
        have hsame : State.reported { s with ring := { s.ring with dropped := s.ring.dropped + 1 } } =
          s.reported := rfl
        rw [hsame]
        dsimp only
        omega
      | false =>
        rw [Ring.push_room hf, Bool.false_and, if_neg Bool.false_ne_true]
        rfl
  | start maxRecords ready =>
    have hstart : s.step (.start maxRecords ready) = s ∨
        s.drain = .idle ∧ s.step (.start maxRecords ready) = { s with drain := .draining maxRecords } := by
      rw [State.step]
      cases hd : s.drain with
      | idle =>
        cases ready with
        | true => exact .inr ⟨rfl, rfl⟩
        | false => exact .inl rfl
      | draining left => exact .inl rfl
      | holding x left => exact .inl rfl
      | clearing => exact .inl rfl
      | reporting d => exact .inl rfl
    have hall : (s.step (.start maxRecords ready)).all = s.all ∧
        (s.step (.start maxRecords ready)).missed = s.missed ∧
          (s.step (.start maxRecords ready)).ring = s.ring := by
      obtain heq | ⟨hd, heq⟩ := hstart
      · rw [heq]
        exact ⟨rfl, rfl, rfl⟩
      · rw [heq]
        refine ⟨?_, ?_, rfl⟩
        · rw [State.all, State.all, State.emitted, State.emitted, hd]
          rfl
        · rw [State.missed, State.missed, State.reported, State.reported, hd]
          rfl
    rw [hall.1, hall.2.1, hall.2.2]
    exact ⟨h, (List.append_nil _).symm, rfl⟩
  | go =>
    obtain ⟨hok, hall, hmissed⟩ := go_ok s h
    refine ⟨hok, ?_, ?_⟩
    · rw [State.step, hall]
      exact (List.append_nil _).symm
    · rw [State.step, hmissed]
      rfl

-- ---------------------------------------------------------------------------
-- A run
-- ---------------------------------------------------------------------------

theorem accepted_cons (s : State) (e : Event) (es : List Event) :
    accepted s (e :: es) = acceptedOne s e ++ accepted (s.step e) es := by
  cases e with
  | push p => rfl
  | start maxRecords ready => rfl
  | go => rfl

/-- What is dropped in a run. -/
def drops : State → List Event → Nat
  | _, [] => 0
  | s, e :: es => droppedOne s e + drops (s.step e) es

theorem pushes_eq (s : State) (es : List Event) : pushes es = (accepted s es).length + drops s es := by
  induction es generalizing s with
  | nil => rfl
  | cons e es ih =>
    have htail := ih (s.step e)
    rw [accepted_cons, drops, List.length_append]
    rw [pushes] at htail ⊢
    cases e with
    | push p =>
      rw [List.countP_cons_of_pos rfl, htail, acceptedOne, droppedOne]
      cases s.ring.full with
      | true =>
        simp only [if_true, List.length_nil]
        omega
      | false =>
        simp only [Bool.false_eq_true, if_false, List.length_cons, List.length_nil]
        omega
    | start maxRecords ready =>
      rw [List.countP_cons_of_neg (by simp), htail]
      exact (Nat.zero_add _).symm ▸ by simp [acceptedOne, droppedOne]
    | go =>
      rw [List.countP_cons_of_neg (by simp), htail]
      simp [acceptedOne, droppedOne]

theorem run_ok (s : State) (h : s.ring.Ok) (es : List Event) :
    (run s es).all = s.all ++ accepted s es ∧
      (run s es).missed + 2 ^ 32 * wrapCount s es = s.missed + drops s es := by
  induction es generalizing s with
  | nil => exact ⟨(List.append_nil _).symm, rfl⟩
  | cons e es ih =>
    obtain ⟨hok, hall, hmissed⟩ := step_ok s h e
    obtain ⟨hallRun, hmissedRun⟩ := ih (s.step e) hok
    rw [accepted_cons, wrapCount, drops, Nat.mul_add]
    refine ⟨?_, ?_⟩
    · rw [← List.append_assoc, ← hall, ← hallRun]
      rfl
    · have hrun : run s (e :: es) = run (s.step e) es := rfl
      rw [hrun]
      omega

/-- In every run the records handed on and held are the accepted ones, in order and as
they were pushed; the accounting of the pushes holds exactly when no push has been
dropped with the counter at its end. -/
theorem log_accounts (slots : Nat → Rec) (es : List Event) :
    (run (init slots) es).emitted ++ (run (init slots) es).ring.records = accepted (init slots) es ∧
      (pushes es = (run (init slots) es).emitted.length + (run (init slots) es).ring.records.length +
          (run (init slots) es).reported + (run (init slots) es).ring.dropped.toNat ↔
        wrapCount (init slots) es = 0) := by
  obtain ⟨hall, hmissed⟩ := run_ok (init slots) ⟨(by decide : 0 < wfLogSlots),
    (by decide : 0 < wfLogSlots)⟩ es
  have hnone : (init slots).all = [] := by
    simp [State.all, State.emitted, init, Drain.held, Ring.records, Ring.count]
  have hzero : (init slots).missed = 0 := rfl
  rw [hnone, List.nil_append] at hall
  refine ⟨hall, ?_⟩
  have hlen := congrArg List.length hall
  rw [State.all, List.length_append] at hlen
  rw [hzero, State.missed] at hmissed
  have hpushes := pushes_eq (init slots) es
  omega

/-- A full ring only counts. -/
theorem run_full {s : State} (h : s.ring.full = true) (p : Push) (n : Nat) :
    run s (List.replicate n (.push p)) =
      { s with ring := { s.ring with dropped := s.ring.dropped + UInt32.ofNat n } } := by
  induction n generalizing s with
  | zero =>
    have hsame : s.ring.dropped + UInt32.ofNat 0 = s.ring.dropped := UInt32.add_zero _
    rw [hsame]
    rfl
  | succ n ih =>
    have hstep : s.step (.push p) = { s with ring := { s.ring with dropped := s.ring.dropped + 1 } } := by
      rw [State.step, Ring.push_full h]
    have hsum : s.ring.dropped + 1 + UInt32.ofNat n = s.ring.dropped + UInt32.ofNat (n + 1) := by
      rw [UInt32.ofNat_add, UInt32.add_assoc, UInt32.add_comm (UInt32.ofNat n)]
      rfl
    have hfull : (s.step (.push p)).ring.full = true := by
      rw [hstep]
      exact h
    have hrun : run s (List.replicate (n + 1) (.push p)) =
        run (s.step (.push p)) (List.replicate n (.push p)) := rfl
    rw [hrun, ih hfull, hstep]
    dsimp only
    rw [hsum]

def blank : Rec := ⟨0, 0, 0, 0, 0, 0, []⟩

/-- A record for each step of the head. -/
def seek : Event := .push (wfTrace 1000 0 3 40 0)

/-- What a board that seeks with nobody listening holds. -/
theorem seeks (n : Nat) :
    pushes (List.replicate 63 seek ++ List.replicate n seek) = 63 + n ∧
      (run (init fun _ => blank) (List.replicate 63 seek ++ List.replicate n seek)).emitted = [] ∧
      (run (init fun _ => blank)
        (List.replicate 63 seek ++ List.replicate n seek)).ring.records.length = 63 ∧
      (run (init fun _ => blank) (List.replicate 63 seek ++ List.replicate n seek)).reported = 0 ∧
      (run (init fun _ => blank) (List.replicate 63 seek ++ List.replicate n seek)).ring.dropped =
        UInt32.ofNat n := by
  have hfull : (run (init fun _ => blank) (List.replicate 63 seek)).ring.full = true := by
    decide +kernel
  have hdropped : (run (init fun _ => blank) (List.replicate 63 seek)).ring.dropped = 0 := by
    decide +kernel
  have hcount : (run (init fun _ => blank) (List.replicate 63 seek)).ring.records.length = 63 := by
    decide +kernel
  have hempty : (run (init fun _ => blank) (List.replicate 63 seek)).emitted = [] ∧
      (run (init fun _ => blank) (List.replicate 63 seek)).reported = 0 := by decide
  have happ : run (init fun _ => blank) (List.replicate 63 seek ++ List.replicate n seek) =
      run (run (init fun _ => blank) (List.replicate 63 seek)) (List.replicate n seek) :=
    List.foldl_append
  refine ⟨?_, ?_⟩
  · rw [pushes, List.countP_append, List.countP_replicate, List.countP_replicate]
    rfl
  rw [happ]
  generalize run (init fun _ => blank) (List.replicate 63 seek) = s at *
  have hrun : run s (List.replicate n seek) = _ := run_full hfull (wfTrace 1000 0 3 40 0) n
  rw [hrun]
  refine ⟨hempty.1, hcount, hempty.2, ?_⟩
  dsimp only
  rw [hdropped]
  exact UInt32.zero_add _

/-- 2^32 records dropped while nobody listens are lost, and not counted. -/
theorem drops_lost : ∃ es, pushes es = 63 + 2 ^ 32 ∧
    (run (init fun _ => blank) es).emitted = [] ∧
    (run (init fun _ => blank) es).ring.records.length = 63 ∧
    (run (init fun _ => blank) es).reported = 0 ∧
    (run (init fun _ => blank) es).ring.dropped = 0 := by
  have hall : ∀ n, UInt32.ofNat n = 0 → ∃ es, pushes es = 63 + n ∧
      (run (init fun _ => blank) es).emitted = [] ∧
      (run (init fun _ => blank) es).ring.records.length = 63 ∧
      (run (init fun _ => blank) es).reported = 0 ∧
      (run (init fun _ => blank) es).ring.dropped = 0 := by
    rintro n hn
    obtain ⟨hpushes, hemitted, hrecords, hreported, hdropped⟩ := seeks n
    exact ⟨_, hpushes, hemitted, hrecords, hreported, hdropped.trans hn⟩
  exact hall (2 ^ 32) rfl

end WebAdf.Firmware.WfLog
