import Mathlib.Data.List.Basic

/-!
# The step-up password check

A user's wrong passwords are counted in a row of their own. A call of the gate reads
the lock, checks the password, and then records a failure or clears the row in one
statement; any number of calls may overlap. The count starts over when a failure is
recorded on a row whose lock has expired, and the expired lock stays in the row: such
a row is never locked again before a correct password.
-/

namespace WebAdf.StepUp

def maxFailures : Nat := 5
def lockoutMs : Nat := 15 * 60 * 1000

structure Row where
  failures : Nat
  lockedUntil : Option Nat
  lastFailedAt : Option Nat
  deriving DecidableEq

-- ---------------------------------------------------------------------------
-- The statements
-- ---------------------------------------------------------------------------

/-- Milliseconds left of the lockout. -/
def remaining (lockedUntil : Option Nat) (now : Nat) : Nat := (lockedUntil.map (· - now)).getD 0

def lockoutRemaining (row : Option Row) (now : Nat) : Nat := remaining (row.bind (·.lockedUntil)) now

/-- The lock is there and is over. -/
def expired (lockedUntil : Option Nat) (now : Nat) : Bool := lockedUntil.any (· ≤ now)

/-- Both columns are computed from the row as it was. -/
def recordFailure (row : Option Row) (now : Nat) : Row :=
  match row with
  | none => ⟨1, none, some now⟩
  | some r =>
    let next := if expired r.lockedUntil now then 1 else r.failures + 1
    ⟨next, if next ≥ maxFailures then some (now + lockoutMs) else r.lockedUntil, some now⟩

def clearFailures (row : Option Row) : Row := ⟨0, none, row.bind (·.lastFailedAt)⟩

-- ---------------------------------------------------------------------------
-- The gate
-- ---------------------------------------------------------------------------

inductive Answer
  | tooManyAttempts (retryAfterMs : Nat)
  | badPassword
  | ok
  deriving DecidableEq

/-- Where a call stands. -/
inductive Call
  | idle
  | unlocked
  | verified (right : Bool)
  | answered (a : Answer)
  deriving DecidableEq

/-- One user's row, the clock, and the calls. -/
structure State where
  now : Nat
  row : Option Row
  calls : Nat → Call

def State.lockedUntil (s : State) : Option Nat := s.row.bind (·.lockedUntil)

inductive Event
  | tick (ms : Nat)
  | check (id : Nat)
  | verify (id : Nat) (right : Bool)
  | settle (id : Nat)

/-- What a step records. -/
inductive Recorded
  | wrong (at' : Nat)
  | correct
  deriving DecidableEq

def State.at (s : State) (id : Nat) (c : Call) : State :=
  { s with calls := fun i => if i = id then c else s.calls i }

/-- The lock check; a call that meets a lock is answered with no password checked. -/
def State.check (s : State) (id : Nat) : State :=
  let locked := lockoutRemaining s.row s.now
  s.at id (if locked > 0 then .answered (.tooManyAttempts locked) else .unlocked)

/-- The statement at the end of a call. -/
def State.settle (s : State) (id : Nat) (right : Bool) : State :=
  if right then { s with row := some (clearFailures s.row) }.at id (.answered .ok)
  else
    let row := recordFailure s.row s.now
    let left := remaining row.lockedUntil s.now
    { s with row := some row }.at id
      (.answered (if left > 0 then .tooManyAttempts left else .badPassword))

/-- `none` where a call is not there yet. -/
def step (s : State) : Event → Option (State × Option Recorded)
  | .tick ms => some ({ s with now := s.now + ms }, none)
  | .check id =>
    match s.calls id with
    | .idle => some (s.check id, none)
    | _ => none
  | .verify id right =>
    match s.calls id with
    | .unlocked => some (s.at id (.verified right), none)
    | _ => none
  | .settle id =>
    match s.calls id with
    | .verified right => some (s.settle id right, some (if right then .correct else .wrong s.now))
    | _ => none

/-- Steps in any order, and what they record; each state before a step satisfies `P`. -/
inductive Run (P : State → Prop) : State → List Recorded → State → Prop
  | done (s : State) : Run P s [] s
  | step (hp : P s) (h : step s e = some (s', r)) (hrest : Run P s' rs s'') :
      Run P s (r.toList ++ rs) s''

-- ---------------------------------------------------------------------------
-- What a step does
-- ---------------------------------------------------------------------------

variable {s s' : State}

/-- A step records nothing and leaves the row, clears it, or counts a wrong password. -/
theorem step_row (h : step s e = some (s', r)) :
    (r = none ∧ s'.row = s.row ∧ s.now ≤ s'.now) ∨
      (r = some .correct ∧ s'.row = some (clearFailures s.row) ∧ s'.now = s.now) ∨
      (r = some (.wrong s.now) ∧ s'.row = some (recordFailure s.row s.now) ∧ s'.now = s.now) := by
  cases e with
  | tick ms =>
    obtain ⟨rfl, rfl⟩ := Prod.mk.inj (Option.some.inj h)
    exact .inl ⟨rfl, rfl, Nat.le_add_right _ _⟩
  | check id =>
    rw [step] at h
    split at h
    · obtain ⟨rfl, rfl⟩ := Prod.mk.inj (Option.some.inj h)
      exact .inl ⟨rfl, rfl, Nat.le_refl _⟩
    · cases h
  | verify id right =>
    rw [step] at h
    split at h
    · obtain ⟨rfl, rfl⟩ := Prod.mk.inj (Option.some.inj h)
      exact .inl ⟨rfl, rfl, Nat.le_refl _⟩
    · cases h
  | settle id =>
    rw [step] at h
    split at h
    · rename_i right _
      obtain ⟨rfl, rfl⟩ := Prod.mk.inj (Option.some.inj h)
      cases right with
      | true => exact .inr (.inl ⟨rfl, rfl, rfl⟩)
      | false => exact .inr (.inr ⟨rfl, rfl, rfl⟩)
    · cases h

/-- A lock check inside a lockout answers the call; the call does nothing more, and
the row is as it was. -/
theorem check_locked (id : Nat) (hidle : s.calls id = .idle) (hlock : s.lockedUntil = some u) (hu : s.now < u) :
    step s (.check id) = some (s.check id, none) ∧ (s.check id).row = s.row ∧
      (s.check id).calls id = .answered (.tooManyAttempts (u - s.now)) ∧
      ∀ right, step (s.check id) (.verify id right) = none ∧ step (s.check id) (.settle id) = none := by
  have hleft : lockoutRemaining s.row s.now = u - s.now := by
    rw [lockoutRemaining, show s.row.bind (·.lockedUntil) = some u from hlock]
    rfl
  have hcall : (s.check id).calls id = .answered (.tooManyAttempts (u - s.now)) := by
    simp only [State.check, State.at, hleft, if_pos (show u - s.now > 0 by omega), if_true]
  refine ⟨?_, rfl, hcall, fun right => ⟨?_, ?_⟩⟩
  · simp only [step, hidle]
  · simp only [step, hcall]
  · simp only [step, hcall]

-- ---------------------------------------------------------------------------
-- The count
-- ---------------------------------------------------------------------------

def count (row : Option Row) : Nat := row.elim 0 (·.failures)

theorem recordFailure_unlocked (h : row.bind (·.lockedUntil) = none) (now : Nat) :
    (recordFailure row now).failures = count row + 1 ∧
      (recordFailure row now).lockedUntil =
        if count row + 1 ≥ maxFailures then some (now + lockoutMs) else none := by
  cases row with
  | none => exact ⟨rfl, rfl⟩
  | some r =>
    have hlock : r.lockedUntil = none := h
    simp [recordFailure, count, hlock, expired]

theorem recordFailure_expired (h : row.bind (·.lockedUntil) = some u) (hu : u ≤ now) :
    (recordFailure row now).lockedUntil = some u := by
  cases row with
  | none => cases h
  | some r =>
    have hlock : r.lockedUntil = some u := h
    simp [recordFailure, hlock, expired, hu, maxFailures]

theorem Run.first {P : State → Prop} (h : Run P s rs s') (hne : rs ≠ []) : P s := by
  cases h with
  | done => exact absurd rfl hne
  | step hp h hrest => exact hp

/-- The wrong passwords of a run, in time. -/
theorem Run.times {P : State → Prop} (h : Run P s rs s') :
    ∀ ts : List Nat, rs = ts.map .wrong → (∀ x ∈ ts, s.now ≤ x) ∧ ts.Pairwise (· ≤ ·) := by
  induction h with
  | done s =>
    intro ts hts
    obtain rfl := List.map_eq_nil_iff.mp hts.symm
    simp
  | @step s e s1 r rs s2 hp h hrest ih =>
    intro ts hts
    obtain ⟨rfl, -, hnow⟩ | ⟨rfl, -, -⟩ | ⟨rfl, -, hnow⟩ := step_row h
    · obtain ⟨hge, hsorted⟩ := ih ts hts
      exact ⟨fun x hx => Nat.le_trans hnow (hge x hx), hsorted⟩
    · cases ts with
      | nil => cases hts
      | cons x ts => cases hts
    · cases ts with
      | nil => cases hts
      | cons x ts =>
        obtain ⟨hx, htail⟩ := List.cons.inj hts
        obtain rfl := Recorded.wrong.inj hx
        obtain ⟨hge, hsorted⟩ := ih ts htail
        rw [hnow] at hge
        refine ⟨?_, List.pairwise_cons.mpr ⟨hge, hsorted⟩⟩
        rintro y hy
        obtain rfl | hy := List.mem_cons.mp hy
        · exact Nat.le_refl _
        · exact hge y hy

/-- No lockout is in force at `t`, or ends then or later. -/
def Quiet (t : Nat) (s : State) : Prop := ∀ u ∈ s.lockedUntil, u < t

/-- Without a lock in the row the wrong passwords add up; the one that reaches the
limit locks, and ends the quiet. -/
theorem Run.unlocked (h : Run (Quiet t) s rs s') :
    ∀ ts : List Nat, rs = ts.map .wrong → (∀ x ∈ ts, t ≤ x) → s.lockedUntil = none →
      (s'.lockedUntil = none ∧ count s'.row = count s.row + ts.length ∧
        (ts ≠ [] → count s'.row < maxFailures)) ∨
      ∃ x, ts.getLast? = some x ∧ s'.lockedUntil = some (x + lockoutMs) := by
  induction h with
  | done s =>
    intro ts hts hge hlock
    obtain rfl := List.map_eq_nil_iff.mp hts.symm
    exact .inl ⟨hlock, rfl, fun h => absurd rfl h⟩
  | @step s e s1 r rs s2 hp h hrest ih =>
    intro ts hts hge hlock
    obtain ⟨rfl, hrow, -⟩ | ⟨rfl, -, -⟩ | ⟨rfl, hrow, -⟩ := step_row h
    · have hlock' : s1.lockedUntil = none := by rw [State.lockedUntil, hrow]; exact hlock
      have hih := ih ts hts hge hlock'
      rwa [hrow] at hih
    · cases ts with
      | nil => cases hts
      | cons x ts => cases hts
    · cases ts with
      | nil => cases hts
      | cons x ts =>
        obtain ⟨hx, htail⟩ := List.cons.inj hts
        obtain rfl := Recorded.wrong.inj hx
        rw [List.forall_mem_cons] at hge
        obtain ⟨hfail, hlocked⟩ := recordFailure_unlocked hlock s.now
        have hlock' : s1.lockedUntil = (recordFailure s.row s.now).lockedUntil := by
          rw [State.lockedUntil, hrow]
          rfl
        have hcount : count s1.row = count s.row + 1 := by rw [hrow, ← hfail]; rfl
        by_cases hlimit : count s.row + 1 ≥ maxFailures
        · rw [if_pos hlimit] at hlocked
          rw [hlocked] at hlock'
          cases hrest with
          | done =>
            obtain rfl := List.map_eq_nil_iff.mp htail.symm
            exact .inr ⟨_, rfl, hlock'⟩
          | step hp' h' hrest' =>
            have hquiet := hp' _ hlock'
            omega
        · rw [if_neg hlimit] at hlocked
          rw [hlocked] at hlock'
          obtain ⟨hnone, hsum, hlt⟩ | ⟨y, hy, hsome⟩ := ih ts htail hge.2 hlock'
          · refine .inl ⟨hnone, by rw [hsum, hcount, List.length_cons]; omega, fun _ => ?_⟩
            cases ts with
            | nil =>
              rw [hsum, hcount, List.length_nil]
              omega
            | cons y ts => exact hlt (List.cons_ne_nil _ _)
          · refine .inr ⟨y, ?_, hsome⟩
            cases ts with
            | nil => cases hy
            | cons z ts => exact hy

/-- An expired lock stays in the row, however many wrong passwords follow. -/
theorem Run.expired (h : Run (Quiet t) s rs s') :
    ∀ ts : List Nat, rs = ts.map .wrong → (∀ x ∈ ts, t ≤ x) → s.lockedUntil = some u →
      s'.lockedUntil = some u := by
  induction h with
  | done s => exact fun _ _ _ hlock => hlock
  | @step s e s1 r rs s2 hp h hrest ih =>
    intro ts hts hge hlock
    obtain ⟨rfl, hrow, -⟩ | ⟨rfl, -, -⟩ | ⟨rfl, hrow, -⟩ := step_row h
    · exact ih ts hts hge (by rw [State.lockedUntil, hrow]; exact hlock)
    · cases ts with
      | nil => cases hts
      | cons x ts => cases hts
    · cases ts with
      | nil => cases hts
      | cons x ts =>
        obtain ⟨hx, htail⟩ := List.cons.inj hts
        obtain rfl := Recorded.wrong.inj hx
        rw [List.forall_mem_cons] at hge
        have hu : u ≤ s.now := by
          have hquiet := hp u hlock
          omega
        refine ih ts htail hge.2 ?_
        rw [State.lockedUntil, hrow]
        exact recordFailure_expired hlock hu

-- ---------------------------------------------------------------------------
-- Five wrong passwords
-- ---------------------------------------------------------------------------

/-- Five wrong passwords, with no correct one and no lockout in force or ending
between them, lock for `lockoutMs` from the fifth exactly when no expired lock was in
the row; and a lock check inside a lockout does nothing but answer. -/
theorem fifth_locks (s : State) :
    (∀ s' t1 t2 t3 t4 t5,
      Run (Quiet t1) s [.wrong t1, .wrong t2, .wrong t3, .wrong t4, .wrong t5] s' →
        (s'.lockedUntil = some (t5 + lockoutMs) ↔ s.lockedUntil = none)) ∧
      ∀ id u, s.calls id = .idle → s.lockedUntil = some u → s.now < u →
        step s (.check id) = some (s.check id, none) ∧ (s.check id).row = s.row ∧
          (s.check id).calls id = .answered (.tooManyAttempts (u - s.now)) ∧
          ∀ right, step (s.check id) (.verify id right) = none ∧
            step (s.check id) (.settle id) = none := by
  refine ⟨fun s' t1 t2 t3 t4 t5 h => ?_, fun id u hidle hlock hu => check_locked id hidle hlock hu⟩
  have hts : [Recorded.wrong t1, .wrong t2, .wrong t3, .wrong t4, .wrong t5] =
      [t1, t2, t3, t4, t5].map .wrong := rfl
  obtain ⟨-, hsorted⟩ := h.times _ hts
  obtain ⟨hlater, -⟩ := List.pairwise_cons.mp hsorted
  have hge : ∀ x ∈ [t1, t2, t3, t4, t5], t1 ≤ x := by
    rintro x hx
    obtain rfl | hx := List.mem_cons.mp hx
    · exact Nat.le_refl _
    · exact hlater x hx
  constructor
  · rintro hlocked
    cases hlock : s.lockedUntil with
    | none => rfl
    | some u =>
      have hstays := h.expired _ hts hge hlock
      rw [hlocked] at hstays
      have hlt : u < t1 := h.first (List.cons_ne_nil _ _) u hlock
      have ht5 := hge t5 (by simp)
      have hu := Option.some.inj hstays
      omega
  · rintro hlock
    obtain ⟨-, hsum, hlt⟩ | ⟨x, hx, hsome⟩ := h.unlocked _ hts hge hlock
    · have hcount := hlt (List.cons_ne_nil _ _)
      rw [hsum] at hcount
      simp only [List.length_cons, List.length_nil, maxFailures] at hcount
      omega
    · obtain rfl := Option.some.inj hx
      exact hsome

-- ---------------------------------------------------------------------------
-- Runs on fixed calls
-- ---------------------------------------------------------------------------

/-- The events one after the other, as long as `quiet` holds before each. -/
def follow (quiet : State → Bool) (s : State) : List Event → Option (State × List Recorded)
  | [] => some (s, [])
  | e :: es =>
    if quiet s then
      match step s e with
      | none => none
      | some (s', r) => (follow quiet s' es).map fun (s'', rs) => (s'', r.toList ++ rs)
    else none

theorem follow_run {quiet : State → Bool} {P : State → Prop} (hq : ∀ s, quiet s = true → P s)
    (h : follow quiet s es = some (s', rs)) : Run P s rs s' := by
  induction es generalizing s rs with
  | nil =>
    obtain ⟨rfl, rfl⟩ := Prod.mk.inj (Option.some.inj h)
    exact .done _
  | cons e es ih =>
    rw [follow] at h
    split at h
    · rename_i hquiet
      split at h
      · cases h
      · rename_i s1 r hstep
        obtain ⟨⟨s2, rs'⟩, hrest, heq⟩ := Option.map_eq_some_iff.mp h
        obtain ⟨rfl, rfl⟩ := Prod.mk.inj heq
        exact .step (hq s hquiet) hstep (ih hrest)
    · cases h

def quietAt (t : Nat) (s : State) : Bool := s.lockedUntil.all (· < t)

theorem quietAt_quiet (t : Nat) (s : State) (h : quietAt t s = true) : Quiet t s := by
  rintro u hu
  rw [quietAt, Option.mem_def.mp hu] at h
  simpa using h

/-- A call with a wrong password, on its own. -/
def wrongCall (id : Nat) : List Event := [.check id, .verify id false, .settle id]

def fresh : State := ⟨1000, none, fun _ => .idle⟩

/-- After the first lockout. -/
def afterLockout : List Event :=
  wrongCall 0 ++ wrongCall 1 ++ wrongCall 2 ++ wrongCall 3 ++ wrongCall 4 ++ [.tick (lockoutMs + 1)]

def fiveCalls : List Event :=
  wrongCall 5 ++ wrongCall 6 ++ wrongCall 7 ++ wrongCall 8 ++ wrongCall 9

theorem fifth_locks_fresh :
    ∃ s', Run (Quiet 1000) fresh [.wrong 1000, .wrong 1000, .wrong 1000, .wrong 1000, .wrong 1000] s' ∧
      s'.lockedUntil = some (1000 + lockoutMs) := by
  have hfollow : (follow (quietAt 1000) fresh fiveCalls).map (·.2) =
      some [.wrong 1000, .wrong 1000, .wrong 1000, .wrong 1000, .wrong 1000] := by decide
  obtain ⟨⟨s', rs⟩, hs', rfl⟩ := Option.map_eq_some_iff.mp hfollow
  have hrun := follow_run (quietAt_quiet 1000) hs'
  exact ⟨s', hrun, ((fifth_locks fresh).1 _ _ _ _ _ _ hrun).mpr rfl⟩

/-- Five wrong passwords once a lockout has expired: no lockout. -/
theorem second_five_not_locked :
    ∃ s s', Run (fun _ => True) fresh (List.replicate 5 (.wrong 1000)) s ∧
      Run (Quiet 901001) s [.wrong 901001, .wrong 901001, .wrong 901001, .wrong 901001, .wrong 901001]
        s' ∧ lockoutRemaining s'.row s'.now = 0 ∧ s'.lockedUntil ≠ some (901001 + lockoutMs) := by
  have hfirst : (follow (fun _ => true) fresh afterLockout).map (·.2) =
      some (List.replicate 5 (.wrong 1000)) := by decide
  have hsecond : ((follow (fun _ => true) fresh afterLockout).bind fun x =>
      follow (quietAt 901001) x.1 fiveCalls).map (fun x =>
        (x.2, lockoutRemaining x.1.row x.1.now, x.1.lockedUntil)) =
      some ([.wrong 901001, .wrong 901001, .wrong 901001, .wrong 901001, .wrong 901001], 0,
        some 901000) := by decide
  obtain ⟨⟨s, rs⟩, hs, rfl⟩ := Option.map_eq_some_iff.mp hfirst
  rw [hs, Option.bind_some] at hsecond
  obtain ⟨⟨s', rs'⟩, hs', heq⟩ := Option.map_eq_some_iff.mp hsecond
  obtain ⟨rfl, hleft, hlock⟩ := Prod.mk.inj heq |>.imp id Prod.mk.inj
  refine ⟨s, s', follow_run (fun _ _ => trivial) hs, follow_run (quietAt_quiet 901001) hs', hleft, ?_⟩
  rw [show s'.lockedUntil = some 901000 from hlock]
  decide

end WebAdf.StepUp
