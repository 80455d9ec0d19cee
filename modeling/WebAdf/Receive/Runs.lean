import WebAdf.Receive.Aside

/-!
# Runs of a session

One step is a byte of a line, a line, a pass over bytes of a file, or something
the program does between. `rx_feed` is so many of these steps, however the
stream is cut.
-/

namespace WebAdf.Receive

open Lib
open Relation (ReflTransGen)

variable {φ : Type} {fs : Fs φ}

namespace Session

/-- A step while the link stays as it is. -/
inductive Live (fs : Fs φ) : Session φ → Session φ → Prop
  | char (s : Session φ) (c : UInt8) (h : s.inData = false) : Live fs s { s with line := s.line ++ [c] }
  | line (s : Session φ) (h : s.inData = false) : Live fs s (s.endLine fs)
  | bytes (s : Session φ) (data : Bytes) (h : s.inData = true) (hlen : data.length ≤ s.passLen data.length) :
      Live fs s (s.eat fs data)
  | takeOutput (s : Session φ) (cap : Nat) : Live fs s (s.takeOutput fs cap).2
  | upCancel (s : Session φ) (tag : Nat) : Live fs s (s.upCancel fs tag)
  | trustNow (s : Session φ) : Live fs s s.trustNow
  | switchChanged (s : Session φ) : Live fs s (s.switchChanged fs)
  /-- The front end queues files and turns its switches. -/
  | front (s : Session φ) (q q' : Upq) (h : s.upq = some q) (hdone : q'.done = q.done) :
      Live fs s { s with upq := some q' }

inductive Step (fs : Fs φ) : Session φ → Session φ → Prop
  | live {s s' : Session φ} (h : Live fs s s') : Step fs s s'
  | disconnected (s : Session φ) : Step fs s (s.disconnected fs)
  /-- The next connection, with the same queue. -/
  | connect (s : Session φ) (h : s.inData = false) : Step fs s (s.init s.upq)

/-- A run from one state to another. -/
def Run (fs : Fs φ) : Session φ → Session φ → Prop := ReflTransGen (Step fs)

/-- The program starts: nothing is connected and nothing was saved. -/
def start (d : φ) (q : Upq) : Session φ := { disk := d, upq := some { q with done := {} } }

/-- Reached by a run from the start. -/
def Reached (fs : Fs φ) (s : Session φ) : Prop := ∃ d q, Run fs (start d q) s

theorem Reached.step {s s' : Session φ} (h : Reached fs s) (hstep : Step fs s s') : Reached fs s' := by
  obtain ⟨d, q, hrun⟩ := h
  exact ⟨d, q, hrun.tail hstep⟩

theorem Reached.run {s s' : Session φ} (h : Reached fs s) (hrun : Run fs s s') :
    Reached fs s' := by
  obtain ⟨d, q, hfirst⟩ := h
  exact ⟨d, q, hfirst.trans hrun⟩

/-- What the start has and every step keeps, every session reached has. -/
theorem Reached.keeps {P : Session φ → Prop} (hstart : ∀ d q, P (start d q))
    (hstep : ∀ s s', P s → Step fs s s' → P s') {s : Session φ} (h : Reached fs s) : P s := by
  obtain ⟨d, q, hrun⟩ := h
  induction hrun with
  | refl => exact hstart d q
  | tail _ hlast ih => exact hstep _ _ ih hlast

/-- Bytes of the stream are so many steps. -/
theorem feed_run (s : Session φ) (data : Bytes) : ReflTransGen (Live fs) s (s.feed fs data).2 := by
  fun_induction feed fs s data with
  | case1 s => exact .refl
  | case2 s c rest hdata k ih =>
    refine .head (.bytes s _ hdata ?_) ih
    have hle := s.passLen_le (rest.length + 1)
    simp only [List.length_take, List.length_cons]
    simp only [k, passLen]
    omega
  | case3 s rest hdata s' herr => exact .single (.line s (Bool.eq_false_iff.mpr hdata))
  | case4 s rest hdata s' herr ih => exact .head (.line s (Bool.eq_false_iff.mpr hdata)) ih
  | case5 s c rest hdata hnl hlong => exact .refl
  | case6 s c rest hdata hnl hlong ih => exact .head (.char s c (Bool.eq_false_iff.mpr hdata)) ih

end Session

end WebAdf.Receive
