import WebAdf.Http.Complete

/-!
# A text answer

`dc_get_text`: one GET over a connection that may turn out to be stale, and the
body of its answer in a buffer. A connection is what its reads bring, one after
another; a read of no bytes is a clean close.
-/

namespace WebAdf.Http

open Lib

inductive Read
  | bytes (b : Bytes)
  | failed
  | interrupted

/-- What the transport does in one attempt. -/
structure Attempt where
  connected : Bool
  reused : Bool
  written : Bool
  reads : List Read

/-- `dc_bytes_sink`: the first `cap` bytes, the rest dropped. -/
def dcBytesSink (cap : Nat) (s b : Bytes) : Bytes := s ++ b.take (cap - s.length)

/-- How an attempt ended, and the bytes that were read in it. -/
structure Ended where
  ok : Bool
  interrupted : Bool
  r : Resp
  s : Bytes
  got : Nat

/-- The reading loop of `dc_attempt`. -/
def readLoop (cap : Nat) (r : Resp) (s : Bytes) (got : Nat) : List Read → Ended
  | [] => ⟨false, false, r, s, got⟩
  | .failed :: _ => ⟨false, false, r, s, got⟩
  | .interrupted :: _ => ⟨false, true, r, s, got⟩
  | .bytes [] :: _ => ⟨true, false, r, s, got⟩
  | .bytes b :: reads =>
    let (fed, r, s) := r.feed (dcBytesSink cap) s b
    if !fed then ⟨false, false, r, s, got + b.length⟩
    else if r.bodyComplete then ⟨true, false, r, s, got + b.length⟩
    else readLoop cap r s (got + b.length) reads

def dcAttempt (cap : Nat) (s : Bytes) (a : Attempt) : Ended :=
  if a.connected && a.written then readLoop cap init s 0 a.reads else ⟨false, false, init, s, 0⟩

/-- `dc_exchange`: one retry, where a kept connection brought nothing at all. -/
def dcExchange (cap : Nat) (retryable : Bool) (first second : Attempt) : Bool × Resp × Bytes :=
  let e := dcAttempt cap [] first
  if e.interrupted then (false, e.r, e.s)
  else if e.ok && e.r.status ≠ 0 then (true, e.r, e.s)
  else if !retryable || !(first.connected && first.reused) || e.got ≠ 0 then (e.ok, e.r, e.s)
  else
    let e := dcAttempt cap e.s second
    (e.ok, e.r, e.s)

/-- The text, or nothing, and whether the board halts. -/
def dcGetText (request : Option Bytes) (cap : Nat) (retryable : Bool) (first second : Attempt) :
    Option Bytes × Bool :=
  if cap = 0 ∨ request = none then (none, false) else
  let (ok, r, s) := dcExchange cap retryable first second
  if !ok || !r.bodyComplete then (none, false)
  else if r.status = 401 then (none, true)
  else if r.status ≠ 200 ∨ (r.contentLength.any fun n => n > cap) then (none, false)
  else (some s, false)

-- ---------------------------------------------------------------------------
-- What the server sent
-- ---------------------------------------------------------------------------

/-- The bytes of a connection, to the first read that brings none. -/
def streamOf : List Read → Bytes
  | .bytes (c :: b) :: reads => c :: b ++ streamOf reads
  | _ => []

/-- Whether the connection's bytes end with a clean close. -/
def closes : List Read → Bool
  | .bytes [] :: _ => true
  | .bytes _ :: reads => closes reads
  | _ => false

def Attempt.stream (a : Attempt) : Bytes := if a.connected && a.written then streamOf a.reads else []

def Attempt.broken : List Read → Bool
  | .interrupted :: _ => true
  | _ => false

/-- The attempt whose answer counts. -/
def answering (retryable : Bool) (first second : Attempt) : Attempt :=
  if retryable && first.connected && first.reused && first.stream.isEmpty &&
      !(first.written && Attempt.broken first.reads) then second else first

/-- The body of an attempt's answer, as the server frames it: by a header or a
chunked encoding, by a status without a body, or by the close. -/
def ServerBody (a : Attempt) (text : Bytes) : Prop :=
  ∃ head body rest q, a.stream = head ++ (body ++ rest) ∧ Head head q ∧
    (¬ q.Unframed ∧ Framed q body text ∨ q.Unframed ∧ rest = [] ∧ closes a.reads = true ∧ text = body)

end WebAdf.Http

/-!
# Whether a text answer is whole

What the grammar derives the reader reads, so that a stream has one framing. A
text is whole where a Content-Length frames it; a chunked body is cut at the
buffer's end without a word, and a body up to the close is not read at all.
-/

namespace WebAdf.Http.Resp

open Lib

variable {r q : Resp}

-- ---------------------------------------------------------------------------
-- What is framed is read
-- ---------------------------------------------------------------------------

theorem feedFrom_extra (h : r.state = .done) (s : Bytes) (hne : data ≠ []) :
    (r.feedFrom collect s data).1.extraAfterComplete = true := by
  obtain ⟨c, data, rfl⟩ := List.exists_cons_of_ne_nil hne
  have hbyte : r.byte c = { r with extraAfterComplete := true } := by
    unfold byte
    rw [h]
  rw [feedFrom_byte (by simp [h]) (by simp [inBody, h]), hbyte]
  clear hbyte hne
  generalize hq : ({ r with extraAfterComplete := true } : Resp) = q
  have hdone : q.state = .done := by rw [← hq]; exact h
  have hextra : q.extraAfterComplete = true := by rw [← hq]
  clear hq
  induction data generalizing q with
  | nil => rwa [feedFrom_nil]
  | cons c data ih =>
    have hbyte : q.byte c = { q with extraAfterComplete := true } := by
      unfold byte
      rw [hdone]
    rw [feedFrom_byte (by simp [hdone]) (by simp [inBody, hdone]), hbyte]
    exact ih _ hdone rfl

theorem headers_read (h : Headers r hs q) (hr : r.Between) (s rest : Bytes) :
    q.Between ∧ r.feedFrom collect s (hs ++ rest) = q.afterBlank.feedFrom collect s rest := by
  induction h with
  | blank hw hblank =>
    refine ⟨hr, ?_⟩
    rw [List.append_assoc, List.singleton_append, feedFrom_headLine (.inr hr.state) hr.line s hw,
      endLine_blank hr hblank]
  | @line w hs q r hw hblank hstate _ ih =>
    rcases endLine_header hr hblank with ⟨herror, -⟩ | ⟨heq, hbetween⟩
    · unfold endLine at herror
      rw [if_neg (by simp [hr.state])] at herror
      dsimp only at herror
      have hsame : (r.afterHeader w).state = (({ r with line := kept w } : Resp).handleHeaderLine).state := rfl
      have hkeeps := handleHeaderLine_keeps (r := { r with line := kept w }) (kept_ne_nil hblank)
      split at herror
      · rename_i herr
        rw [hsame, herr] at hstate
        cases hstate
      · rw [if_neg (by rw [hkeeps.1, hr.headers]; decide)] at herror
        rw [hsame] at hstate
        rw [hstate] at herror
        cases herror
    · obtain ⟨hq, hfeed⟩ := ih hbetween
      refine ⟨hq, ?_⟩
      rw [List.append_assoc, List.cons_append, feedFrom_headLine (.inr hr.state) hr.line s hw, heq, hfeed]

theorem head_read (h : Head head q) (s rest : Bytes) :
    q.Between ∧ ¬ q.Interim ∧
      init.feedFrom collect s (head ++ rest) = q.startBody.feedFrom collect s rest := by
  have hstatus (w : Bytes) : ({ init with line := kept w }).endLine = init.afterStatus w := rfl
  induction h with
  | @final w hs q hw hheaders hfinal =>
    obtain ⟨hq, hfeed⟩ := headers_read hheaders (between_afterStatus w) s rest
    refine ⟨hq, hfinal, ?_⟩
    rw [List.append_assoc, List.cons_append, feedFrom_headLine (.inl rfl) rfl s hw, hstatus, hfeed,
      afterBlank_final hfinal]
  | @interim w hs q rest' q' hw hheaders hinterim _ ih =>
    obtain ⟨hq', hnot, hrest⟩ := ih
    obtain ⟨-, hfeed⟩ := headers_read hheaders (between_afterStatus w) s (rest' ++ rest)
    refine ⟨hq', hnot, ?_⟩
    rw [List.append_assoc, List.cons_append, feedFrom_headLine (.inl rfl) rfl s hw, hstatus,
      List.append_assoc, hfeed, afterBlank_interim hinterim, hrest]

theorem trailer_read (h : Trailer t) (hstate : r.state = .chunkTrailer) (hline : r.line = [])
    (s rest : Bytes) : (r.feedFrom collect s (t ++ rest)).2 = s ∧
      (r.feedFrom collect s (t ++ rest)).1.bodyComplete = true ∧
      (r.feedFrom collect s (t ++ rest)).1.state = .done := by
  induction h with
  | @blank w hw hblank =>
    have hend : ({ r with line := (unreturned w).take linebufBytes }).endTrailer =
        { r with line := [], bodyComplete := true, state := .done } := by
      rw [hblank]
      rfl
    rw [List.append_assoc, List.singleton_append, feedFrom_trailerLine hstate hline s hw, hend]
    obtain ⟨extra, heq⟩ := feedFrom_done
      (r := { r with line := [], bodyComplete := true, state := .done }) rfl s rest
    rw [heq]
    exact ⟨rfl, rfl, rfl⟩
  | @line w t hw hblank _ ih =>
    have hend : ({ r with line := (unreturned w).take linebufBytes }).endTrailer = r := by
      have hlen : ((unreturned w).take linebufBytes).length ≠ 0 := by
        rw [List.length_take]
        have := List.length_pos_of_ne_nil hblank
        have hbuf : 0 < linebufBytes := by decide
        omega
      unfold endTrailer
      rw [if_neg hlen, ← hline]
    rw [List.append_assoc, List.cons_append, feedFrom_trailerLine hstate hline s hw, hend]
    exact ih

theorem crlf_read (hstate : r.state = .chunkCrlf) (he : unreturned e = []) (s rest : Bytes) :
    r.feedFrom collect s (e ++ lf :: rest) = ({ r with state := .chunkSizeLine }).feedFrom collect s rest := by
  have hbyte (c : UInt8) : r.byte c = r.crlfByte c := by
    unfold byte
    rw [hstate]
  induction e with
  | nil =>
    rw [List.nil_append, feedFrom_byte (by simp [hstate]) (by simp [inBody, hstate]), hbyte, crlfByte,
      if_neg (by decide), if_pos rfl]
  | cons c e ih =>
    have hc : c = cr := by
      by_contra hne
      rw [unreturned_cons hne] at he
      cases he
    rw [List.cons_append, feedFrom_byte (by simp [hstate]) (by simp [inBody, hstate]), hbyte, crlfByte,
      if_pos hc]
    exact ih (by rwa [hc, unreturned_cr] at he)

/-- All the data that is still to come. -/
theorem data_read {data : Bytes} (h : r.inBody = true) (hwant : r.want = data.length) (hne : data ≠ [])
    (s rest : Bytes) : r.feedFrom collect s (data ++ rest) =
      (r.took data.length).feedFrom collect (s ++ data) rest := by
  rw [feedFrom_body h (fun _ => hwant ▸ List.length_pos_of_ne_nil hne) s (by simp [hne]), hwant,
    Nat.min_eq_right (by simp), List.take_left, List.drop_left]
  rfl

theorem chunked_read (h : Chunked body got) (hstate : r.state = .chunkSizeLine) (hext : r.chunkExt = false)
    (hline : r.line = []) (s rest : Bytes) : (r.feedFrom collect s (body ++ rest)).2 = s ++ got ∧
      (r.feedFrom collect s (body ++ rest)).1.bodyComplete = true ∧
      (r.feedFrom collect s (body ++ rest)).1.state = .done := by
  induction h generalizing r s with
  | @last w t hw hsize ht =>
    rw [List.append_assoc, List.cons_append]
    obtain ⟨ext, heq⟩ := feedFrom_sizeLine hstate hext hline s hw (t ++ rest)
    rw [heq]
    unfold startChunk
    simp only [hsize, if_pos, List.append_nil]
    exact trailer_read ht (by rfl) (by rfl) s rest
  | @chunk w data e more got hw hsize hne he _ ih =>
    have happ : (w ++ lf :: (data ++ (e ++ lf :: more))) ++ rest =
        w ++ lf :: (data ++ (e ++ lf :: (more ++ rest))) := by simp
    have hpos : data.length ≠ 0 := fun h => hne (List.length_eq_zero_iff.1 h)
    rw [happ]
    obtain ⟨ext, heq⟩ := feedFrom_sizeLine hstate hext hline s hw (data ++ (e ++ lf :: (more ++ rest)))
    rw [heq]
    unfold startChunk
    simp only [hsize, if_neg hpos]
    rw [data_read (r := { r with
      line := [], chunkExt := false, chunkLeft := data.length, state := .chunkData }) rfl rfl hne]
    simp only [took, Nat.sub_self, if_pos]
    rw [crlf_read (by rfl) he]
    obtain ⟨hgot, hdone⟩ := ih (r := { r with
      line := [], chunkExt := false, chunkLeft := 0, state := .chunkSizeLine }) rfl rfl rfl (s ++ data)
    exact ⟨by rw [hgot, List.append_assoc], hdone⟩

/-- A framed body is read to its end and no further. -/
theorem body_read (h : Framed q body got) (hq : q.Between) (s rest : Bytes) :
    (q.startBody.feedFrom collect s (body ++ rest)).2 = s ++ got ∧
      (q.startBody.feedFrom collect s (body ++ rest)).1.bodyComplete = true ∧
      (q.startBody.feedFrom collect s (body ++ rest)).1.state = .done := by
  have hover (p : Resp) (hp : p.state = .done) (hc : p.bodyComplete = true) (s data : Bytes) :
      (p.feedFrom collect s data).2 = s ∧ (p.feedFrom collect s data).1.bodyComplete = true ∧
        (p.feedFrom collect s data).1.state = .done := by
    obtain ⟨extra, heq⟩ := feedFrom_done hp s data
    rw [heq]
    exact ⟨rfl, hc, hp⟩
  cases h with
  | bodyless hb =>
    rw [startBody_bodyless hb, List.append_nil]
    exact hover _ rfl rfl s _
  | chunked hb hc hbody =>
    rw [startBody_chunked hb hc]
    exact chunked_read (r := { q with
      headersDone := true, hasExplicitFraming := true, state := .chunkSizeLine, line := [] })
      hbody rfl hq.ext rfl s rest
  | unframed hb hc hl =>
    rw [startBody_unframed hb hc hl, List.append_nil]
    exact hover _ rfl rfl s _
  | length hb hc hl =>
    cases body with
    | nil =>
      rw [startBody_empty hb hc hl, List.append_nil]
      exact hover _ rfl rfl s _
    | cons c body =>
      rw [startBody_length hb hc hl, data_read (by rfl) (by simp [want, hl]) (by simp)]
      simp only [took, hl, Option.getD_some, Nat.zero_add, Nat.le_refl, if_pos]
      exact hover _ rfl rfl _ rest

/-- A stream that is framed, read from the start. -/
theorem stream_read (hhead : Head head q) (hbody : Framed q body got) (rest : Bytes) :
    (init.feedFrom collect [] (head ++ (body ++ rest))).2 = got ∧
      (init.feedFrom collect [] (head ++ (body ++ rest))).1.bodyComplete = true ∧
      (init.feedFrom collect [] (head ++ (body ++ rest))).1.state = .done ∧
      SameFacts q.startBody (init.feedFrom collect [] (head ++ (body ++ rest))).1 := by
  obtain ⟨hq, -, heq⟩ := head_read hhead [] (body ++ rest)
  rw [heq]
  obtain ⟨hgot, hdone, hstate⟩ := body_read hbody hq [] rest
  exact ⟨hgot, hdone, hstate, feedFrom_sameFacts (startBody_over q) _ _⟩

/-- A complete response is over. -/
theorem complete_done (h : (init.feedFrom collect [] p).1.bodyComplete = true) :
    (init.feedFrom collect [] p).1.state = .done := by
  obtain ⟨head, rest, q, rfl, hhead, hq, -, heq⟩ := head_complete [] p h
  rw [heq] at h
  obtain ⟨body, rest', got, rfl, hbody, -⟩ := body_complete hq [] rest h
  exact (stream_read hhead hbody rest').2.2.1

/-- What a sink sees does not change what the reader does. -/
theorem feedFrom_map {sink : σ → Bytes → σ} {sink' : τ → Bytes → τ} {f : σ → τ}
    (hmap : ∀ s x, sink' (f s) x = f (sink s x)) (s : σ) (data : Bytes) :
    r.feedFrom sink' (f s) data = ((r.feedFrom sink s data).1, f (r.feedFrom sink s data).2) := by
  generalize hn : data.length = n
  induction n using Nat.strongRecOn generalizing data r s with
  | ind n ih =>
    subst hn
    cases data with
    | nil => rw [feedFrom_nil, feedFrom_nil]
    | cons c rest =>
      rw [feedFrom, feedFrom]
      split
      · rfl
      · split
        · have hs : (if min (rest.length + 1) r.want > 0 then
                sink' (f s) ((c :: rest).take (min (rest.length + 1) r.want)) else f s) =
              f (if min (rest.length + 1) r.want > 0 then
                sink s ((c :: rest).take (min (rest.length + 1) r.want)) else s) := by
            split
            · exact hmap ..
            · rfl
          dsimp only
          rw [hs]
          refine ih _ ?_ _ _ rfl
          rw [List.length_drop, List.length_cons]
          omega
        · exact ih _ (Nat.lt_succ_self _) s rest rfl

end WebAdf.Http.Resp

namespace WebAdf.Http

open Lib Resp

-- ---------------------------------------------------------------------------
-- The buffer
-- ---------------------------------------------------------------------------

theorem dcBytesSink_take (cap : Nat) (s x : Bytes) :
    dcBytesSink cap (s.take cap) x = (collect s x).take cap := by
  rw [dcBytesSink, collect, List.take_append, List.length_take]
  rcases Nat.le_total cap s.length with h | h
  · rw [Nat.min_eq_left h, Nat.sub_self, Nat.sub_eq_zero_of_le h]
  · rw [Nat.min_eq_right h]

/-- The reader and the buffer after the bytes `p`. -/
def fed (cap : Nat) (p : Bytes) : Resp × Bytes :=
  ((init.feedFrom collect [] p).1, (init.feedFrom collect [] p).2.take cap)

theorem fed_append (cap : Nat) (p b : Bytes) :
    (fed cap p).1.feedFrom (dcBytesSink cap) (fed cap p).2 b = fed cap (p ++ b) := by
  rw [fed, feedFrom_map (dcBytesSink_take cap), fed, feedFrom_append joins_collect ready_init]

-- ---------------------------------------------------------------------------
-- The reading loop
-- ---------------------------------------------------------------------------

/-- A loop that ends with a whole response read some of the stream. -/
theorem readLoop_ok {reads : List Read} (hopen : (fed cap p).1.bodyComplete = false)
    (hok : (readLoop cap (fed cap p).1 (fed cap p).2 n reads).ok = true)
    (hdone : (readLoop cap (fed cap p).1 (fed cap p).2 n reads).r.bodyComplete = true) :
    ∃ a more, p ++ streamOf reads = a ++ more ∧
      (readLoop cap (fed cap p).1 (fed cap p).2 n reads).r = (fed cap a).1 ∧
      (readLoop cap (fed cap p).1 (fed cap p).2 n reads).s = (fed cap a).2 := by
  induction reads generalizing p n with
  | nil => cases hok
  | cons read reads ih =>
    cases read with
    | failed => cases hok
    | interrupted => cases hok
    | bytes b =>
      cases b with
      | nil =>
        simp only [readLoop] at hdone
        rw [hopen] at hdone
        cases hdone
      | cons c b =>
        simp only [readLoop, feed, fed_append] at hok hdone ⊢
        split at hok
        · cases hok
        · rename_i hfed
          rw [if_neg hfed] at hdone ⊢
          cases hcomplete : (fed cap (p ++ c :: b)).1.bodyComplete with
          | true =>
            simp only [hcomplete, if_pos]
            exact ⟨p ++ c :: b, streamOf reads, by simp [streamOf], rfl, rfl⟩
          | false =>
            simp only [hcomplete, Bool.false_eq_true, if_false] at hok hdone ⊢
            obtain ⟨a, more, heq, hr, hs⟩ := ih hcomplete hok hdone
            exact ⟨a, more, by simpa [streamOf] using heq, hr, hs⟩

/-- A loop over a stream with a whole response ends with one. -/
theorem readLoop_complete {reads : List Read} (hopen : (fed cap p).1.bodyComplete = false)
    (hwhole : (fed cap (p ++ streamOf reads)).1.bodyComplete = true) :
    (readLoop cap (fed cap p).1 (fed cap p).2 n reads).ok = true ∧
      (readLoop cap (fed cap p).1 (fed cap p).2 n reads).r.bodyComplete = true := by
  have hend {p : Bytes} {reads : List Read} (hopen : (fed cap p).1.bodyComplete = false)
      (h : streamOf reads = []) (hw : (fed cap (p ++ streamOf reads)).1.bodyComplete = true) : False := by
    rw [h, List.append_nil, hopen] at hw
    cases hw
  induction reads generalizing p n with
  | nil => exact (hend hopen rfl hwhole).elim
  | cons read reads ih =>
    cases read with
    | failed => exact (hend hopen rfl hwhole).elim
    | interrupted => exact (hend hopen rfl hwhole).elim
    | bytes b =>
      cases b with
      | nil => exact (hend hopen rfl hwhole).elim
      | cons c b =>
        have hstream : p ++ streamOf (.bytes (c :: b) :: reads) = (p ++ c :: b) ++ streamOf reads := by
          simp [streamOf]
        rw [hstream] at hwhole
        simp only [readLoop, feed, fed_append]
        cases hcomplete : (fed cap (p ++ c :: b)).1.bodyComplete with
        | true =>
          have hstate := complete_done hcomplete
          have hfed : (fed cap (p ++ c :: b)).1.state ≠ .error := by
            rw [show (fed cap (p ++ c :: b)).1.state = .done from hstate]
            decide
          simp [hfed, hcomplete]
        | false =>
          have hfed : (fed cap (p ++ c :: b)).1.state ≠ .error := by
            intro herror
            have := feedFrom_append joins_collect ready_init ([] : Bytes) (p ++ c :: b) (streamOf reads)
            rw [fed, this] at hwhole
            have hnot := complete_error (r := (init.feedFrom collect [] (p ++ c :: b)).1) herror
              (init.feedFrom collect [] (p ++ c :: b)).2 (streamOf reads)
            exact absurd (hcomplete.symm.trans (hnot.symm.trans hwhole)) (by decide)
          simpa [hfed] using ih hcomplete hwhole

-- ---------------------------------------------------------------------------
-- The text
-- ---------------------------------------------------------------------------

theorem fed_nil (cap : Nat) : fed cap [] = (init, []) := by
  rw [fed, feedFrom_nil, List.take_nil]

/-- A connection that brings nothing. -/
theorem readLoop_silent {reads : List Read} (h : streamOf reads = []) :
    readLoop cap r s n reads = ⟨closes reads, Attempt.broken reads, r, s, n⟩ := by
  cases reads with
  | nil => rfl
  | cons read reads =>
    cases read with
    | failed => rfl
    | interrupted => rfl
    | bytes b =>
      cases b with
      | nil => rfl
      | cons c b => cases h

theorem le_got (cap : Nat) (r : Resp) (s : Bytes) (n : Nat) (reads : List Read) :
    n ≤ (readLoop cap r s n reads).got := by
  induction reads generalizing r s n with
  | nil => exact Nat.le_refl _
  | cons read reads ih =>
    cases read with
    | failed => exact Nat.le_refl _
    | interrupted => exact Nat.le_refl _
    | bytes b =>
      cases b with
      | nil => exact Nat.le_refl _
      | cons c b =>
        simp only [readLoop]
        split
        · exact Nat.le_add_right ..
        · split
          · exact Nat.le_add_right ..
          · exact Nat.le_trans (Nat.le_add_right ..) (ih ..)

/-- A connection that brings something is counted. -/
theorem got_pos {reads : List Read} (h : streamOf reads ≠ []) :
    (readLoop cap r s n reads).got ≠ 0 := by
  cases reads with
  | nil => exact absurd rfl h
  | cons read reads =>
    cases read with
    | failed => exact absurd rfl h
    | interrupted => exact absurd rfl h
    | bytes b =>
      cases b with
      | nil => exact absurd rfl h
      | cons c b =>
        simp only [readLoop]
        split
        · simp
        · split
          · simp
          · exact Nat.ne_of_gt (Nat.lt_of_lt_of_le (Nat.lt_of_lt_of_le (Nat.succ_pos _) (Nat.le_add_left ..)) (le_got ..))

theorem interrupted_not_ok (cap : Nat) (r : Resp) (s : Bytes) (n : Nat) (reads : List Read)
    (h : (readLoop cap r s n reads).interrupted = true) : (readLoop cap r s n reads).ok = false := by
  induction reads generalizing r s n with
  | nil => rfl
  | cons read reads ih =>
    cases read with
    | failed => rfl
    | interrupted => rfl
    | bytes b =>
      cases b with
      | nil => cases h
      | cons c b =>
        simp only [readLoop] at h ⊢
        split
        · rfl
        · rename_i hfed
          rw [if_neg hfed] at h
          split
          · rename_i hdone
            rw [if_pos hdone] at h
            cases h
          · rename_i hdone
            rw [if_neg hdone] at h
            exact ih _ _ _ h

/-- The exchange is the answering attempt's. -/
theorem dcExchange_eq (cap : Nat) (retryable : Bool) (first second : Attempt) :
    dcExchange cap retryable first second =
      ((dcAttempt cap [] (answering retryable first second)).ok,
        (dcAttempt cap [] (answering retryable first second)).r,
        (dcAttempt cap [] (answering retryable first second)).s) := by
  by_cases hquiet : first.stream = []
  · -- nothing came: the attempt is `init` and an empty buffer
    have hfirst : dcAttempt cap [] first = ⟨first.connected && first.written && closes first.reads,
        first.connected && first.written && Attempt.broken first.reads, init, [], 0⟩ := by
      unfold dcAttempt
      unfold Attempt.stream at hquiet
      cases hready : first.connected && first.written with
      | false => rfl
      | true =>
        rw [if_pos hready] at hquiet
        rw [if_pos rfl, readLoop_silent hquiet, Bool.true_and, Bool.true_and]
    have hbroken : Attempt.broken first.reads = true → closes first.reads = false := by
      intro h
      unfold Attempt.broken at h
      split at h
      · rename_i reads hreads
        rw [hreads]
        rfl
      · cases h
    unfold dcExchange answering
    rw [hfirst, hquiet]
    cases hb : Attempt.broken first.reads <;> cases retryable <;> cases hc : first.connected <;>
      cases hu : first.reused <;> cases hw : first.written <;> simp_all [init]
  · have hready : (first.connected && first.written) = true := by
      by_contra hnot
      exact hquiet (if_neg hnot)
    have hstream : streamOf first.reads ≠ [] := by
      unfold Attempt.stream at hquiet
      rwa [if_pos hready] at hquiet
    have hgot : (dcAttempt cap [] first).got ≠ 0 := by
      unfold dcAttempt
      rw [if_pos hready]
      exact got_pos hstream
    have hanswer : answering retryable first second = first := by
      unfold answering
      rw [if_neg]
      simp [hquiet]
    rw [hanswer]
    unfold dcExchange
    dsimp only
    split
    · rename_i hintr
      unfold dcAttempt at hintr ⊢
      rw [if_pos hready] at hintr ⊢
      rw [interrupted_not_ok _ _ _ _ _ hintr]
    · split
      · rename_i hok
        rw [(Bool.and_eq_true_iff.1 hok).1]
      · rw [if_pos (by simp [hgot])]

/-- What an answer with status 200 must be for its text to be whole: chunks
that fit the buffer, or a frame, or nothing up to the close. -/
def Fits (cap : Nat) (a : Attempt) : Prop :=
  ∀ head rest q, a.stream = head ++ rest → Head head q → q.status = 200 →
    (∀ body more data, rest = body ++ more → q.chunked = true → Framed q body data →
      (∀ n, q.contentLength = some n → n ≤ cap) → data.length ≤ cap) ∧
    (q.Unframed → rest = [] ∧ closes a.reads = true)

theorem dcAttempt_eq (cap : Nat) (a : Attempt) (h : a.connected && a.written) :
    dcAttempt cap [] a = readLoop cap (fed cap []).1 (fed cap []).2 0 a.reads ∧ a.stream = streamOf a.reads := by
  rw [fed_nil, dcAttempt, if_pos h, Attempt.stream, if_pos h]
  exact ⟨rfl, rfl⟩

theorem startBody_facts (q : Resp) :
    q.startBody.status = q.status ∧ q.startBody.contentLength = q.contentLength := by
  unfold startBody startBodyPhase
  dsimp only
  split
  · exact ⟨rfl, rfl⟩
  · split
    · exact ⟨rfl, rfl⟩
    · split <;> exact ⟨rfl, rfl⟩

/-- A whole answer, and what its attempt made of it. -/
theorem attempt_whole {a : Attempt} (hok : (dcAttempt cap [] a).ok = true)
    (hdone : (dcAttempt cap [] a).r.bodyComplete = true) :
    ∃ head body rest q got, a.stream = head ++ (body ++ rest) ∧ Head head q ∧ Framed q body got ∧
      (dcAttempt cap [] a).r.status = q.status ∧ (dcAttempt cap [] a).r.contentLength = q.contentLength ∧
      (dcAttempt cap [] a).s = got.take cap := by
  have hready : a.connected && a.written := by
    by_contra hnot
    rw [dcAttempt, if_neg hnot] at hok
    cases hok
  obtain ⟨heq, hstream⟩ := dcAttempt_eq cap a hready
  rw [heq] at hok hdone ⊢
  have hopen : (fed cap []).1.bodyComplete = false := by
    rw [fed_nil]
    rfl
  obtain ⟨p, more, hp, hr, hs⟩ := readLoop_ok hopen hok hdone
  rw [hr] at hdone ⊢
  rw [hs]
  obtain ⟨head, rest, q, hpq, hhead, hq, -, hfeed⟩ := head_complete [] p hdone
  have hdone' := hdone
  rw [fed, hfeed] at hdone'
  obtain ⟨body, rest', got, rfl, hbody, -⟩ := body_complete hq [] rest hdone'
  subst hpq
  obtain ⟨hgot, -, -, hfacts⟩ := stream_read hhead hbody rest'
  have hstart := startBody_facts q
  refine ⟨head, body, rest' ++ more, q, got, ?_, hhead, hbody, hfacts.status.trans hstart.1,
    hfacts.contentLength.trans hstart.2, by rw [fed, hgot]⟩
  rw [hstream]
  simpa using hp

/-- A stream has one framing. -/
theorem framing_unique (h : head ++ (body ++ rest) = head' ++ (body' ++ rest')) (hhead : Head head q)
    (hbody : Framed q body got) (hhead' : Head head' q') (hbody' : Framed q' body' got') :
    got = got' ∧ (q.Unframed ↔ q'.Unframed) ∧ q.status = q'.status ∧ q.contentLength = q'.contentLength := by
  obtain ⟨hgot, -, -, hfacts⟩ := stream_read hhead hbody rest
  obtain ⟨hgot', -, -, hfacts'⟩ := stream_read hhead' hbody' rest'
  rw [h] at hgot hfacts
  obtain ⟨hstatus, hlength⟩ := startBody_facts q
  obtain ⟨hstatus', hlength'⟩ := startBody_facts q'
  refine ⟨hgot.symm.trans hgot', ?_, ?_, ?_⟩
  · rw [← startBody_explicit, ← startBody_explicit, ← hfacts.hasExplicitFraming,
      ← hfacts'.hasExplicitFraming]
  · rw [← hstatus, ← hstatus', ← hfacts.status, ← hfacts'.status]
  · rw [← hlength, ← hlength', ← hfacts.contentLength, ← hfacts'.contentLength]

theorem head_ne_nil (h : Head head q) : head ≠ [] := by
  cases h <;> simp

/-- A framed answer is read whole by its attempt. -/
theorem attempt_reads (cap : Nat) {a : Attempt} (hstream : a.stream = head ++ (body ++ rest)) (hhead : Head head q)
    (hbody : Framed q body got) :
    (dcAttempt cap [] a).ok = true ∧ (dcAttempt cap [] a).r.bodyComplete = true ∧
      (dcAttempt cap [] a).r.status = q.status ∧ (dcAttempt cap [] a).r.contentLength = q.contentLength ∧
      (dcAttempt cap [] a).s = got.take cap := by
  have hready : a.connected && a.written := by
    by_contra hnot
    rw [Attempt.stream, if_neg hnot] at hstream
    have hnil := (List.append_eq_nil_iff.1 hstream.symm).1
    exact head_ne_nil hhead hnil
  obtain ⟨heq, hloop⟩ := dcAttempt_eq cap a hready
  have hopen : (fed cap []).1.bodyComplete = false := by
    rw [fed_nil]
    rfl
  have hwhole : (fed cap ([] ++ streamOf a.reads)).1.bodyComplete = true := by
    rw [List.nil_append, ← hloop, hstream]
    exact (stream_read hhead hbody rest).2.1
  obtain ⟨hok, hdone⟩ := readLoop_complete hopen hwhole
  rw [← heq] at hok hdone
  obtain ⟨head', body', rest', q', got', hstream', hhead', hbody', hstatus, hlength, hs⟩ :=
    attempt_whole hok hdone
  obtain ⟨hgot, -, hst, hcl⟩ := framing_unique (hstream'.symm.trans hstream) hhead' hbody' hhead hbody
  exact ⟨hok, hdone, hstatus.trans hst, hlength.trans hcl, by rw [hs, hgot]⟩

theorem handleHeaderLine_extra (r : Resp) : r.handleHeaderLine.extraAfterComplete = r.extraAfterComplete := by
  unfold handleHeaderLine
  split
  · rfl
  · dsimp only
    split
    · rfl
    · split
      · split <;> rfl
      · split
        · split <;> rfl
        · split
          · split <;> rfl
          · rfl

theorem headers_extra (h : Headers r hs q) : q.extraAfterComplete = r.extraAfterComplete := by
  induction h with
  | blank => rfl
  | line _ _ _ _ ih => exact ih.trans (handleHeaderLine_extra _)

theorem head_extra (h : Head head q) : q.extraAfterComplete = false := by
  have hstart (w : Bytes) : (init.afterStatus w).extraAfterComplete = false := by
    unfold Resp.afterStatus parseStatusLine
    split <;> rfl
  induction h with
  | final _ hheaders _ => exact (headers_extra hheaders).trans (hstart _)
  | interim _ _ _ _ ih => exact ih

/-- Bytes behind an unframed head are not part of another one. -/
theorem unframed_rest (h : head ++ rest = head') (hhead : Head head q) (hq : q.Unframed)
    (hhead' : Head head' q') (hq' : q'.Unframed) : rest = [] := by
  obtain ⟨hb, hc, hl⟩ := hq
  obtain ⟨hb', hc', hl'⟩ := hq'
  by_contra hne
  obtain ⟨-, -, heq⟩ := head_read hhead [] rest
  obtain ⟨-, -, heq'⟩ := head_read hhead' [] []
  have hmore := feedFrom_extra (r := q.startBody) (by rw [startBody_unframed hb hc hl]) [] hne
  rw [← heq, h, ← List.append_nil head', heq', feedFrom_nil, startBody_unframed hb' hc' hl'] at hmore
  exact absurd ((head_extra hhead').symm.trans hmore) (by decide)

/-- Five bytes in a chunk. -/
def chunkedAnswer : Attempt :=
  ⟨true, false, true, [.bytes (ascii "HTTP/1.1 200 OK\r\nTransfer-Encoding: chunked\r\n\r\n5\r\nhello\r\n0\r\n\r\n")]⟩

end WebAdf.Http
