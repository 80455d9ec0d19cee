import WebAdf.Http.Framing

/-!
# What the reader calls complete

A response is complete only when its stream is one of the grammar's, and the
sink then holds the body's data. A response that frames no body is complete at
its head, and is marked as not framed.
-/

namespace WebAdf.Http.Resp

open Lib

variable {r : Resp}

-- ---------------------------------------------------------------------------
-- The body
-- ---------------------------------------------------------------------------

theorem feedFrom_done (h : r.state = .done) (s data : Bytes) :
    ∃ extra, r.feedFrom collect s data = ({ r with extraAfterComplete := extra }, s) := by
  induction data generalizing r with
  | nil => exact ⟨r.extraAfterComplete, feedFrom_nil r s⟩
  | cons c data ih =>
    have hbyte : r.byte c = { r with extraAfterComplete := true } := by
      unfold byte
      rw [h]
    rw [feedFrom_byte (by simp [h]) (by simp [inBody, h]), hbyte]
    exact ih h

/-- A response that is never complete. -/
theorem complete_error (h : r.state = .error) (s data : Bytes) :
    (r.feedFrom collect s data).1.bodyComplete = r.bodyComplete := by
  rw [feedFrom_error h]

theorem trailer_complete (h : r.state = .chunkTrailer) (hline : r.line = [])
    (hopen : r.bodyComplete = false) (s data : Bytes)
    (hdone : (r.feedFrom collect s data).1.bodyComplete = true) :
    ∃ t rest, data = t ++ rest ∧ Trailer t ∧ (r.feedFrom collect s data).2 = s := by
  generalize hn : data.length = n
  induction n using Nat.strongRecOn generalizing data with
  | ind n ih =>
    subst hn
    rcases line_cases data with hw | ⟨w, rest, rfl, hw⟩
    · rw [feedFrom_trailerText h hline s hw] at hdone
      exact absurd hdone (by simp [hopen])
    · rw [feedFrom_trailerLine h hline s hw] at hdone ⊢
      by_cases hblank : unreturned w = []
      · have hend : ({ r with line := (unreturned w).take linebufBytes }).endTrailer =
            { r with line := [], bodyComplete := true, state := .done } := by
          rw [hblank]
          rfl
        obtain ⟨extra, heq⟩ := feedFrom_done
          (r := { r with line := [], bodyComplete := true, state := .done }) rfl s rest
        rw [hend, heq]
        exact ⟨w ++ [lf], rest, by simp, .blank hw hblank, rfl⟩
      · have hend : ({ r with line := (unreturned w).take linebufBytes }).endTrailer = r := by
          have hlen : ((unreturned w).take linebufBytes).length ≠ 0 := by
            rw [List.length_take]
            have := List.length_pos_of_ne_nil hblank
            have hbuf : 0 < linebufBytes := by decide
            omega
          unfold endTrailer
          rw [if_neg hlen, ← hline]
        rw [hend] at hdone ⊢
        obtain ⟨t, rest', rfl, ht, heq⟩ := ih rest.length (by simp; omega) rest hdone rfl
        exact ⟨w ++ lf :: t, rest', by simp, .line hw hblank ht, heq⟩

theorem crlf_complete (h : r.state = .chunkCrlf) (hopen : r.bodyComplete = false) (s data : Bytes)
    (hdone : (r.feedFrom collect s data).1.bodyComplete = true) :
    ∃ e rest, data = e ++ lf :: rest ∧ unreturned e = [] ∧
      r.feedFrom collect s data = ({ r with state := .chunkSizeLine }).feedFrom collect s rest := by
  induction data with
  | nil =>
    rw [feedFrom_nil] at hdone
    exact absurd hdone (by simp [hopen])
  | cons c data ih =>
    have hbyte : r.byte c = r.crlfByte c := by
      unfold byte
      rw [h]
    rw [feedFrom_byte (by simp [h]) (by simp [inBody, h]), hbyte, crlfByte] at hdone ⊢
    split at hdone
    · rename_i hcr
      obtain ⟨e, rest, rfl, he, heq⟩ := ih hdone
      rw [if_pos hcr]
      exact ⟨c :: e, rest, by simp, by rw [hcr, unreturned_cr, he], heq⟩
    · rename_i hcr
      rw [if_neg hcr]
      split at hdone
      · rename_i hlf
        rw [if_pos hlf]
        exact ⟨[], data, by rw [hlf]; rfl, rfl, rfl⟩
      · rw [complete_error rfl] at hdone
        exact absurd hdone (by simp [hopen])

/-- A reader in the middle of its data is not done. -/
theorem data_complete (h : r.inBody = true) (hwant : 0 < r.want) (hopen : r.bodyComplete = false)
    (s data : Bytes) (hdone : (r.feedFrom collect s data).1.bodyComplete = true) :
    r.want ≤ data.length ∧ r.feedFrom collect s data =
      (r.took r.want).feedFrom collect (s ++ data.take r.want) (data.drop r.want) := by
  have hne : data ≠ [] := by
    rintro rfl
    rw [feedFrom_nil] at hdone
    exact absurd hdone (by simp [hopen])
  rw [feedFrom_body h (fun _ => hwant) s hne] at hdone ⊢
  by_cases hle : r.want ≤ data.length
  · rw [Nat.min_eq_right hle]
    exact ⟨hle, rfl⟩
  · have hlt : data.length < r.want := by omega
    have htook : (r.took data.length).bodyComplete = r.bodyComplete := by
      rcases inBody_cases h with hs | hs
      · simp only [want, hs] at hlt
        simp only [took, hs]
        rw [if_neg (by omega)]
      · simp only [took, hs]
        split <;> rfl
    rw [Nat.min_eq_left (Nat.le_of_lt hlt), List.drop_length, feedFrom_nil] at hdone
    dsimp only at hdone
    exact absurd hdone (by simp [htook, hopen])

theorem chunked_complete (h : r.state = .chunkSizeLine) (hext : r.chunkExt = false)
    (hline : r.line = []) (hopen : r.bodyComplete = false) (s data : Bytes)
    (hdone : (r.feedFrom collect s data).1.bodyComplete = true) :
    ∃ body rest got, data = body ++ rest ∧ Chunked body got ∧
      (r.feedFrom collect s data).2 = s ++ got := by
  generalize hn : data.length = n
  induction n using Nat.strongRecOn generalizing data r s with
  | ind n ih =>
    subst hn
    rcases line_cases data with hw | ⟨w, rest, rfl, hw⟩
    · obtain ⟨ext, heq⟩ := feedFrom_sizeText h hext (by simp [hline]) s hw
      rw [heq] at hdone
      exact absurd hdone (by simp [hopen])
    obtain ⟨ext, heq⟩ := feedFrom_sizeLine h hext hline s hw rest
    rw [heq] at hdone ⊢
    unfold startChunk at hdone ⊢
    cases hsize : parseBounded (sizeKept w) 16 httpMaxBodyBytes with
    | none =>
      simp only [hsize] at hdone
      rw [complete_error rfl] at hdone
      exact absurd hdone (by simp [hopen])
    | some size =>
      simp only [hsize] at hdone ⊢
      by_cases hzero : size = 0
      · -- the last chunk
        subst hzero
        rw [if_pos rfl] at hdone ⊢
        obtain ⟨t, rest', rfl, ht, heq'⟩ := trailer_complete (by rfl) (by rfl) (by exact hopen) s rest hdone
        exact ⟨w ++ lf :: t, rest', [], by simp, .last hw hsize ht, by rw [heq', List.append_nil]⟩
      · rw [if_neg hzero] at hdone ⊢
        obtain ⟨hle, heq'⟩ := data_complete (by rfl)
          (by exact Nat.pos_of_ne_zero hzero) (by exact hopen) s rest hdone
        rw [heq'] at hdone ⊢
        simp only [want, took, Nat.sub_self] at hle hdone ⊢
        -- its data is there, and then its newline
        obtain ⟨e, rest', hrest, he, heq''⟩ := crlf_complete (by rfl) (by exact hopen) _ _ hdone
        have hlen : rest'.length < (w ++ lf :: rest).length := by
          have := congrArg List.length hrest
          simp only [List.length_drop, List.length_append, List.length_cons] at this ⊢
          omega
        rw [heq''] at hdone ⊢
        obtain ⟨body, rest'', got, rfl, hbody, hgot⟩ := ih _ hlen (by rfl) (by rfl) (by rfl)
          (by exact hopen) _ rest' hdone rfl
        have htake : (rest.take size).length = size := List.length_take_of_le hle
        refine ⟨w ++ lf :: (rest.take size ++ (e ++ lf :: body)), rest'', rest.take size ++ got, ?_,
          .chunk hw (by rw [htake]; exact hsize) ?_ he hbody, ?_⟩
        · conv => lhs; rw [← List.take_append_drop size rest, hrest]
          simp
        · intro hnil
          rw [hnil] at htake
          exact hzero htake.symm
        · rw [hgot, List.append_assoc]

-- ---------------------------------------------------------------------------
-- The facts of the head
-- ---------------------------------------------------------------------------

/-- The head says the same, and is over. -/
structure SameFacts (r q : Resp) : Prop where
  past : ¬ q.InHead
  status : q.status = r.status
  chunked : q.chunked = r.chunked
  contentLength : q.contentLength = r.contentLength
  connectionClose : q.connectionClose = r.connectionClose
  hasExplicitFraming : q.hasExplicitFraming = r.hasExplicitFraming

theorem SameFacts.refl (h : ¬ r.InHead) : SameFacts r r := ⟨h, rfl, rfl, rfl, rfl, rfl⟩

theorem SameFacts.trans (h : SameFacts r q) (h' : SameFacts q p) : SameFacts r p :=
  ⟨h'.past, h'.status.trans h.status, h'.chunked.trans h.chunked,
    h'.contentLength.trans h.contentLength, h'.connectionClose.trans h.connectionClose,
    h'.hasExplicitFraming.trans h.hasExplicitFraming⟩

theorem sameFacts_push (h : ¬ r.InHead) (room : Nat) (c : UInt8) : SameFacts r (r.push room c) := by
  unfold push
  split <;> exact ⟨h, rfl, rfl, rfl, rfl, rfl⟩

theorem sameFacts_sizeByte (h : ¬ r.InHead) (c : UInt8) : SameFacts r (r.sizeByte c) := by
  unfold sizeByte
  split
  · exact .refl h
  · split
    · exact ⟨h, rfl, rfl, rfl, rfl, rfl⟩
    · split
      · unfold startChunk
        split
        · exact ⟨by simp [InHead], rfl, rfl, rfl, rfl, rfl⟩
        · refine ⟨?_, rfl, rfl, rfl, rfl, rfl⟩
          simp only [InHead]
          split <;> simp
      · split
        · exact sameFacts_push h _ c
        · exact .refl h

theorem sameFacts_crlfByte (h : ¬ r.InHead) (c : UInt8) : SameFacts r (r.crlfByte c) := by
  unfold crlfByte
  split
  · exact .refl h
  · split <;> exact ⟨by simp [InHead], rfl, rfl, rfl, rfl, rfl⟩

theorem sameFacts_trailerByte (h : ¬ r.InHead) (c : UInt8) : SameFacts r (r.trailerByte c) := by
  unfold trailerByte endTrailer
  split
  · exact .refl h
  · split
    · split
      · exact ⟨by simp [InHead], rfl, rfl, rfl, rfl, rfl⟩
      · exact ⟨h, rfl, rfl, rfl, rfl, rfl⟩
    · exact sameFacts_push h _ c

theorem sameFacts_byte (h : ¬ r.InHead) (c : UInt8) : SameFacts r (r.byte c) := by
  unfold byte
  cases hs : r.state with
  | statusLine => exact absurd (.inl hs) h
  | headerLine => exact absurd (.inr hs) h
  | bodyLen => exact .refl h
  | chunkSizeLine => exact sameFacts_sizeByte h c
  | chunkData => exact .refl h
  | chunkCrlf => exact sameFacts_crlfByte h c
  | chunkTrailer => exact sameFacts_trailerByte h c
  | done => exact ⟨by simp [InHead], rfl, rfl, rfl, rfl, rfl⟩
  | error => exact .refl h

theorem sameFacts_took (h : ¬ r.InHead) (take : Nat) : SameFacts r (r.took take) := by
  unfold took
  split
  · dsimp only
    split
    · exact ⟨by simp [InHead], rfl, rfl, rfl, rfl, rfl⟩
    · exact ⟨h, rfl, rfl, rfl, rfl, rfl⟩
  · dsimp only
    split
    · exact ⟨by simp [InHead], rfl, rfl, rfl, rfl, rfl⟩
    · exact ⟨h, rfl, rfl, rfl, rfl, rfl⟩
  · exact .refl h

theorem feedFrom_sameFacts {sink : σ → Bytes → σ} (h : ¬ r.InHead) (s : σ) (data : Bytes) :
    SameFacts r (r.feedFrom sink s data).1 := by
  generalize hn : data.length = n
  induction n using Nat.strongRecOn generalizing data r s with
  | ind n ih =>
    subst hn
    cases data with
    | nil =>
      rw [feedFrom_nil]
      exact .refl h
    | cons c rest =>
      rw [feedFrom]
      split
      · exact .refl h
      · split
        · have htook := sameFacts_took h (min (rest.length + 1) r.want)
          refine htook.trans (ih _ ?_ htook.past _ _ rfl)
          rw [List.length_drop, List.length_cons]
          omega
        · have hbyte := sameFacts_byte h c
          exact hbyte.trans (ih _ (Nat.lt_succ_self _) hbyte.past s rest rfl)

-- ---------------------------------------------------------------------------
-- The head
-- ---------------------------------------------------------------------------

/-- The reader between two header lines. -/
structure Between (r : Resp) : Prop where
  state : r.state = .headerLine
  line : r.line = []
  headers : r.headersDone = false
  body : r.bodyComplete = false
  ext : r.chunkExt = false

theorem between_afterStatus (w : Bytes) : (init.afterStatus w).Between := by
  unfold afterStatus parseStatusLine
  split <;> exact ⟨rfl, rfl, rfl, rfl, rfl⟩

theorem handleHeaderLine_keeps (h : r.line ≠ []) :
    r.handleHeaderLine.headersDone = r.headersDone ∧
      r.handleHeaderLine.bodyComplete = r.bodyComplete ∧
      r.handleHeaderLine.chunkExt = r.chunkExt := by
  unfold handleHeaderLine
  split
  · rename_i hlen
    exact absurd (List.length_eq_zero_iff.1 hlen) h
  · dsimp only
    split
    · exact ⟨rfl, rfl, rfl⟩
    · split
      · split <;> exact ⟨rfl, rfl, rfl⟩
      · split
        · split <;> exact ⟨rfl, rfl, rfl⟩
        · split
          · split <;> exact ⟨rfl, rfl, rfl⟩
          · exact ⟨rfl, rfl, rfl⟩

theorem kept_ne_nil (h : unreturned w ≠ []) : kept w ≠ [] := by
  intro hnil
  have hlen := congrArg List.length hnil
  have hpos := List.length_pos_of_ne_nil h
  simp only [kept, List.length_take, List.length_nil, linebufBytes] at hlen
  omega

/-- A header line that is not blank. -/
theorem endLine_header (h : r.Between) (hw : unreturned w ≠ []) :
    ({ r with line := kept w }).endLine.state = .error ∧
      ({ r with line := kept w }).endLine.bodyComplete = false ∨
    ({ r with line := kept w }).endLine = r.afterHeader w ∧ (r.afterHeader w).Between := by
  have hkeeps := handleHeaderLine_keeps (r := { r with line := kept w }) (kept_ne_nil hw)
  have hstate := handleHeaderLine_state { r with line := kept w }
  have hs := h.state
  unfold endLine
  rw [if_neg (by simp [hs])]
  dsimp only at hkeeps hstate ⊢
  obtain ⟨hheaders, hbody, hext⟩ := hkeeps
  split
  · rename_i herror
    exact .inl ⟨herror, hbody.trans h.body⟩
  · rename_i herror
    have hline := (hstate.resolve_right herror).trans hs
    rw [if_neg (by rw [hheaders, h.headers]; decide)]
    exact .inr ⟨rfl, hline, rfl, hheaders.trans h.headers, hbody.trans h.body, hext.trans h.ext⟩

/-- The reader where the body starts, and after the blank line. -/
def startBody (r : Resp) : Resp :=
  { ({ r with headersDone := true }).startBodyPhase with line := [] }

def afterBlank (r : Resp) : Resp := if 100 ≤ r.status ∧ r.status < 200 then init else r.startBody

theorem afterBlank_interim (h : r.Interim) : r.afterBlank = init := if_pos h

theorem afterBlank_final (h : ¬ r.Interim) : r.afterBlank = r.startBody := if_neg h

theorem endLine_blank (h : r.Between) (hw : unreturned w = []) :
    ({ r with line := kept w }).endLine = r.afterBlank := by
  have hs := h.state
  have hkept : kept w = [] := by rw [kept, hw, List.take_nil]
  unfold endLine
  rw [if_neg (by simp [hs]), hkept]
  simp only [handleHeaderLine, List.length_nil, if_pos, hs]
  rw [if_neg (by simp)]
  unfold afterBlank startBody
  split
  · rfl
  · rw [← h.line, ← hs]

theorem headers_complete (h : r.Between) (s data : Bytes)
    (hdone : (r.feedFrom collect s data).1.bodyComplete = true) :
    ∃ hs rest q, data = hs ++ rest ∧ Headers r hs q ∧ q.Between ∧
      r.feedFrom collect s data = q.afterBlank.feedFrom collect s rest := by
  generalize hn : data.length = n
  induction n using Nat.strongRecOn generalizing data r with
  | ind n ih =>
    subst hn
    have hhead : r.InHead := .inr h.state
    rcases line_cases data with hw | ⟨w, rest, rfl, hw⟩
    · rw [feedFrom_headText hhead h.line s hw] at hdone
      exact absurd hdone (by simp [h.body])
    rw [feedFrom_headLine hhead h.line s hw] at hdone ⊢
    by_cases hblank : unreturned w = []
    · rw [endLine_blank h hblank]
      exact ⟨w ++ [lf], rest, r, by simp, .blank hw hblank, h, rfl⟩
    · rcases endLine_header h hblank with ⟨herror, hbody⟩ | ⟨heq, hbetween⟩
      · rw [complete_error herror, hbody] at hdone
        cases hdone
      · rw [heq] at hdone ⊢
        obtain ⟨hs, rest', q, rfl, hheaders, hq, heq'⟩ :=
          ih rest.length (by simp; omega) hbetween rest hdone rfl
        exact ⟨w ++ lf :: hs, rest', q, by simp, .line hw hblank hbetween.state hheaders, hq, heq'⟩

theorem head_complete (s data : Bytes)
    (hdone : (init.feedFrom collect s data).1.bodyComplete = true) :
    ∃ head rest q, data = head ++ rest ∧ Head head q ∧ q.Between ∧ ¬ q.Interim ∧
      init.feedFrom collect s data = q.startBody.feedFrom collect s rest := by
  generalize hn : data.length = n
  induction n using Nat.strongRecOn generalizing data with
  | ind n ih =>
    subst hn
    have hhead : init.InHead := .inl rfl
    rcases line_cases data with hw | ⟨w, rest, rfl, hw⟩
    · rw [feedFrom_headText hhead rfl s hw] at hdone
      cases hdone
    rw [feedFrom_headLine hhead rfl s hw] at hdone ⊢
    have hstatus : ({ init with line := kept w }).endLine = init.afterStatus w := rfl
    rw [hstatus] at hdone ⊢
    obtain ⟨hs, rest', q, rfl, hheaders, hq, heq⟩ :=
      headers_complete (between_afterStatus w) s rest hdone
    rw [heq] at hdone ⊢
    by_cases hinterim : q.Interim
    · rw [afterBlank_interim hinterim] at hdone ⊢
      obtain ⟨head, rest, q', rfl, hfinal, hq', hnot, heq'⟩ :=
        ih rest'.length (by simp; omega) rest' hdone rfl
      exact ⟨w ++ lf :: (hs ++ head), rest, q', by simp, .interim hw hheaders hinterim hfinal, hq',
        hnot, heq'⟩
    · rw [afterBlank_final hinterim]
      exact ⟨w ++ lf :: hs, rest', q, by simp, .final hw hheaders hinterim, hq, hinterim, rfl⟩

-- ---------------------------------------------------------------------------
-- The response
-- ---------------------------------------------------------------------------

theorem startBody_over (r : Resp) : ¬ r.startBody.InHead := by
  unfold startBody startBodyPhase InHead
  dsimp only
  split
  · simp
  · split
    · simp
    · split <;> simp

theorem startBody_bodyless (h : r.Bodyless) : r.startBody = { r with
    headersDone := true
    hasExplicitFraming := true
    bodyComplete := true
    state := .done
    line := [] } := by
  have hb : decide (r.status = 204 ∨ r.status = 304) = true := decide_eq_true h
  simp only [startBody, startBodyPhase, hb, Bool.true_or, if_pos]

theorem startBody_chunked (h : ¬ r.Bodyless) (hc : r.chunked = true) : r.startBody = { r with
    headersDone := true
    hasExplicitFraming := true
    state := .chunkSizeLine
    line := [] } := by
  have hb : decide (r.status = 204 ∨ r.status = 304) = false := decide_eq_false h
  simp [startBody, startBodyPhase, hb, hc]

theorem startBody_empty (h : ¬ r.Bodyless) (hc : r.chunked = false)
    (hl : r.contentLength = some 0) : r.startBody = { r with
    headersDone := true
    hasExplicitFraming := true
    bodyComplete := true
    state := .done
    line := [] } := by
  have hb : decide (r.status = 204 ∨ r.status = 304) = false := decide_eq_false h
  simp [startBody, startBodyPhase, hb, hc, hl]

theorem startBody_length (h : ¬ r.Bodyless) (hc : r.chunked = false)
    (hl : r.contentLength = some (n + 1)) : r.startBody = { r with
    headersDone := true
    hasExplicitFraming := true
    bodyGot := 0
    state := .bodyLen
    line := [] } := by
  have hb : decide (r.status = 204 ∨ r.status = 304) = false := decide_eq_false h
  simp [startBody, startBodyPhase, hb, hc, hl]

theorem startBody_unframed (h : ¬ r.Bodyless) (hc : r.chunked = false)
    (hl : r.contentLength = none) : r.startBody = { r with
    headersDone := true
    hasExplicitFraming := false
    bodyComplete := true
    state := .done
    line := [] } := by
  have hb : decide (r.status = 204 ∨ r.status = 304) = false := decide_eq_false h
  simp [startBody, startBodyPhase, hb, hc, hl]

/-- A response no header and no status frames. -/
def Unframed (r : Resp) : Prop := ¬ r.Bodyless ∧ r.chunked = false ∧ r.contentLength = none

theorem startBody_explicit (r : Resp) : r.startBody.hasExplicitFraming = false ↔ r.Unframed := by
  by_cases hb : r.Bodyless
  · rw [startBody_bodyless hb]
    exact ⟨nofun, fun h => absurd hb h.1⟩
  cases hc : r.chunked with
  | true =>
    rw [startBody_chunked hb hc]
    exact ⟨nofun, fun h => absurd (hc.symm.trans h.2.1) (by decide)⟩
  | false =>
    cases hl : r.contentLength with
    | none =>
      rw [startBody_unframed hb hc hl]
      exact ⟨fun _ => ⟨hb, hc, hl⟩, fun _ => rfl⟩
    | some n =>
      have hnot : ¬ r.Unframed := fun h => by simp [Unframed, hl] at h
      cases n with
      | zero =>
        rw [startBody_empty hb hc hl]
        exact ⟨nofun, fun h => absurd h hnot⟩
      | succ n =>
        rw [startBody_length hb hc hl]
        exact ⟨nofun, fun h => absurd h hnot⟩

theorem body_complete (h : r.Between) (s data : Bytes)
    (hdone : (r.startBody.feedFrom collect s data).1.bodyComplete = true) :
    ∃ body rest got, data = body ++ rest ∧ Framed r body got ∧
      (r.startBody.feedFrom collect s data).2 = s ++ got := by
  by_cases hb : r.Bodyless
  · rw [startBody_bodyless hb]
    obtain ⟨extra, heq⟩ := feedFrom_done (r := { r with
      headersDone := true, hasExplicitFraming := true, bodyComplete := true, state := .done,
      line := [] }) rfl s data
    rw [heq]
    exact ⟨[], data, [], rfl, .bodyless hb, (List.append_nil s).symm⟩
  cases hc : r.chunked with
  | true =>
    rw [startBody_chunked hb hc] at hdone ⊢
    obtain ⟨body, rest, got, hdata, hbody, hgot⟩ :=
      chunked_complete (by rfl) (by exact h.ext) (by rfl) (by exact h.body) s data hdone
    exact ⟨body, rest, got, hdata, .chunked hb hc hbody, hgot⟩
  | false =>
    cases hl : r.contentLength with
    | none =>
      rw [startBody_unframed hb hc hl]
      obtain ⟨extra, heq⟩ := feedFrom_done (r := { r with
        headersDone := true, hasExplicitFraming := false, bodyComplete := true, state := .done,
        line := [] }) rfl s data
      rw [heq]
      exact ⟨[], data, [], rfl, .unframed hb hc hl, (List.append_nil s).symm⟩
    | some n =>
      cases n with
      | zero =>
        rw [startBody_empty hb hc hl]
        obtain ⟨extra, heq⟩ := feedFrom_done (r := { r with
          headersDone := true, hasExplicitFraming := true, bodyComplete := true, state := .done,
          line := [] }) rfl s data
        rw [heq]
        exact ⟨[], data, [], rfl, .length hb hc hl, (List.append_nil s).symm⟩
      | succ n =>
        rw [startBody_length hb hc hl] at hdone ⊢
        obtain ⟨hle, heq⟩ := data_complete (by rfl) (by simp [want, hl]) (by exact h.body) s data hdone
        rw [heq]
        simp only [want, hl, Option.getD_some, Nat.sub_zero, took, Nat.zero_add, Nat.le_refl,
          if_pos] at hle ⊢
        obtain ⟨extra, heq'⟩ := feedFrom_done (r := { r with
          headersDone := true, hasExplicitFraming := true, bodyGot := n + 1, bodyComplete := true,
          state := .done, line := [] }) rfl (s ++ data.take (n + 1)) (data.drop (n + 1))
        refine ⟨data.take (n + 1), data.drop (n + 1), data.take (n + 1), by simp,
          .length hb hc ?_, ?_⟩
        · rw [hl, List.length_take_of_le hle]
        · simp only [hl] at heq'
          rw [heq']

-- ---------------------------------------------------------------------------
-- The stream
-- ---------------------------------------------------------------------------

/-- The reader does not see how the stream is cut, and calls the response
complete only where the stream frames it. -/
theorem feed_framed (pieces : List Bytes) (r : Resp) (got : Bytes)
    (hfed : init.feedAll collect [] pieces = (r, got)) :
    (init.feed collect [] pieces.flatten).2 = (r, got) ∧
      (r.bodyComplete = true → ∃ head body rest q, pieces.flatten = head ++ (body ++ rest) ∧
        Head head q ∧ Framed q body got ∧ r.status = q.status ∧ r.chunked = q.chunked ∧
        r.contentLength = q.contentLength ∧ (r.hasExplicitFraming = false ↔ q.Unframed)) := by
  have hflat := feedAll_eq joins_collect ready_init ([] : Bytes) pieces
  rw [hfed] at hflat
  refine ⟨hflat.symm, fun hdone => ?_⟩
  have hdone' : (init.feedFrom collect [] pieces.flatten).1.bodyComplete = true := by
    rw [← hflat]
    exact hdone
  obtain ⟨head, rest, q, hdata, hhead, hq, -, heq⟩ := head_complete [] pieces.flatten hdone'
  rw [heq] at hdone'
  obtain ⟨body, rest', got', rfl, hbody, hgot⟩ := body_complete hq [] rest hdone'
  have hfacts : SameFacts q.startBody (q.startBody.feedFrom collect [] (body ++ rest')).1 :=
    feedFrom_sameFacts (startBody_over q) [] (body ++ rest')
  rw [← heq, ← hflat] at hgot hfacts
  have hsame : got = got' := hgot
  have hexplicit := hfacts.hasExplicitFraming
  have hstart : q.startBody.status = q.status ∧ q.startBody.chunked = q.chunked ∧
      q.startBody.contentLength = q.contentLength := by
    unfold startBody startBodyPhase
    dsimp only
    split
    · exact ⟨rfl, rfl, rfl⟩
    · split
      · exact ⟨rfl, rfl, rfl⟩
      · split <;> exact ⟨rfl, rfl, rfl⟩
  refine ⟨head, body, rest', q, hdata, hhead, hsame ▸ hbody, hfacts.status.trans hstart.1,
    hfacts.chunked.trans hstart.2.1, hfacts.contentLength.trans hstart.2.2, ?_⟩
  rw [hexplicit]
  exact startBody_explicit q

/-- A body of two bytes, cut in two. -/
theorem feed_framed_cut : ∃ head body rest q,
    ascii "HTTP/1.1 200 OK\r\nContent-Length: 2\r\n\r\nok" = head ++ (body ++ rest) ∧
      Head head q ∧ Framed q body (ascii "ok") := by
  have hgot : (init.feedAll collect []
      [ascii "HTTP/1.1 200 OK\r\nContent-Length: 2\r\n\r\no", ascii "k"]).2 = ascii "ok" := by
    decide +kernel
  obtain ⟨-, h⟩ := feed_framed
    [ascii "HTTP/1.1 200 OK\r\nContent-Length: 2\r\n\r\no", ascii "k"] _ _ (Prod.eta _).symm
  obtain ⟨head, body, rest, q, hdata, hhead, hbody, -⟩ := h (by decide +kernel)
  rw [hgot] at hbody
  exact ⟨head, body, rest, q, by rw [← hdata]; decide, hhead, hbody⟩

/-- A response without framing is complete at its head, though neither a
Content-Length was met nor a last chunk seen. -/
theorem unframed_complete : ¬ ∀ pieces : List Bytes,
    (init.feedAll collect [] pieces).1.bodyComplete = true →
      (init.feedAll collect [] pieces).1.contentLength =
          some (init.feedAll collect [] pieces).2.length ∨
        (init.feedAll collect [] pieces).1.chunked = true := by
  intro h
  have hfed := h [ascii "HTTP/1.1 200 OK\r\n\r\n"] (by decide +kernel)
  exact absurd hfed (by decide +kernel)

end WebAdf.Http.Resp
