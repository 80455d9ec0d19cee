import WebAdf.Http.Cuts

/-!
# What a complete response is

The grammar of a stream the reader calls complete: interim responses, the head
of the final one, and a body that is as the head frames it. A line is what
stands before its newline, without returns, cut to the reader's buffer.
-/

namespace WebAdf.Http

/-- A sink that keeps what it is given. -/
def collect (s x : Bytes) : Bytes := s ++ x

theorem joins_collect : Joins collect := joins_append

-- ---------------------------------------------------------------------------
-- The grammar
-- ---------------------------------------------------------------------------

def unreturned (w : Bytes) : Bytes := w.filter (· != cr)

/-- What the buffer keeps of a line. -/
def kept (w : Bytes) : Bytes := (unreturned w).take (linebufBytes - 1)

/-- What it keeps of a chunk-size line, whose extension does not count. -/
def sizeKept (w : Bytes) : Bytes :=
  ((unreturned w).takeWhile (· != semicolon)).take (linebufBytes - 1)

/-- The reader after a status line, and after a header line. -/
def Resp.afterStatus (r : Resp) (w : Bytes) : Resp :=
  { ({ r with line := kept w }).parseStatusLine with state := .headerLine, line := [] }

def Resp.afterHeader (r : Resp) (w : Bytes) : Resp :=
  { ({ r with line := kept w }).handleHeaderLine with line := [] }

/-- Header lines and the blank one that ends them. -/
inductive Headers : Resp → Bytes → Resp → Prop
  | blank : lf ∉ w → unreturned w = [] → Headers r (w ++ [lf]) r
  | line : lf ∉ w → unreturned w ≠ [] → (r.afterHeader w).state = .headerLine →
      Headers (r.afterHeader w) hs r' → Headers r (w ++ lf :: hs) r'

def Resp.Interim (r : Resp) : Prop := 100 ≤ r.status ∧ r.status < 200

/-- The head of the final response, and any interim ones before it: what it
records. -/
inductive Head : Bytes → Resp → Prop
  | final : lf ∉ w → Headers (init.afterStatus w) hs r → ¬ r.Interim → Head (w ++ lf :: hs) r
  | interim : lf ∉ w → Headers (init.afterStatus w) hs r → r.Interim → Head rest r' →
      Head (w ++ lf :: (hs ++ rest)) r'

/-- Trailer lines and the blank one that ends them. -/
inductive Trailer : Bytes → Prop
  | blank : lf ∉ w → unreturned w = [] → Trailer (w ++ [lf])
  | line : lf ∉ w → unreturned w ≠ [] → Trailer t → Trailer (w ++ lf :: t)

/-- A chunked body and the data of its chunks. -/
inductive Chunked : Bytes → Bytes → Prop
  | last : lf ∉ w → parseBounded (sizeKept w) 16 httpMaxBodyBytes = some 0 → Trailer t →
      Chunked (w ++ lf :: t) []
  | chunk : lf ∉ w → parseBounded (sizeKept w) 16 httpMaxBodyBytes = some data.length →
      data ≠ [] → unreturned e = [] → Chunked rest got →
      Chunked (w ++ lf :: (data ++ (e ++ lf :: rest))) (data ++ got)

/-- A status whose response has no body. -/
def Resp.Bodyless (r : Resp) : Prop := r.status = 204 ∨ r.status = 304

/-- A body as the head frames it, and its data. -/
inductive Framed (r : Resp) : Bytes → Bytes → Prop
  | bodyless : r.Bodyless → Framed r [] []
  | chunked : ¬ r.Bodyless → r.chunked = true → Chunked body got → Framed r body got
  | length : ¬ r.Bodyless → r.chunked = false → r.contentLength = some body.length →
      Framed r body body
  | unframed : ¬ r.Bodyless → r.chunked = false → r.contentLength = none → Framed r [] []

-- ---------------------------------------------------------------------------
-- Lines
-- ---------------------------------------------------------------------------

theorem line_cases (data : Bytes) : lf ∉ data ∨ ∃ w rest, data = w ++ lf :: rest ∧ lf ∉ w := by
  by_cases h : lf ∈ data
  · obtain ⟨w, rest, hdata, hw⟩ := List.eq_append_cons_of_mem h
    exact .inr ⟨w, rest, hdata, hw⟩
  · exact .inl h

@[simp] theorem unreturned_cr (w : Bytes) : unreturned (cr :: w) = unreturned w := by
  simp [unreturned]

theorem unreturned_cons (h : c ≠ cr) (w : Bytes) : unreturned (c :: w) = c :: unreturned w := by
  simp [unreturned, h]

namespace Resp

variable {r : Resp}

/-- The buffer takes bytes while there is room. -/
theorem push_take (h : r.line.length ≤ room) (c : UInt8) (w : Bytes) :
    (r.push room c).line.length ≤ room ∧
      ((r.push room c).line ++ w).take room = (r.line ++ c :: w).take room := by
  unfold push
  split
  · rename_i hlt
    refine ⟨by simp only [List.length_append, List.length_singleton]; omega, ?_⟩
    simp
  · have hfull : r.line.length = room := by omega
    refine ⟨h, ?_⟩
    rw [← hfull, List.take_left, List.take_left]

theorem push_with (r : Resp) (room : Nat) (c : UInt8) (l : Bytes) :
    { r.push room c with line := l } = { r with line := l } := by
  unfold push
  split <;> rfl

/-- The bytes of a line, where every byte but a newline goes to the buffer. -/
theorem feedFrom_text (room : Nat) {P : Resp → Prop} (hpush : ∀ r room c, P r → P (r.push room c))
    (hstep : ∀ r c, P r → c ≠ lf → r.state ≠ .error ∧ r.inBody = false ∧
      r.byte c = if c = cr then r else r.push room c)
    (hr : P r) (hroom : r.line.length ≤ room) (s : Bytes) (hw : lf ∉ w) :
    r.feedFrom collect s w = ({ r with line := (r.line ++ unreturned w).take room }, s) := by
  induction w generalizing r with
  | nil =>
    rw [feedFrom_nil]
    simp only [unreturned, List.filter_nil, List.append_nil, List.take_of_length_le hroom]
  | cons c w ih =>
    have hc : c ≠ lf := fun h => hw (by simp [h])
    have hw' : lf ∉ w := fun h => hw (by simp [h])
    obtain ⟨herr, hbody, hbyte⟩ := hstep r c hr hc
    rw [feedFrom_byte herr hbody, hbyte]
    split
    · rename_i hcr
      rw [ih hr hroom hw', hcr, unreturned_cr]
    · rename_i hcr
      obtain ⟨hlen, htake⟩ := push_take hroom c (unreturned w)
      rw [ih (hpush r room c hr) hlen hw', htake, push_with, unreturned_cons hcr]

def InHead (r : Resp) : Prop := r.state = .statusLine ∨ r.state = .headerLine

theorem byte_head (h : r.InHead) (c : UInt8) : r.byte c = r.headByte c := by
  unfold byte
  rcases h with h | h <;> rw [h]

theorem inHead_idle (h : r.InHead) : r.state ≠ .error ∧ r.inBody = false := by
  rcases h with h | h <;> exact ⟨by simp [h], by simp [inBody, h]⟩

theorem feedFrom_headText (h : r.InHead) (hline : r.line = []) (s : Bytes) (hw : lf ∉ w) :
    r.feedFrom collect s w = ({ r with line := kept w }, s) := by
  rw [feedFrom_text (linebufBytes - 1) (P := InHead) ?_ ?_ h ?_ s hw, hline]
  · rfl
  · intro r room c hr
    unfold InHead
    rwa [push_state]
  · intro r c hr hc
    obtain ⟨herr, hbody⟩ := inHead_idle hr
    refine ⟨herr, hbody, ?_⟩
    rw [byte_head hr, headByte, if_neg hc]
  · rw [hline]
    exact Nat.zero_le _

/-- A line of the head and its newline. -/
theorem feedFrom_headLine (h : r.InHead) (hline : r.line = []) (s : Bytes) (hw : lf ∉ w)
    (rest : Bytes) : r.feedFrom collect s (w ++ lf :: rest) =
      ({ r with line := kept w }).endLine.feedFrom collect s rest := by
  have h' : InHead { r with line := kept w } := h
  obtain ⟨herr, hbody⟩ := inHead_idle h'
  rw [feedFrom_append joins_collect (.idle (inHead_idle h).2), feedFrom_headText h hline s hw]
  dsimp only
  rw [feedFrom_byte herr hbody, byte_head h', headByte, if_neg (by decide), if_pos rfl]

theorem byte_trailer (h : r.state = .chunkTrailer) (c : UInt8) : r.byte c = r.trailerByte c := by
  unfold byte
  rw [h]

theorem byte_size (h : r.state = .chunkSizeLine) (c : UInt8) : r.byte c = r.sizeByte c := by
  unfold byte
  rw [h]

theorem feedFrom_trailerText (h : r.state = .chunkTrailer) (hline : r.line = []) (s : Bytes)
    (hw : lf ∉ w) :
    r.feedFrom collect s w = ({ r with line := (unreturned w).take linebufBytes }, s) := by
  rw [feedFrom_text linebufBytes (P := fun r => r.state = .chunkTrailer) ?_ ?_ h ?_ s hw,
    hline, List.nil_append]
  · intro r room c hr
    rwa [push_state]
  · intro r c hr hc
    refine ⟨by simp [hr], by simp [inBody, hr], ?_⟩
    rw [byte_trailer hr, trailerByte, if_neg hc]
  · rw [hline]
    exact Nat.zero_le _

theorem feedFrom_trailerLine (h : r.state = .chunkTrailer) (hline : r.line = []) (s : Bytes)
    (hw : lf ∉ w) (rest : Bytes) : r.feedFrom collect s (w ++ lf :: rest) =
      ({ r with line := (unreturned w).take linebufBytes }).endTrailer.feedFrom collect s rest := by
  rw [feedFrom_append joins_collect (.idle (by simp [inBody, h])),
    feedFrom_trailerText h hline s hw]
  dsimp only
  have h' : ({ r with line := (unreturned w).take linebufBytes } : Resp).state = .chunkTrailer := h
  rw [feedFrom_byte (by simp [h]) (by simp [inBody, h]), byte_trailer h', trailerByte,
    if_neg (by decide), if_pos rfl]

/-- An extension runs to the end of its line. -/
theorem feedFrom_extension (h : r.state = .chunkSizeLine) (hext : r.chunkExt = true) (s : Bytes)
    (hw : lf ∉ w) : r.feedFrom collect s w = (r, s) := by
  induction w with
  | nil => exact feedFrom_nil r s
  | cons c w ih =>
    have hc : c ≠ lf := fun h => hw (by simp [h])
    have hw' : lf ∉ w := fun h => hw (by simp [h])
    have hbyte : r.byte c = r := by
      rw [byte_size h, sizeByte, if_neg hc, hext]
      split
      · rfl
      · split
        · rw [← hext]
        · rfl
    rw [feedFrom_byte (by simp [h]) (by simp [inBody, h]), hbyte, ih hw']

theorem feedFrom_sizeText (h : r.state = .chunkSizeLine) (hext : r.chunkExt = false)
    (hroom : r.line.length ≤ linebufBytes - 1) (s : Bytes) (hw : lf ∉ w) :
    ∃ ext, r.feedFrom collect s w = ({ r with
      line := (r.line ++ (unreturned w).takeWhile (· != semicolon)).take (linebufBytes - 1)
      chunkExt := ext }, s) := by
  induction w generalizing r with
  | nil =>
    refine ⟨false, ?_⟩
    rw [feedFrom_nil]
    simp only [unreturned, List.filter_nil, List.takeWhile_nil, List.append_nil,
      List.take_of_length_le hroom, ← hext]
  | cons c w ih =>
    have hc : c ≠ lf := fun h => hw (by simp [h])
    have hw' : lf ∉ w := fun h => hw (by simp [h])
    rw [feedFrom_byte (by simp [h]) (by simp [inBody, h]), byte_size h, sizeByte, if_neg hc]
    split
    · rename_i hcr
      rw [hcr, unreturned_cr]
      exact ih h hext hroom hw'
    · rename_i hcr
      rw [unreturned_cons hcr]
      split
      · rename_i hsemi
        refine ⟨true, ?_⟩
        have h' : ({ r with chunkExt := true } : Resp).state = .chunkSizeLine := h
        rw [feedFrom_extension h' rfl s hw', hsemi]
        simp [List.take_of_length_le hroom]
      · rename_i hsemi
        rw [hext, List.takeWhile_cons_of_pos (by simpa using hsemi)]
        obtain ⟨hlen, htake⟩ := push_take hroom c ((unreturned w).takeWhile (· != semicolon))
        obtain ⟨ext, heq⟩ := ih (r := r.push (linebufBytes - 1) c) ((push_state ..).trans h)
          (by unfold push; split <;> exact hext) hlen hw'
        refine ⟨ext, ?_⟩
        rw [← htake]
        refine heq.trans ?_
        unfold push
        split <;> rfl

/-- A chunk-size line and its newline. -/
theorem feedFrom_sizeLine (h : r.state = .chunkSizeLine) (hext : r.chunkExt = false)
    (hline : r.line = []) (s : Bytes) (hw : lf ∉ w) (rest : Bytes) :
    ∃ ext, r.feedFrom collect s (w ++ lf :: rest) =
      ({ r with line := sizeKept w, chunkExt := ext }).startChunk.feedFrom collect s rest := by
  obtain ⟨ext, heq⟩ := feedFrom_sizeText h hext (by simp [hline]) s hw
  refine ⟨ext, ?_⟩
  rw [feedFrom_append joins_collect (.idle (by simp [inBody, h])), heq]
  dsimp only
  rw [hline, List.nil_append]
  have h' : ({ r with line := sizeKept w, chunkExt := ext } : Resp).state = .chunkSizeLine := h
  refine (feedFrom_byte (by simp [h]) (by simp [inBody, h]) s lf rest).trans ?_
  exact congrArg (fun q => feedFrom collect q s rest) ((byte_size h' lf).trans (by
    rw [sizeByte, if_neg (by decide), if_neg (by decide), if_pos rfl]))

end Resp

end WebAdf.Http
