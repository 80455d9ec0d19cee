import WebAdf.Http.Response

/-!
# However the stream is cut

Bytes fed in two parts leave the reader and the sink as they leave them fed at
once, for a sink that takes bytes in two parts as it takes them at once.
-/

namespace WebAdf.Http

/-- Bytes given in two parts are the same bytes. -/
def Joins (sink : σ → Bytes → σ) : Prop := ∀ s x y, sink (sink s x) y = sink s (x ++ y)

theorem joins_append : Joins fun (s : Bytes) x => s ++ x := by
  intro s x y
  exact List.append_assoc s x y

namespace Resp

variable {sink : σ → Bytes → σ} {r : Resp}

-- ---------------------------------------------------------------------------
-- Where data is read, some is to come
-- ---------------------------------------------------------------------------

def Ready (r : Resp) : Prop := r.inBody = true → 0 < r.want

theorem Ready.idle (h : r.inBody = false) : r.Ready := by
  intro hb
  rw [h] at hb
  cases hb

theorem ready_init : init.Ready := .idle rfl

theorem ready_startBodyPhase (r : Resp) : r.startBodyPhase.Ready := by
  unfold startBodyPhase
  dsimp only
  split
  · exact .idle rfl
  · split
    · exact .idle rfl
    · split
      · exact .idle rfl
      · rename_i n hn hlen
        intro _
        have hne : n ≠ 0 := by
          rintro rfl
          exact hn rfl
        simp only [want, hlen, Option.getD_some]
        omega
      · exact .idle rfl

theorem parseStatusLine_state (r : Resp) : r.parseStatusLine.state = r.state := by
  unfold parseStatusLine
  split <;> rfl

theorem handleHeaderLine_state (r : Resp) :
    r.handleHeaderLine.state = r.state ∨ r.handleHeaderLine.state = .error := by
  unfold handleHeaderLine
  split
  · exact .inl rfl
  · dsimp only
    split
    · exact .inl rfl
    · split
      · split
        · exact .inr rfl
        · exact .inl rfl
      · split
        · split <;> exact .inl rfl
        · split
          · split <;> exact .inl rfl
          · exact .inl rfl

theorem inBody_eq (r : Resp) : r.inBody = (r.state == .bodyLen || r.state == .chunkData) := rfl

theorem ready_endLine (h : r.inBody = false) : r.endLine.Ready := by
  unfold endLine
  split
  · exact .idle rfl
  · dsimp only
    split
    · rename_i herror
      refine .idle ?_
      rw [inBody_eq, herror]
      rfl
    · rename_i hne
      have hstate := (handleHeaderLine_state r).resolve_right hne
      split
      · split
        · exact ready_init
        · exact ready_startBodyPhase r.handleHeaderLine
      · refine .idle ?_
        rw [inBody_eq] at h ⊢
        rw [← hstate] at h
        exact h

theorem push_state (r : Resp) (room : Nat) (c : UInt8) : (r.push room c).state = r.state := by
  unfold push
  split <;> rfl

theorem push_inBody (r : Resp) (room : Nat) (c : UInt8) : (r.push room c).inBody = r.inBody := by
  rw [inBody_eq, push_state, inBody_eq]

theorem ready_headByte (h : r.inBody = false) (c : UInt8) : (r.headByte c).Ready := by
  unfold headByte
  split
  · exact .idle h
  · split
    · exact ready_endLine h
    · exact .idle ((push_inBody ..).trans h)

theorem ready_startChunk (r : Resp) : r.startChunk.Ready := by
  unfold startChunk
  split
  · exact .idle rfl
  · rename_i size _
    by_cases hsize : size = 0
    · exact .idle (by simp [inBody, hsize])
    · intro _
      simp only [want, if_neg hsize]
      omega

theorem ready_sizeByte (h : r.inBody = false) (c : UInt8) : (r.sizeByte c).Ready := by
  unfold sizeByte
  split
  · exact .idle h
  · split
    · exact .idle h
    · split
      · exact ready_startChunk r
      · split
        · exact .idle ((push_inBody ..).trans h)
        · exact .idle h

theorem ready_crlfByte (h : r.inBody = false) (c : UInt8) : (r.crlfByte c).Ready := by
  unfold crlfByte
  split
  · exact .idle h
  · split
    · exact .idle rfl
    · exact .idle rfl

theorem ready_trailerByte (h : r.inBody = false) (c : UInt8) : (r.trailerByte c).Ready := by
  unfold trailerByte endTrailer
  split
  · exact .idle h
  · split
    · split
      · exact .idle rfl
      · exact .idle h
    · exact .idle ((push_inBody ..).trans h)

theorem ready_byte (h : r.inBody = false) (c : UInt8) : (r.byte c).Ready := by
  unfold byte
  cases r.state with
  | statusLine => exact ready_headByte h c
  | headerLine => exact ready_headByte h c
  | bodyLen => exact .idle h
  | chunkSizeLine => exact ready_sizeByte h c
  | chunkData => exact .idle h
  | chunkCrlf => exact ready_crlfByte h c
  | chunkTrailer => exact ready_trailerByte h c
  | done => exact .idle rfl
  | error => exact .idle h

theorem inBody_cases (h : r.inBody = true) : r.state = .bodyLen ∨ r.state = .chunkData := by
  simpa [inBody] using h

theorem ready_took (r : Resp) (take : Nat) (h : r.inBody = true) : (r.took take).Ready := by
  rcases inBody_cases h with hs | hs
  · simp only [took, hs]
    split
    · exact .idle rfl
    · intro _
      simp only [want]
      omega
  · simp only [took, hs]
    split
    · exact .idle rfl
    · intro _
      simp only [want]
      omega

-- ---------------------------------------------------------------------------
-- A pass over the body's data
-- ---------------------------------------------------------------------------

/-- Data is left after a part of it. -/
theorem took_part (h : r.inBody = true) (hlt : k < r.want) :
    (r.took k).inBody = true ∧ (r.took k).want = r.want - k := by
  rcases inBody_cases h with hs | hs
  · simp only [want, hs] at hlt ⊢
    simp only [took, hs]
    rw [if_neg (by omega)]
    refine ⟨by simp [inBody], ?_⟩
    dsimp only
    omega
  · simp only [want, hs] at hlt ⊢
    simp only [took, hs]
    rw [if_neg (by omega)]
    exact ⟨by simp [inBody], rfl⟩

theorem took_took (h : r.inBody = true) (hlt : k < r.want) (j : Nat) :
    (r.took k).took j = r.took (k + j) := by
  rcases inBody_cases h with hs | hs
  · simp only [want, hs] at hlt
    have hpart : ¬ r.contentLength.getD 0 ≤ r.bodyGot + k := by omega
    simp only [took, hs, if_neg hpart, Nat.add_assoc]
  · simp only [want, hs] at hlt
    have hpart : r.chunkLeft - k ≠ 0 := by omega
    simp only [took, hs, if_neg hpart, Nat.sub_sub]

-- ---------------------------------------------------------------------------
-- The loop
-- ---------------------------------------------------------------------------

@[simp] theorem feedFrom_nil (r : Resp) (s : σ) : r.feedFrom sink s [] = (r, s) := by
  rw [feedFrom]

theorem feedFrom_error (h : r.state = .error) (s : σ) (data : Bytes) :
    r.feedFrom sink s data = (r, s) := by
  cases data with
  | nil => exact feedFrom_nil r s
  | cons c rest => rw [feedFrom, if_pos h]

theorem feedFrom_byte (he : r.state ≠ .error) (hb : r.inBody = false) (s : σ) (c : UInt8)
    (rest : Bytes) : r.feedFrom sink s (c :: rest) = (r.byte c).feedFrom sink s rest := by
  rw [feedFrom, if_neg he, if_neg (by simp [hb])]

theorem inBody_ne_error (h : r.inBody = true) : r.state ≠ .error := by
  rcases inBody_cases h with hs | hs <;> rw [hs] <;> decide

/-- A pass over all the data there is, or all that is wanted. -/
theorem feedFrom_body (h : r.inBody = true) (hr : r.Ready) (s : σ) {data : Bytes} (hne : data ≠ []) :
    r.feedFrom sink s data =
      (r.took (min data.length r.want)).feedFrom sink (sink s (data.take (min data.length r.want)))
        (data.drop (min data.length r.want)) := by
  cases data with
  | nil => exact absurd rfl hne
  | cons c rest =>
    have hwant := hr h
    have hpos : min (rest.length + 1) r.want > 0 := by omega
    rw [feedFrom, if_neg (inBody_ne_error h), if_pos h]
    dsimp only
    rw [if_pos hpos, Nat.max_eq_left hpos, List.length_cons]

/-- A cut inside a pass. -/
theorem feedFrom_part (hsink : Joins sink) (h : r.inBody = true) (hr : r.Ready) (s : σ) {a : Bytes}
    (b : Bytes) (ha : a ≠ []) (hlt : a.length < r.want) :
    r.feedFrom sink s (a ++ b) = (r.took a.length).feedFrom sink (sink s a) b := by
  obtain ⟨hbody, hwant⟩ := took_part h hlt
  by_cases hb : b = []
  · subst hb
    rw [List.append_nil, feedFrom_body h hr s ha, Nat.min_eq_left (Nat.le_of_lt hlt),
      List.take_length, List.drop_length]
  · have hpass : min (a ++ b).length r.want = a.length + min b.length (r.took a.length).want := by
      rw [List.length_append, hwant]
      omega
    rw [feedFrom_body h hr s (by simp [ha]), feedFrom_body hbody (ready_took r _ h) _ hb, hpass,
      List.take_append, List.drop_append, List.take_of_length_le (by omega),
      List.drop_of_length_le (by omega), Nat.add_sub_cancel_left, List.nil_append,
      took_took h hlt, hsink]

/-- Bytes fed in two parts leave what they leave fed at once. -/
theorem feedFrom_append (hsink : Joins sink) (hr : r.Ready) (s : σ) (a b : Bytes) :
    r.feedFrom sink s (a ++ b) =
      (r.feedFrom sink s a).1.feedFrom sink (r.feedFrom sink s a).2 b := by
  generalize hn : a.length = n
  induction n using Nat.strongRecOn generalizing a r s with
  | ind n ih =>
    subst hn
    cases a with
    | nil => rw [feedFrom_nil, List.nil_append]
    | cons c rest =>
      by_cases he : r.state = .error
      · rw [feedFrom_error he, feedFrom_error he, feedFrom_error he]
      cases hb : r.inBody with
      | false =>
        rw [List.cons_append, feedFrom_byte he hb, feedFrom_byte he hb]
        exact ih _ (Nat.lt_succ_self _) (ready_byte hb c) s rest rfl
      | true =>
        by_cases hlt : (c :: rest).length < r.want
        · have hne : c :: rest ≠ [] := by simp
          rw [feedFrom_part hsink hb hr s b hne hlt, feedFrom_body hb hr s hne,
            Nat.min_eq_left (Nat.le_of_lt hlt), List.take_length, List.drop_length, feedFrom_nil]
        · have hle := Nat.le_of_not_lt hlt
          have hpos := hr hb
          have hne : c :: rest ≠ [] := by simp
          rw [feedFrom_body hb hr s (by simp), feedFrom_body hb hr s hne,
            Nat.min_eq_right hle, List.length_append, Nat.min_eq_right (by omega),
            List.take_append_of_le_length hle, List.drop_append_of_le_length hle]
          refine ih _ ?_ (ready_took r _ hb) _ _ rfl
          rw [List.length_drop]
          omega

theorem feedFrom_ready (hr : r.Ready) (s : σ) (data : Bytes) : (r.feedFrom sink s data).1.Ready := by
  generalize hn : data.length = n
  induction n using Nat.strongRecOn generalizing data r s with
  | ind n ih =>
    subst hn
    cases data with
    | nil => rwa [feedFrom_nil]
    | cons c rest =>
      by_cases he : r.state = .error
      · rwa [feedFrom_error he]
      cases hb : r.inBody with
      | false =>
        rw [feedFrom_byte he hb]
        exact ih _ (Nat.lt_succ_self _) (ready_byte hb c) s rest rfl
      | true =>
        have hpos := hr hb
        rw [feedFrom_body hb hr s (by simp)]
        refine ih _ ?_ (ready_took r _ hb) _ _ rfl
        rw [List.length_drop, List.length_cons]
        omega

-- ---------------------------------------------------------------------------
-- Pieces
-- ---------------------------------------------------------------------------

/-- `http_resp_feed` on each piece in turn. -/
def feedAll (sink : σ → Bytes → σ) (r : Resp) (s : σ) (pieces : List Bytes) : Resp × σ :=
  pieces.foldl (fun p data => (p.1.feed sink p.2 data).2) (r, s)

theorem feed_snd (r : Resp) (s : σ) (data : Bytes) :
    (r.feed sink s data).2 = r.feedFrom sink s data := rfl

/-- The pieces leave what the stream they make up leaves. -/
theorem feedAll_eq (hsink : Joins sink) (hr : r.Ready) (s : σ) (pieces : List Bytes) :
    r.feedAll sink s pieces = r.feedFrom sink s pieces.flatten := by
  induction pieces generalizing r s with
  | nil => exact (feedFrom_nil r s).symm
  | cons data pieces ih =>
    rw [List.flatten_cons, feedFrom_append hsink hr, feedAll, List.foldl_cons, feed_snd]
    exact ih (feedFrom_ready hr s data) _

end Resp

end WebAdf.Http
