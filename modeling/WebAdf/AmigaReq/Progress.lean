import Mathlib
import WebAdf.AmigaReq.BodyLaws
import WebAdf.AmigaReq.Engine

/-!
# Where an answer stands

Between two steps the answer in progress is a row of acknowledged pieces and
then one of four things: a piece being gathered, a piece owed, a piece owed with
an ERR waiting behind it, or the rest of an answer the server refused. Each
lemma follows one function of the engine from stage to stage.
-/

namespace WebAdf.AmigaReq

open Lib

-- ---------------------------------------------------------------------------
-- The statement
-- ---------------------------------------------------------------------------

/-- Pieces in a row from 0 on, none of them the last. -/
def pieces (chunks : List (List Bytes)) : List Bytes :=
  chunks.mapIdx fun i lines => renderPiece (i % 2 ^ 32) lines false

/-- All of the answer is acknowledged. -/
def Answer.Whole (a : Answer) : Prop :=
  ∃ chunks final, a.acked = pieces chunks ++ [renderPiece (chunks.length % 2 ^ 32) final true] ∧
    a.lines = chunks.flatten ++ final

/-- What is acknowledged is a start of the answer. -/
def Answer.Begun (a : Answer) : Prop :=
  ∃ chunks, a.acked = pieces chunks ∧ chunks.flatten <+: a.lines

/-- An answer that is over. -/
structure Answer.Settled (a : Answer) : Prop where
  whole : a.refused = none → a.Whole
  begun : a.refused ≠ none → a.Begun
  sizes : ∀ body ∈ a.tried, body.length ≤ bodyBytes
  tried : ∀ body ∈ a.tried, body ∈ a.acked ∨ a.refused = some body

-- ---------------------------------------------------------------------------
-- The answer in progress
-- ---------------------------------------------------------------------------

/-- After the pieces `chunks`, the piece being gathered holds `lines`. -/
structure Open (r : Req) (a : Answer) (chunks : List (List Bytes)) (lines : List Bytes) : Prop where
  discard : r.discard = false
  owed : r.postOwed = false
  ended : r.ended = false
  err : r.endErr = []
  refused : a.refused = none
  body : Gathering r lines
  said : a.lines = chunks.flatten ++ lines

/-- Where the answer stands after the pieces `chunks`: a piece is gathered, a
piece is owed, a piece is owed and an ERR waits behind it, or the rest is
dropped. -/
inductive Stage (r : Req) (a : Answer) (chunks : List (List Bytes)) : Prop
  | gathering (lines : List Bytes) (h : Open r a chunks lines)
  | owed (lines : List Bytes) (discard : r.discard = false) (owed : r.postOwed = true)
      (ended : r.ended = r.postLast) (err : r.endErr = []) (refused : a.refused = none)
      (body : r.out = renderPiece r.piece lines r.postLast) (fits : r.out.length ≤ bodyBytes)
      (said : a.lines = chunks.flatten ++ lines)
  | owedErr (lines : List Bytes) (discard : r.discard = false) (owed : r.postOwed = true)
      (last : r.postLast = false) (ended : r.ended = true) (err : r.endErr ≠ [])
      (short : r.endErr.length ≤ errMax) (refused : a.refused = none)
      (body : r.out = renderPiece r.piece lines false) (fits : r.out.length ≤ bodyBytes)
      (said : a.lines = chunks.flatten ++ lines ++ [r.endErr])
  | dropped (discard : r.discard = true) (owed : r.postOwed = false)
      (refused : a.refused ≠ none) (said : chunks.flatten <+: a.lines)

structure Going (r : Req) (a : Answer) (chunks : List (List Bytes)) : Prop where
  acked : a.acked = pieces chunks
  piece : r.piece = chunks.length % 2 ^ 32
  sizes : ∀ body ∈ a.tried, body.length ≤ bodyBytes
  tried : ∀ body ∈ a.tried,
    body ∈ a.acked ∨ a.refused = some body ∨ r.postOwed = true ∧ body = r.out
  stage : Stage r a chunks

/-- The answer goes on under the request's state, or is over with it. -/
def Sound (r : Req) (a : Answer) : Prop :=
  if r.active then ∃ chunks, Going r a chunks else r.postOwed = false ∧ a.Settled

theorem sound_active {r : Req} (h : r.active = true) (hg : Going r a chunks) : Sound r a := by
  rw [Sound, if_pos h]
  exact ⟨chunks, hg⟩

theorem sound_finish (r : Req) (hs : a.Settled) : Sound (finish r) a := by
  rw [Sound, if_neg Bool.noConfusion]
  exact ⟨rfl, hs⟩

/-- The GOT table and the rest of the request's state do not matter. -/
theorem Going.with (h : Going r a chunks) (got : List Got) (gotSeq : Nat) (sent : Bool) :
    Going { r with got := got, gotSeq := gotSeq, sent := sent } a chunks := by
  refine ⟨h.acked, h.piece, h.sizes, h.tried, ?_⟩
  cases h.stage with
  | gathering lines hopen =>
    have hbody := hopen.body
    exact .gathering lines ⟨hopen.discard, hopen.owed, hopen.ended, hopen.err, hopen.refused,
      ⟨hbody.body, hbody.len, hbody.count, hbody.room⟩, hopen.said⟩
  | owed lines hd ho he herr hr hbody hfits hsaid =>
    exact .owed lines hd ho he herr hr hbody hfits hsaid
  | owedErr lines hd ho hl he herr hshort hr hbody hfits hsaid =>
    exact .owedErr lines hd ho hl he herr hshort hr hbody hfits hsaid
  | dropped hd ho hr hsaid => exact .dropped hd ho hr hsaid

theorem Going.tried_known (h : Going r a chunks) (howed : r.postOwed = false) :
    ∀ body ∈ a.tried, body ∈ a.acked ∨ a.refused = some body := by
  intro body hbody
  rcases h.tried body hbody with hin | href | ⟨htrue, -⟩
  · exact .inl hin
  · exact .inr href
  · rw [howed] at htrue
    cases htrue

theorem Going.start (h : Going r a chunks) : chunks.flatten <+: a.lines := by
  cases h.stage with
  | gathering lines hopen => exact ⟨lines, hopen.said.symm⟩
  | owed lines _ _ _ _ _ _ _ hsaid => exact ⟨lines, hsaid.symm⟩
  | owedErr lines _ _ _ _ _ _ _ _ _ hsaid =>
    exact ⟨lines ++ [r.endErr], by rw [hsaid, List.append_assoc]⟩
  | dropped _ _ _ hsaid => exact hsaid

theorem Going.begun (h : Going r a chunks) : a.Begun := ⟨chunks, h.acked, h.start⟩

/-- An answer the server refused is over once its end is read. -/
theorem Going.settled_dropped (h : Going r a chunks) (howed : r.postOwed = false)
    (href : a.refused ≠ none) (hlines : a.lines <+: lines) :
    Answer.Settled { a with lines := lines } := by
  refine ⟨fun hnone => absurd hnone href, fun _ => ?_, h.sizes, h.tried_known howed⟩
  obtain ⟨chunks, hacked, hpre⟩ := h.begun
  exact ⟨chunks, hacked, hpre.trans hlines⟩

-- ---------------------------------------------------------------------------
-- What each step keeps
-- ---------------------------------------------------------------------------

theorem take_going (r : Req) (kind : Kind) (rid : Bytes) :
    Going (take r kind rid) (.new rid) [] := by
  refine ⟨rfl, rfl, fun body hbody => absurd hbody (by simp [Answer.new]),
    fun body hbody => absurd hbody (by simp [Answer.new]), ?_⟩
  exact .gathering [] ⟨rfl, rfl, rfl, rfl, rfl, bodyBegin_gathering (by simp), rfl⟩

/-- Closing the piece being gathered. -/
theorem Going.close (h : Going r a chunks) (hopen : Open r a chunks lines) (last : Bool) :
    Going (bodyClose r last) a chunks := by
  obtain ⟨hclose, hfits⟩ := bodyClose_gathering hopen.body last
  have hout : (bodyClose r last).out = renderPiece r.piece lines last := by
    rw [hclose, Req.out]
    exact List.take_length
  refine ⟨h.acked, by rw [hclose]; exact h.piece, h.sizes, fun body hin => ?_, ?_⟩
  · rcases h.tried_known hopen.owed body hin with hin | href
    · exact .inl hin
    · exact .inr (.inl href)
  · refine .owed lines ?_ ?_ ?_ ?_ hopen.refused ?_ (hout ▸ hfits) hopen.said
    · rw [hclose]
      exact hopen.discard
    · rw [hclose]
    · rw [hclose, hopen.ended]
      rfl
    · rw [hclose]
      exact hopen.err
    · rw [hout, hclose]

theorem Going.room (h : Going r a chunks) (slow : Bool) : Going (reqRoom r slow).1 a chunks := by
  unfold reqRoom
  split
  · exact h
  · rename_i hrun
    split
    · exact h
    · rename_i howed
      split
      · cases h.stage with
        | gathering lines hopen => exact h.close hopen false
        | owed lines _ ho => exact absurd ho howed
        | owedErr lines _ ho => exact absurd ho howed
        | dropped hd => simp [hd] at hrun
      · exact h

/-- Adding a line to the piece being gathered. -/
theorem Going.add (h : Going r a chunks) (hopen : Open r a chunks lines)
    (hadd : bodyAdd r line = some r') :
    Going r' (a.say line) chunks ∧ Open r' (a.say line) chunks (lines ++ [line]) ∧
      r'.active = r.active := by
  obtain ⟨heq, hnext⟩ := bodyAdd_gathering hopen.body hadd
  have hsaid : (a.say line).lines = chunks.flatten ++ (lines ++ [line]) := by
    rw [Answer.say, hopen.said, List.append_assoc]
  have hopen' : Open r' (a.say line) chunks (lines ++ [line]) := by
    subst heq
    exact ⟨hopen.discard, hopen.owed, hopen.ended, hopen.err, hopen.refused, hnext, hsaid⟩
  subst heq
  refine ⟨⟨h.acked, h.piece, h.sizes, fun body hin => ?_, .gathering _ hopen'⟩, hopen', rfl⟩
  rcases h.tried_known hopen.owed body hin with hin | href
  · exact .inl hin
  · exact .inr (.inl href)

theorem bodyAdd_flags (r : Req) (line : Bytes) (ended : Bool) (err : Bytes) :
    bodyAdd { r with ended := ended, endErr := err } line =
      (bodyAdd r line).map fun r' => { r' with ended := ended, endErr := err } := by
  unfold bodyAdd
  split <;> rfl

theorem bodyAdd_ended (r : Req) (line : Bytes) :
    bodyAdd { r with ended := true } line =
      (bodyAdd r line).map fun r' => { r' with ended := true } := by
  unfold bodyAdd
  split <;> rfl

theorem bodyClose_ended (r : Req) : bodyClose { r with ended := true } true = bodyClose r true := by
  simp [bodyClose]

/-- An ERR behind the piece owed. -/
theorem Going.endBehind (h : Going r a chunks) (lines : List Bytes) (hd : r.discard = false)
    (ho : r.postOwed = true) (hl : r.postLast = false) (hne : line ≠ [])
    (hshort : line.length ≤ errMax) (href : a.refused = none)
    (hbody : r.out = renderPiece r.piece lines false) (hfits : r.out.length ≤ bodyBytes)
    (hsaid : a.lines = chunks.flatten ++ lines) :
    Going { r with ended := true, endErr := line } (a.say line) chunks := by
  refine ⟨h.acked, h.piece, h.sizes, h.tried, ?_⟩
  refine .owedErr lines hd ho hl rfl hne hshort href hbody hfits ?_
  rw [Answer.say, hsaid]

/-- The board's ERR: it goes into the piece, or behind it. -/
theorem Going.endErr {w : World} (h : Going w.req w.cur chunks) (ha : w.req.active = true)
    (code text : Bytes) : Sound (endErr w.req code text) (w.errSaid code text) := by
  unfold AmigaReq.endErr World.errSaid
  by_cases he : w.req.ended = true
  · rw [if_pos (by simp [he]), if_pos (by simp [he])]
    exact sound_active ha h
  · rw [if_neg (by simp [ha, he])]
    by_cases hd : w.req.discard = true
    · rw [if_pos hd, if_pos (by simp [hd])]
      cases h.stage with
      | gathering lines hopen => exact absurd (hopen.discard.symm.trans hd) (by decide)
      | owed lines hd' => exact absurd (hd'.symm.trans hd) (by decide)
      | owedErr lines hd' => exact absurd (hd'.symm.trans hd) (by decide)
      | dropped _ ho href =>
        exact sound_finish _ (h.settled_dropped ho href (List.prefix_refl _))
    · rw [if_neg hd, if_neg (by simp [hd, he])]
      cases hline : errLine (errMax + 1) w.req.rid code text with
      | none => exact sound_active ha h
      | some line =>
        obtain ⟨hne, hlen⟩ := errLine_some hline
        have hshort : line.length ≤ errMax := Nat.le_of_lt_succ hlen
        simp only [List.take_of_length_le hshort]
        cases h.stage with
        | gathering lines hopen =>
          rw [if_neg (by simp [hopen.owed]), bodyAdd_ended]
          cases hadd : bodyAdd w.req line with
          | none =>
            have hclose := h.close hopen false
            cases hclose.stage with
            | gathering _ hopen' => exact absurd hopen'.owed Bool.noConfusion
            | owed lines' hd' ho' _ _ href hbody hfits hsaid =>
              exact sound_active ha
                (hclose.endBehind lines' hd' ho' rfl hne hshort href hbody hfits hsaid)
            | owedErr _ _ _ _ _ herr => exact absurd hopen.err herr
            | dropped _ ho' => exact absurd ho' Bool.noConfusion
          | some r' =>
            obtain ⟨hgoing, hopen', hactive⟩ := h.add hopen hadd
            rw [Option.map_some]
            simp only [bodyClose_ended]
            exact sound_active (hactive.trans ha) (hgoing.close hopen' true)
        | owed lines hd' ho he' herr href hbody hfits hsaid =>
          have hl : w.req.postLast = false := he'.symm.trans (by simpa using he)
          rw [if_pos ho]
          rw [hl] at hbody
          exact sound_active ha (h.endBehind lines hd' ho hl hne hshort href hbody hfits hsaid)
        | owedErr lines _ _ _ he' => exact absurd he' he
        | dropped hd' => exact absurd hd' hd

theorem reqRoom_true {r : Req} (h : reqRoom r slow = (r, true)) (ha : r.active = true)
    (hs : r.sent = true) (he : r.ended = false) (hd : r.discard = false) :
    r.postOwed = false ∧ bodyFull r = false := by
  unfold reqRoom at h
  rw [if_neg (by simp [ha, hs, he, hd])] at h
  split at h
  · cases congrArg Prod.snd h
  · rename_i howed
    split at h
    · cases congrArg Prod.snd h
    · rename_i hfull
      simp only [Bool.or_eq_true, not_or, Bool.not_eq_true] at hfull
      exact ⟨by simpa using howed, hfull.1⟩

/-- A line of the answer goes into the piece, which its last line closes. -/
theorem Going.readLine {r : Req} (h : Going r a chunks) (hans : answers r line = true)
    (hroom : reqRoom r slow = (r, true)) (hlen : line.length ≤ lineMax) :
    Sound (reqLine r line) (a.say line) := by
  unfold answers at hans
  unfold reqLine
  cases hv : lineVerb line with
  | none => simp [hv] at hans
  | some v =>
    obtain ⟨verb, rid⟩ := v
    simp only [hv] at hans ⊢
    rw [if_pos hans]
    simp only [Bool.and_eq_true, Bool.not_eq_true'] at hans
    obtain ⟨⟨⟨ha, hs⟩, he⟩, -⟩ := hans
    by_cases hd : r.discard = true
    · rw [if_pos hd]
      cases h.stage with
      | gathering _ hopen => exact absurd (hopen.discard.symm.trans hd) (by decide)
      | owed _ hd' => exact absurd (hd'.symm.trans hd) (by decide)
      | owedErr _ hd' => exact absurd (hd'.symm.trans hd) (by decide)
      | dropped _ ho href hsaid =>
        have hmore : a.lines <+: a.lines ++ [line] := List.prefix_append _ _
        split
        · exact sound_finish r (h.settled_dropped ho href hmore)
        · refine sound_active ha ⟨h.acked, h.piece, h.sizes, h.tried, ?_⟩
          exact .dropped hd ho href (hsaid.trans hmore)
    · rw [if_neg hd]
      obtain ⟨howed, hfull⟩ := reqRoom_true hroom ha hs he (by simpa using hd)
      generalize hr₁ : ite (verb == .got && r.kind == .get) _ r = r₁
      have hsame : r₁ = { r with got := r₁.got, gotSeq := r₁.gotSeq, sent := r.sent } := by
        subst hr₁
        split
        · split <;> rfl
        · rfl
      have h₁ : Going r₁ a chunks := by
        rw [hsame]
        exact h.with _ _ _
      have howed₁ : r₁.postOwed = false := by rw [hsame]; exact howed
      have hfull₁ : bodyFull r₁ = false := by rw [hsame]; exact hfull
      have hd₁ : r₁.discard = r.discard := by rw [hsame]
      have ha₁ : r₁.active = true := by rw [hsame]; exact ha
      obtain ⟨r₂, hadd⟩ := bodyAdd_room hfull₁ hlen
      simp only [hadd, Option.getD_some]
      cases h₁.stage with
      | gathering lines hopen =>
        obtain ⟨hgoing, hopen', hactive⟩ := h₁.add hopen hadd
        split
        · exact sound_active (hactive.trans ha₁) (hgoing.close hopen' true)
        · exact sound_active (hactive.trans ha₁) hgoing
      | owed _ _ ho => exact absurd (ho.symm.trans howed₁) (by decide)
      | owedErr _ _ ho => exact absurd (ho.symm.trans howed₁) (by decide)
      | dropped hd' => exact absurd (hd₁.symm.trans hd') hd

theorem pieces_concat (chunks : List (List Bytes)) (lines : List Bytes) :
    pieces (chunks ++ [lines]) = pieces chunks ++ [renderPiece (chunks.length % 2 ^ 32) lines false] := by
  simp [pieces, List.mapIdx_append]

theorem Going.heard_sizes (h : Going r a chunks) (hfits : r.out.length ≤ bodyBytes) (st : Int) :
    ∀ body ∈ (a.heard r.out st).tried, body.length ≤ bodyBytes := by
  intro body hin
  cases List.mem_append.mp hin with
  | inl hin => exact h.sizes body hin
  | inr hin => exact List.mem_singleton.mp hin ▸ hfits

/-- Every POST so far was of an acknowledged piece or of the one owed. -/
theorem Going.heard_tried (h : Going r a chunks) (hnone : a.refused = none) (st : Int) :
    ∀ body ∈ (a.heard r.out st).tried, body ∈ a.acked ∨ body = r.out := by
  intro body hin
  cases List.mem_append.mp hin with
  | inl hin =>
    rcases h.tried body hin with hin | hrefused | ⟨-, rfl⟩
    · exact .inl hin
    · exact absurd (hrefused.symm.trans hnone) (by simp)
    · exact .inr rfl
  | inr hin => exact .inr (List.mem_singleton.mp hin)

theorem heard_accepted (a : Answer) (body : Bytes) (hacc : accepted st = true) :
    (a.heard body st).acked = a.acked ++ [body] ∧ (a.heard body st).refused = a.refused := by
  simp [Answer.heard, hacc]

/-- The piece owed is acknowledged, and the next one begins. -/
theorem Going.next (h : Going r a chunks) (hd : r.discard = false) (hnone : a.refused = none)
    (hbody : r.out = renderPiece r.piece lines false) (hfits : r.out.length ≤ bodyBytes)
    (hacc : accepted st = true) (hsaid : said = chunks.flatten ++ lines) :
    let r' := bodyBegin { r with
      postOwed := false, piece := (r.piece + 1) % 2 ^ 32, ended := false, endErr := [] }
    let a' := { a.heard r.out st with lines := said }
    Going r' a' (chunks ++ [lines]) ∧ Open r' a' (chunks ++ [lines]) [] := by
  intro r' a'
  obtain ⟨hacked, href⟩ := heard_accepted a r.out hacc
  have hpiece : r'.piece = (r.piece + 1) % 2 ^ 32 := rfl
  have hopen : Open r' a' (chunks ++ [lines]) [] := by
    refine ⟨hd, rfl, rfl, rfl, href.trans hnone, bodyBegin_gathering (Nat.mod_lt _ (by decide)), ?_⟩
    simp only [a', hsaid, List.flatten_append, List.flatten_singleton, List.append_nil]
  refine ⟨⟨?_, ?_, h.heard_sizes hfits st, ?_, .gathering [] hopen⟩, hopen⟩
  · calc a'.acked
        = a.acked ++ [r.out] := hacked
      _ = pieces (chunks ++ [lines]) := by rw [h.acked, hbody, h.piece, pieces_concat]
  · rw [hpiece, h.piece, List.length_append, List.length_singleton]
    omega
  · intro body hin
    have hmem : a'.acked = a.acked ++ [r.out] := hacked
    rw [hmem, List.mem_append, List.mem_singleton]
    exact .inl (h.heard_tried hnone st body hin)

/-- The last piece is acknowledged. -/
theorem Going.last (h : Going r a chunks) (hnone : a.refused = none)
    (hbody : r.out = renderPiece r.piece lines true) (hfits : r.out.length ≤ bodyBytes)
    (hacc : accepted st = true) (hsaid : a.lines = chunks.flatten ++ lines) :
    (a.heard r.out st).Settled := by
  obtain ⟨hacked, href⟩ := heard_accepted a r.out hacc
  refine ⟨fun _ => ⟨chunks, lines, ?_, hsaid⟩, fun hne => absurd (href.trans hnone) hne,
    h.heard_sizes hfits st, ?_⟩
  · rw [hacked, h.acked, hbody, h.piece]
  · intro body hin
    rw [hacked, List.mem_append, List.mem_singleton]
    exact .inl (h.heard_tried hnone st body hin)

/-- The piece owed is refused for good: what came before it stays. -/
theorem Going.refuse (h : Going r a chunks) (hnone : a.refused = none) (hno : accepted st = false)
    (href : refused st = true) (hfits : r.out.length ≤ bodyBytes) :
    (a.heard r.out st).refused = some r.out ∧ (a.heard r.out st).acked = a.acked ∧
      (a.heard r.out st).Settled := by
  have hrefused : (a.heard r.out st).refused = some r.out := by simp [Answer.heard, hno, href]
  have hacked : (a.heard r.out st).acked = a.acked := by simp [Answer.heard, hno]
  refine ⟨hrefused, hacked, fun hnone' => ?_, fun _ => ⟨chunks, hacked.trans h.acked, h.start⟩,
    h.heard_sizes hfits st, fun body hin => ?_⟩
  · rw [hrefused] at hnone'
    cases hnone'
  · rw [hacked, hrefused, Option.some.injEq]
    rcases h.heard_tried hnone st body hin with hin | rfl
    · exact .inl hin
    · exact .inr rfl

theorem bodyPosted_last {r : Req} (h : r.postLast = true) :
    bodyPosted r = finish { r with postOwed := false } := by
  unfold bodyPosted
  rw [if_pos h]

theorem bodyPosted_next {r : Req} (h : r.postLast = false) (hended : r.ended = false)
    (herr : r.endErr = []) : bodyPosted r = bodyBegin { r with
      postOwed := false, piece := (r.piece + 1) % 2 ^ 32, ended := false, endErr := [] } := by
  unfold bodyPosted
  rw [if_neg (by simp [h])]
  simp only [bodyBegin, hended, herr, ↓reduceIte]

/-- The ERR behind the piece goes into one of its own. -/
theorem bodyPosted_err {r : Req} (h : r.postLast = false) (hended : r.ended = true)
    (herr : r.endErr ≠ []) (hshort : r.endErr.length ≤ errMax) : ∃ r',
      bodyAdd (bodyBegin { r with
        postOwed := false, piece := (r.piece + 1) % 2 ^ 32, ended := false, endErr := [] })
        r.endErr = some r' ∧
      bodyPosted r = bodyClose r' true := by
  let r₀ := bodyBegin { r with
    postOwed := false, piece := (r.piece + 1) % 2 ^ 32, ended := false, endErr := [] }
  have hpiece : (r.piece + 1) % 2 ^ 32 < 2 ^ 32 := Nat.mod_lt _ (by decide)
  have hfull : bodyFull r₀ = false := bodyBegin_room hpiece
  obtain ⟨r', hadd⟩ := bodyAdd_room hfull (Nat.le_trans hshort (by decide))
  refine ⟨r', hadd, ?_⟩
  have hbegun : bodyBegin { r with postOwed := false, piece := (r.piece + 1) % 2 ^ 32 } =
      { r₀ with ended := true, endErr := r.endErr } := by
    simp only [r₀, bodyBegin, hended]
  have hr' : r'.endErr = [] := by
    obtain ⟨heq, -⟩ := bodyAdd_gathering (bodyBegin_gathering hpiece) hadd
    rw [heq]
    rfl
  unfold bodyPosted
  rw [if_neg (by simp [h])]
  simp only [hbegun, if_neg herr, bodyAdd_flags, hadd, Option.map_some, Option.getD_some]
  simp [bodyClose, hr']

theorem gotForget_eq (r : Req) : gotForget r = { r with got := (gotForget r).got } := by
  unfold gotForget
  split <;> rfl

/-- One POST: the answer goes on, is over, or is refused. -/
theorem Going.posted {r : Req} (h : Going r a chunks) (ha : r.active = true)
    (howed : r.postOwed = true) (st : Int) : Sound (posted r st) (a.heard r.out st) := by
  have hknown : r.discard = false ∧ a.refused = none ∧ r.out.length ≤ bodyBytes := by
    cases h.stage with
    | gathering _ hopen => exact absurd (hopen.owed.symm.trans howed) (by decide)
    | owed _ hd _ _ _ hnone _ hfits => exact ⟨hd, hnone, hfits⟩
    | owedErr _ hd _ _ _ _ _ hnone _ hfits => exact ⟨hd, hnone, hfits⟩
    | dropped _ ho => exact absurd (ho.symm.trans howed) (by decide)
  obtain ⟨hd, hnone, hfits⟩ := hknown
  unfold AmigaReq.posted
  by_cases hacc : accepted st = true
  · rw [if_pos hacc]
    cases h.stage with
    | gathering _ hopen => exact absurd (hopen.owed.symm.trans howed) (by decide)
    | dropped _ ho => exact absurd (ho.symm.trans howed) (by decide)
    | owed lines _ _ hended herr _ hbody _ hsaid =>
      cases hlast : r.postLast with
      | true =>
        rw [hlast] at hbody
        rw [bodyPosted_last hlast]
        exact sound_finish _ (h.last hnone hbody hfits hacc hsaid)
      | false =>
        rw [hlast] at hbody hended
        rw [bodyPosted_next hlast hended herr]
        exact sound_active ha (h.next hd hnone hbody hfits hacc hsaid).1
    | owedErr lines _ _ hlast hended herr hshort _ hbody _ hsaid =>
      obtain ⟨r', hadd, heq⟩ := bodyPosted_err hlast hended herr hshort
      obtain ⟨hgoing, hopen⟩ := h.next hd hnone hbody hfits hacc rfl
      obtain ⟨hgoing', hopen', hactive⟩ := hgoing.add hopen hadd
      rw [heq]
      have hsame : Answer.say { a.heard r.out st with lines := chunks.flatten ++ lines } r.endErr =
          a.heard r.out st := by
        simp only [Answer.say, Answer.heard, hsaid]
      rw [hsame] at hgoing' hopen'
      exact sound_active (hactive.trans ha) (hgoing'.close hopen' true)
  · have hno : accepted st = false := by simpa using hacc
    rw [if_neg hacc]
    by_cases href : refused st = true
    · rw [if_pos href]
      obtain ⟨hrefused, hacked, hsettled⟩ := h.refuse hnone hno href hfits
      have hsame := gotForget_eq r
      split
      · exact sound_finish _ hsettled
      · refine sound_active (by rw [hsame]; exact ha) ⟨hacked.trans h.acked, ?_, hsettled.sizes, ?_, ?_⟩
        · rw [hsame]
          exact h.piece
        · intro body hin
          rcases hsettled.tried body hin with hin | href
          · exact .inl hin
          · exact .inr (.inl href)
        · exact .dropped rfl rfl (by simp [hrefused]) h.start
    · rw [if_neg href]
      have hsame : (a.heard r.out st).acked = a.acked ∧ (a.heard r.out st).refused = a.refused := by
        simp [Answer.heard, hno, href]
      refine sound_active ha ⟨hsame.1.trans h.acked, h.piece, h.heard_sizes hfits st, ?_, ?_⟩
      · intro body hin
        rw [hsame.1]
        rcases h.heard_tried hnone st body hin with hin | rfl
        · exact .inl hin
        · exact .inr (.inr ⟨howed, rfl⟩)
      · cases h.stage with
        | gathering _ hopen => exact absurd (hopen.owed.symm.trans howed) (by decide)
        | dropped _ ho => exact absurd (ho.symm.trans howed) (by decide)
        | owed lines _ _ he herr _ hbody _ hsaid =>
          exact .owed lines hd howed he herr (hsame.2.trans hnone) hbody hfits hsaid
        | owedErr lines _ _ hl he herr hshort _ hbody _ hsaid =>
          exact .owedErr lines hd howed hl he herr hshort (hsame.2.trans hnone) hbody hfits hsaid

end WebAdf.AmigaReq
