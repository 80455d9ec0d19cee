import WebAdf.AmigaReq.Progress
import WebAdf.Lib.Run

/-!
# An answer reaches the server once and in order

The pieces the server acknowledged are numbered from 0 and hold the answer's
lines in order, each line whole and in one piece. An answer none of whose
pieces was refused for good is there completely, with the flag on its last
piece alone; of one that was, what came before the refusal is.
-/

namespace WebAdf.AmigaReq

open Lib

-- ---------------------------------------------------------------------------
-- The GOT table and the late ERRs
-- ---------------------------------------------------------------------------

def GotOk (got : List Got) : Prop := ∀ g ∈ got, g.err.length ≤ errMax

theorem GotOk.modify (h : GotOk got) (i : Nat) (hf : ∀ g, g.err.length ≤ errMax → (f g).err.length ≤ errMax) :
    GotOk (got.modify i f) := by
  intro g hg
  obtain ⟨j, hj, rfl⟩ := List.getElem_of_mem hg
  rw [List.getElem_modify]
  split
  · exact hf _ (h _ (List.getElem_mem _))
  · exact h _ (List.getElem_mem _)

theorem Got.fail_ok (g : Got) (code text : Bytes) (h : g.err.length ≤ errMax) :
    (g.fail code text).err.length ≤ errMax := by
  unfold Got.fail
  split
  · exact h
  · split
    · exact h
    · rename_i hline
      exact Nat.le_of_lt_succ (errLine_some hline).2

theorem Got.late_ok (g : Got) (line : Bytes) (h : g.err.length ≤ errMax) :
    (g.late line).err.length ≤ errMax := by
  unfold Got.late
  split
  · exact h
  · exact List.length_take_le _ _

theorem gotAdd_ok {r : Req} (h : GotOk r.got) (rid tag : Bytes) : GotOk (gotAdd r rid tag).got := by
  intro g hg
  cases List.mem_or_eq_of_mem_set hg with
  | inl hg => exact h g hg
  | inr hg => exact hg ▸ Nat.zero_le _

theorem bodyAdd_got {r : Req} (h : bodyAdd r line = some r') : r'.got = r.got := by
  unfold bodyAdd at h
  split at h
  · cases h
  · cases h
    rfl

theorem bodyAdd_getD_got (r : Req) (line : Bytes) : ((bodyAdd r line).getD r).got = r.got := by
  cases h : bodyAdd r line with
  | none => rfl
  | some r' => exact bodyAdd_got h

theorem endErr_got (r : Req) (code text : Bytes) : (endErr r code text).got = r.got := by
  unfold endErr
  split
  · rfl
  · split
    · rfl
    · split
      · rfl
      · simp only
        split
        · rfl
        · split
          · rfl
          · rename_i hadd
            exact (bodyAdd_got hadd :)

theorem reqRoom_got (r : Req) (slow : Bool) : (reqRoom r slow).1.got = r.got := by
  unfold reqRoom
  split
  · rfl
  · split
    · rfl
    · split <;> rfl

theorem bodyPosted_got (r : Req) : (bodyPosted r).got = r.got := by
  unfold bodyPosted
  simp only
  split
  · rfl
  · split
    · rfl
    · exact (bodyAdd_getD_got _ _ :)

theorem gotRemove_ok {r : Req} (h : GotOk r.got) (i : Nat) : GotOk (gotRemove r i).got :=
  h.modify i fun _ _ => Nat.zero_le _

theorem posted_ok {r : Req} (h : GotOk r.got) (st : Int) : GotOk (posted r st).got := by
  have hforget : GotOk (gotForget r).got := by
    unfold gotForget
    split
    · exact gotRemove_ok h _
    · exact h
  unfold posted
  split
  · rw [bodyPosted_got]
    exact h
  · split
    · split
      · exact hforget
      · exact hforget
    · exact h

theorem reqLine_ok {r : Req} (h : GotOk r.got) (line : Bytes) : GotOk (reqLine r line).got := by
  unfold reqLine
  cases lineVerb line with
  | none => exact h
  | some v =>
    simp only
    split
    · split
      · split
        · exact h
        · exact h
      · have hgot : ∀ r₁ : Req, GotOk r₁.got → ∀ last : Bool, GotOk
            (if last then bodyClose ((bodyAdd r₁ line).getD r₁) true else (bodyAdd r₁ line).getD r₁).got := by
          intro r₁ h₁ last
          have hsame := bodyAdd_getD_got r₁ line
          cases last with
          | true => exact hsame ▸ h₁
          | false => exact hsame ▸ h₁
        refine hgot _ ?_ _
        split
        · split
          · exact gotAdd_ok h _ _
          · exact h
        · exact h
    · split
      · split
        · exact h.modify _ fun g hg => g.late_ok line hg
        · exact h
      · exact h

theorem reqOnDrop_ok {r : Req} (h : GotOk r.got) : GotOk (reqOnDrop r).got := by
  intro g hg
  obtain ⟨g', hg', rfl⟩ := List.mem_map.mp hg
  have hok : g'.err.length ≤ errMax := by
    refine h g' ?_
    split at hg'
    · rwa [endErr_got] at hg'
    · exact hg'
  split
  · exact g'.fail_ok _ _ hok
  · exact hok

/-- A late ERR is posted whole, as piece 1 and the last. -/
theorem lateBody_eq {g : Got} (h : g.err.length ≤ errMax) : lateBody g = renderPiece 1 [g.err] true := by
  have hopen : ascii "\x7b\"piece\":1,\"lines\":[\"" =
      ascii "\x7b\"piece\":" ++ decimal 1 ++ ascii ",\"lines\":[" ++ ascii "\"" := by decide
  have hclose : ascii "\"],\"last\":true\x7d" = ascii "\"" ++ closing true := by decide
  have hlen : (ascii "\x7b\"piece\":1,\"lines\":[\"").length = 21 := by decide
  have hclen : (ascii "\"],\"last\":true\x7d").length = 15 := by decide
  have hesc := escLen_le g.err
  simp only [errMax] at h
  have hfits : jsonEscape (lateBytes - 21 - 20) 0 g.err = g.err.flatMap escByte :=
    jsonEscape_fits (by simp only [lateBytes]; omega)
  unfold lateBody
  simp only [hlen, hfits]
  rw [snprintf_fits]
  · simp only [hopen, hclose, renderPiece, opening, joined, quote, List.map_singleton,
      List.intercalate_singleton, List.append_assoc]
  · rw [hclen, List.length_append, hlen, ← escLen_eq]
    simp only [lateBytes]
    omega

theorem length_late {g : Got} (h : g.err.length ≤ errMax) :
    (renderPiece 1 [g.err] true).length ≤ bodyBytes := by
  have hopen : (opening 1 []).length ≤ 29 := length_opening_nil (by decide)
  have hclose := length_closing true
  have hesc := escLen_le g.err
  have hquote : (ascii "\"").length = 1 := by decide
  rw [escLen_eq] at hesc
  simp only [renderPiece, opening, joined, quote, List.map_singleton, List.intercalate_singleton,
    List.map_nil, List.intercalate_nil, List.length_append, List.length_nil, hquote, closeReserve,
    errMax, bodyBytes] at h hopen hclose ⊢
  omega

-- ---------------------------------------------------------------------------
-- Every run
-- ---------------------------------------------------------------------------

structure Inv (w : World) : Prop where
  cur : w.req.active = true → ∃ chunks, Going w.req w.cur chunks
  idle : w.req.active = false → w.req.postOwed = false
  past : ∀ a ∈ w.past, a.Settled
  got : GotOk w.req.got
  late : ∀ l ∈ w.late, l.body = renderPiece 1 [l.err] true ∧ l.body.length ≤ bodyBytes

theorem boot_inv : Inv .boot where
  cur := fun h => Bool.noConfusion h
  idle := fun _ => rfl
  past := fun _ h => absurd h (by simp [World.boot])
  got := fun g hg => by
    rw [List.eq_of_mem_replicate hg]
    exact Nat.zero_le _
  late := fun _ h => absurd h (by simp [World.boot])

/-- A step of the answer in progress. -/
theorem Inv.go {w : World} (h : Inv w) {r : Req} (hsound : Sound r a) (hok : GotOk r.got) :
    Inv (w.go r a) := by
  unfold World.go
  unfold Sound at hsound
  split
  · rename_i ha
    rw [if_pos ha] at hsound
    exact ⟨fun _ => hsound, fun hidle => absurd (ha.symm.trans hidle) (by decide), h.past, hok, h.late⟩
  · rename_i ha
    rw [if_neg ha] at hsound
    obtain ⟨howed, hsettled⟩ := hsound
    refine ⟨fun hactive => absurd hactive ha, fun _ => howed, fun a' ha' => ?_, hok, h.late⟩
    rcases List.mem_cons.mp ha' with rfl | ha'
    · exact hsettled
    · exact h.past a' ha'

/-- A step that leaves the answer alone. -/
theorem Inv.same {w : World} (h : Inv w) {r : Req} (hactive : r.active = w.req.active)
    (howed : r.active = false → r.postOwed = w.req.postOwed)
    (hgoing : ∀ chunks, Going w.req w.cur chunks → Going r w.cur chunks) (hok : GotOk r.got) :
    Inv { w with req := r } := by
  refine ⟨fun ha => ?_, fun ha => ?_, h.past, hok, h.late⟩
  · obtain ⟨chunks, hg⟩ := h.cur (hactive.symm.trans ha)
    exact ⟨chunks, hgoing chunks hg⟩
  · exact (howed ha).trans (h.idle (hactive.symm.trans ha))

theorem Inv.table {w : World} (h : Inv w) (hok : GotOk entries) :
    Inv { w with req := { w.req with got := entries } } :=
  h.same rfl (fun _ => rfl) (fun _ hg => hg.with _ _ _) hok

theorem Sound.with {r : Req} (h : Sound r a) (entries : List Got) :
    Sound { r with got := entries } a := by
  unfold Sound at h ⊢
  split at h
  · rename_i ha
    obtain ⟨chunks, hg⟩ := h
    rw [if_pos ha]
    exact ⟨chunks, hg.with _ _ _⟩
  · rename_i ha
    rw [if_neg ha]
    exact h

theorem Inv.err {w : World} (h : Inv w) (code text : Bytes) : Inv (w.err code text) := by
  unfold World.err
  split
  · rename_i ha
    obtain ⟨chunks, hg⟩ := h.cur ha
    refine h.go (hg.endErr ha code text) ?_
    rw [endErr_got]
    exact h.got
  · exact h

theorem Inv.drop {w : World} (h : Inv w) : Inv w.drop := by
  have hok := reqOnDrop_ok h.got
  unfold World.drop
  by_cases ha : w.req.active = true
  · rw [if_pos ha]
    obtain ⟨chunks, hg⟩ := h.cur ha
    refine h.go ?_ hok
    unfold reqOnDrop
    by_cases hs : w.req.sent = true
    · rw [if_pos (by rw [ha, hs]; rfl), if_pos hs]
      exact (hg.endErr ha _ _).with _
    · rw [if_neg (by rw [ha, Bool.true_and]; exact hs), if_neg hs]
      exact (sound_active ha hg).with _
  · rw [if_neg ha]
    unfold reqOnDrop at hok ⊢
    rw [if_neg (by simp [ha])] at hok ⊢
    exact h.table hok

theorem recvLine_short (raw : Bytes) : (recvLine raw).length ≤ lineMax :=
  Nat.le_trans (List.takeWhile_prefix _).length_le (List.length_take_le _ _)

theorem answers_active {r : Req} (h : answers r line = true) : r.active = true := by
  unfold answers at h
  split at h
  · simp only [Bool.and_eq_true] at h
    exact h.1.1.1
  · cases h

theorem reqLine_other {r : Req} (h : answers r line = false) :
    ∃ entries, reqLine r line = { r with got := entries } := by
  unfold answers at h
  unfold reqLine
  cases hv : lineVerb line with
  | none => exact ⟨r.got, rfl⟩
  | some v =>
    obtain ⟨verb, rid⟩ := v
    simp only [hv] at h ⊢
    rw [if_neg (by simp [h])]
    split
    · split
      · exact ⟨_, rfl⟩
      · exact ⟨r.got, rfl⟩
    · exact ⟨r.got, rfl⟩

theorem Inv.read {w : World} (h : Inv w) (hroom : reqRoom w.req slow = (w.req, true))
    (raw : Bytes) : Inv (w.line (recvLine raw)) := by
  have hok := reqLine_ok h.got (recvLine raw)
  unfold World.line
  split
  · rename_i hans
    obtain ⟨chunks, hg⟩ := h.cur (answers_active hans)
    exact h.go (hg.readLine hans hroom (recvLine_short raw)) hok
  · rename_i hans
    obtain ⟨entries, heq⟩ := reqLine_other (by simpa using hans)
    rw [heq] at hok ⊢
    exact h.table hok

theorem Inv.posted {w : World} (h : Inv w) (howed : w.req.postOwed = true) (st : Int) :
    Inv (w.posted st) := by
  have ha : w.req.active = true := by
    cases ha : w.req.active with
    | true => rfl
    | false => exact absurd (howed.symm.trans (h.idle ha)) (by decide)
  obtain ⟨chunks, hg⟩ := h.cur ha
  exact h.go (hg.posted ha howed st) (posted_ok h.got st)

theorem Inv.postedLate {w : World} (h : Inv w) (i : Nat) (st : Int) : Inv (w.postedLate i st) := by
  have hshort : (w.req.got.getD i .empty).err.length ≤ errMax := by
    rw [List.getD_eq_getElem?_getD]
    cases hi : w.req.got[i]? with
    | none => exact Nat.zero_le _
    | some g => exact h.got g (List.mem_of_getElem? hi)
  have hbase : Inv { w with
      req := if accepted st || refused st then gotRemove w.req i else w.req } := by
    split
    · exact h.table (gotRemove_ok h.got i)
    · exact h
  refine ⟨hbase.cur, hbase.idle, hbase.past, hbase.got, fun l hl => ?_⟩
  rcases List.mem_cons.mp hl with rfl | hl
  · exact ⟨lateBody_eq hshort, by rw [lateBody_eq hshort]; exact length_late hshort⟩
  · exact h.late l hl

/-- A request is taken: its answer begins. -/
theorem Inv.taken {w : World} (h : Inv w) (kind : Kind) (rid : Bytes) (sent : Bool) :
    Inv { w with req := { take w.req kind rid with sent := sent }, cur := .new rid } :=
  ⟨fun _ => ⟨[], (take_going w.req kind rid).with _ _ _⟩,
    fun hidle => Bool.noConfusion hidle, h.past, h.got, h.late⟩

theorem reqRoom_active (r : Req) (slow : Bool) : (reqRoom r slow).1.active = r.active := by
  unfold reqRoom
  split
  · rfl
  · split
    · rfl
    · split <;> rfl

theorem Inv.room {w : World} (h : Inv w) (slow : Bool) :
    Inv { w with req := (reqRoom w.req slow).1 } := by
  refine h.same (reqRoom_active _ _) (fun hidle => ?_) (fun _ hg => hg.room slow)
    (by rw [reqRoom_got]; exact h.got)
  rw [reqRoom_active] at hidle
  rw [reqRoom, if_pos (by simp [hidle])]

theorem step_inv (w w' : World) (h : Step w w') (hi : Inv w) : Inv w' := by
  cases h with
  | start kind rid => exact hi.taken kind rid true
  | board kind rid => exact (hi.taken kind rid false).err _ _
  | room slow => exact hi.room slow
  | read slow raw hroom => exact hi.read hroom raw
  | drop => exact hi.drop
  | silent => exact (hi.err _ _).drop
  | post st howed => exact hi.posted howed st
  | postLate i st => exact hi.postedLate i st
  | upNo tag text size i => exact hi.table (hi.got.modify i fun g hg => g.fail_ok _ _ hg)
  | upDone tag i => exact hi.table (gotRemove_ok hi.got i)

theorem reaches_inv (h : Reaches .boot w) : Inv w := invariant_run step_inv h boot_inv

/-- In every run: every answer that is over is settled, the one in progress is
begun and no body of its is too long, and a late ERR goes whole, as piece 1. -/
theorem answers_delivered (h : Reaches .boot w) :
    (∀ a ∈ w.past, a.Settled) ∧
      (w.req.active = true → w.cur.Begun ∧ ∀ body ∈ w.cur.tried, body.length ≤ bodyBytes) ∧
      ∀ l ∈ w.late, l.body = renderPiece 1 [l.err] true ∧ l.body.length ≤ bodyBytes := by
  have hi := reaches_inv h
  refine ⟨hi.past, fun ha => ?_, hi.late⟩
  obtain ⟨chunks, hg⟩ := hi.cur ha
  exact ⟨hg.begun, hg.sizes⟩

/-- What the server acknowledged determines the answer. -/
theorem whole_lines (h : Answer.Whole a) (h' : Answer.Whole b) (heq : a.acked = b.acked) :
    a.lines = b.lines := by
  obtain ⟨chunks, final, hacked, hlines⟩ := h
  obtain ⟨chunks', final', hacked', hlines'⟩ := h'
  rw [hacked, hacked'] at heq
  obtain ⟨hpieces, hlast⟩ := List.append_inj' heq rfl
  have hlen : chunks.length = chunks'.length := by
    simpa [pieces] using congrArg List.length hpieces
  have hchunks : chunks = chunks' := by
    apply List.ext_getElem hlen
    intro i hi hi'
    have hone : (pieces chunks)[i]? = (pieces chunks')[i]? := congrArg (·[i]?) hpieces
    simp only [pieces, List.getElem?_mapIdx, List.getElem?_eq_getElem hi,
      List.getElem?_eq_getElem hi', Option.map_some, Option.some.injEq] at hone
    exact (renderPiece_inj hone).2.1
  have hfinal := (renderPiece_inj (List.singleton_inj.mp hlast)).2.1
  rw [hlines, hlines', hchunks, hfinal]

-- ---------------------------------------------------------------------------
-- An answer of one line
-- ---------------------------------------------------------------------------

def started : World :=
  { World.boot with
    req := { take init .vols (ascii "a") with sent := true }
    cur := .new (ascii "a") }

def doneRead : World := started.line (recvLine (ascii "DONE a"))

theorem doneRead_reaches : Reaches .boot doneRead :=
  (Relation.ReflTransGen.single (.start .vols (ascii "a") rfl rfl)).tail (.read false (ascii "DONE a") rfl)

theorem answers_delivered_done : ∃ a ∈ (doneRead.posted 200).past,
    a.Settled ∧ a.lines = [ascii "DONE a"] ∧ a.acked = [renderPiece 0 [ascii "DONE a"] true] := by
  have hreach : Reaches .boot (doneRead.posted 200) := doneRead_reaches.tail (.post 200 rfl)
  have hmem : (doneRead.posted 200).past.head (by decide) ∈ (doneRead.posted 200).past :=
    List.head_mem _
  exact ⟨_, hmem, (answers_delivered hreach).1 _ hmem, by decide, by decide⟩

/-- The one piece of an answer is refused. -/
theorem refused_lost : ¬ ∀ w, Reaches .boot w → ∀ a ∈ w.past, a.Whole := by
  intro hall
  have hreach : Reaches .boot (doneRead.posted 404) := doneRead_reaches.tail (.post 404 rfl)
  have hmem : (doneRead.posted 404).past.head (by decide) ∈ (doneRead.posted 404).past :=
    List.head_mem _
  obtain ⟨chunks, final, hacked, -⟩ := hall _ hreach _ hmem
  have hnone : ((doneRead.posted 404).past.head (by decide)).acked = [] := by decide
  rw [hnone] at hacked
  simp at hacked

end WebAdf.AmigaReq
