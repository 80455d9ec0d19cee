import Mathlib
import WebAdf.Server.Once

/-!
# No request is left behind

The board asks again when the version it is told is another than the one it last
asked at. So a version it asked at must be an old one while a request waits. A
hand-out that finds every request locked, and none to take, answers the board and
leaves the version: the one way to be left behind.
-/

namespace WebAdf.Server

open Relation (ReflTransGen)
open Lib Send

-- ---------------------------------------------------------------------------
-- What is waiting
-- ---------------------------------------------------------------------------

/-- A request a hand-out of the board could take. -/
def Db.takeable (db : Db) (dev : String) (r : Request) : Bool :=
  Db.waitingOf dev r && (Db.refusal (db.device dev) r).isNone

/-- There is something to take, and all of it is locked. -/
def World.Overlooks (w : World) (dev : String) : Prop :=
  (∃ r ∈ w.db.requests, w.db.takeable dev r = true) ∧
    ∀ r ∈ w.db.requests, w.db.takeable dev r = true → w.holds r.id = true

theorem Turn.waiting (ht : Turn dev b back new db db') (hd : (db.device dev).isSome = true)
    (hs : s ∈ db'.requests) (hw : Db.waitingOf dev s = true) :
    (∃ r ∈ db.requests, r.id = s.id ∧ Db.waitingOf dev r = true) ∨ db.reqVersion dev < db'.reqVersion dev := by
  obtain ⟨r, hr, hk⟩ := ht.rows s hs
  simp only [Db.waitingOf, Bool.and_eq_true, beq_iff_eq] at hw
  obtain ⟨⟨hdev, hstatus⟩, hkind⟩ := hw
  rcases List.mem_append.1 hr with hr | hr
  · refine .inl ⟨r, hr, hk.id.symm, ?_⟩
    simp only [Db.waitingOf, Bool.and_eq_true, beq_iff_eq]
    exact ⟨⟨hk.board.symm.trans hdev, hk.waiting hstatus⟩, hk.kind ▸ hkind⟩
  · exact .inr ((ht.version hd).2 r hr (hk.board.symm.trans hdev) (hk.waiting hstatus))

/-- The board's side: nothing it knows is newer than the version, and while a request
waits nothing it asked at is as new. -/
structure Awake (dev : String) (db : Db) (running : List Open) (told acked : Nat) (replies : List Nat) : Prop where
  heard : told ≤ db.reqVersion dev
  last : acked ≤ db.reqVersion dev
  coming : ∀ a ∈ replies, a ≤ db.reqVersion dev
  asked : ∀ board refused picked a, Open.take board refused picked (some a) ∈ running →
    board = dev ∧ a ≤ db.reqVersion dev
  next : ∀ r ∈ db.requests, Db.waitingOf dev r = true →
    acked < db.reqVersion dev ∧ ∀ a ∈ replies, a < db.reqVersion dev
  empty : ∀ board refused a, Open.take board refused [] (some a) ∈ running →
    ∀ r ∈ db.requests, Db.waitingOf dev r = true → refused.lookup r.id = none → a < db.reqVersion dev

/-- Whatever a transaction puts in, it says so. -/
theorem Awake.turn (h : Awake dev db running told acked replies) (ht : Turn dev b back new db db')
    (hd : (db.device dev).isSome = true) : Awake dev db' running told acked replies := by
  have hv := (ht.version hd).1
  refine ⟨h.heard.trans hv, h.last.trans hv, fun a ha => (h.coming a ha).trans hv, ?_, fun s hs hw => ?_, ?_⟩
  · intro board refused picked a ho
    exact ⟨(h.asked _ _ _ _ ho).1, (h.asked _ _ _ _ ho).2.trans hv⟩
  · rcases ht.waiting hd hs hw with ⟨r, hr, -, hrw⟩ | hlt
    · obtain ⟨hacked, hreplies⟩ := h.next r hr hrw
      exact ⟨Nat.lt_of_lt_of_le hacked hv, fun a ha => Nat.lt_of_lt_of_le (hreplies a ha) hv⟩
    · exact ⟨Nat.lt_of_le_of_lt h.last hlt, fun a ha => Nat.lt_of_le_of_lt (h.coming a ha) hlt⟩
  · intro board refused a ho s hs hw hlook
    rcases ht.waiting hd hs hw with ⟨r, hr, hid, hrw⟩ | hlt
    · exact Nat.lt_of_lt_of_le (h.empty _ _ _ ho r hr hrw (hid ▸ hlook)) hv
    · exact Nat.lt_of_le_of_lt (h.asked _ _ _ _ ho).2 hlt

theorem Awake.fewer (h : Awake dev db running told acked replies) (hsub : ∀ o ∈ running', o ∈ running) :
    Awake dev db running' told acked replies :=
  ⟨h.heard, h.last, h.coming, fun _ _ _ _ ho => h.asked _ _ _ _ (hsub _ ho), h.next,
    fun _ _ _ ho => h.empty _ _ _ (hsub _ ho)⟩

/-- One more under way that is no hand-out. -/
theorem Awake.more (h : Awake dev db running told acked replies)
    (ho : ∀ board refused picked a, o ≠ Open.take board refused picked (some a)) :
    Awake dev db (o :: running) told acked replies := by
  refine ⟨h.heard, h.last, h.coming, fun board refused picked a hm => ?_, h.next, fun board refused a hm => ?_⟩
  · exact h.asked _ _ _ _ ((List.mem_cons.1 hm).resolve_left fun he => ho _ _ _ _ he.symm)
  · exact h.empty _ _ _ ((List.mem_cons.1 hm).resolve_left fun he => ho _ _ _ _ he.symm)

namespace Db

/-- One that picks nothing leaves waiting what it did not refuse. -/
theorem handOut_none {db : Db} {board : String} {refused : List (String × String)} {now : Int}
    (h : s ∈ (db.handOut board refused [] now).requests)
    (hw : s.status = .waiting) : s ∈ db.requests ∧ refused.lookup s.id = none := by
  obtain ⟨r, hr, rfl⟩ := List.mem_map.1 h
  by_cases hp : (refused.lookup r.id).isSome = true
  · rw [if_pos hp] at hw
    cases hw
  · rw [if_neg hp]
    exact ⟨hr, Option.not_isSome_iff_eq_none.1 hp⟩

/-- One that picks some moves the version while any is left. -/
theorem handOut_bumps {db : Db} {refused : List (String × String)} {picked : List String} (hd : (db.device board).isSome = true) (hne : picked ≠ [])
    (h : s ∈ (db.handOut board refused picked now).requests) (hw : waitingOf board s = true) :
    db.reqVersion board < (db.handOut board refused picked now).reqVersion board := by
  unfold handOut at h ⊢
  dsimp only at h ⊢
  rw [if_neg hne] at h ⊢
  split at h
  · rename_i hany
    rw [if_pos hany]
    have hbump : ∀ t : Db, (t.device board).isSome = true → (t.bumpReq board).reqVersion board = t.reqVersion board + 1 :=
      fun t ht => by rw [reqVersion_bumpReq ht, if_pos rfl]
    exact Nat.lt_of_lt_of_eq (Nat.lt_succ_self _) (hbump _ hd).symm
  · rename_i hany
    exact absurd (List.any_eq_true.2 ⟨s, h, hw⟩) hany

theorem picked_nil {db : Db} (h : db.picked dev held = []) (hr : r ∈ db.requests) (ht : db.takeable dev r = true) :
    held r.id = true := by
  have hfilter : (db.requests.filter fun r => waitingOf dev r && (refusal (db.device dev) r).isNone && !held r.id) = [] := by
    unfold picked at h
    have hlen := congrArg List.length h
    rw [List.length_take, List.length_mergeSort] at hlen
    refine List.eq_nil_of_length_eq_zero ?_
    have hmax : reqFetchMax = 8 := rfl
    simp only [List.length_nil, hmax] at hlen
    omega
  have hnot := List.filter_eq_nil_iff.1 hfilter r hr
  unfold takeable at ht
  rw [ht] at hnot
  simpa using hnot

end Db

theorem Step.awake {w w' : World} (hok : w.Ok dev) (h : Awake dev w.db w.running w.told w.acked w.replies)
    (hs : Step dev w a w') (hminds : a = .asks dev → ¬w.Overlooks dev) :
    Awake dev w'.db w'.running w'.told w'.acked w'.replies := by
  have hd := hok.books.board
  cases hs with
  | stmt s now free drawn =>
    obtain ⟨new, -, ht⟩ := s.turn dev hok.books.ids now
    exact h.turn ht hd
  | asks board free =>
    by_cases hb : board = dev
    · subst hb
      rw [if_pos rfl]
      refine ⟨h.heard, h.last, h.coming, fun board' refused picked a ho => ?_, h.next, fun board' refused a ho => ?_⟩
      · rcases List.mem_cons.1 ho with he | ho
        · obtain ⟨rfl, -, -, ha⟩ := Open.take.inj he
          obtain rfl := Option.some.inj ha
          exact ⟨rfl, h.heard⟩
        · exact h.asked _ _ _ _ ho
      · rcases List.mem_cons.1 ho with he | ho
        · obtain ⟨rfl, rfl, hpicked, -⟩ := Open.take.inj he
          intro r hr hw hlook
          -- nothing is picked, so what is not refused is held
          have hnone : w.db.picked board' w.holds = [] := List.map_eq_nil_iff.1 hpicked.symm
          have htake : w.db.takeable board' r = true := by
            unfold Db.takeable
            rw [hw, Bool.true_and, ← Option.not_isSome, Bool.not_eq_true']
            rw [List.lookup_eq_none_iff] at hlook
            by_contra hsome
            rw [Bool.not_eq_false] at hsome
            simp only [Db.waitingOf, Bool.and_eq_true] at hw
            have hmem : r ∈ w.db.refused board' :=
              List.mem_filter.2 ⟨hr, by rw [hw.1.1, hw.1.2, hsome]; rfl⟩
            have := hlook _ (List.mem_map_of_mem hmem)
            simp at this
          exact absurd ⟨⟨r, hr, htake⟩, fun s hs ht => Db.picked_nil hnone hs ht⟩ (hminds rfl)
        · exact h.empty _ _ _ ho
    · rw [if_neg hb]
      exact h.more fun _ _ _ _ he => by cases he
  | handsOut as bs board refused picked asked now here =>
    obtain ⟨hwait, hapart, -⟩ := hok.hands here
    have ht : Turn dev none false [] w.db (w.db.handOut board refused picked now) := Db.handOut_turn hwait hapart now
    have hmem : Open.take board refused picked asked ∈ w.running := by simp [here]
    have hbase : Awake dev (w.db.handOut board refused picked now) (as ++ bs) w.told w.acked w.replies :=
      (h.turn ht hd).fewer fun o ho => by
        rw [here]
        rcases List.mem_append.1 ho with ho | ho
        · exact List.mem_append_left _ ho
        · exact List.mem_append_right _ (List.mem_cons_of_mem _ ho)
    cases asked with
    | none => exact hbase
    | some a =>
      obtain ⟨rfl, ha⟩ := h.asked _ _ _ _ hmem
      refine ⟨hbase.heard, hbase.last, fun x hx => ?_, hbase.asked, fun s hs hw => ⟨(hbase.next s hs hw).1, fun x hx => ?_⟩,
        hbase.empty⟩
      · rcases List.mem_cons.1 hx with rfl | hx
        · exact ha.trans (ht.version hd).1
        · exact hbase.coming x hx
      · rcases List.mem_cons.1 hx with rfl | hx
        · by_cases hne : picked = []
          · subst hne
            have hstatus : s.status = .waiting := by
              simp only [Db.waitingOf, Bool.and_eq_true, beq_iff_eq] at hw
              exact hw.1.2
            have hs : s ∈ (w.db.handOut board refused [] now).requests := hs
            obtain ⟨hin, hlook⟩ := Db.handOut_none hs hstatus
            exact Nat.lt_of_lt_of_le (h.empty _ _ _ hmem s hin hw hlook) (ht.version hd).1
          · exact Nat.lt_of_le_of_lt ha (Db.handOut_bumps hd hne hs hw)
        · exact (hbase.next s hs hw).2 x hx
  | settles orgId job source free => exact h.more fun _ _ _ _ he => by cases he
  | settled as bs orgId job source parts ids blocked v now here drawn enough verdict =>
    obtain ⟨new, -, ht⟩ := w.db.settled_turn dev orgId job parts (w.db.movedRows job source) v now
    exact (h.turn ht hd).fewer fun o ho => by
      rw [here]
      exact (List.Sublist.append (List.Sublist.refl as) (List.sublist_cons_self _ bs)).subset ho
  | cancels orgId job free => exact h.more fun _ _ _ _ he => by cases he
  | cancelled as bs orgId job seen cid now here drawn =>
    obtain ⟨new, -, ht⟩ := w.db.cancelSeen_turn dev orgId job cid seen.contains now
    exact (h.turn ht hd).fewer fun o ho => by
      rw [here]
      exact (List.Sublist.append (List.Sublist.refl as) (List.sublist_cons_self _ bs)).subset ho
  | aborts as bs o here =>
    exact h.fewer fun o ho => by
      rw [here]
      exact (List.Sublist.append (List.Sublist.refl as) (List.sublist_cons_self _ bs)).subset ho
  | told => exact ⟨Nat.le_refl _, h.last, h.coming, h.asked, h.next, h.empty⟩
  | replied as bs v here =>
    have hv : v ∈ w.replies := by simp [here]
    have hsub : ∀ a ∈ as ++ bs, a ∈ w.replies := fun a ha => by
      rw [here]
      exact (List.Sublist.append (List.Sublist.refl as) (List.sublist_cons_self _ bs)).subset ha
    exact ⟨h.heard, h.coming v hv, fun a ha => h.coming a (hsub a ha), h.asked,
      fun r hr hw => ⟨(h.next r hr hw).2 v hv, fun a ha => (h.next r hr hw).2 a (hsub a ha)⟩, h.empty⟩
  | boots =>
    exact ⟨Nat.zero_le _, Nat.zero_le _, by simp, h.asked,
      fun r hr hw => ⟨Nat.lt_of_le_of_lt (Nat.zero_le _) (h.next r hr hw).1, by simp⟩, h.empty⟩
  | claims uploadId now free => exact h.turn (w.db.claimGet_turn uploadId now) hd
  | relays as bs g r tid file stored db now here relay free queued => exact h.turn (Db.relay_turn queued) hd
  | placed as bs p e now here done free =>
    exact h.turn (w.db.settleGet_turn p.get.id e now (some .placing)) hd
  | removes as bs d files board ids now here refused volume perm drawn enough free =>
    obtain ⟨new, -, ht⟩ := w.db.removeCopied_turn dev d board files ids now
    exact h.turn ht hd
  | unlinks as bs d now here refused volume => exact h
  | leaves as bs d now here free => exact h.turn (w.db.recordRemoval_turn d .refused now) hd
  | records as bs d out now here free => exact h.turn (w.db.recordRemoval_turn d out now) hd

-- ---------------------------------------------------------------------------
-- Runs
-- ---------------------------------------------------------------------------

/-- A board is there, and nothing is asked of it yet. -/
structure World.Start (dev : String) (w : World) : Prop where
  board : (w.db.device dev).isSome = true
  requests : w.db.requests = []
  running : w.running = []
  acked : w.acked = 0
  told : w.told = 0
  replies : w.replies = []
  log : w.log = []

def Runs (dev : String) : World → World → Prop := ReflTransGen fun w w' => ∃ a, Step dev w a w'

/-- Runs in which no hand-out of the board finds what waits for it all locked. -/
def Minding (dev : String) : World → World → Prop :=
  ReflTransGen fun w w' => ∃ a, Step dev w a w' ∧ (a = .asks dev → ¬w.Overlooks dev)

theorem Minding.runs (h : Minding dev w w') : Runs dev w w' :=
  ReflTransGen.mono (fun _ _ ⟨a, hs, _⟩ => ⟨a, hs⟩) _ _ h

theorem World.Start.ok {w : World} (h : w.Start dev) : w.Ok dev := by
  refine ⟨⟨by simp [h.requests], by simp [h.requests], fun i _ => by simp [h.log, handedIds, appliedTo],
    by simp [h.log, handedIds], by simp [h.requests], by simp [h.requests], fun i => ⟨0, by simp [h.log, appliedTo]⟩,
    h.board⟩, by simp [h.running], by simp [h.running]⟩

theorem World.Start.awake {w : World} (h : w.Start dev) :
    Awake dev w.db w.running w.told w.acked w.replies := by
  refine ⟨?_, ?_, ?_, ?_, ?_, ?_⟩
  · rw [h.told]
    exact Nat.zero_le _
  · rw [h.acked]
    exact Nat.zero_le _
  all_goals simp [h.replies, h.running, h.requests]

theorem Runs.ok (h : Runs dev w w') (hs : w.Start dev) : w'.Ok dev :=
  invariant_run (fun _ _ ⟨_, hstep⟩ hok => hstep.ok hok) h hs.ok

theorem Minding.awake (h : Minding dev w w') (hs : w.Start dev) :
    Awake dev w'.db w'.running w'.told w'.acked w'.replies := by
  have hboth : w'.Ok dev ∧ Awake dev w'.db w'.running w'.told w'.acked w'.replies :=
    invariant_run (I := fun w => w.Ok dev ∧ Awake dev w.db w.running w.told w.acked w.replies)
      (fun _ _ ⟨_, hstep, hminds⟩ ⟨hok, hawake⟩ => ⟨hstep.ok hok, hstep.awake hok hawake hminds⟩) h ⟨hs.ok, hs.awake⟩
  exact hboth.2

-- ---------------------------------------------------------------------------
-- Rows from one step to the next
-- ---------------------------------------------------------------------------

/-- Every step is a transaction on the requests, with ids of its own for those it adds. -/
theorem Step.turns {w w' : World} (hok : w.Ok dev) (hs : Step dev w a w') :
    ∃ b new, Turn dev b true new w.db w'.db ∧ ∀ r ∈ new, r.id ∉ w.used := by
  have hnone : ∀ {b : Option String} {db' : Db}, Turn dev b true [] w.db db' →
      ∃ b new, Turn dev b true new w.db db' ∧ ∀ r ∈ new, r.id ∉ w.used :=
    fun h => ⟨_, [], h, by simp⟩
  have hsame : ∃ b new, Turn dev b true new w.db w.db ∧ ∀ r ∈ new, r.id ∉ w.used := hnone (.refl w.db)
  have hdrawn : ∀ {new : List Request} {draws : List String}, (new.map Request.id).Sublist draws → w.Drawn draws →
      ∀ r ∈ new, r.id ∉ w.used :=
    fun hids hd r hr => hd.2 _ (hids.subset (List.mem_map_of_mem hr))
  cases hs with
  | stmt s now free drawn =>
    obtain ⟨new, hids, ht⟩ := s.turn dev hok.books.ids now
    exact ⟨_, new, ht, hdrawn hids drawn⟩
  | asks board free => exact hsame
  | handsOut as bs board refused picked asked now here =>
    obtain ⟨hwait, hapart, -⟩ := hok.hands here
    exact hnone (Db.handOut_turn hwait hapart now).loose
  | settles orgId job source free => exact hsame
  | settled as bs orgId job source parts ids blocked v now here drawn enough verdict =>
    obtain ⟨new, hids, ht⟩ := w.db.settled_turn dev orgId job parts (w.db.movedRows job source) v now
    exact ⟨_, new, ht.loose,
      hdrawn (hids.trans (verdict ▸ w.db.verdict_drawn orgId job source parts _ ids blocked)) drawn⟩
  | cancels orgId job free => exact hsame
  | cancelled as bs orgId job seen cid now here drawn =>
    obtain ⟨new, hids, ht⟩ := w.db.cancelSeen_turn dev orgId job cid seen.contains now
    exact ⟨_, new, ht.loose, hdrawn hids drawn⟩
  | aborts as bs o here => exact hsame
  | told => exact hsame
  | replied as bs v here => exact hsame
  | boots => exact hsame
  | claims uploadId now free => exact hnone (w.db.claimGet_turn uploadId now)
  | relays as bs g r tid file stored db now here relay free queued => exact hnone (Db.relay_turn queued).loose
  | placed as bs p e now here done free => exact hnone (w.db.settleGet_turn p.get.id e now (some .placing)).loose
  | removes as bs d files board ids now here refused volume perm drawn enough free =>
    obtain ⟨new, hids, ht⟩ := w.db.removeCopied_turn dev d board files ids now
    exact ⟨_, new, ht.loose, hdrawn hids drawn⟩
  | unlinks as bs d now here refused volume => exact hsame
  | leaves as bs d now here free => exact hnone (w.db.recordRemoval_turn d .refused now).loose
  | records as bs d out now here free => exact hnone (w.db.recordRemoval_turn d out now).loose

/-- What ended stays ended, but for a get that timed out. -/
theorem Step.ended {w w' : World} (hok : w.Ok dev) (hs : Step dev w a w') (hr : r ∈ w.db.requests)
    (hs' : s ∈ w'.db.requests) (hid : s.id = r.id) (he : r.status.ended = true) : s.status.ended = true ∨ r.Lost := by
  obtain ⟨b, new, ht, hnew⟩ := hs.turns hok
  obtain ⟨q, hq, hk⟩ := ht.rows s hs'
  rcases List.mem_append.1 hq with hq | hq
  · obtain rfl := Db.mem_unique hok.books.ids hq hr (hk.id.symm.trans hid)
    exact (hk.ended he).imp_right And.right
  · exact absurd (hok.books.known r hr) (hid ▸ hk.id ▸ hnew q hq)

/-- A piece that is no next piece changes nothing. -/
theorem Db.answerPiece_repeat {db : Db} (h : db.appliedPiece board rid p = none) (renamed : Option Units) (now : Int) :
    (db.answerPiece board rid p renamed now).2 = db := by
  unfold answerPiece
  unfold appliedPiece at h
  cases hr : db.requests.find? (fun r => r.id == rid && r.deviceId == board) with
  | none => rfl
  | some r =>
    rw [hr] at h
    dsimp only at h ⊢
    cases hdue : pieceDue p r with
    | some result => rfl
    | none =>
      rw [hdue, if_pos rfl] at h
      cases h

def lateBoard (version : Nat) : Device :=
  { id := "board", orgId := "org", rxProto := some 5, browseOn := true, writeOn := true, sendRx := some .c,
    sendRxAt := none, sendVersion := 0, reqVersion := version }

/-- A get of a move off a volume. -/
def lateTarget : Target := { Target.plain with moveSource := some (units "NET:/Board/Work/Tool") }

def lateGet : Request :=
  Request.fresh "get" "org" "board" .get (units "Work:Tool") lateTarget (some "job") 0

def lateStart : World :=
  { db := { devices := [lateBoard 0], transfers := [], requests := [], uploads := [] }
    running := [], placing := [], due := [], begun := [], told := 0, acked := 0, replies := [], used := [], log := [] }

theorem lateStart_start : lateStart.Start "board" := ⟨rfl, rfl, rfl, rfl, rfl, rfl, rfl⟩

/-- The get is there and the board was told of it. -/
def lateTold : World :=
  { lateStart with
    db := { lateStart.db with devices := [lateBoard 1], requests := [lateGet] }
    told := 1, used := ["get"] }

def lateSource : Units := units "NET:/Board/Work/Tool"

def lateIds : SettleIds := { verify := ["verify"], said := "said", changed := ["changed"] }

/-- The move's settle holds the get. -/
def lateHeld : World := { lateTold with running := [.settle "org" "job" lateSource [lateGet]] }

/-- The board asks, and there is nothing for it. -/
def lateAsked : World :=
  { lateTold with running := [.take "board" [] [] (some 1), .settle "org" "job" lateSource [lateGet]] }

/-- The board has its answer, and the settle is over. -/
def lateEnd : World := { lateTold with acked := 1, used := lateIds.draws ++ ["get"] }

theorem lateTold_runs : Runs "board" lateStart lateTold := by
  refine .tail (.tail .refl ⟨_, .stmt (.gets "org" "board" "job" [("get", units "Work:Tool", lateTarget)]) 0 ?_ ?_⟩)
    ⟨_, .told⟩
  · exact fun r hr => nomatch hr
  · exact ⟨by decide, by decide⟩

theorem lateParts : lateTold.db.movedParts "job" lateSource = [lateGet] := by
  have hfilter : lateTold.db.requests.filter (partOf "job" lateSource) = [lateGet] := rfl
  rw [Db.movedParts, hfilter, List.mergeSort_singleton]

theorem lateHeld_step : Step "board" lateTold (.settles "org" "job" lateSource) lateHeld := by
  have h := @Step.settles "board" lateTold "org" "job" lateSource fun _ _ => rfl
  rwa [lateParts] at h

theorem lateAsked_step : Step "board" lateHeld (.asks "board") lateAsked := by
  have hrefused : lateHeld.db.refused "board" = [] := rfl
  have hpicked : lateHeld.db.picked "board" lateHeld.holds = [] := by
    have hfilter : (lateHeld.db.requests.filter fun r => Db.waitingOf "board" r &&
        (Db.refusal (lateHeld.db.device "board") r).isNone && !lateHeld.holds r.id) = [] := rfl
    rw [Db.picked, hfilter, List.mergeSort_nil, List.take_nil]
  have h := @Step.asks "board" lateHeld "board" fun r hr => by
    rw [hrefused] at hr
    cases hr
  rw [hrefused, hpicked] at h
  exact h

theorem lateEnd_runs : Runs "board" lateTold lateEnd := by
  have hverdict : Verdict.waits = lateTold.db.verdict "org" "job" lateSource [lateGet]
      (lateTold.db.movedRows "job" lateSource) lateIds false := rfl
  have hhand := @Step.handsOut "board" lateAsked [] [.settle "org" "job" lateSource [lateGet]] "board" [] [] (some 1) 0 rfl
  refine .tail (.tail (.tail (.tail (.tail .refl ⟨_, lateHeld_step⟩) ⟨_, lateAsked_step⟩) ⟨_, hhand⟩)
    ⟨_, .replied [] [] 1 rfl⟩) ⟨.settled "org" "job" lateSource 0, ?_⟩
  exact .settled [] [] "org" "job" lateSource [lateGet] lateIds false .waits 0 rfl ⟨by decide, by decide⟩
      ⟨by decide, by decide⟩ hverdict

end WebAdf.Server
