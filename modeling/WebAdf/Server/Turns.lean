import Mathlib.Data.List.Sublists
import WebAdf.Server.Cursor
import WebAdf.Server.World

/-!
# What a transaction does to the requests

Every row there afterwards was there before, or was put in: none goes back to
waiting, none that ended comes back but a get that timed out, and whoever adds one
moves the version.
-/

namespace WebAdf.Server

open Lib Send

-- ---------------------------------------------------------------------------
-- One row
-- ---------------------------------------------------------------------------

def RequestStatus.ended : RequestStatus → Bool
  | .done | .failed | .stale => true
  | _ => false

/-- A get that timed out: its file may still come. -/
def Request.Lost (r : Request) : Prop :=
  r.kind = .get ∧ r.status = .failed ∧ r.errorCode = some "timeout"

/-- A row and what became of it. `piece` is the request whose answer grew; `back` says
whether a lost get may come back. -/
structure Kept (piece : Option String) (back : Bool) (r s : Request) : Prop where
  id : s.id = r.id
  board : s.deviceId = r.deviceId
  kind : s.kind = r.kind
  waiting : s.status = .waiting → r.status = .waiting
  ended : r.status.ended = true → s.status.ended = true ∨ back = true ∧ r.Lost
  pieces : s.pieces = r.pieces + if piece = some r.id then 1 else 0

theorem Kept.refl (r : Request) : Kept none back r r :=
  ⟨rfl, rfl, rfl, fun h => h, fun h => .inl h, by simp⟩

theorem Kept.trans (h : Kept b false r s) (h' : Kept none false s t) : Kept b false r t := by
  refine ⟨h'.id.trans h.id, h'.board.trans h.board, h'.kind.trans h.kind, fun hw => h.waiting (h'.waiting hw),
    fun he => ?_, ?_⟩
  · rcases h.ended he with hs | ⟨hf, -⟩
    · exact .inl ((h'.ended hs).resolve_right fun ⟨hf, _⟩ => nomatch hf)
    · cases hf
  · rw [h'.pieces, h.pieces]
    simp

theorem Kept.forget (h : Kept b false r s) : Kept b back r s :=
  ⟨h.id, h.board, h.kind, h.waiting, fun he => .inl ((h.ended he).resolve_right fun ⟨hf, _⟩ => nomatch hf), h.pieces⟩

/-- A status set, and nothing of the answer. -/
theorem Kept.status (hid : s.id = r.id) (hboard : s.deviceId = r.deviceId) (hkind : s.kind = r.kind)
    (hpieces : s.pieces = r.pieces) (hwait : s.status ≠ .waiting)
    (hend : s.status.ended = true ∨ r.status.ended = false) : Kept none false r s := by
  refine ⟨hid, hboard, hkind, fun h => absurd h hwait, fun he => .inl ?_, by simpa using hpieces⟩
  rcases hend with h | h
  · exact h
  · rw [h] at he
    cases he

theorem kept_fail (code : String) (now : Int) (r : Request) : Kept none false r (r.fail code now) :=
  .status rfl rfl rfl rfl (fun h => nomatch h) (.inl rfl)

/-- A row whose status stays. -/
theorem Kept.same (hid : s.id = r.id) (hboard : s.deviceId = r.deviceId) (hkind : s.kind = r.kind)
    (hpieces : s.pieces = r.pieces) (hstatus : s.status = r.status) : Kept none false r s :=
  ⟨hid, hboard, hkind, fun h => hstatus ▸ h, fun h => .inl (hstatus ▸ h), by simpa using hpieces⟩

-- ---------------------------------------------------------------------------
-- One transaction
-- ---------------------------------------------------------------------------

structure Turn (dev : String) (piece : Option String) (back : Bool) (new : List Request) (db db' : Db) :
    Prop where
  rows : ∀ s ∈ db'.requests, ∃ r ∈ db.requests ++ new, Kept piece back r s
  ids : (db'.requests.map Request.id).Sublist ((db.requests ++ new).map Request.id)
  board : (db.device dev).isSome = true → (db'.device dev).isSome = true
  version : (db.device dev).isSome = true →
    db.reqVersion dev ≤ db'.reqVersion dev ∧
      ∀ r ∈ new, r.deviceId = dev → r.status = .waiting → db.reqVersion dev < db'.reqVersion dev
  fresh : ∀ r ∈ new, r.pieces = 0

theorem zip_fst_sublist (as : List α) (bs : List β) : ((as.zip bs).map Prod.fst).Sublist as := by
  induction as generalizing bs with
  | nil => exact List.nil_sublist _
  | cons a as ih =>
    cases bs with
    | nil => exact List.nil_sublist _
    | cons b bs => exact (ih bs).cons_cons a

namespace Turn

theorem refl (db : Db) : Turn dev none back [] db db :=
  ⟨fun s hs => ⟨s, by simpa using hs, .refl s⟩, by simp, fun h => h, fun _ => ⟨Nat.le_refl _, by simp⟩, by simp⟩

theorem trans (h : Turn dev b false new db₁ db₂) (h' : Turn dev none false new' db₂ db₃)
    (hnew : ∀ r ∈ new', b ≠ some r.id) : Turn dev b false (new ++ new') db₁ db₃ := by
  refine ⟨fun t ht => ?_, ?_, fun hd => h'.board (h.board hd), fun hd => ⟨?_, ?_⟩, fun r hr => ?_⟩
  · obtain ⟨s, hs, hst⟩ := h'.rows t ht
    rcases List.mem_append.1 hs with hs | hs
    · obtain ⟨r, hr, hrs⟩ := h.rows s hs
      refine ⟨r, ?_, hrs.trans hst⟩
      rw [← List.append_assoc]
      exact List.mem_append_left _ hr
    · refine ⟨s, by simp [hs], hst.id, hst.board, hst.kind, hst.waiting, hst.ended, ?_⟩
      rw [hst.pieces, if_neg (hnew s hs), if_neg (by simp)]
  · have hfirst := List.Sublist.append h.ids (List.Sublist.refl (new'.map Request.id))
    have hthen := h'.ids
    simp only [List.map_append, List.append_assoc] at hfirst hthen ⊢
    exact hthen.trans hfirst
  · exact Nat.le_trans (h.version hd).1 (h'.version (h.board hd)).1
  · intro r hr hdev hw
    rcases List.mem_append.1 hr with hr | hr
    · exact Nat.lt_of_lt_of_le ((h.version hd).2 r hr hdev hw) (h'.version (h.board hd)).1
    · exact Nat.lt_of_le_of_lt (h.version hd).1 ((h'.version (h.board hd)).2 r hr hdev hw)
  · rcases List.mem_append.1 hr with hr | hr
    · exact h.fresh r hr
    · exact h'.fresh r hr

/-- One after another, and nothing's answer grows. -/
theorem seq (h : Turn dev none false new db₁ db₂) (h' : Turn dev none false new' db₂ db₃) :
    Turn dev none false (new ++ new') db₁ db₃ :=
  h.trans h' fun _ _ hf => nomatch hf

/-- Behind it, rows neither put in nor changed in what matters. -/
theorem andThen (h : Turn dev b false new db₁ db₂) (h' : Turn dev none false [] db₂ db₃) :
    Turn dev b false new db₁ db₃ := by
  have := h.trans h' (by simp)
  rwa [List.append_nil] at this

theorem after (h : Turn dev none false [] db₁ db₂) (h' : Turn dev none false new db₂ db₃) :
    Turn dev none false new db₁ db₃ := by
  simpa using h.seq h'

theorem loose (h : Turn dev b false new db db') : Turn dev b back new db db' :=
  ⟨fun s hs => let ⟨r, hr, hk⟩ := h.rows s hs; ⟨r, hr, hk.forget⟩, h.ids, h.board, h.version, h.fresh⟩

/-- Requests and versions as they were. -/
theorem of_eq (hreq : db'.requests = db.requests)
    (hdev : (db'.device dev).map Device.reqVersion = (db.device dev).map Device.reqVersion) :
    Turn dev none back [] db db' := by
  have hsome : (db.device dev).isSome = (db'.device dev).isSome := by
    rw [← Option.isSome_map (f := Device.reqVersion), ← hdev, Option.isSome_map]
  refine ⟨fun s hs => ⟨s, by simpa [hreq] using hs, .refl s⟩, by simp [hreq], fun h => hsome ▸ h,
    fun _ => ⟨?_, by simp⟩, by simp⟩
  rw [Db.reqVersion, Db.reqVersion, hdev]

end Turn

namespace Db

theorem setRequests_turn (db : Db) {p : Request → Bool} {f : Request → Request} {b : Option String}
    (h : ∀ r ∈ db.requests, p r = true → Kept b back r (f r))
    (hb : ∀ r ∈ db.requests, p r = false → b ≠ some r.id) :
    Turn dev b back [] db (db.setRequests p f) := by
  refine ⟨fun s hs => ?_, ?_, fun hd => hd, fun _ => ⟨Nat.le_refl _, by simp⟩, by simp⟩
  · obtain ⟨r, hr, rfl⟩ := List.mem_map.1 hs
    refine ⟨r, by simpa using hr, ?_⟩
    split
    · rename_i hp
      exact h r hr hp
    · rename_i hp
      have hne := hb r hr (by simpa using hp)
      exact ⟨rfl, rfl, rfl, fun h => h, fun h => .inl h, by rw [if_neg hne]; rfl⟩
  · have hids : (db.setRequests p f).requests.map Request.id = db.requests.map Request.id := by
      rw [setRequests, update, List.map_map]
      refine List.map_congr_left fun r hr => ?_
      rw [Function.comp_apply]
      split
      · rename_i hp
        exact (h r hr hp).id
      · rfl
    rw [List.append_nil, hids]

theorem set_turn (db : Db) {p : Request → Bool} {f : Request → Request}
    (h : ∀ r ∈ db.requests, p r = true → Kept none back r (f r)) :
    Turn dev none back [] db (db.setRequests p f) :=
  db.setRequests_turn h fun _ _ _ hf => nomatch hf

theorem filter_turn (db : Db) (p : Request → Bool) :
    Turn dev none back [] db { db with requests := db.requests.filter p } :=
  ⟨fun s hs => ⟨s, by simpa using List.mem_of_mem_filter hs, .refl s⟩,
    by simpa using List.filter_sublist.map Request.id, fun h => h, fun _ => ⟨Nat.le_refl _, by simp⟩, by simp⟩

/-- Rows that do not wait: no one need hear of them. -/
theorem insert_quiet (db : Db) {rows : List Request} (h : ∀ r ∈ rows, r.status ≠ .waiting ∧ r.pieces = 0) :
    Turn dev none false rows db (db.insertRequests rows) :=
  ⟨fun s hs => ⟨s, hs, .refl s⟩, List.Sublist.refl _, fun h => h,
    fun _ => ⟨Nat.le_refl _, fun r hr _ hw => absurd hw (h r hr).1⟩, fun r hr => (h r hr).2⟩

theorem device_bumpReq (db : Db) (board dev : String) :
    (db.bumpReq board).device dev =
      (db.device dev).map fun d => if d.id == board then { d with reqVersion := d.reqVersion + 1 } else d :=
  device_update db (f := fun d => { d with reqVersion := d.reqVersion + 1 }) (fun _ => rfl) (fun d => d.id == board) dev

theorem reqVersion_bumpReq {db : Db} (h : (db.device dev).isSome = true) (board : String) :
    (db.bumpReq board).reqVersion dev = db.reqVersion dev + if dev = board then 1 else 0 := by
  obtain ⟨d, hd⟩ := Option.isSome_iff_exists.1 h
  rw [reqVersion, reqVersion, device_bumpReq, hd, Option.map_some, Option.map_some, Option.map_some, device_id hd]
  by_cases hb : dev = board
  · rw [if_pos hb, if_pos (beq_iff_eq.2 hb)]
    rfl
  · rw [if_neg hb, if_neg (by simpa using hb)]
    rfl

theorem bumpReq_turn (db : Db) (board : String) : Turn dev none back [] db (db.bumpReq board) := by
  refine ⟨fun s hs => ⟨s, List.mem_append_left _ hs, .refl s⟩, by simp [bumpReq], fun h => ?_,
    fun h => ⟨?_, by simp⟩, by simp⟩
  · rw [device_bumpReq, Option.isSome_map]
    exact h
  · rw [reqVersion_bumpReq h]
    exact Nat.le_add_right _ _

/-- Rows for one board, and its version moves. -/
theorem insert_turn (db : Db) {rows : List Request} {board : String} (h : ∀ r ∈ rows, r.deviceId = board ∧ r.pieces = 0) :
    Turn dev none false rows db ((db.insertRequests rows).bumpReq board) := by
  refine ⟨fun s hs => ⟨s, hs, .refl s⟩, List.Sublist.refl _, fun hd => ?_, fun hd => ?_, fun r hr => (h r hr).2⟩
  · rw [device_bumpReq, Option.isSome_map]
    exact hd
  · have hv : ((db.insertRequests rows).bumpReq board).reqVersion dev = db.reqVersion dev + if dev = board then 1 else 0 :=
      reqVersion_bumpReq hd board
    rw [hv]
    refine ⟨Nat.le_add_right _ _, fun r hr hdev _ => ?_⟩
    rw [if_pos (hdev.symm.trans (h r hr).1)]
    exact Nat.lt_succ_self _

-- ---------------------------------------------------------------------------
-- Time
-- ---------------------------------------------------------------------------

theorem fail_turn (db : Db) (p : Request → Bool) (code : String) (now : Int) :
    Turn dev none back [] db (db.setRequests p (Request.fail code now)) :=
  (db.set_turn fun r _ _ => kept_fail code now r).loose

theorem expireStale_turn (db : Db) (dev : String) (moving : Request → Bool) (now : Int) :
    Turn dev none false [] db (db.expireStale moving now) :=
  (((db.fail_turn _ _ _).after (Db.fail_turn _ _ _ _)).after (Db.fail_turn _ _ _ _)).after (Db.fail_turn _ _ _ _)

-- ---------------------------------------------------------------------------
-- Asking
-- ---------------------------------------------------------------------------

theorem addGets_turn (db : Db) (dev : String) (orgId board fetchId : String) (files : List (String × Units × Target)) (now : Int) :
    ∃ new, (new.map Request.id).Sublist (files.map Prod.fst) ∧
      Turn dev none false new db (db.addGets orgId board fetchId files now) := by
  unfold addGets
  split
  · exact ⟨[], List.nil_sublist _, .refl db⟩
  · refine ⟨_, ?_, db.insert_turn fun r hr => ?_⟩
    · rw [List.map_map]
      exact List.Sublist.refl _
    · obtain ⟨f, -, rfl⟩ := List.mem_map.1 hr
      exact ⟨rfl, rfl⟩

theorem addListings_turn (db : Db) (dev : String) (orgId board job : String) (paths : List (String × Units)) (now : Int) :
    ∃ new, (new.map Request.id).Sublist (paths.map Prod.fst) ∧
      Turn dev none false new db (db.addListings orgId board job paths now) := by
  unfold addListings
  split
  · exact ⟨[], List.nil_sublist _, .refl db⟩
  · refine ⟨_, ?_, db.insert_turn fun r hr => ?_⟩
    · rw [List.map_map]
      exact List.Sublist.refl _
    · obtain ⟨f, -, rfl⟩ := List.mem_map.1 hr
      exact ⟨rfl, rfl⟩

theorem addWrites_turn (db : Db) (dev : String) (orgId board job : String) (writes : List WriteReq) (now : Int) :
    ∃ new, (new.map Request.id).Sublist (writes.map WriteReq.id) ∧
      Turn dev none false new db (db.addWrites orgId board job writes now) := by
  unfold addWrites
  split
  · exact ⟨[], List.nil_sublist _, .refl db⟩
  · refine ⟨_, ?_, (db.filter_turn _).after (insert_turn _ fun r hr => ?_)⟩
    · rw [List.map_map]
      have hids : (writes.zipIdx.map fun p => p.1.id) = writes.map WriteReq.id := calc
        _ = (writes.zipIdx.map Prod.fst).map WriteReq.id := by rw [List.map_map]; rfl
        _ = writes.map WriteReq.id := by rw [List.zipIdx_map_fst]
      exact hids ▸ List.Sublist.refl _
    · obtain ⟨f, -, rfl⟩ := List.mem_map.1 hr
      exact ⟨rfl, rfl⟩

theorem requestListing_turn (db : Db) (dev : String) (rid orgId board : String) (kind : Kind) (path : Units) (fresh : Bool)
    (moving : Request → Bool) (now : Int) :
    ∃ new, (new.map Request.id).Sublist [rid] ∧
      Turn dev none false new db (db.requestListing rid orgId board kind path fresh moving now) := by
  unfold requestListing
  have hstale := db.expireStale_turn dev moving now
  dsimp only
  split
  · exact ⟨[], List.nil_sublist _, hstale⟩
  · refine ⟨[Request.fresh rid orgId board kind path Target.plain none now], List.Sublist.refl _, hstale.after ?_⟩
    refine Turn.after ?_ ((filter_turn _ _).after (insert_turn _ fun r hr => ?_))
    · split
      · exact fail_turn _ _ _ _
      · exact .refl _
    · rw [List.mem_singleton.1 hr]
      exact ⟨rfl, rfl⟩

-- ---------------------------------------------------------------------------
-- Answers
-- ---------------------------------------------------------------------------

theorem dropMemory_turn (db : Db) (board : String) (paths below : List Units) :
    Turn dev none false [] db (db.dropMemory board paths below) := by
  unfold dropMemory
  exact db.set_turn fun r _ _ => .status rfl rfl rfl rfl (fun h => RequestStatus.noConfusion h) (.inl rfl)

theorem afterPiece_turn (db : Db) (r s : Request) (renamed : Option Units) :
    Turn dev none false [] db (db.afterPiece r s renamed) := by
  unfold afterPiece
  split
  · split
    · exact dropMemory_turn _ _ _ _
    · exact .refl db
  · split
    · split
      · exact .of_eq rfl rfl
      · exact .refl db
    · exact .refl db

end Db

theorem close_same (now : Int) (e : Option End) (r : Request) :
    (r.close now e).id = r.id ∧ (r.close now e).deviceId = r.deviceId ∧ (r.close now e).kind = r.kind ∧
      (r.close now e).pieces = r.pieces ∧
      ((r.close now e).status = r.status ∨ (r.close now e).status.ended = true) := by
  cases e with
  | none => exact ⟨rfl, rfl, rfl, rfl, .inl rfl⟩
  | some e => cases e <;> exact ⟨rfl, rfl, rfl, rfl, .inr rfl⟩

/-- A piece of a request under way adds one, and leaves it under way or ended. -/
theorem piece_kept (p : Piece) (now : Int) {r : Request} (h : pieceDue p r = none) :
    Kept (some r.id) false r (r.piece p now) := by
  have hsent : r.status ≠ .waiting ∧ r.status.ended = false := by
    unfold pieceDue at h
    split at h
    · cases h
    · split at h
      · cases h
      · rename_i hn
        cases hs : r.status <;> simp_all [RequestStatus.ended]
  obtain ⟨hwait, hend⟩ := hsent
  have hgo : ∀ s : Request, s.id = r.id → s.deviceId = r.deviceId → s.kind = r.kind → s.pieces = r.pieces + 1 →
      (s.status = r.status ∨ s.status = .fetching) → ∀ e, Kept (some r.id) false r (s.close now e) := by
    intro s hid hboard hkind hpieces hstatus e
    obtain ⟨hid', hboard', hkind', hpieces', hstatus'⟩ := close_same now e s
    refine ⟨hid'.trans hid, hboard'.trans hboard, hkind'.trans hkind, fun hw => ?_,
      fun he => absurd he (by simp [hend]), by rw [hpieces', hpieces, if_pos rfl]⟩
    rcases hstatus' with h | h
    · rw [h] at hw
      rcases hstatus with h' | h' <;> rw [h'] at hw
      · exact hw
      · cases hw
    · rw [hw] at h
      cases h
  unfold Request.piece
  dsimp only
  split
  · split
    · refine hgo _ ?_ ?_ ?_ ?_ (.inl ?_) _ <;> rfl
    · refine hgo _ ?_ ?_ ?_ ?_ (.inl ?_) _ <;> rfl
  · split <;> split
    · refine hgo _ ?_ ?_ ?_ ?_ (.inr ?_) _ <;> rfl
    · refine hgo _ ?_ ?_ ?_ ?_ (.inl ?_) _ <;> rfl
    · refine hgo _ ?_ ?_ ?_ ?_ (.inr ?_) _ <;> rfl
    · refine hgo _ ?_ ?_ ?_ ?_ (.inl ?_) _ <;> rfl

namespace Db

theorem mem_unique {db : Db} (hnodup : (db.requests.map Request.id).Nodup) {r s : Request}
    (hr : r ∈ db.requests) (hs : s ∈ db.requests) (h : r.id = s.id) : r = s :=
  List.inj_on_of_nodup_map hnodup hr hs h

theorem answerPiece_turn {db : Db} (hnodup : (db.requests.map Request.id).Nodup) (board rid : String) (p : Piece)
    (renamed : Option Units) (now : Int) :
    Turn dev ((db.appliedPiece board rid p).map Prod.fst) false [] db (db.answerPiece board rid p renamed now).2 := by
  unfold answerPiece appliedPiece
  cases hr : db.requests.find? (fun r => r.id == rid && r.deviceId == board) with
  | none => exact .refl db
  | some r =>
    have hfound := List.find?_some hr
    have hid : r.id = rid := beq_iff_eq.1 (Bool.and_eq_true_iff.1 hfound).1
    have hmem := List.mem_of_find?_eq_some hr
    dsimp only
    cases hdue : pieceDue p r with
    | some result =>
      rw [if_neg fun h => nomatch h]
      exact .refl db
    | none =>
      rw [if_pos rfl]
      refine (db.setRequests_turn (fun s hs hp => ?_) fun s hs hp => ?_).andThen (afterPiece_turn _ _ _ _)
      · obtain rfl := mem_unique hnodup hs hmem ((beq_iff_eq.1 hp).trans hid.symm)
        rw [Option.map_some, ← hid]
        exact piece_kept p now hdue
      · rintro heq
        have heq : rid = s.id := Option.some.inj heq
        rw [heq, beq_self_eq_true] at hp
        cases hp

/-- The piece applied is the one behind those there. -/
theorem applied_next {db : Db} (h : db.appliedPiece board rid p = some (i, n)) :
    ∃ r ∈ db.requests, r.id = i ∧ n = r.pieces := by
  unfold appliedPiece at h
  split at h
  · rename_i r hr
    split at h
    · rename_i hdue
      obtain ⟨rfl, rfl⟩ := Prod.mk.inj (Option.some.inj h)
      have hfound := List.find?_some hr
      refine ⟨r, List.mem_of_find?_eq_some hr, beq_iff_eq.1 (Bool.and_eq_true_iff.1 hfound).1, ?_⟩
      unfold pieceDue at hdue
      split at hdue
      · cases hdue
      · rename_i hrep
        split at hdue
        · cases hdue
        · rename_i hout
          simp only [Bool.or_eq_true, decide_eq_true_eq, not_or] at hrep hout
          omega
    · cases h
  · cases h

-- ---------------------------------------------------------------------------
-- A get's file
-- ---------------------------------------------------------------------------

theorem live_kept {r s : Request} (hlive : liveGet r = true) (hid : s.id = r.id) (hboard : s.deviceId = r.deviceId)
    (hkind : s.kind = r.kind) (hpieces : s.pieces = r.pieces) (hwait : s.status ≠ .waiting) : Kept none true r s := by
  refine ⟨hid, hboard, hkind, fun h => absurd h hwait, fun he => .inr ⟨rfl, ?_⟩, by simpa using hpieces⟩
  simp only [liveGet, Bool.and_eq_true, Bool.or_eq_true, beq_iff_eq] at hlive
  obtain ⟨hget, (hs | hs) | ⟨hf, ht⟩⟩ := hlive
  · rw [hs] at he
    cases he
  · rw [hs] at he
    cases he
  · exact ⟨hget, hf, ht⟩

theorem touch_turn (db : Db) (p : Request → Bool) (now : Int) (upload : Option String) :
    Turn dev none true [] db (db.setRequests (fun r => p r && liveGet r) (Request.touch now upload)) :=
  db.set_turn fun _ _ hp =>
    live_kept (Bool.and_eq_true_iff.1 hp).2 rfl rfl rfl rfl fun h => RequestStatus.noConfusion h

theorem claimGet_turn (db : Db) (uploadId : String) (now : Int) :
    Turn dev none true [] db (db.claimGet uploadId now).2 := by
  unfold claimGet
  split
  · exact .refl db
  · exact db.set_turn fun _ _ hp =>
      live_kept (Bool.and_eq_true_iff.1 hp).2 rfl rfl rfl rfl fun h => RequestStatus.noConfusion h

theorem settleGet_turn (db : Db) (rid : String) (e : End) (now : Int) (onlyFrom : Option RequestStatus) :
    Turn dev none false [] db (db.settleGet rid e now onlyFrom) := by
  refine db.set_turn fun r _ _ => ?_
  cases e with
  | done => exact .status rfl rfl rfl rfl (fun h => RequestStatus.noConfusion h) (.inl rfl)
  | failed code => exact kept_fail code now r

-- ---------------------------------------------------------------------------
-- The queue
-- ---------------------------------------------------------------------------

/-- The boards keep their versions. -/
theorem reqVersions_update (db : Db) {f : Device → Device} (p : Device → Bool) (hid : ∀ d, (f d).id = d.id)
    (hv : ∀ d, (f d).reqVersion = d.reqVersion) (dev : String) :
    (({ db with devices := update p f db.devices } : Db).device dev).map Device.reqVersion =
      (db.device dev).map Device.reqVersion := by
  rw [device_update db hid p dev, Option.map_map]
  congr 1
  funext d
  rw [Function.comp_apply]
  split
  · exact hv d
  · rfl

theorem reqVersions_bumpSend (db : Db) (p : String → Bool) (dev : String) :
    ((db.bumpSend p).device dev).map Device.reqVersion = (db.device dev).map Device.reqVersion :=
  db.reqVersions_update (fun d => p d.id) (f := fun d => { d with sendVersion := d.sendVersion + 1 })
    (fun _ => rfl) (fun _ => rfl) dev

theorem bumpSend_turn (db : Db) (p : String → Bool) : Turn dev none back [] db (db.bumpSend p) :=
  .of_eq rfl (reqVersions_bumpSend db p dev)

theorem report_turn (db : Db) (board : String) (rx : Rx) (cap : Option Cap) (poll : Bool) (now : Int) :
    Turn dev none back [] db (db.recordSendRx board rx cap poll now) := by
  refine .of_eq rfl (reqVersions_update _ _ (fun d => ?_) (fun d => ?_) dev)
  · cases h : flagsOf rx cap poll <;> rfl
  · cases h : flagsOf rx cap poll <;> rfl

theorem cancelQueueSends_turn (db : Db) (orgId board : String) (now : Int) :
    Turn dev none false [] db (db.cancelQueueSends orgId board now) := by
  unfold cancelQueueSends
  dsimp only
  split
  · exact .of_eq rfl (reqVersions_bumpSend _ _ dev)
  · exact .refl db

theorem failWritesWhenOff_turn (db : Db) (board : String) (now : Int) :
    Turn dev none false [] db (db.failWritesWhenOff board now) := by
  unfold failWritesWhenOff
  dsimp only
  refine Turn.after ?_ (set_turn _ fun _ _ _ =>
    .status rfl rfl rfl rfl (fun h => RequestStatus.noConfusion h) (.inl rfl))
  split
  · exact .of_eq rfl (reqVersions_bumpSend _ _ dev)
  · exact .of_eq rfl rfl

theorem finishTransfer_turn (db : Db) (board : String) (id : Units) (o : Outcome) (now : Int) :
    Turn dev none false [] db (db.finishTransfer board id o now) := by
  unfold finishTransfer
  dsimp only
  split
  · exact .of_eq rfl (reqVersions_bumpSend _ _ dev)
  · exact .refl db

theorem cancelTransfer_turn (db : Db) (orgId : String) (id : Units) (now : Int) :
    Turn dev none false [] db (db.cancelTransfer orgId id now) := by
  unfold cancelTransfer
  dsimp only
  split
  · exact .of_eq rfl (reqVersions_bumpSend _ _ dev)
  · exact .refl db

theorem expireTransfers_turn (db : Db) (now : Int) : Turn dev none false [] db (db.expireTransfers now) := by
  have hkeep : ∀ (rows : Db) p, Turn dev none false [] rows { rows with transfers := rows.transfers.filter p } :=
    fun _ _ => .of_eq rfl rfl
  unfold expireTransfers
  refine Turn.after (Turn.after ?_ (bumpSend_turn _ _)) (hkeep _ _)
  exact .of_eq rfl rfl

theorem insertQueued_turn (db : Db) (board : String) (now : Int) (rows : List Transfer) :
    Turn dev none false [] db (db.insertQueued board now rows) := by
  unfold insertQueued
  dsimp only
  split
  · exact .refl db
  · have hrows : Turn dev none false [] db { db with transfers := db.transfers ++ rows } := .of_eq rfl rfl
    unfold insertTransfers
    split
    · rw [Option.map_some, Option.getD_some]
      exact hrows.after (bumpSend_turn _ _)
    · exact .refl db

theorem queueTransfers_turn (db : Db) (orgId board : String) (job : Option String) (files : List JobFile) (now : Int) :
    Turn dev none false [] db (db.queueTransfers orgId board job files now) := by
  unfold queueTransfers
  split
  · split
    · exact .refl db
    · exact db.insertQueued_turn _ _ _
  · exact .refl db

theorem relay_turn {db db' : Db} (h : db.relay g r tid file stored now = some db') :
    Turn dev none false [] db db' := by
  unfold relay at h
  split at h
  · cases h
  · dsimp only at h
    split at h
    · obtain rfl := Option.some.inj h
      exact db.queueTransfers_turn _ _ _ _ _
    · cases h

-- ---------------------------------------------------------------------------
-- Handing out
-- ---------------------------------------------------------------------------

/-- A hand-out of rows that wait, none of them among those refused. -/
theorem handOut_turn {db : Db} {board : String} {refused : List (String × String)} {picked : List String}
    (hwait : ∀ r ∈ db.requests, r.id ∈ picked → r.status = .waiting)
    (hapart : ∀ i ∈ picked, refused.lookup i = none) (now : Int) :
    Turn dev none false [] db (db.handOut board refused picked now) := by
  unfold handOut
  dsimp only
  have hfirst : Turn dev none false [] db (db.setRequests (fun r => (refused.lookup r.id).isSome)
      fun r => r.fail ((refused.lookup r.id).getD "") now) := db.set_turn fun r _ _ => kept_fail _ now r
  split
  · exact hfirst
  · have hthen : Turn dev none false []
        (db.setRequests (fun r => (refused.lookup r.id).isSome) fun r => r.fail ((refused.lookup r.id).getD "") now)
        ((db.setRequests (fun r => (refused.lookup r.id).isSome) fun r =>
          r.fail ((refused.lookup r.id).getD "") now).setRequests (fun r => picked.contains r.id) (Request.hand now)) := by
      refine set_turn _ fun s hs hp => ?_
      obtain ⟨r, hr, rfl⟩ := List.mem_map.1 hs
      have hin : r.id ∈ picked := by
        have := List.contains_iff_mem.1 hp
        split at this <;> exact this
      have hnot : ¬(refused.lookup r.id).isSome = true := by simp [hapart r.id hin]
      rw [if_neg hnot]
      exact .status rfl rfl rfl rfl (fun h => RequestStatus.noConfusion h) (.inr (by rw [hwait r hr hin]; rfl))
    split
    · exact (hfirst.after hthen).after (bumpReq_turn _ _)
    · exact hfirst.after hthen

-- ---------------------------------------------------------------------------
-- Settling and cancelling
-- ---------------------------------------------------------------------------

theorem unmarkParts_turn (db : Db) (parts : List Request) (rows : List Transfer) :
    Turn dev none false [] db (db.unmarkParts parts rows) := by
  have hparts : Turn dev none false [] db
      (db.setRequests (fun r => (parts.map Request.id).contains r.id) Request.unmark) :=
    db.set_turn fun _ _ _ => .same rfl rfl rfl rfl rfl
  exact hparts.after (.of_eq rfl rfl)

theorem claimMove_turn (db : Db) (dev : String) (d : Decision) (changed : List (String × Units)) (now : Int) :
    ∃ new, new.map Request.id = changed.map Prod.fst ++ [d.said] ∧
      Turn dev none false new db (db.claimMove d changed now) := by
  refine ⟨_, ?_, ((db.insert_quiet fun r hr => ?_).seq (insert_quiet _ fun r hr => ?_)).andThen
    (unmarkParts_turn _ _ _)⟩
  · rw [List.map_append, List.map_map]
    rfl
  · obtain ⟨c, -, rfl⟩ := List.mem_map.1 hr
    exact ⟨fun h => RequestStatus.noConfusion h, rfl⟩
  · rw [List.mem_singleton.1 hr]
    exact ⟨fun h => RequestStatus.noConfusion h, rfl⟩

theorem recordRemoval_turn (db : Db) (d : Decision) (out : Removal) (now : Int) :
    Turn dev none false [] db (db.recordRemoval d out now) := by
  unfold recordRemoval
  cases out with
  | removed => exact db.filter_turn _
  | kept => exact db.set_turn fun _ _ _ => .status rfl rfl rfl rfl (fun h => RequestStatus.noConfusion h) (.inl rfl)
  | refused => exact db.fail_turn _ _ _

theorem removeCopied_turn (db : Db) (dev : String) (d : Decision) (board : String) (files : List Units) (ids : List String)
    (now : Int) :
    ∃ new, (new.map Request.id).Sublist ids ∧ Turn dev none false new db (db.removeCopied d board files ids now) := by
  obtain ⟨new, hids, hturn⟩ := db.addWrites_turn dev d.orgId board d.job
    ((ids.zip (removalPaths d files)).map fun p =>
      { id := p.1, kind := .delete, write := rfl, amigaPath := p.2, target := { Target.plain with one := true } }) now
  refine ⟨new, hids.trans ?_, hturn⟩
  rw [List.map_map]
  exact zip_fst_sublist _ _

theorem cancelRows_turn (db : Db) (orgId job : String) (now : Int) :
    Turn dev none false [] db (db.cancelRows orgId job now) := by
  unfold cancelRows
  dsimp only
  split
  · exact .of_eq rfl (reqVersions_bumpSend _ _ dev)
  · exact .refl _

theorem unmarkSeen_turn (db : Db) (orgId job : String) (seen : String → Bool) :
    Turn dev none false [] db (db.unmarkSeen orgId job seen) := by
  have hparts : Turn dev none false [] db
      (db.setRequests (fun r => r.fetchId == some job && r.orgId == orgId && marked r && seen r.id)
        fun r => { r with target := r.target.unmark }) :=
    db.set_turn fun _ _ _ => .same rfl rfl rfl rfl rfl
  exact hparts.after (.of_eq rfl rfl)

theorem withdraw_turn (db : Db) (dev : String) (p : Request → Bool) (now : Int) :
    Turn dev none false [] db (db.setRequests p
      fun r => { r with status := .failed, errorCode := some "cancelled", answeredAt := some now }) :=
  db.set_turn fun _ _ _ => .status rfl rfl rfl rfl (fun h => RequestStatus.noConfusion h) (.inl rfl)

theorem dropArriving_turn (db : Db) (orgId : String) (ids : List String) :
    Turn dev none false [] db (db.dropArriving orgId ids) :=
  .of_eq rfl rfl

theorem update_congr {p q : α → Bool} {f : α → α} {rows : List α} (h : ∀ a ∈ rows, p a = q a) :
    update p f rows = update q f rows :=
  List.map_congr_left fun a ha => by rw [h a ha]

/-- A cancel that holds all of the job's requests cancels the job. -/
theorem cancelSeen_all {db : Db} (h : ∀ r ∈ db.requests, r.fetchId = some job → seen r.id = true) (orgId cid : String)
    (now : Int) : db.cancelSeen orgId job cid seen now = db.cancelParts orgId job cid now := by
  have hreqs : ((db.jobRequests orgId job).filter fun r => seen r.id) = db.jobRequests orgId job := by
    refine List.filter_eq_self.2 fun r hr => ?_
    obtain ⟨hr, hjob⟩ := List.mem_filter.1 (List.mem_mergeSort.1 hr)
    simp only [Bool.and_eq_true, beq_iff_eq] at hjob
    exact h r hr hjob.1
  -- a row of the job is seen, whatever else is asked of it
  have hseen : ∀ (q : Request → Bool) (r : Request), (r.fetchId = some job → seen r.id = true) →
      (r.fetchId == some job && r.orgId == orgId && q r && seen r.id) =
        (r.fetchId == some job && r.orgId == orgId && q r) := by
    intro q r hr
    by_cases hjob : r.fetchId = some job
    · rw [hr hjob, Bool.and_true]
    · simp [hjob]
  have hwithdraw : ∀ f : Request → Request,
      db.setRequests (fun r => r.fetchId == some job && r.orgId == orgId && withdrawn r && seen r.id) f =
        db.setRequests (fun r => r.fetchId == some job && r.orgId == orgId && withdrawn r) f :=
    fun f => congrArg (fun rows => { db with requests := rows }) (update_congr fun r hr => hseen withdrawn r (h r hr))
  have hunmark : ∀ t : Db, (∀ r ∈ t.requests, r.fetchId = some job → seen r.id = true) →
      t.unmarkSeen orgId job seen = t.unmarkJob orgId job := fun t ht => by
    unfold unmarkSeen unmarkJob
    have hset := congrArg (fun rows => ({ t with requests := rows } : Db))
      (update_congr (f := fun r => { r with target := r.target.unmark }) fun r hr => hseen marked r (ht r hr))
    exact congrArg (fun t' => setTransfers t' _ _) hset
  unfold cancelSeen cancelParts
  dsimp only
  rw [hreqs, hwithdraw]
  split
  · rfl
  · rw [hunmark]
    intro r hr hjob
    have hset : r ∈ (db.setRequests (fun r => r.fetchId == some job && r.orgId == orgId && withdrawn r)
        fun r => { r with status := .failed, errorCode := some "cancelled", answeredAt := some now }).requests := by
      unfold cancelRows at hr
      dsimp only at hr
      split at hr
      · exact hr
      · exact hr
    obtain ⟨r₀, hr₀, rfl⟩ := List.mem_map.1 hset
    have := h r₀ hr₀
    split at hjob <;> split <;> simp_all

theorem cancelSeen_turn (db : Db) (dev : String) (orgId job cid : String) (seen : String → Bool) (now : Int) :
    ∃ new, (new.map Request.id).Sublist [cid] ∧
      Turn dev none false new db (db.cancelSeen orgId job cid seen now) := by
  unfold cancelSeen
  dsimp only
  split
  · exact ⟨[], List.nil_sublist _, .refl db⟩
  · have hwithdrawn := db.withdraw_turn dev
      (fun r => r.fetchId == some job && r.orgId == orgId && withdrawn r && seen r.id) now
    have hstop := fun arriving => ((hwithdrawn.after (dropArriving_turn _ orgId arriving)).after
      (cancelRows_turn _ orgId job now)).after (unmarkSeen_turn _ orgId job seen)
    split
    · refine ⟨[cancelRow cid orgId _ job now], List.Sublist.refl _, (hstop _).after (insert_quiet _ fun r hr => ?_)⟩
      rw [List.mem_singleton.1 hr]
      exact ⟨fun h => RequestStatus.noConfusion h, rfl⟩
    · exact ⟨[], List.nil_sublist _, hstop _⟩

theorem settled_turn (db : Db) (dev : String) (orgId job : String) (parts : List Request) (rows : List Transfer) (v : Verdict)
    (now : Int) :
    ∃ new, (new.map Request.id).Sublist v.drawn ∧
      Turn dev none false new db (db.settled orgId job parts rows v now) := by
  cases v with
  | waits => exact ⟨[], List.nil_sublist _, .refl db⟩
  | unmark => exact ⟨[], List.nil_sublist _, db.unmarkParts_turn parts rows⟩
  | asks paths =>
    obtain ⟨new, hids, hturn⟩ := db.addListings_turn dev orgId (moveBoard parts rows) job paths now
    exact ⟨new, hids, hturn.andThen (set_turn _ fun _ _ _ => .same rfl rfl rfl rfl rfl)⟩
  | decides d changed =>
    obtain ⟨new, hids, hturn⟩ := db.claimMove_turn dev d changed now
    exact ⟨new, hids ▸ List.Sublist.refl _, hturn⟩

end Db

-- ---------------------------------------------------------------------------
-- Statements
-- ---------------------------------------------------------------------------

theorem Stmt.turn (s : Stmt) (dev : String) {db : Db} (hnodup : (db.requests.map Request.id).Nodup) (now : Int) :
    ∃ new, (new.map Request.id).Sublist s.draws ∧
      Turn dev ((s.applies db).map Prod.fst) true new db (s.run now db) := by
  have hone : ∀ {db' : Db}, Turn dev none false [] db db' →
      ∃ new, (new.map Request.id).Sublist [] ∧ Turn dev none true new db db' :=
    fun h => ⟨[], List.nil_sublist _, h.loose⟩
  cases s with
  | listing rid orgId board drawer path fresh moving =>
    obtain ⟨new, hids, h⟩ := db.requestListing_turn dev rid orgId board (if drawer then .dir else .vols)
      path fresh moving now
    exact ⟨new, hids, h.loose⟩
  | gets orgId board fetchId files =>
    obtain ⟨new, hids, h⟩ := db.addGets_turn dev orgId board fetchId files now
    exact ⟨new, hids, h.loose⟩
  | writes orgId board job ws =>
    obtain ⟨new, hids, h⟩ := db.addWrites_turn dev orgId board job ws now
    exact ⟨new, hids, h.loose⟩
  | expireLines moving => exact hone (db.fail_turn _ _ _)
  | expireGets => exact hone (db.fail_turn _ _ _)
  | expireSettling => exact hone (db.fail_turn _ _ _)
  | expirePlacing => exact hone (db.fail_turn _ _ _)
  | answer board rid p renamed =>
    exact ⟨[], List.nil_sublist _, (Db.answerPiece_turn hnodup board rid p renamed now).loose⟩
  | touch rid upload => exact ⟨[], List.nil_sublist _, db.touch_turn (fun r => r.id == rid) now upload⟩
  | touchOf uploadId =>
    exact ⟨[], List.nil_sublist _, db.touch_turn (fun r => r.uploadId == some uploadId) now none⟩
  | release uploadId rid => exact hone (db.set_turn fun _ _ _ => .same rfl rfl rfl rfl rfl)
  | failGet rid code => exact hone (db.settleGet_turn rid (.failed code) now none)
  | failWrites board => exact hone (db.failWritesWhenOff_turn board now)
  | report board rx cap poll => exact hone (db.report_turn board rx cap poll now)
  | finish board id o => exact hone (db.finishTransfer_turn board id o now)
  | cancelTransfer orgId id => exact hone (db.cancelTransfer_turn orgId id now)
  | cancelQueue orgId board => exact hone (db.cancelQueueSends_turn orgId board now)
  | clear orgId id => exact hone (.of_eq rfl rfl)
  | expireTransfers => exact hone (db.expireTransfers_turn now)

end WebAdf.Server
