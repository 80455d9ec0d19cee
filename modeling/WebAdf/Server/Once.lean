import Mathlib.Data.List.Flatten
import WebAdf.Lib.Run
import WebAdf.Server.Turns

/-!
# Handed out once, answered in order

The log tells which requests were handed out and which pieces were applied. A row
that waits was not handed out; a row's pieces are those applied to it. Rows someone
holds stay as they are until he is done.
-/

namespace WebAdf.Server

open Lib Send

-- ---------------------------------------------------------------------------
-- The log
-- ---------------------------------------------------------------------------

/-- The requests handed out, the newest first. -/
def handedIds (log : List Event) : List String :=
  log.filterMap fun
    | .handed i => some i
    | _ => none

/-- The pieces applied to a request, the newest first. -/
def appliedTo (i : String) (log : List Event) : List Nat :=
  log.filterMap fun
    | .applied j n => if j = i then some n else none
    | _ => none

theorem handedIds_append (a b : List Event) : handedIds (a ++ b) = handedIds a ++ handedIds b :=
  List.filterMap_append ..

theorem appliedTo_append (i : String) (a b : List Event) : appliedTo i (a ++ b) = appliedTo i a ++ appliedTo i b :=
  List.filterMap_append ..

theorem handedIds_handed (ids : List String) : handedIds (ids.map Event.handed) = ids := by
  rw [handedIds, List.filterMap_map]
  exact List.filterMap_some

theorem appliedTo_handed (i : String) (ids : List String) : appliedTo i (ids.map Event.handed) = [] := by
  rw [appliedTo, List.filterMap_map]
  exact List.filterMap_none ids

/-- Events that are neither. -/
def Quiet (log : List Event) : Prop := handedIds log = [] ∧ ∀ i, appliedTo i log = []

theorem quiet_nil : Quiet [] := ⟨rfl, fun _ => rfl⟩

-- ---------------------------------------------------------------------------
-- Tables and log
-- ---------------------------------------------------------------------------

structure Books (dev : String) (used : List String) (log : List Event) (db : Db) : Prop where
  ids : (db.requests.map Request.id).Nodup
  known : ∀ r ∈ db.requests, r.id ∈ used
  unknown : ∀ i, i ∉ used → i ∉ handedIds log ∧ appliedTo i log = []
  once : (handedIds log).Nodup
  unhanded : ∀ r ∈ db.requests, r.status = .waiting → r.id ∉ handedIds log
  pieces : ∀ r ∈ db.requests, appliedTo r.id log = (List.range r.pieces).reverse
  inOrder : ∀ i, ∃ n, appliedTo i log = (List.range n).reverse
  board : (db.device dev).isSome = true

theorem Books.note (h : Books dev used log db) (hq : Quiet new) : Books dev used (new ++ log) db := by
  have hh : handedIds (new ++ log) = handedIds log := by rw [handedIds_append, hq.1, List.nil_append]
  have ha : ∀ i, appliedTo i (new ++ log) = appliedTo i log := fun i => by
    rw [appliedTo_append, hq.2, List.nil_append]
  refine ⟨h.ids, h.known, fun i hi => ?_, hh ▸ h.once, fun r hr hw => ?_, fun r hr => ?_, fun i => ?_, h.board⟩
  · rw [hh, ha]
    exact h.unknown i hi
  · rw [hh]
    exact h.unhanded r hr hw
  · rw [ha]
    exact h.pieces r hr
  · rw [ha]
    exact h.inOrder i

theorem Books.noted (h : Books dev used log db) (e : Event) (hq : Quiet [e]) : Books dev used (e :: log) db :=
  h.note hq

/-- The next piece of a request, on top of those there. -/
theorem appliedTo_next (i j : String) (n : Nat) (log : List Event) :
    appliedTo j (Event.applied i n :: log) = if i = j then n :: appliedTo j log else appliedTo j log := by
  unfold appliedTo
  rw [List.filterMap_cons]
  by_cases h : i = j
  · simp [h]
  · simp [h]

theorem range_reverse_succ (n : Nat) : (List.range (n + 1)).reverse = n :: (List.range n).reverse := by
  rw [List.range_succ, List.reverse_append]
  rfl

/-- A transaction with the ids it draws and the piece it applies. -/
theorem Books.turn (h : Books dev used log db) (ht : Turn dev (a.map Prod.fst) back new db db')
    (ha : ∀ i n, a = some (i, n) → ∃ r ∈ db.requests, r.id = i ∧ n = r.pieces)
    (hids : (new.map Request.id).Sublist draws) (hdrawn : draws.Nodup ∧ ∀ i ∈ draws, i ∉ used) :
    Books dev (draws ++ used) ((a.map fun a => Event.applied a.1 a.2).toList ++ log) db' := by
  have hnew : ∀ r ∈ new, r.id ∈ draws := fun r hr => hids.subset (List.mem_map_of_mem hr)
  have hh : handedIds ((a.map fun a => Event.applied a.1 a.2).toList ++ log) = handedIds log := by
    cases a <;> rfl
  have happ : ∀ j, appliedTo j ((a.map fun a => Event.applied a.1 a.2).toList ++ log) =
      match a with
      | some (i, n) => if i = j then n :: appliedTo j log else appliedTo j log
      | none => appliedTo j log := fun j => by
    cases a with
    | none => rfl
    | some a => exact appliedTo_next a.1 j a.2 log
  refine ⟨?_, ?_, fun i hi => ?_, hh ▸ h.once, ?_, ?_, fun j => ?_, ht.board h.board⟩
  · refine ht.ids.nodup ?_
    rw [List.map_append, List.nodup_append]
    refine ⟨h.ids, hids.nodup hdrawn.1, fun i hi j hj hij => ?_⟩
    obtain ⟨r, hr, rfl⟩ := List.mem_map.1 hi
    exact hdrawn.2 j (hids.subset hj) (hij ▸ h.known r hr)
  · intro s hs
    obtain ⟨r, hr, hk⟩ := ht.rows s hs
    rw [hk.id]
    rcases List.mem_append.1 hr with hr | hr
    · exact List.mem_append_right _ (h.known r hr)
    · exact List.mem_append_left _ (hnew r hr)
  · have hi : i ∉ used := fun hu => hi (List.mem_append_right _ hu)
    rw [hh, happ]
    refine ⟨(h.unknown i hi).1, ?_⟩
    cases a with
    | none => exact (h.unknown i hi).2
    | some a =>
      obtain ⟨r, hr, hid, -⟩ := ha a.1 a.2 rfl
      dsimp only
      have hne : a.1 ≠ i := fun he => hi (he ▸ hid ▸ h.known r hr)
      rw [if_neg hne]
      exact (h.unknown i hi).2
  · intro s hs hw
    obtain ⟨r, hr, hk⟩ := ht.rows s hs
    rw [hh, hk.id]
    rcases List.mem_append.1 hr with hr | hr
    · exact h.unhanded r hr (hk.waiting hw)
    · exact (h.unknown _ (hdrawn.2 _ (hnew r hr))).1
  · intro s hs
    obtain ⟨r, hr, hk⟩ := ht.rows s hs
    rw [hk.id, hk.pieces, happ]
    -- a row put in has no piece, and nothing of the log is about it
    have hbase : appliedTo r.id log = (List.range r.pieces).reverse := by
      rcases List.mem_append.1 hr with hr | hr
      · exact h.pieces r hr
      · rw [ht.fresh r hr]
        exact (h.unknown _ (hdrawn.2 _ (hnew r hr))).2
    cases a with
    | none => exact hbase
    | some a =>
      obtain ⟨t, htm, hid, hn⟩ := ha a.1 a.2 rfl
      dsimp only
      by_cases hi : a.1 = r.id
      · have hpieces : t.pieces = r.pieces := by
          have hsame := h.pieces t htm
          rw [hid, hi, hbase] at hsame
          have := congrArg List.length hsame
          simp only [List.length_reverse, List.length_range] at this
          exact this.symm
        rw [if_pos hi, Option.map_some, if_pos (congrArg some hi), range_reverse_succ, hbase, hn, hpieces]
      · rw [if_neg hi, Option.map_some, if_neg fun he => hi (Option.some.inj he)]
        exact hbase
  · rw [happ]
    obtain ⟨n, hn⟩ := h.inOrder j
    cases a with
    | none => exact ⟨n, hn⟩
    | some a =>
      obtain ⟨r, hr, hid, hpieces⟩ := ha a.1 a.2 rfl
      dsimp only
      split
      · rename_i hij
        refine ⟨r.pieces + 1, ?_⟩
        rw [range_reverse_succ, hpieces, ← h.pieces r hr, hid, hij]
      · exact ⟨n, hn⟩

/-- A transaction that applies no piece. -/
theorem Books.silent (h : Books dev used log db) (ht : Turn dev none back new db db')
    (hids : (new.map Request.id).Sublist draws) (hdrawn : draws.Nodup ∧ ∀ i ∈ draws, i ∉ used) :
    Books dev (draws ++ used) log db' :=
  h.turn (a := none) ht (fun _ _ he => nomatch he) hids hdrawn

/-- One that draws nothing. -/
theorem Books.quiet (h : Books dev used log db) (ht : Turn dev none back [] db db') : Books dev used log db' :=
  have hnone : ([] : List String).Nodup ∧ ∀ i ∈ ([] : List String), i ∉ used := ⟨List.nodup_nil, by simp⟩
  h.silent ht (List.nil_sublist _) hnone

/-- The rows of a hand-out are handed out once. -/
theorem Books.hand {out : List String} (h : Books dev used log db) (hnodup : out.Nodup) (hused : ∀ i ∈ out, i ∈ used)
    (hnew : ∀ i ∈ out, i ∉ handedIds log) (hgone : ∀ r ∈ db.requests, r.id ∈ out → r.status ≠ .waiting) :
    Books dev used (out.map Event.handed ++ log) db := by
  have hh : handedIds (out.map Event.handed ++ log) = out ++ handedIds log := by
    rw [handedIds_append, handedIds_handed]
  have ha : ∀ i, appliedTo i (out.map Event.handed ++ log) = appliedTo i log := fun i => by
    rw [appliedTo_append, appliedTo_handed, List.nil_append]
  refine ⟨h.ids, h.known, fun i hi => ?_, ?_, fun r hr hw => ?_, fun r hr => ?_, fun i => ?_, h.board⟩
  · rw [hh, ha]
    obtain ⟨hn, ha⟩ := h.unknown i hi
    exact ⟨fun hm => (List.mem_append.1 hm).elim (fun hm => hi (hused i hm)) hn, ha⟩
  · rw [hh, List.nodup_append]
    exact ⟨hnodup, h.once, fun i hi j hj hij => hnew i hi (hij ▸ hj)⟩
  · rw [hh]
    exact fun hm => (List.mem_append.1 hm).elim (fun hm => hgone r hr hm hw) (h.unhanded r hr hw)
  · rw [ha]
    exact h.pieces r hr
  · rw [ha]
    exact h.inOrder i

-- ---------------------------------------------------------------------------
-- Rows someone holds
-- ---------------------------------------------------------------------------

theorem mem_update {p : α → Bool} {f : α → α} {rows : List α} (h : a ∈ rows) (hp : p a = false) :
    a ∈ update p f rows := by
  have := List.mem_map_of_mem (f := fun r => if p r then f r else r) h
  rwa [hp] at this

namespace Db

theorem mem_setRequests {db : Db} {p : Request → Bool} {f : Request → Request} (h : r ∈ db.requests)
    (hp : p r = false) : r ∈ (db.setRequests p f).requests :=
  mem_update h hp

theorem not_contains {ids : List String} (h : i ∉ ids) : ids.contains i = false := by
  rw [← Bool.not_eq_true, List.contains_iff_mem]
  exact h

/-- A hand-out changes the rows it holds. -/
theorem handOut_frame {db : Db} {refused : List (String × String)} {picked : List String} (h : r ∈ db.requests) (href : r.id ∉ refused.map Prod.fst) (hpick : r.id ∉ picked) :
    r ∈ (db.handOut board refused picked now).requests := by
  have hlook : refused.lookup r.id = none := by
    rw [List.lookup_eq_none_iff]
    intro p hp
    have hne : r.id ≠ p.1 := fun he => href (he ▸ List.mem_map_of_mem hp)
    simpa using hne
  have hfirst : r ∈ (db.setRequests (fun r => (refused.lookup r.id).isSome)
      fun r => r.fail ((refused.lookup r.id).getD "") now).requests := mem_setRequests h (by simp [hlook])
  unfold handOut
  dsimp only
  split
  · exact hfirst
  · have hthen := mem_setRequests (p := fun r => picked.contains r.id) (f := Request.hand now) hfirst
      (not_contains hpick)
    split
    · exact hthen
    · exact hthen

/-- What was picked has been handed out. -/
theorem handOut_gone {db : Db} {refused : List (String × String)} {picked : List String} (h : s ∈ (db.handOut board refused picked now).requests)
    (hpick : s.id ∈ picked) : s.status ≠ .waiting := by
  have hne : picked ≠ [] := List.ne_nil_of_mem hpick
  unfold handOut at h
  dsimp only at h
  rw [if_neg hne] at h
  have hset : s ∈ update (fun r => picked.contains r.id) (Request.hand now)
      (db.setRequests (fun r => (refused.lookup r.id).isSome)
        fun r => r.fail ((refused.lookup r.id).getD "") now).requests := by
    split at h
    · exact h
    · exact h
  obtain ⟨r, -, rfl⟩ := List.mem_map.1 hset
  by_cases hp : picked.contains r.id = true
  · rw [if_pos hp]
    exact fun hf => RequestStatus.noConfusion hf
  · rw [if_neg hp] at hpick
    exact absurd (List.contains_iff_mem.2 hpick) hp

theorem unmarkParts_frame {db : Db} (h : r ∈ db.requests) (hparts : r.id ∉ parts.map Request.id) :
    r ∈ (db.unmarkParts parts rows).requests :=
  mem_setRequests h (not_contains hparts)

/-- A decision says the move it is of. -/
theorem verdict_decides {db : Db} (h : db.verdict orgId job source parts rows ids blocked = .decides d changed) :
    d.parts = parts ∧ d.rows = rows ∧ d.orgId = orgId ∧ d.job = job ∧ d.source = source ∧ d.said = ids.said := by
  unfold verdict at h
  split at h
  · cases h
  · split at h
    · cases h
    · split at h
      · cases h
      · split at h
        · cases h
        · dsimp only at h
          split at h
          · obtain ⟨rfl, -⟩ := Verdict.decides.inj h
            exact ⟨rfl, rfl, rfl, rfl, rfl, rfl⟩
          · split at h
            · cases h
            · split at h
              · cases h
              · cases h
              · obtain ⟨rfl, -⟩ := Verdict.decides.inj h
                exact ⟨rfl, rfl, rfl, rfl, rfl, rfl⟩
              · obtain ⟨rfl, -⟩ := Verdict.decides.inj h
                exact ⟨rfl, rfl, rfl, rfl, rfl, rfl⟩

theorem settled_frame {db : Db} {parts : List Request} (hv : ∀ d changed, v = .decides d changed → d.parts = parts)
    (h : r ∈ db.requests) (hparts : r.id ∉ parts.map Request.id) :
    r ∈ (db.settled orgId job parts rows v now).requests := by
  cases v with
  | waits => exact h
  | unmark => exact unmarkParts_frame h hparts
  | asks paths =>
    have hadd : r ∈ (db.addListings orgId (moveBoard parts rows) job paths now).requests := by
      unfold addListings
      split
      · exact h
      · exact List.mem_append_left _ h
    refine mem_setRequests hadd (not_contains fun hm => hparts ?_)
    obtain ⟨g, hg, hid⟩ := List.mem_map.1 hm
    exact hid ▸ List.mem_map_of_mem (List.mem_of_mem_filter hg)
  | decides d changed =>
    refine unmarkParts_frame (List.mem_append_left _ (List.mem_append_left _ h)) ?_
    rw [hv d changed rfl]
    exact hparts

theorem cancelSeen_frame {db : Db} (h : r ∈ db.requests) (hseen : seen r.id = false) :
    r ∈ (db.cancelSeen orgId job cid seen now).requests := by
  have hstop : ∀ arriving, r ∈ ((((db.setRequests
      (fun r => r.fetchId == some job && r.orgId == orgId && withdrawn r && seen r.id)
      (fun r => { r with status := .failed, errorCode := some "cancelled", answeredAt := some now })
        ).dropArriving orgId arriving).cancelRows orgId job now).unmarkSeen orgId job seen).requests := by
    intro arriving
    refine mem_setRequests ?_ (by simp [hseen])
    have hset : r ∈ (db.setRequests
        (fun r => r.fetchId == some job && r.orgId == orgId && withdrawn r && seen r.id)
        (fun r => { r with status := .failed, errorCode := some "cancelled", answeredAt := some now })).requests :=
      mem_setRequests h (by simp [hseen])
    unfold cancelRows
    dsimp only
    split
    · exact hset
    · exact hset
  unfold cancelSeen
  dsimp only
  split
  · exact h
  · split
    · exact List.mem_append_left _ (hstop _)
    · exact hstop _

theorem checkOff_asks {requests gets : List Request} (h : checkOffVolume requests gets ids blocked = .waiting (some asked)) :
    asked = ids.verify.zip (distinctPaths (gets.map fun g => parentOf g.amigaPath)) := by
  unfold checkOffVolume at h
  split at h
  · split at h
    · cases h
    · exact (Option.some.inj (Checked.waiting.inj h)).symm
  · dsimp only at h
    split at h <;> cases h

/-- A settle draws its listings' ids, or its record's and those of what it leaves. -/
theorem verdict_drawn (db : Db) (orgId job : String) (source : Units) (parts : List Request) (rows : List Transfer)
    (ids : SettleIds) (blocked : Bool) :
    (db.verdict orgId job source parts rows ids blocked).drawn.Sublist ids.draws := by
  have hsaid : [ids.said].Sublist ids.draws :=
    (List.sublist_append_right _ _).trans (List.sublist_append_right _ _)
  unfold verdict
  split
  · exact List.nil_sublist _
  · split
    · exact List.nil_sublist _
    · split
      · exact List.nil_sublist _
      · split
        · exact List.nil_sublist _
        · dsimp only
          split
          · exact hsaid
          · split
            · exact List.nil_sublist _
            · split
              · exact List.nil_sublist _
              · rename_i hc
                obtain rfl := checkOff_asks hc
                exact (zip_fst_sublist _ _).trans (List.sublist_append_left _ _)
              · exact hsaid
              · exact (List.Sublist.append (zip_fst_sublist _ _) (List.Sublist.refl _)).trans
                  (List.sublist_append_right _ _)

theorem relay_requests {db db' : Db} (h : db.relay g r tid file stored now = some db') :
    db'.requests = db.requests := by
  unfold relay at h
  split at h
  · cases h
  · dsimp only at h
    split at h
    · obtain rfl := Option.some.inj h
      unfold queueTransfers
      split
      · split
        · rfl
        · unfold insertQueued
          dsimp only
          split
          · rfl
          · unfold insertTransfers
            split <;> rfl
      · rfl
    · cases h

end Db

-- ---------------------------------------------------------------------------
-- Every step
-- ---------------------------------------------------------------------------

def Open.picked : Open → List String
  | .take _ _ picked _ => picked
  | _ => []

theorem Open.picked_ids {o : Open} (h : i ∈ o.picked) : i ∈ o.ids := by
  cases o with
  | take => exact List.mem_append_right _ h
  | settle => cases h
  | cancel => cases h

structure World.Ok (dev : String) (w : World) : Prop where
  books : Books dev w.used w.log w.db
  held : (w.running.flatMap Open.ids).Nodup
  picked : ∀ o ∈ w.running, ∀ i ∈ o.picked, ∃ r ∈ w.db.requests, r.id = i ∧ r.status = .waiting

namespace World

theorem holds_iff {w : World} : w.holds i = true ↔ i ∈ w.running.flatMap Open.ids := by
  rw [holds, List.any_eq_true, List.mem_flatMap]
  exact ⟨fun ⟨o, ho, hi⟩ => ⟨o, ho, List.contains_iff_mem.1 hi⟩, fun ⟨o, ho, hi⟩ => ⟨o, ho, List.contains_iff_mem.2 hi⟩⟩

/-- What waits for rows to be let go leaves a hand-out's rows. -/
theorem Ok.kept {w : World} {t : Db} (h : w.Ok dev) (hfree : w.Free t) :
    ∀ o ∈ w.running, ∀ i ∈ o.picked, ∃ r ∈ t.requests, r.id = i ∧ r.status = .waiting := by
  intro o ho i hi
  obtain ⟨r, hr, rfl, hw⟩ := h.picked o ho i hi
  exact ⟨r, hfree r hr (holds_iff.2 (List.mem_flatMap.2 ⟨o, ho, Open.picked_ids hi⟩)), rfl, hw⟩

/-- What one ends with leaves the others' rows. -/
theorem Ok.others {w : World} {t : Db} (h : w.Ok dev) (here : w.running = as ++ o :: bs)
    (hframe : ∀ r ∈ w.db.requests, r.id ∉ o.ids → r ∈ t.requests) :
    ∀ o' ∈ as ++ bs, ∀ i ∈ o'.picked, ∃ r ∈ t.requests, r.id = i ∧ r.status = .waiting := by
  intro o' ho' i hi
  have hheld := h.held
  rw [here] at hheld
  have hmem : o' ∈ w.running := by
    rw [here]
    rcases List.mem_append.1 ho' with ho' | ho'
    · exact List.mem_append_left _ ho'
    · exact List.mem_append_right _ (List.mem_cons_of_mem _ ho')
  obtain ⟨r, hr, rfl, hw⟩ := h.picked o' hmem i hi
  refine ⟨r, hframe r hr fun hin => ?_, rfl, hw⟩
  -- one row is not held twice
  rw [List.flatMap_append, List.flatMap_cons, List.nodup_append] at hheld
  obtain ⟨-, hrest, happ⟩ := hheld
  rw [List.nodup_append] at hrest
  rcases List.mem_append.1 ho' with ho' | ho'
  · exact happ _ (List.mem_flatMap.2 ⟨o', ho', Open.picked_ids hi⟩) _ (List.mem_append_left _ hin) rfl
  · exact hrest.2.2 _ hin _ (List.mem_flatMap.2 ⟨o', ho', Open.picked_ids hi⟩) rfl

theorem Ok.dropped {w : World} (h : w.Ok dev) (here : w.running = as ++ o :: bs) :
    ((as ++ bs).flatMap Open.ids).Nodup := by
  have hheld := h.held
  rw [here] at hheld
  exact ((List.Sublist.append (List.Sublist.refl as) (List.sublist_cons_self o bs)).flatMap Open.ids).nodup hheld

/-- Rows nobody holds, held from now on. -/
theorem Ok.taken {w : World} (h : w.Ok dev) {o : Open} (hnodup : o.ids.Nodup)
    (hfree : ∀ i ∈ o.ids, w.holds i = false) : ((o :: w.running).flatMap Open.ids).Nodup := by
  rw [List.flatMap_cons, List.nodup_append]
  refine ⟨hnodup, h.held, fun i hi j hj hij => ?_⟩
  have := hfree i hi
  rw [hij, holds_iff.2 hj] at this
  cases this

/-- A hand-out's rows wait, and none of them is among those it refuses. -/
theorem Ok.hands {w : World} {refused : List (String × String)} {picked : List String} (h : w.Ok dev)
    (here : w.running = as ++ .take board refused picked asked :: bs) :
    (∀ r ∈ w.db.requests, r.id ∈ picked → r.status = .waiting) ∧ (∀ i ∈ picked, refused.lookup i = none) ∧
      picked.Nodup ∧ (∀ i ∈ picked, i ∈ w.used) ∧ ∀ i ∈ picked, i ∉ handedIds w.log := by
  have hmem : Open.take board refused picked asked ∈ w.running := by simp [here]
  have hids : (refused.map Prod.fst ++ picked).Nodup := by
    have hheld := h.held
    rw [here, List.flatMap_append, List.flatMap_cons] at hheld
    exact ((List.nodup_append.1 (List.nodup_append.1 hheld).2.1)).1
  refine ⟨fun r hr hi => ?_, fun i hi => ?_, (List.nodup_append.1 hids).2.1, fun i hi => ?_, fun i hi => ?_⟩
  · obtain ⟨s, hs, hid, hw⟩ := h.picked _ hmem _ hi
    obtain rfl := Db.mem_unique h.books.ids hs hr hid
    exact hw
  · rw [List.lookup_eq_none_iff]
    intro p hp
    have hne : i ≠ p.1 := fun he =>
      (List.nodup_append.1 hids).2.2 p.1 (List.mem_map_of_mem hp) i hi he.symm
    simpa using hne
  · obtain ⟨s, hs, rfl, -⟩ := h.picked _ hmem _ hi
    exact h.books.known s hs
  · obtain ⟨s, hs, rfl, hw⟩ := h.picked _ hmem _ hi
    exact h.books.unhanded s hs hw

/-- What a hand-out takes, it takes of rows nobody holds. -/
theorem Ok.picks {w : World} (h : w.Ok dev) (asked : Option Nat)
    (free : ∀ r ∈ w.db.refused board, w.holds r.id = false) :
    let o := Open.take board
      ((w.db.refused board).map fun r => (r.id, (Db.refusal (w.db.device board) r).getD ""))
      ((w.db.picked board w.holds).map Request.id) asked
    ((o :: w.running).flatMap Open.ids).Nodup ∧
      ∀ i ∈ o.picked, ∃ r ∈ w.db.requests, r.id = i ∧ r.status = .waiting := by
  have hsub : ((w.db.picked board w.holds).map Request.id).Nodup := by
    refine ((List.take_sublist _ _).map Request.id).nodup ?_
    rw [((List.mergeSort_perm _ _).map Request.id).nodup_iff]
    exact (List.filter_sublist.map Request.id).nodup h.books.ids
  have hmem : ∀ r ∈ w.db.picked board w.holds, r ∈ w.db.requests ∧ r.status = .waiting ∧
      (Db.refusal (w.db.device board) r).isNone = true ∧ w.holds r.id = false := by
    intro r hr
    have hr := List.mem_mergeSort.1 (List.mem_of_mem_take hr)
    rw [List.mem_filter] at hr
    simpa only [Db.waitingOf, Bool.and_eq_true, beq_iff_eq, Bool.not_eq_true', bne_iff_ne, ne_eq, and_assoc]
      using hr |> fun ⟨h₁, h₂⟩ => ⟨h₁, by
        simp only [Db.waitingOf, Bool.and_eq_true, beq_iff_eq, Bool.not_eq_true'] at h₂
        exact ⟨h₂.1.1.1.2, h₂.1.2, h₂.2⟩⟩
  refine ⟨h.taken ?_ ?_, fun i hi => ?_⟩
  · show (List.map Prod.fst (List.map _ (w.db.refused board)) ++ _).Nodup
    rw [List.map_map, List.nodup_append]
    refine ⟨(List.filter_sublist.map Request.id).nodup h.books.ids, hsub, fun i hi j hj hij => ?_⟩
    obtain ⟨r, hr, rfl⟩ := List.mem_map.1 hi
    obtain ⟨s, hs, rfl⟩ := List.mem_map.1 hj
    obtain ⟨hsm, -, hnone, -⟩ := hmem s hs
    obtain ⟨hrm, hrp⟩ := List.mem_filter.1 hr
    obtain rfl := Db.mem_unique h.books.ids hrm hsm hij
    simp only [Bool.and_eq_true] at hrp
    rw [Option.isNone_iff_eq_none] at hnone
    rw [hnone] at hrp
    exact absurd hrp.2 (by simp)
  · intro i hi
    rcases List.mem_append.1 hi with hi | hi
    · rw [List.map_map] at hi
      obtain ⟨r, hr, rfl⟩ := List.mem_map.1 hi
      exact free r hr
    · obtain ⟨r, hr, rfl⟩ := List.mem_map.1 hi
      exact (hmem r hr).2.2.2
  · obtain ⟨r, hr, rfl⟩ := List.mem_map.1 hi
    exact ⟨r, (hmem r hr).1, rfl, (hmem r hr).2.1⟩

/-- Rows read and locked, each once. -/
theorem Ok.locks {w : World} (h : w.Ok dev) {rows : List Request} {p : Request → Bool}
    (hrows : rows = (w.db.requests.filter p).mergeSort Request.before) : (rows.map Request.id).Nodup := by
  rw [hrows, ((List.mergeSort_perm _ _).map Request.id).nodup_iff]
  exact (List.filter_sublist.map Request.id).nodup h.books.ids

end World

theorem Stmt.applies_next {s : Stmt} {db : Db} (h : s.applies db = some (i, n)) :
    ∃ r ∈ db.requests, r.id = i ∧ n = r.pieces := by
  cases s with
  | answer board rid p renamed => exact Db.applied_next h
  | _ => cases h

theorem Verdict.events_quiet (v : Verdict) : Quiet (v.events job source parts rows) := by
  cases v <;> exact ⟨rfl, fun _ => rfl⟩

theorem Step.ok {w w' : World} (h : w.Ok dev) (hs : Step dev w a w') : w'.Ok dev := by
  cases hs with
  | stmt s now free drawn =>
    obtain ⟨new, hids, ht⟩ := s.turn dev h.books.ids now
    exact ⟨h.books.turn ht (fun _ _ he => s.applies_next he) hids drawn, h.held, h.kept free⟩
  | asks board free =>
    obtain ⟨hheld, hpicked⟩ := h.picks (if board = dev then some w.told else none) free
    refine ⟨h.books, hheld, fun o ho => ?_⟩
    rcases List.mem_cons.1 ho with rfl | ho
    · exact hpicked
    · exact h.picked o ho
  | handsOut as bs board refused picked asked now here =>
    obtain ⟨hwait, hapart, hnodup, hused, hnew⟩ := h.hands here
    refine ⟨(h.books.quiet (Db.handOut_turn hwait hapart now)).hand hnodup hused hnew fun r hr hi =>
      Db.handOut_gone hr hi, h.dropped here, h.others here fun r hr hn => ?_⟩
    exact Db.handOut_frame hr (fun hm => hn (List.mem_append_left _ hm)) fun hm => hn (List.mem_append_right _ hm)
  | settles orgId job source free =>
    refine ⟨h.books, h.taken (h.locks rfl) fun i hi => ?_, fun o ho => ?_⟩
    · obtain ⟨r, hr, rfl⟩ := List.mem_map.1 hi
      exact free r hr
    · rcases List.mem_cons.1 ho with rfl | ho
      · exact fun i hi => nomatch hi
      · exact h.picked o ho
  | settled as bs orgId job source parts ids blocked v now here drawn enough verdict =>
    obtain ⟨new, hids, ht⟩ := w.db.settled_turn dev orgId job parts (w.db.movedRows job source) v now
    have hsub : (new.map Request.id).Sublist ids.draws :=
      hids.trans (verdict ▸ w.db.verdict_drawn orgId job source parts _ ids blocked)
    refine ⟨(h.books.silent ht hsub drawn).note v.events_quiet, h.dropped here,
      h.others here fun r hr hn => Db.settled_frame (fun d changed hd => ?_) hr hn⟩
    rw [hd] at verdict
    exact (Db.verdict_decides verdict.symm).1
  | cancels orgId job free =>
    refine ⟨h.books, h.taken (h.locks rfl) fun i hi => ?_, fun o ho => ?_⟩
    · obtain ⟨r, hr, rfl⟩ := List.mem_map.1 hi
      exact free r hr
    · rcases List.mem_cons.1 ho with rfl | ho
      · exact fun i hi => nomatch hi
      · exact h.picked o ho
  | cancelled as bs orgId job seen cid now here drawn =>
    obtain ⟨new, hids, ht⟩ := w.db.cancelSeen_turn dev orgId job cid seen.contains now
    exact ⟨(h.books.silent ht hids drawn).noted _ ⟨rfl, fun _ => rfl⟩, h.dropped here,
      h.others here fun r hr hn => Db.cancelSeen_frame hr (Db.not_contains hn)⟩
  | aborts as bs o here => exact ⟨h.books, h.dropped here, h.others here fun r hr _ => hr⟩
  | told => exact ⟨h.books, h.held, h.picked⟩
  | replied as bs v here => exact ⟨h.books, h.held, h.picked⟩
  | boots => exact ⟨h.books, h.held, h.picked⟩
  | claims uploadId now free =>
    exact ⟨h.books.quiet (w.db.claimGet_turn uploadId now), h.held, h.kept free⟩
  | relays as bs g r tid file stored db now here relay free queued =>
    refine ⟨(h.books.quiet (Db.relay_turn queued)).noted _ ⟨rfl, fun _ => rfl⟩, h.held, h.kept fun r hr _ => ?_⟩
    rw [Db.relay_requests queued]
    exact hr
  | placed as bs p e now here done free =>
    exact ⟨h.books.quiet (w.db.settleGet_turn p.get.id e now (some .placing)), h.held, h.kept free⟩
  | removes as bs d files board ids now here refused volume perm drawn enough free =>
    obtain ⟨new, hids, ht⟩ := w.db.removeCopied_turn dev d board files ids now
    exact ⟨(h.books.silent ht hids drawn).noted _ ⟨rfl, fun _ => rfl⟩, h.held, h.kept free⟩
  | unlinks as bs d now here refused volume => exact ⟨h.books.noted _ ⟨rfl, fun _ => rfl⟩, h.held, h.picked⟩
  | leaves as bs d now here free =>
    exact ⟨h.books.quiet (w.db.recordRemoval_turn d .refused now), h.held, h.kept free⟩
  | records as bs d out now here free =>
    exact ⟨h.books.quiet (w.db.recordRemoval_turn d out now), h.held, h.kept free⟩

end WebAdf.Server
