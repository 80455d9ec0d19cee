import WebAdf.DiskSets.Plans
import Mathlib.Data.List.Forall2

/-!
# One undo

An undo takes a snapshot's disks out of the one title they sit in. The title made again
has them in the snapshot's order, the title they leave keeps the order of what is left;
both are numbered from 1, and no other title's disks are touched.
-/

namespace WebAdf.DiskSets

open Lib

variable {Id : Type} [LinearOrder Id]

-- ---------------------------------------------------------------------------
-- A title's order
-- ---------------------------------------------------------------------------

def Library.order (lib : Library Id) (gameId : Id) : List Id := (sortByNo (lib.disksOf gameId)).map (·.id)

def Library.numbers (lib : Library Id) (gameId : Id) : List Int :=
  (sortByNo (lib.disksOf gameId)).map (·.diskNo)

theorem mem_disksOf {lib : Library Id} : d ∈ lib.disksOf g ↔ d ∈ lib.disks ∧ d.gameId = g := by
  simp [Library.disksOf]

theorem mem_order {lib : Library Id} {id : Id} : id ∈ lib.order g ↔ ∃ d ∈ lib.disks, d.gameId = g ∧ d.id = id := by
  rw [Library.order, List.mem_map]
  constructor
  · rintro ⟨d, hd, rfl⟩
    obtain ⟨hin, hg⟩ := mem_disksOf.mp ((sortByNo_perm _).mem_iff.mp hd)
    exact ⟨d, hin, hg, rfl⟩
  · rintro ⟨d, hin, hg, rfl⟩
    exact ⟨d, (sortByNo_perm _).mem_iff.mpr (mem_disksOf.mpr ⟨hin, hg⟩), rfl⟩

theorem disksOf_ids {lib : Library Id} (hids : (lib.disks.map (·.id)).Nodup) (g : Id) :
    ((lib.disksOf g).map (·.id)).Nodup := hids.sublist (List.filter_sublist.map _)

theorem order_nodup {lib : Library Id} (hids : (lib.disks.map (·.id)).Nodup) (g : Id) :
    (lib.order g).Nodup :=
  (((sortByNo_perm (lib.disksOf g)).map _).nodup_iff).mpr (disksOf_ids hids g)

/-- A disk is in one title. -/
theorem gameId_of_order {lib : Library Id} {d : Disk Id} (hids : (lib.disks.map (·.id)).Nodup) (hd : d ∈ lib.disks)
    (hin : d.id ∈ lib.order g) : d.gameId = g := by
  obtain ⟨d', hd', hg, hid⟩ := mem_order.mp hin
  rw [eq_of_id hids hd hd' hid.symm]
  exact hg

/-- A title's disks, found apart from the others and in order. -/
theorem sorted_disksOf {lib : Library Id} {xs ys : List (Disk Id)} (hids : (lib.disks.map (·.id)).Nodup)
    (hperm : lib.disks.Perm (xs ++ ys)) (hx : ∀ x ∈ xs, x.gameId = g) (hy : ∀ y ∈ ys, y.gameId ≠ g)
    (hsorted : xs.Pairwise fun a b => byNo a b = true) : sortByNo (lib.disksOf g) = xs := by
  refine sortByNo_eq (disksOf_ids hids g) ?_ hsorted
  have hfilter : (xs ++ ys).filter (fun d => d.gameId = g) = xs := by
    rw [List.filter_append, List.filter_eq_self.mpr, List.filter_eq_nil_iff.mpr, List.append_nil]
    · rintro y hyin
      simpa using hy y hyin
    · rintro x hxin
      simpa using hx x hxin
  have hdisks := hperm.filter fun d => d.gameId = g
  rw [hfilter] at hdisks
  exact hdisks.symm

/-- Disks moved between other titles leave a title as it was. -/
theorem sorted_other {lib done : Library Id} {xs xs' ys : List (Disk Id)}
    (hids : (lib.disks.map (·.id)).Nodup) (hperm : lib.disks.Perm (xs ++ ys))
    (hperm' : done.disks.Perm (xs' ++ ys)) (hx : ∀ x ∈ xs, x.gameId ≠ g) (hx' : ∀ x ∈ xs', x.gameId ≠ g) :
    sortByNo (done.disksOf g) = sortByNo (lib.disksOf g) := by
  have hfilter : ∀ zs : List (Disk Id), (∀ z ∈ zs, z.gameId ≠ g) →
      (zs ++ ys).filter (fun d => d.gameId = g) = ys.filter fun d => d.gameId = g := by
    rintro zs hzs
    rw [List.filter_append, List.filter_eq_nil_iff.mpr, List.nil_append]
    rintro z hz
    simpa using hzs z hz
  have hbefore := hperm.filter fun d => d.gameId = g
  have hafter := hperm'.filter fun d => d.gameId = g
  rw [hfilter xs hx] at hbefore
  rw [hfilter xs' hx'] at hafter
  exact sortByNo_congr (disksOf_ids hids g) (hafter.trans hbefore.symm)

/-- Some disks, and the others. -/
theorem perm_rest {disks xs : List (Disk Id)} (hids : (disks.map (·.id)).Nodup) (hsub : xs ⊆ disks)
    (hxs : (xs.map (·.id)).Nodup) : disks.Perm (xs ++ disks.filter fun d => d.id ∉ xs.map (·.id)) := by
  have hdisjoint : xs.Disjoint (disks.filter fun d => d.id ∉ xs.map (·.id)) := by
    rintro d hd hother
    have hout := (List.mem_filter.mp hother).2
    simp only [decide_eq_true_eq] at hout
    exact hout (List.mem_map_of_mem hd)
  refine (List.perm_ext_iff_of_nodup (hids.of_map _)
    (List.nodup_append'.mpr ⟨hxs.of_map _, (hids.of_map _).filter _, hdisjoint⟩)).mpr fun d => ?_
  rw [List.mem_append, List.mem_filter]
  constructor
  · rintro hd
    by_cases hin : d.id ∈ xs.map (·.id)
    · obtain ⟨x, hx, hid⟩ := List.mem_map.mp hin
      rw [eq_of_id hids hd (hsub hx) hid.symm]
      exact .inl hx
    · exact .inr ⟨hd, decide_eq_true hin⟩
  · rintro (hd | ⟨hd, -⟩)
    · exact hsub hd
    · exact hd

/-- The moved disks where the plan puts them, the others where they are. -/
theorem moved_perm {rs : List (Renumber Id)} {disks xs : List (Disk Id)} (hids : (disks.map (·.id)).Nodup)
    (hsub : xs ⊆ disks) (hxs : (xs.map (·.id)).Nodup) (hrs : rs.map (·.diskId) = xs.map (·.id)) :
    (disks.map (movedBy rs)).Perm
      (xs.map (movedBy rs) ++ disks.filter fun d => d.id ∉ xs.map (·.id)) := by
  have hkept : (disks.filter fun d => d.id ∉ xs.map (·.id)).map (movedBy rs) =
      disks.filter fun d => d.id ∉ xs.map (·.id) := by
    refine (List.map_congr_left fun d hd => ?_).trans (List.map_id _)
    have hout := (List.mem_filter.mp hd).2
    simp only [decide_eq_true_eq] at hout
    exact movedBy_other (by rw [hrs]; exact hout)
  have hmoved := (perm_rest hids hsub hxs).map (movedBy rs)
  rw [List.map_append, hkept] at hmoved
  exact hmoved

omit [LinearOrder Id] in
theorem exists_disks {disks : List (Disk Id)} {ids : List Id} (h : ∀ id ∈ ids, id ∈ disks.map (·.id)) :
    ∃ xs : List (Disk Id), xs.map (·.id) = ids ∧ xs ⊆ disks := by
  induction ids with
  | nil => exact ⟨[], rfl, List.nil_subset _⟩
  | cons id ids ih =>
    obtain ⟨xs, hxs, hsub⟩ := ih fun id' hid' => h id' (List.mem_cons_of_mem _ hid')
    obtain ⟨d, hd, rfl⟩ := List.mem_map.mp (h id (List.mem_cons_self ..))
    exact ⟨d :: xs, by rw [List.map_cons, hxs], List.cons_subset.mpr ⟨hd, hsub⟩⟩

omit [LinearOrder Id] in
theorem exists_renumber {xs : List (Disk Id)} (g : Id) (next : Int) (hx : d ∈ xs) :
    ∃ r ∈ numberFrom g next xs, r.diskId = d.id ∧ r.fromGameId = d.gameId := by
  induction xs generalizing next with
  | nil => cases hx
  | cons x xs ih =>
    rw [numberFrom]
    rcases List.mem_cons.mp hx with rfl | hx
    · exact ⟨_, List.mem_cons_self .., rfl, rfl⟩
    · obtain ⟨r, hr, hsame⟩ := ih (next + 1) hx
      exact ⟨r, List.mem_cons_of_mem _ hr, hsame⟩

-- ---------------------------------------------------------------------------
-- A reorder
-- ---------------------------------------------------------------------------

theorem titlesOf_one {xs : List (Disk Id)} (hne : xs ≠ []) (h : ∀ x ∈ xs, x.gameId = g) :
    titlesOf xs = [g] := by
  have hstays : ∀ ys : List (Disk Id), (∀ y ∈ ys, y.gameId = g) →
      ys.foldl (fun order y => if y.gameId ∈ order then order else order ++ [y.gameId]) [g] = [g] := by
    intro ys hys
    induction ys with
    | nil => rfl
    | cons y ys ih =>
      rw [List.foldl_cons, if_pos (by simp [hys y (List.mem_cons_self ..)])]
      exact ih fun z hz => hys z (List.mem_cons_of_mem _ hz)
  cases xs with
  | nil => exact absurd rfl hne
  | cons x xs =>
    rw [titlesOf, List.foldl_cons, if_neg List.not_mem_nil, List.nil_append,
      h x (List.mem_cons_self ..)]
    exact hstays xs fun y hy => h y (List.mem_cons_of_mem _ hy)

theorem renumber_eq {disks xs : List (Disk Id)} (hids : (disks.map (·.id)).Nodup) (hsub : xs ⊆ disks)
    (g : Id) (k : Nat) :
    ((xs.map (·.id)).zipIdx k).filterMap (fun p =>
      ((disks.find? fun x => x.id = p.1).map (·.gameId)).map fun from_ =>
        (⟨p.1, g, (p.2 : Int) + 1, from_⟩ : Renumber Id)) = numberFrom g k xs := by
  induction xs generalizing k with
  | nil => rfl
  | cons x xs ih =>
    rw [List.cons_subset] at hsub
    rw [List.map_cons, List.zipIdx_cons, List.filterMap_cons, find_of_nodup hids hsub.1, numberFrom,
      ih hsub.2 (k + 1)]
    rfl

/-- A title's disks in any order make a plan. -/
theorem planReorder_ok {disks xs : List (Disk Id)} (hids : (disks.map (·.id)).Nodup) (hperm : xs.Perm disks)
    (g : Id) (devs : List (Device Id)) :
    planReorder g disks (xs.map (·.id)) devs =
      .ok ⟨numberFrom g 0 xs, [], deviceUpdates (numberFrom g 0 xs) devs⟩ := by
  have hgood : ¬ ((xs.map (·.id)).length ≠ disks.length ∨ ¬ (xs.map (·.id)).Nodup ∨
      ∃ id ∈ xs.map (·.id), id ∉ disks.map (·.id)) := by
    rintro (hlen | hnd | ⟨id, hid, hnot⟩)
    · exact hlen (by rw [List.length_map, hperm.length_eq])
    · exact hnd (((hperm.map _).nodup_iff).mpr hids)
    · exact hnot (((hperm.map _).mem_iff).mp hid)
  rw [planReorder, if_neg hgood]
  have hrs := renumber_eq hids hperm.subset g 0
  simp only [hrs]
  rfl

-- ---------------------------------------------------------------------------
-- One undo
-- ---------------------------------------------------------------------------

/-- The title an undo makes again, with none of its extras. -/
def remade (newId : Id) (snap : UndoSnapshot Id) : Title Id :=
  ⟨newId, snap.title, snap.year, snap.publisher, snap.metadataSource, snap.diskOrderSource, none, none, none,
    false⟩

/-- What a snapshot needs to be undone: its disks in one title that keeps others. -/
structure Undoable (lib : Library Id) (gid newId : Id) (snap : UndoSnapshot Id) : Prop where
  ids : (lib.disks.map (·.id)).Nodup
  devices : (lib.devices.map (·.id)).Nodup
  some : snap.diskIds ≠ []
  once : snap.diskIds.Nodup
  inside : ∀ id ∈ snap.diskIds, id ∈ lib.order gid
  here : ∀ d ∈ lib.disks, d.id ∈ snap.diskIds → d.hidden = false
  title : ∃ t ∈ lib.titles, t.id = gid
  keeps : ∃ id ∈ lib.order gid, id ∉ snap.diskIds
  fresh : ∀ d ∈ lib.disks, d.gameId ≠ newId

structure UndoStep (lib done : Library Id) (gid newId : Id) (snap : UndoSnapshot Id) : Prop where
  made : done.order newId = snap.diskIds
  madeNumbers : done.numbers newId = oneTo snap.diskIds.length
  left : done.order gid = (lib.order gid).filter fun id => id ∉ snap.diskIds
  leftNumbers : done.numbers gid = oneTo (done.order gid).length
  others : ∀ g, g ≠ gid → g ≠ newId →
    done.order g = lib.order g ∧ done.numbers g = lib.numbers g
  titles : done.titles = lib.titles ++ [remade newId snap]
  disks : done.disks.map (fun d => (d.id, d.hidden)) = lib.disks.map fun d => (d.id, d.hidden)
  boards : List.Forall₂ SameBoard lib.devices done.devices
  named : ∀ id ∈ lib.order gid, Named done id
  still : ∀ id, Named lib id → Named done id

omit [LinearOrder Id] in
theorem numbers_fromOne (g : Id) (xs : List (Disk Id)) :
    (placedFrom g 0 xs).map (·.diskNo) = oneTo xs.length := by
  rw [numbers_placedFrom, oneTo]
  refine List.map_congr_left fun i _ => ?_
  rw [Int.zero_add]

/-- What an undo moves, with both titles' disks at hand. -/
structure Split (lib : Library Id) (gid : Id) (snap : UndoSnapshot Id) (taken rest : List (Disk Id)) :
    Prop where
  takenIds : taken.map (·.id) = snap.diskIds
  restIds : rest.map (·.id) = (lib.order gid).filter fun id => id ∉ snap.diskIds
  perm : (taken ++ rest).Perm (lib.disksOf gid)

theorem Undoable.split {lib : Library Id} (h : Undoable lib gid newId snap) :
    ∃ taken, Split lib gid snap taken (sortByNo ((lib.disksOf gid).filter fun d => d.id ∉ snap.diskIds)) := by
  have hthere : ∀ id ∈ snap.diskIds, id ∈ lib.disks.map (·.id) := by
    rintro id hid
    obtain ⟨d, hd, -, hdid⟩ := mem_order.mp (h.inside id hid)
    exact List.mem_map.mpr ⟨d, hd, hdid⟩
  obtain ⟨taken, htaken, hsub⟩ := exists_disks hthere
  refine ⟨taken, htaken, ?_, ?_⟩
  · rw [← filter_sortByNo _ (disksOf_ids h.ids gid), Library.order, List.filter_map]
    rfl
  · have hin : taken ⊆ lib.disksOf gid := by
      rintro d hd
      have hid : d.id ∈ snap.diskIds := by
        rw [← htaken]
        exact List.mem_map_of_mem hd
      exact mem_disksOf.mpr ⟨hsub hd, gameId_of_order h.ids (hsub hd) (h.inside d.id hid)⟩
    have hperm := perm_rest (disksOf_ids h.ids gid) hin (by rw [htaken]; exact h.once)
    rw [htaken] at hperm
    exact ((sortByNo_perm _).append_left taken).trans hperm.symm

/-- The plan of an undo. -/
def undoPlan (gid newId : Id) (taken rest : List (Disk Id)) (devs : List (Device Id)) : Plan Id :=
  ⟨numberFrom newId 0 taken ++ numberFrom gid 0 rest, [],
    deviceUpdates (numberFrom newId 0 taken) devs ++ deviceUpdates (numberFrom gid 0 rest) devs⟩

theorem Split.ids_nodup {lib : Library Id} (hs : Split lib gid snap taken rest)
    (hids : (lib.disks.map (·.id)).Nodup) : ((taken ++ rest).map (·.id)).Nodup :=
  ((hs.perm.map _).nodup_iff).mpr (disksOf_ids hids gid)

/-- What is read again at the undo is what the snapshot took. -/
theorem Split.moving {lib : Library Id} (hs : Split lib gid snap taken rest)
    (h : Undoable lib gid newId snap) :
    taken.Perm (lib.disks.filter fun d => d.id ∈ snap.diskIds ∧ d.hidden = false) := by
  have htaken : (taken.map (·.id)).Nodup := by
    rw [hs.takenIds]
    exact h.once
  refine (List.perm_ext_iff_of_nodup (htaken.of_map _) ((h.ids.of_map _).filter _)).mpr fun d => ?_
  rw [List.mem_filter, decide_eq_true_eq]
  constructor
  · rintro hd
    have hin := (mem_disksOf.mp (hs.perm.subset (List.mem_append_left rest hd))).1
    have hid : d.id ∈ snap.diskIds := by
      rw [← hs.takenIds]
      exact List.mem_map_of_mem hd
    exact ⟨hin, hid, h.here d hin hid⟩
  · rintro ⟨hd, hid, -⟩
    rw [← hs.takenIds] at hid
    obtain ⟨x, hx, hxid⟩ := List.mem_map.mp hid
    have hin := (mem_disksOf.mp (hs.perm.subset (List.mem_append_left rest hx))).1
    rw [eq_of_id h.ids hd hin hxid.symm]
    exact hx

theorem undoMove_runs {lib : Library Id} (h : Undoable lib gid newId snap)
    (hs : Split lib gid snap taken (sortByNo ((lib.disksOf gid).filter fun d => d.id ∉ snap.diskIds))) :
    undoMove lib newId snap =
      .ok (applied (undoPlan gid newId taken
          (sortByNo ((lib.disksOf gid).filter fun d => d.id ∉ snap.diskIds)) lib.devices)
        (insertTitle (remade newId snap) lib)) := by
  have hmoving := hs.moving h
  have hlen : (lib.disks.filter fun d => d.id ∈ snap.diskIds ∧ d.hidden = false).length =
      snap.diskIds.length := by
    rw [← hmoving.length_eq, ← hs.takenIds, List.length_map]
  have htakenNe : (lib.disks.filter fun d => d.id ∈ snap.diskIds ∧ d.hidden = false) ≠ [] := by
    rintro hnone
    rw [hnone, List.length_nil] at hlen
    exact h.some (List.length_eq_zero_iff.mp hlen.symm)
  have htitles : titlesOf (lib.disks.filter fun d => d.id ∈ snap.diskIds ∧ d.hidden = false) = [gid] := by
    refine titlesOf_one htakenNe fun d hd => ?_
    exact (mem_disksOf.mp (hs.perm.subset (List.mem_append_left _ (hmoving.mem_iff.mpr hd)))).2
  have hthere : ¬ (lib.titles.all fun t => t.id ≠ gid) = true := by
    obtain ⟨t, ht, hid⟩ := h.title
    rintro hall
    have hnot := List.all_eq_true.mp hall t ht
    simp [hid] at hnot
  have hrestNe : sortByNo ((lib.disksOf gid).filter fun d => d.id ∉ snap.diskIds) ≠ [] := by
    rintro hnone
    obtain ⟨id, hid, hout⟩ := h.keeps
    have hin : id ∈ (lib.order gid).filter fun id => id ∉ snap.diskIds :=
      List.mem_filter.mpr ⟨hid, decide_eq_true hout⟩
    rw [← hs.restIds, hnone] at hin
    cases hin
  have hmovingIds : ((lib.disks.filter fun d => d.id ∈ snap.diskIds ∧ d.hidden = false).map (·.id)).Nodup :=
    h.ids.sublist (List.filter_sublist.map _)
  have hrestIds : ((sortByNo ((lib.disksOf gid).filter fun d => d.id ∉ snap.diskIds)).map (·.id)).Nodup := by
    rw [hs.restIds]
    exact (order_nodup h.ids gid).filter _
  have hnd : ((undoPlan gid newId taken (sortByNo ((lib.disksOf gid).filter fun d => d.id ∉ snap.diskIds))
      lib.devices).renumber.map (·.diskId)).Nodup := by
    rw [undoPlan, List.map_append, ids_numberFrom, ids_numberFrom, ← List.map_append]
    exact hs.ids_nodup h.ids
  have hfirst := planReorder_ok hmovingIds hmoving newId lib.devices
  rw [hs.takenIds] at hfirst
  have hsecond := planReorder_ok hrestIds (.refl _) gid lib.devices
  rw [undoMove, if_neg (by rintro (hno | hno); exacts [h.some hno, hno h.once])]
  simp only [hlen, ne_eq, not_true_eq_false, if_false, htitles, hthere, Bool.false_eq_true, hfirst, hsecond,
    hrestNe]
  exact congrArg Except.ok (run_applyPlan hnd (insertTitle (remade newId snap) lib))

/-- Where the disks are after an undo. -/
theorem undo_disks {lib : Library Id} {rest : List (Disk Id)} (h : Undoable lib gid newId snap)
    (hs : Split lib gid snap taken rest) :
    ∃ others : List (Disk Id), (∀ d ∈ others, d.gameId ≠ gid ∧ d.gameId ≠ newId) ∧
      lib.disks.Perm (taken ++ rest ++ others) ∧
      (lib.disks.map (movedBy (numberFrom newId 0 taken ++ numberFrom gid 0 rest))).Perm
        (placedFrom newId 0 taken ++ placedFrom gid 0 rest ++ others) := by
  have hsub : taken ++ rest ⊆ lib.disks := fun d hd => (mem_disksOf.mp (hs.perm.subset hd)).1
  have hnd := hs.ids_nodup h.ids
  have hrs : (numberFrom newId 0 taken ++ numberFrom gid 0 rest).map (·.diskId) =
      (taken ++ rest).map (·.id) := by
    rw [List.map_append, ids_numberFrom, ids_numberFrom, List.map_append]
  have hmoved : (taken ++ rest).map (movedBy (numberFrom newId 0 taken ++ numberFrom gid 0 rest)) =
      placedFrom newId 0 taken ++ placedFrom gid 0 rest := by
    rw [List.map_append,
      map_movedBy (by rw [hrs]; exact hnd) (List.subset_append_left _ _),
      map_movedBy (by rw [hrs]; exact hnd) (List.subset_append_right _ _)]
  have hafter := moved_perm h.ids hsub hnd hrs
  rw [hmoved] at hafter
  refine ⟨_, ?_, perm_rest h.ids hsub hnd, hafter⟩
  rintro d hd
  obtain ⟨hin, hout⟩ := List.mem_filter.mp hd
  simp only [decide_eq_true_eq] at hout
  refine ⟨fun hg => hout ?_, h.fresh d hin⟩
  exact List.mem_map_of_mem (hs.perm.mem_iff.mpr (mem_disksOf.mpr ⟨hin, hg⟩))

theorem undoMove_ok {lib : Library Id} (h : Undoable lib gid newId snap) :
    ∃ done, undoMove lib newId snap = .ok done ∧ UndoStep lib done gid newId snap := by
  obtain ⟨taken, hs⟩ := h.split
  refine ⟨_, undoMove_runs h hs, ?_⟩
  revert hs
  generalize sortByNo ((lib.disksOf gid).filter fun d => d.id ∉ snap.diskIds) = rest
  rintro hs
  obtain ⟨others, hothers, hbefore, hafter⟩ := undo_disks h hs
  have hnewGid : newId ≠ gid := by
    obtain ⟨id, hid, -⟩ := h.keeps
    obtain ⟨d, hd, hg, -⟩ := mem_order.mp hid
    rintro rfl
    exact h.fresh d hd hg
  have hplan : (undoPlan gid newId taken rest lib.devices).renumber.map (·.diskId) =
      (taken ++ rest).map (·.id) := by
    rw [undoPlan, List.map_append, ids_numberFrom, ids_numberFrom, List.map_append]
  have hnd : ((undoPlan gid newId taken rest lib.devices).renumber.map (·.diskId)).Nodup := by
    rw [hplan]
    exact hs.ids_nodup h.ids
  have hids : ((applied (undoPlan gid newId taken rest lib.devices)
      (insertTitle (remade newId snap) lib)).disks.map (·.id)).Nodup := by
    have hsame := congrArg (List.map Prod.fst) (applied_ids (undoPlan gid newId taken rest lib.devices)
      (insertTitle (remade newId snap) lib))
    simp only [List.map_map, Function.comp_def] at hsame
    rw [hsame]
    exact h.ids
  have hmade : sortByNo ((applied (undoPlan gid newId taken rest lib.devices)
      (insertTitle (remade newId snap) lib)).disksOf newId) = placedFrom newId 0 taken := by
    refine sorted_disksOf hids (hafter.trans (.of_eq (List.append_assoc ..))) (fun x hx => (mem_placedFrom hx).1)
      (fun y hy => ?_) (placedFrom_sorted ..)
    rcases List.mem_append.mp hy with hy | hy
    · rw [(mem_placedFrom hy).1]
      exact hnewGid.symm
    · exact (hothers y hy).2
  have hleft : sortByNo ((applied (undoPlan gid newId taken rest lib.devices)
      (insertTitle (remade newId snap) lib)).disksOf gid) = placedFrom gid 0 rest := by
    have hswap : (placedFrom newId 0 taken ++ placedFrom gid 0 rest ++ others).Perm
        (placedFrom gid 0 rest ++ placedFrom newId 0 taken ++ others) :=
      List.perm_append_comm.append_right others
    refine sorted_disksOf hids ((hafter.trans hswap).trans (.of_eq (List.append_assoc ..)))
      (fun x hx => (mem_placedFrom hx).1) (fun y hy => ?_) (placedFrom_sorted ..)
    rcases List.mem_append.mp hy with hy | hy
    · rw [(mem_placedFrom hy).1]
      exact hnewGid
    · exact (hothers y hy).1
  have hleftIds : (applied (undoPlan gid newId taken rest lib.devices)
      (insertTitle (remade newId snap) lib)).order gid = rest.map (·.id) := by
    rw [Library.order, hleft, ids_placedFrom]
  have hnamed : ∀ id ∈ lib.order gid, Named (applied (undoPlan gid newId taken rest lib.devices)
      (insertTitle (remade newId snap) lib)) id := by
    rintro id hid
    obtain ⟨d, hd, hg, rfl⟩ := mem_order.mp hid
    have hin := hs.perm.mem_iff.mpr (mem_disksOf.mpr ⟨hd, hg⟩)
    have htells : Tells (undoPlan gid newId taken rest lib.devices).renumber
        (undoPlan gid newId taken rest lib.devices).devices lib.devices := by
      have hids := hs.ids_nodup h.ids
      rw [List.map_append] at hids
      exact (deviceUpdates_tells (by rw [ids_numberFrom]; exact hids.of_append_left) _).append
        (deviceUpdates_tells (by rw [ids_numberFrom]; exact hids.of_append_right) _)
    have hfound : ∃ r ∈ (undoPlan gid newId taken rest lib.devices).renumber,
        r.diskId = d.id ∧ r.fromGameId = d.gameId := by
      rcases List.mem_append.mp hin with hin | hin
      · obtain ⟨r, hr, hsame⟩ := exists_renumber newId 0 hin
        exact ⟨r, List.mem_append_left _ hr, hsame⟩
      · obtain ⟨r, hr, hsame⟩ := exists_renumber gid 0 hin
        exact ⟨r, List.mem_append_right _ hr, hsame⟩
    obtain ⟨r, hr, hid, hfrom⟩ := hfound
    have hin' : d ∈ (insertTitle (remade newId snap) lib).disks := hd
    exact applied_named hnd h.devices htells hr hin' hid hfrom
  constructor
  case made => rw [Library.order, hmade, ids_placedFrom, hs.takenIds]
  case madeNumbers => rw [Library.numbers, hmade, numbers_fromOne, ← hs.takenIds, List.length_map]
  case left => rw [hleftIds, hs.restIds]
  case leftNumbers => rw [Library.numbers, hleft, numbers_fromOne, hleftIds, List.length_map]
  case others =>
    rintro g hgid hnew
    have htook : ∀ x ∈ taken ++ rest, x.gameId ≠ g := by
      rintro x hx hg
      exact hgid (hg.symm.trans (mem_disksOf.mp (hs.perm.subset hx)).2)
    have hput : ∀ x ∈ placedFrom newId 0 taken ++ placedFrom gid 0 rest, x.gameId ≠ g := by
      rintro x hx hg
      rcases List.mem_append.mp hx with hx | hx
      · exact hnew (hg.symm.trans (mem_placedFrom hx).1)
      · exact hgid (hg.symm.trans (mem_placedFrom hx).1)
    have hsame : sortByNo ((applied (undoPlan gid newId taken rest lib.devices)
        (insertTitle (remade newId snap) lib)).disksOf g) = sortByNo (lib.disksOf g) :=
      sorted_other h.ids hbefore hafter htook hput
    rw [Library.order, Library.numbers, hsame]
    exact ⟨rfl, rfl⟩
  case titles => rfl
  case disks => exact applied_ids _ _
  case boards => exact applied_boards _ _
  case named => exact hnamed
  case still =>
    rintro id hstill
    by_cases hin : id ∈ lib.order gid
    · exact hnamed id hin
    · have hbase : Named (insertTitle (remade newId snap) lib) id := ⟨hstill.desired, hstill.mounted⟩
      refine hbase.applied (undoPlan gid newId taken rest lib.devices) ?_
      rw [hplan]
      rintro hmoved
      obtain ⟨d, hd, rfl⟩ := List.mem_map.mp hmoved
      obtain ⟨hdin, hg⟩ := mem_disksOf.mp (hs.perm.subset hd)
      exact hin (mem_order.mpr ⟨d, hdin, hg, rfl⟩)

end WebAdf.DiskSets
