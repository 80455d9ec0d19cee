import Mathlib
import WebAdf.DiskSets.Undo

/-!
# A set put back

Adding disks to a set puts every source's disks behind the target's own, each source in
its order, and empties the sources' titles. The snapshots undone, in whatever order, leave
the titles as they were but for the identities of those made again.
-/

namespace WebAdf.DiskSets

open Lib
open Poll (trim)

variable {Id : Type} [LinearOrder Id]

-- ---------------------------------------------------------------------------
-- Undos one after another
-- ---------------------------------------------------------------------------

/-- Snapshots undone, each as a title of its own. -/
def undoAll (lib : Library Id) (again : List (Id × UndoSnapshot Id)) : Except Refusal (Library Id) :=
  again.foldlM (fun lib p => undoMove lib p.1 p.2) lib

def Numbered (lib : Library Id) (g : Id) : Prop := lib.numbers g = oneTo (lib.order g).length

structure AllUndoable (lib : Library Id) (gid : Id) (again : List (Id × UndoSnapshot Id)) : Prop where
  ids : (lib.disks.map (·.id)).Nodup
  devices : (lib.devices.map (·.id)).Nodup
  some : ∀ p ∈ again, p.2.diskIds ≠ []
  once : (again.flatMap (·.2.diskIds)).Nodup
  inside : ∀ p ∈ again, ∀ id ∈ p.2.diskIds, id ∈ lib.order gid
  here : ∀ d ∈ lib.disks, d.id ∈ again.flatMap (·.2.diskIds) → d.hidden = false
  title : ∃ t ∈ lib.titles, t.id = gid
  keeps : ∃ id ∈ lib.order gid, id ∉ again.flatMap (·.2.diskIds)
  new : (again.map (·.1)).Nodup
  fresh : ∀ p ∈ again, ∀ d ∈ lib.disks, d.gameId ≠ p.1

structure UndoRun (lib done : Library Id) (gid : Id) (again : List (Id × UndoSnapshot Id)) : Prop where
  made : ∀ p ∈ again, done.order p.1 = p.2.diskIds ∧ Numbered done p.1
  left : done.order gid = (lib.order gid).filter fun id => id ∉ again.flatMap (·.2.diskIds)
  leftNumbers : again ≠ [] ∨ Numbered lib gid → Numbered done gid
  others : ∀ g, g ≠ gid → g ∉ again.map (·.1) →
    done.order g = lib.order g ∧ done.numbers g = lib.numbers g
  titles : done.titles = lib.titles ++ again.map fun p => remade p.1 p.2
  disks : done.disks.map (fun d => (d.id, d.hidden)) = lib.disks.map fun d => (d.id, d.hidden)
  boards : List.Forall₂ SameBoard lib.devices done.devices
  named : again ≠ [] → ∀ id ∈ lib.order gid, Named done id
  still : ∀ id, Named lib id → Named done id

omit [LinearOrder Id] in
theorem ids_of_disks {lib done : Library Id}
    (h : done.disks.map (fun d => (d.id, d.hidden)) = lib.disks.map fun d => (d.id, d.hidden)) :
    done.disks.map (·.id) = lib.disks.map (·.id) := by
  have hfst := congrArg (List.map Prod.fst) h
  simp only [List.map_map, Function.comp_def] at hfst
  exact hfst

omit [LinearOrder Id] in
theorem ids_of_boards {vs ws : List (Device Id)} (h : List.Forall₂ SameBoard vs ws) :
    ws.map (·.id) = vs.map (·.id) := by
  induction h with
  | nil => rfl
  | cons hsame _ ih => rw [List.map_cons, List.map_cons, hsame.id, ih]

omit [LinearOrder Id] in
theorem hidden_of_disks {lib done : Library Id}
    (h : done.disks.map (fun d => (d.id, d.hidden)) = lib.disks.map fun d => (d.id, d.hidden))
    (hd : d ∈ done.disks) : ∃ d' ∈ lib.disks, d'.id = d.id ∧ d'.hidden = d.hidden := by
  have hin : (d.id, d.hidden) ∈ lib.disks.map fun d => (d.id, d.hidden) := by
    rw [← h]
    exact List.mem_map_of_mem hd
  obtain ⟨d', hd', heq⟩ := List.mem_map.mp hin
  exact ⟨d', hd', congrArg Prod.fst heq, congrArg Prod.snd heq⟩

theorem AllUndoable.first {lib : Library Id} {p : Id × UndoSnapshot Id} {again : List (Id × UndoSnapshot Id)}
    (h : AllUndoable lib gid (p :: again)) : Undoable lib gid p.1 p.2 where
  ids := h.ids
  devices := h.devices
  some := h.some p (List.mem_cons_self ..)
  once := by
    have honce := h.once
    rw [List.flatMap_cons] at honce
    exact honce.of_append_left
  inside := h.inside p (List.mem_cons_self ..)
  here := fun d hd hin => h.here d hd (by rw [List.flatMap_cons]; exact List.mem_append_left _ hin)
  title := h.title
  keeps := by
    obtain ⟨id, hid, hout⟩ := h.keeps
    refine ⟨id, hid, fun hin => hout ?_⟩
    rw [List.flatMap_cons]
    exact List.mem_append_left _ hin
  fresh := h.fresh p (List.mem_cons_self ..)

theorem AllUndoable.gid_ne {lib : Library Id} {again : List (Id × UndoSnapshot Id)}
    (h : AllUndoable lib gid again) (hp : p ∈ again) : p.1 ≠ gid := by
  obtain ⟨id, hid, -⟩ := h.keeps
  obtain ⟨d, hd, hg, -⟩ := mem_order.mp hid
  rintro rfl
  exact h.fresh p hp d hd hg

theorem AllUndoable.next {lib mid : Library Id} {p : Id × UndoSnapshot Id}
    {again : List (Id × UndoSnapshot Id)} (h : AllUndoable lib gid (p :: again))
    (hstep : UndoStep lib mid gid p.1 p.2) : AllUndoable mid gid again where
  ids := by
    rw [ids_of_disks hstep.disks]
    exact h.ids
  devices := by
    rw [ids_of_boards hstep.boards]
    exact h.devices
  some := fun q hq => h.some q (List.mem_cons_of_mem _ hq)
  once := by
    have honce := h.once
    rw [List.flatMap_cons] at honce
    exact honce.of_append_right
  inside := by
    rintro q hq id hid
    have honce := h.once
    rw [List.flatMap_cons] at honce
    have hout : id ∉ p.2.diskIds := fun hin =>
      (List.disjoint_of_nodup_append honce) hin (List.mem_flatMap.mpr ⟨q, hq, hid⟩)
    rw [hstep.left]
    exact List.mem_filter.mpr ⟨h.inside q (List.mem_cons_of_mem _ hq) id hid, decide_eq_true hout⟩
  here := by
    rintro d hd hin
    obtain ⟨d', hd', hid, hhidden⟩ := hidden_of_disks hstep.disks hd
    rw [← hhidden]
    refine h.here d' hd' ?_
    rw [hid, List.flatMap_cons]
    exact List.mem_append_right _ hin
  title := by
    obtain ⟨t, ht, hid⟩ := h.title
    exact ⟨t, by rw [hstep.titles]; exact List.mem_append_left _ ht, hid⟩
  keeps := by
    obtain ⟨id, hid, hout⟩ := h.keeps
    rw [List.flatMap_cons, List.mem_append, not_or] at hout
    refine ⟨id, ?_, hout.2⟩
    rw [hstep.left]
    exact List.mem_filter.mpr ⟨hid, decide_eq_true hout.1⟩
  new := (List.nodup_cons.mp h.new).2
  fresh := by
    rintro q hq d hd hg
    have hqp : q.1 ≠ p.1 := by
      rintro heq
      exact (List.nodup_cons.mp h.new).1 (List.mem_map.mpr ⟨q, hq, heq⟩)
    have hin : d.id ∈ mid.order q.1 := mem_order.mpr ⟨d, hd, hg, rfl⟩
    rw [(hstep.others q.1 (h.gid_ne (List.mem_cons_of_mem _ hq)) hqp).1] at hin
    obtain ⟨d', hd', hg', -⟩ := mem_order.mp hin
    exact h.fresh q (List.mem_cons_of_mem _ hq) d' hd' hg'

omit [LinearOrder Id] in
theorem SameBoards.trans {us vs ws : List (Device Id)} (h : List.Forall₂ SameBoard us vs)
    (h' : List.Forall₂ SameBoard vs ws) : List.Forall₂ SameBoard us ws := by
  induction h generalizing ws with
  | nil => exact h'
  | cons hsame _ ih =>
    cases h' with
    | cons hsame' hrest => exact .cons (hsame.trans hsame') (ih hrest)

theorem UndoRun.refl (lib : Library Id) (gid : Id) : UndoRun lib lib gid [] where
  made := fun p hp => absurd hp List.not_mem_nil
  left := by simp
  leftNumbers := by
    rintro (hne | hnumbered)
    · exact absurd rfl hne
    · exact hnumbered
  others := fun _ _ _ => ⟨rfl, rfl⟩
  titles := by simp
  disks := rfl
  boards := List.forall₂_same.mpr fun v _ => .refl v
  named := fun hne => absurd rfl hne
  still := fun _ h => h

theorem UndoRun.cons {lib mid done : Library Id} {p : Id × UndoSnapshot Id}
    {again : List (Id × UndoSnapshot Id)} (h : AllUndoable lib gid (p :: again))
    (hstep : UndoStep lib mid gid p.1 p.2) (hrun : UndoRun mid done gid again) :
    UndoRun lib done gid (p :: again) where
  made := by
    rintro q hq
    rcases List.mem_cons.mp hq with rfl | hq
    · have hother := hrun.others q.1 (h.gid_ne (List.mem_cons_self ..)) (List.nodup_cons.mp h.new).1
      rw [Numbered, hother.1, hother.2, hstep.made, hstep.madeNumbers]
      exact ⟨rfl, rfl⟩
    · exact hrun.made q hq
  left := by
    rw [hrun.left, hstep.left, List.filter_filter, List.flatMap_cons]
    refine List.filter_congr fun id _ => ?_
    simp only [List.mem_append, not_or, Bool.decide_and]
    rw [Bool.and_comm]
  leftNumbers := fun _ => hrun.leftNumbers (.inr hstep.leftNumbers)
  others := by
    rintro g hgid hnot
    rw [List.map_cons, List.mem_cons, not_or] at hnot
    have hfirst := hstep.others g hgid hnot.1
    have hrest := hrun.others g hgid hnot.2
    exact ⟨hrest.1.trans hfirst.1, hrest.2.trans hfirst.2⟩
  titles := by
    rw [hrun.titles, hstep.titles, List.append_assoc]
    rfl
  disks := hrun.disks.trans hstep.disks
  boards := SameBoards.trans hstep.boards hrun.boards
  named := fun _ id hid => hrun.still id (hstep.named id hid)
  still := fun id hid => hrun.still id (hstep.still id hid)

/-- Snapshots of disjoint disks undone one after another. -/
theorem undoAll_ok {lib : Library Id} {again : List (Id × UndoSnapshot Id)} (h : AllUndoable lib gid again) :
    ∃ done, undoAll lib again = .ok done ∧ UndoRun lib done gid again := by
  induction again generalizing lib with
  | nil => exact ⟨lib, rfl, .refl lib gid⟩
  | cons p again ih =>
    obtain ⟨mid, hmid, hstep⟩ := undoMove_ok h.first
    obtain ⟨done, hdone, hrun⟩ := ih (h.next hstep)
    refine ⟨done, ?_, .cons h hstep hrun⟩
    rw [undoAll, List.foldlM_cons, hmid]
    exact hdone

-- ---------------------------------------------------------------------------
-- Adding to a set
-- ---------------------------------------------------------------------------

theorem titlesOf_go (xs : List (Disk Id)) (order : List Id) (hnd : order.Nodup) :
    (xs.foldl (fun order x => if x.gameId ∈ order then order else order ++ [x.gameId]) order).Nodup ∧
      ∀ g, g ∈ xs.foldl (fun order x => if x.gameId ∈ order then order else order ++ [x.gameId]) order ↔
        g ∈ order ∨ ∃ x ∈ xs, x.gameId = g := by
  induction xs generalizing order with
  | nil => exact ⟨hnd, fun g => by simp⟩
  | cons x xs ih =>
    rw [List.foldl_cons]
    by_cases hin : x.gameId ∈ order
    · rw [if_pos hin]
      obtain ⟨hnd', hmem⟩ := ih order hnd
      refine ⟨hnd', fun g => ?_⟩
      rw [hmem]
      constructor
      · rintro (hg | ⟨y, hy, hg⟩)
        · exact .inl hg
        · exact .inr ⟨y, List.mem_cons_of_mem _ hy, hg⟩
      · rintro (hg | ⟨y, hy, rfl⟩)
        · exact .inl hg
        · rcases List.mem_cons.mp hy with rfl | hy
          · exact .inl hin
          · exact .inr ⟨y, hy, rfl⟩
    · rw [if_neg hin]
      have hnd' : (order ++ [x.gameId]).Nodup := by
        rw [List.nodup_append]
        refine ⟨hnd, List.nodup_singleton _, ?_⟩
        rintro g hg g' hg' rfl
        exact hin (List.mem_singleton.mp hg' ▸ hg)
      obtain ⟨hnd'', hmem⟩ := ih _ hnd'
      refine ⟨hnd'', fun g => ?_⟩
      rw [hmem, List.mem_append, List.mem_singleton]
      constructor
      · rintro ((hg | rfl) | ⟨y, hy, hg⟩)
        · exact .inl hg
        · exact .inr ⟨x, List.mem_cons_self .., rfl⟩
        · exact .inr ⟨y, List.mem_cons_of_mem _ hy, hg⟩
      · rintro (hg | ⟨y, hy, rfl⟩)
        · exact .inl (.inl hg)
        · rcases List.mem_cons.mp hy with rfl | hy
          · exact .inl (.inr rfl)
          · exact .inr ⟨y, hy, rfl⟩

theorem titlesOf_nodup (xs : List (Disk Id)) : (titlesOf xs).Nodup := (titlesOf_go xs [] .nil).1

theorem mem_titlesOf {xs : List (Disk Id)} : g ∈ titlesOf xs ↔ ∃ x ∈ xs, x.gameId = g := by
  rw [titlesOf, (titlesOf_go xs [] .nil).2 g]
  simp

/-- The sources' disks, one source after another. -/
def incomingOf (lib : Library Id) (sources : List Id) : List (Disk Id) :=
  sources.flatMap fun g => sortByNo (lib.disksOf g)

/-- The number the incoming disks go behind. -/
def lastNo (compact : Bool) (target : List (Disk Id)) : Int :=
  if compact then (target.length : Int) else target.foldl (fun m x => max m x.diskNo) 0

def addRenumber (lib : Library Id) (gid : Id) (sources : List Id) (compact : Bool) : List (Renumber Id) :=
  (if compact then numberFrom gid 0 (sortByNo (lib.disksOf gid)) else []) ++
    numberFrom gid (lastNo compact (lib.disksOf gid)) (incomingOf lib sources)

def addPlan (lib : Library Id) (gid : Id) (sources : List Id) (compact : Bool) : Plan Id :=
  ⟨addRenumber lib gid sources compact, sources,
    deviceUpdates (addRenumber lib gid sources compact) lib.devices⟩

theorem sourceDisks_one {lib : Library Id} {sources : List Id} (hg : g ∈ sources) :
    ((sourceDisks lib sources).filter fun y => y.gameId = g) = lib.disksOf g := by
  rw [sourceDisks, Library.disksOf, List.filter_filter]
  refine List.filter_congr fun d _ => ?_
  by_cases hd : d.gameId = g
  · simp [hd, hg]
  · simp [hd]

theorem planAddDisks_ok {lib : Library Id} {picked : List (Disk Id)}
    (h : planAddDisks gid (lib.disksOf gid) picked (sourceDisks lib (titlesOf picked)) lib.devices compact =
      .ok plan) :
    picked ≠ [] ∧ gid ∉ titlesOf picked ∧ plan = addPlan lib gid (titlesOf picked) compact := by
  rw [planAddDisks] at h
  split at h
  · cases h
  · rename_i hne
    split at h
    · cases h
    · rename_i hother
      refine ⟨hne, fun hin => ?_, ?_⟩
      · obtain ⟨x, hx, hg⟩ := mem_titlesOf.mp hin
        exact hother (List.any_eq_true.mpr ⟨x, hx, decide_eq_true hg⟩)
      · have hincoming : ((titlesOf picked).flatMap fun g =>
            sortByNo ((sourceDisks lib (titlesOf picked)).filter fun y => y.gameId = g)) =
            incomingOf lib (titlesOf picked) := by
          rw [incomingOf, List.flatMap_def, List.flatMap_def]
          congr 1
          refine List.map_congr_left fun g hg => ?_
          rw [sourceDisks_one hg]
        simp only [hincoming] at h
        exact (Except.ok.inj h).symm

/-- What the add leaves, and its snapshots. -/
theorem addDisksToSet_ok {lib added : Library Id} {pick : AddPick Id}
    (h : addDisksToSet lib gid pick rename = .ok (added, snaps)) :
    ∃ (current : Title Id) (sources : List Id), lib.localTitle gid = some current ∧
      sources ≠ [] ∧ sources.Nodup ∧ gid ∉ sources ∧ (∀ g ∈ sources, (lib.localTitle g).isSome) ∧
      added = run (applyPlan (addPlan lib gid sources rename.isSome) lib.devices ++
        [arrange gid (rename.bind fun r => if trim r ≠ current.title then some (trim r) else none)] ++
        deleteEmptied sources) lib ∧
      snaps = (sources.filterMap lib.localTitle).map
        (snapshot lib (addPlan lib gid sources rename.isSome) (sourceDisks lib sources)) := by
  rw [addDisksToSet] at h
  split at h
  · cases h
  · cases hcurrent : lib.localTitle gid with
    | none =>
      rw [hcurrent] at h
      cases h
    | some current =>
      rw [hcurrent] at h
      dsimp only at h
      cases hids : pickedIds lib gid pick with
      | error e =>
        rw [hids] at h
        cases h
      | ok ids =>
        rw [hids] at h
        simp only [Except.bind, bind] at h
        split at h
        · cases h
        · split at h
          · cases h
          · split at h
            · cases h
            · rename_i hlocal
              cases hplan : planAddDisks gid (lib.disksOf gid) (lib.picked ids)
                  (sourceDisks lib (titlesOf (lib.picked ids))) lib.devices rename.isSome with
              | error e =>
                rw [sourceDisks] at hplan
                rw [hplan] at h
                cases h
              | ok plan =>
                obtain ⟨hne, hgid, rfl⟩ := planAddDisks_ok hplan
                rw [sourceDisks] at hplan
                rw [hplan] at h
                have hpair := Prod.mk.inj (Except.ok.inj h)
                refine ⟨current, titlesOf (lib.picked ids), rfl, ?_, titlesOf_nodup _, hgid, ?_, hpair.1.symm,
                  hpair.2.symm⟩
                · rintro hnone
                  obtain ⟨x, hx⟩ := List.exists_mem_of_ne_nil _ hne
                  have hin : x.gameId ∈ titlesOf (lib.picked ids) := mem_titlesOf.mpr ⟨x, hx, rfl⟩
                  rw [hnone] at hin
                  cases hin
                · rintro g hg
                  cases hthere : lib.localTitle g with
                  | none =>
                    exact absurd (List.any_eq_true.mpr ⟨g, hg, by rw [hthere]; rfl⟩) hlocal
                  | some t => rfl

/-- A library whose disks, titles and boards are told apart, each disk in a title that is a
stand-in just when the disk is, and no title without a disk. -/
structure Sound (lib : Library Id) : Prop where
  ids : (lib.disks.map (·.id)).Nodup
  titleIds : (lib.titles.map (·.id)).Nodup
  devices : (lib.devices.map (·.id)).Nodup
  home : ∀ d ∈ lib.disks, ∃ t ∈ lib.titles, t.id = d.gameId ∧ t.hidden = d.hidden
  full : ∀ t ∈ lib.titles, ∃ d ∈ lib.disks, d.gameId = t.id

theorem mem_incomingOf {lib : Library Id} {sources : List Id} :
    d ∈ incomingOf lib sources ↔ d ∈ lib.disks ∧ d.gameId ∈ sources := by
  rw [incomingOf, List.mem_flatMap]
  constructor
  · rintro ⟨g, hg, hd⟩
    obtain ⟨hin, rfl⟩ := mem_disksOf.mp ((sortByNo_perm _).mem_iff.mp hd)
    exact ⟨hin, hg⟩
  · rintro ⟨hin, hg⟩
    exact ⟨d.gameId, hg, (sortByNo_perm _).mem_iff.mpr (mem_disksOf.mpr ⟨hin, rfl⟩)⟩

theorem ids_incomingOf (lib : Library Id) (sources : List Id) :
    (incomingOf lib sources).map (·.id) = sources.flatMap lib.order := by
  rw [incomingOf, List.map_flatMap]
  rfl

theorem orders_nodup {lib : Library Id} (hids : (lib.disks.map (·.id)).Nodup) {gs : List Id}
    (hgs : gs.Nodup) : (gs.flatMap lib.order).Nodup := by
  rw [List.nodup_flatMap]
  refine ⟨fun g _ => order_nodup hids g, hgs.imp fun {g g'} hne id hid hid' => ?_⟩
  obtain ⟨d, hd, rfl, rfl⟩ := mem_order.mp hid
  exact hne (gameId_of_order hids hd hid')

omit [LinearOrder Id] in
theorem le_placedFrom {xs : List (Disk Id)} (h : d ∈ placedFrom g next xs) :
    d.diskNo ≤ next + xs.length := by
  induction xs generalizing next with
  | nil => cases h
  | cons x xs ih =>
    rw [placedFrom, List.mem_cons] at h
    rw [List.length_cons]
    rcases h with rfl | h
    · simp only
      omega
    · have hle := ih h
      omega

omit [LinearOrder Id] in
theorem le_lastNo {xs : List (Disk Id)} (hd : d ∈ xs) : d.diskNo ≤ lastNo false xs := by
  have hgo : ∀ (ys : List (Disk Id)) (m : Int),
      m ≤ ys.foldl (fun m x => max m x.diskNo) m ∧
        ∀ y ∈ ys, y.diskNo ≤ ys.foldl (fun m x => max m x.diskNo) m := by
    intro ys
    induction ys with
    | nil => exact fun m => ⟨le_refl m, fun y hy => absurd hy List.not_mem_nil⟩
    | cons y ys ih =>
      intro m
      obtain ⟨hle, hall⟩ := ih (max m y.diskNo)
      rw [List.foldl_cons]
      refine ⟨le_trans (le_max_left ..) hle, fun z hz => ?_⟩
      rcases List.mem_cons.mp hz with rfl | hz
      · exact le_trans (le_max_right ..) hle
      · exact hall z hz
  exact (hgo xs 0).2 d hd

theorem ids_addRenumber (lib : Library Id) (gid : Id) (sources : List Id) (compact : Bool) :
    (addRenumber lib gid sources compact).map (·.diskId) =
      (if compact then lib.order gid else []) ++ sources.flatMap lib.order := by
  rw [addRenumber, List.map_append, ids_numberFrom, ids_incomingOf]
  cases compact with
  | true => simp only [if_true, ids_numberFrom, Library.order]
  | false => rfl

theorem addRenumber_nodup {lib : Library Id} (hids : (lib.disks.map (·.id)).Nodup) {sources : List Id}
    (hnd : sources.Nodup) (hgid : gid ∉ sources) (compact : Bool) :
    ((addRenumber lib gid sources compact).map (·.diskId)).Nodup := by
  have hall := orders_nodup hids (List.nodup_cons.mpr ⟨hgid, hnd⟩)
  rw [ids_addRenumber]
  cases compact with
  | true => exact hall
  | false => exact (List.nodup_append.mp hall).2.1

/-- The target's own disks after the add: in their order, and before what comes in. -/
theorem own_after {lib : Library Id} (hids : (lib.disks.map (·.id)).Nodup) {sources : List Id}
    (hnd : sources.Nodup) (hgid : gid ∉ sources) (compact : Bool) :
    ∃ own, (sortByNo (lib.disksOf gid)).map (movedBy (addRenumber lib gid sources compact)) = own ∧
      own.map (·.id) = lib.order gid ∧ (∀ d ∈ own, d.gameId = gid) ∧
      own.Pairwise (fun a b => byNo a b = true) ∧
      ∀ d ∈ own, d.diskNo ≤ lastNo compact (lib.disksOf gid) := by
  cases compact with
  | true =>
    refine ⟨placedFrom gid 0 (sortByNo (lib.disksOf gid)),
      map_movedBy (addRenumber_nodup hids hnd hgid true) (List.subset_append_left _ _), ids_placedFrom ..,
      fun d hd => (mem_placedFrom hd).1, placedFrom_sorted .., fun d hd => ?_⟩
    have hle := le_placedFrom hd
    rw [(sortByNo_perm _).length_eq, Int.zero_add] at hle
    exact hle
  | false =>
    refine ⟨sortByNo (lib.disksOf gid), ?_, rfl, fun d hd => ?_, sortByNo_sorted _, fun d hd => ?_⟩
    · refine (List.map_congr_left fun d hd => ?_).trans (List.map_id _)
      obtain ⟨hin, hg⟩ := mem_disksOf.mp ((sortByNo_perm _).mem_iff.mp hd)
      refine movedBy_other ?_
      rw [ids_addRenumber]
      rintro hmoved
      obtain ⟨g, hgs, hid⟩ := List.mem_flatMap.mp hmoved
      exact hgid (hg.symm.trans (gameId_of_order hids hin hid) ▸ hgs)
    · exact (mem_disksOf.mp ((sortByNo_perm _).mem_iff.mp hd)).2
    · exact le_lastNo ((sortByNo_perm _).mem_iff.mp hd)

/-- Where the disks are after the add. -/
theorem add_disks {lib : Library Id} (hids : (lib.disks.map (·.id)).Nodup) {sources : List Id}
    (hnd : sources.Nodup) (hgid : gid ∉ sources) (compact : Bool) :
    ∃ set others : List (Disk Id), (∀ d ∈ set, d.gameId = gid) ∧
      set.Pairwise (fun a b => byNo a b = true) ∧
      set.map (·.id) = lib.order gid ++ sources.flatMap lib.order ∧
      (∀ d ∈ others, d.gameId ≠ gid ∧ d.gameId ∉ sources) ∧
      lib.disks.Perm (sortByNo (lib.disksOf gid) ++ incomingOf lib sources ++ others) ∧
      (lib.disks.map (movedBy (addRenumber lib gid sources compact))).Perm (set ++ others) := by
  obtain ⟨own, hown, hownIds, hownIn, hownSorted, hownLe⟩ := own_after hids hnd hgid compact
  have hrs := addRenumber_nodup hids hnd hgid compact
  have hboth : ((sortByNo (lib.disksOf gid) ++ incomingOf lib sources).map (·.id)).Nodup := by
    rw [List.map_append, ids_incomingOf]
    exact orders_nodup hids (List.nodup_cons.mpr ⟨hgid, hnd⟩)
  have hsub : sortByNo (lib.disksOf gid) ++ incomingOf lib sources ⊆ lib.disks := by
    rintro d hd
    rcases List.mem_append.mp hd with hd | hd
    · exact (mem_disksOf.mp ((sortByNo_perm _).mem_iff.mp hd)).1
    · exact (mem_incomingOf.mp hd).1
  have hperm := perm_rest hids hsub hboth
  have hothers : ∀ d ∈ lib.disks.filter (fun d => d.id ∉
      (sortByNo (lib.disksOf gid) ++ incomingOf lib sources).map (·.id)),
      d.gameId ≠ gid ∧ d.gameId ∉ sources := by
    rintro d hd
    obtain ⟨hin, hout⟩ := List.mem_filter.mp hd
    simp only [decide_eq_true_eq] at hout
    refine ⟨fun hg => hout (List.mem_map_of_mem (List.mem_append_left _ ?_)),
      fun hg => hout (List.mem_map_of_mem (List.mem_append_right _ (mem_incomingOf.mpr ⟨hin, hg⟩)))⟩
    exact (sortByNo_perm _).mem_iff.mpr (mem_disksOf.mpr ⟨hin, hg⟩)
  have hkept : (lib.disks.filter (fun d => d.id ∉
      (sortByNo (lib.disksOf gid) ++ incomingOf lib sources).map (·.id))).map
        (movedBy (addRenumber lib gid sources compact)) =
      lib.disks.filter fun d => d.id ∉
        (sortByNo (lib.disksOf gid) ++ incomingOf lib sources).map (·.id) := by
    refine (List.map_congr_left fun d hd => ?_).trans (List.map_id _)
    obtain ⟨hin, -⟩ := List.mem_filter.mp hd
    refine movedBy_other ?_
    rw [ids_addRenumber]
    rintro hmoved
    rcases List.mem_append.mp hmoved with hmoved | hmoved
    · cases compact with
      | true => exact (hothers d hd).1 (gameId_of_order hids hin hmoved)
      | false => cases hmoved
    · obtain ⟨g, hg, hid⟩ := List.mem_flatMap.mp hmoved
      exact (hothers d hd).2 (gameId_of_order hids hin hid ▸ hg)
  have hincoming : (incomingOf lib sources).map (movedBy (addRenumber lib gid sources compact)) =
      placedFrom gid (lastNo compact (lib.disksOf gid)) (incomingOf lib sources) :=
    map_movedBy hrs (List.subset_append_right _ _)
  have hafter := hperm.map (movedBy (addRenumber lib gid sources compact))
  rw [List.map_append, List.map_append, hown, hincoming, hkept] at hafter
  refine ⟨_, _, ?_, ?_, ?_, hothers, hperm, hafter⟩
  · rintro d hd
    rcases List.mem_append.mp hd with hd | hd
    · exact hownIn d hd
    · exact (mem_placedFrom hd).1
  · refine List.pairwise_append.mpr ⟨hownSorted, placedFrom_sorted .., fun a ha b hb => ?_⟩
    have hle := hownLe a ha
    have hlt := (mem_placedFrom hb).2.1
    exact byNo_iff.mpr (.inl (by omega))
  · rw [List.map_append, hownIds, ids_placedFrom, ids_incomingOf]

theorem find_sourceDisks {lib : Library Id} (hids : (lib.disks.map (·.id)).Nodup) (hd : d ∈ lib.disks)
    (sources : List Id) :
    ((sourceDisks lib sources).find? fun d' => d'.id = d.id).map (·.gameId) =
      if d.gameId ∈ sources then some d.gameId else none := by
  by_cases hg : d.gameId ∈ sources
  · have hin : d ∈ sourceDisks lib sources := List.mem_filter.mpr ⟨hd, decide_eq_true hg⟩
    have hnd : ((sourceDisks lib sources).map (·.id)).Nodup := hids.sublist (List.filter_sublist.map _)
    rw [if_pos hg, find_of_nodup hnd hin]
    rfl
  · have hnone : ((sourceDisks lib sources).find? fun d' => d'.id = d.id) = none := by
      rw [List.find?_eq_none]
      rintro d' hd' hsame
      obtain ⟨hin, hg'⟩ := List.mem_filter.mp hd'
      simp only [decide_eq_true_eq] at hsame hg'
      rw [eq_of_id hids hin hd hsame] at hg'
      exact hg hg'
    rw [if_neg hg, hnone]
    rfl

/-- What the filter of a snapshot leaves of a title's disks. -/
theorem filter_order {lib : Library Id} (hids : (lib.disks.map (·.id)).Nodup) {sources : List Id}
    (hs : s ∈ sources) (g : Id) :
    ((lib.order g).filter fun id =>
        ((sourceDisks lib sources).find? fun d => d.id = id).map (·.gameId) = some s) =
      if g = s then lib.order s else [] := by
  by_cases hg : g = s
  · rw [if_pos hg, List.filter_eq_self.mpr, hg]
    rintro id hid
    obtain ⟨d, hd, rfl, rfl⟩ := mem_order.mp hid
    rw [decide_eq_true_eq, find_sourceDisks hids hd, hg, if_pos hs]
  · rw [if_neg hg, List.filter_eq_nil_iff]
    rintro id hid
    obtain ⟨d, hd, rfl, rfl⟩ := mem_order.mp hid
    rw [decide_eq_true_eq, find_sourceDisks hids hd]
    split
    · rintro heq
      exact hg (Option.some.inj heq)
    · rintro heq
      cases heq

theorem flatMap_filter_one {α β : Type} [DecidableEq α] {s : α} {xs : List α} {f : α → List β}
    {p : β → Bool} (hnd : xs.Nodup) (hs : s ∈ xs) (h : ∀ x, (f x).filter p = if x = s then f s else []) :
    (xs.flatMap f).filter p = f s := by
  induction xs with
  | nil => cases hs
  | cons x xs ih =>
    rw [List.nodup_cons] at hnd
    rw [List.flatMap_cons, List.filter_append, h]
    rcases List.mem_cons.mp hs with rfl | hs
    · have hnone : (xs.flatMap f).filter p = [] := by
        rw [List.filter_flatMap, List.flatMap_eq_nil_iff]
        rintro y hy
        rw [h, if_neg]
        rintro rfl
        exact hnd.1 hy
      rw [if_pos rfl, hnone, List.append_nil]
    · rw [if_neg, List.nil_append]
      · exact ih hnd.2 hs
      · rintro rfl
        exact hnd.1 hs

/-- A title again: its name, year, publisher, the name's source, and whether a person
arranged it. -/
structure SameTitle (t u : Title Id) : Prop where
  title : u.title = t.title
  year : u.year = t.year
  publisher : u.publisher = t.publisher
  metadataSource : u.metadataSource = t.metadataSource
  arranged : u.diskOrderSource = some human ↔ t.diskOrderSource = some human

/-- A snapshot of a title of the library. -/
def SnapOf (lib : Library Id) (g : Id) (snap : UndoSnapshot Id) : Prop :=
  snap.diskIds = lib.order g ∧
    ∃ t ∈ lib.titles, t.id = g ∧ t.hidden = false ∧ ∀ newId, SameTitle t (remade newId snap)

theorem localTitle_some {lib : Library Id} (h : lib.localTitle g = some t) :
    t ∈ lib.titles ∧ t.id = g ∧ t.hidden = false := by
  have hmatch := List.find?_some h
  simp only [Bool.and_eq_true, decide_eq_true_eq, Bool.not_eq_true'] at hmatch
  exact ⟨List.mem_of_find?_eq_some h, hmatch⟩

theorem snapshot_of {lib : Library Id} (hids : (lib.disks.map (·.id)).Nodup) {sources : List Id}
    (hnd : sources.Nodup) (hgid : gid ∉ sources) (compact : Bool) (hs : s ∈ sources)
    (ht : lib.localTitle s = some t) :
    SnapOf lib s (snapshot lib (addPlan lib gid sources compact) (sourceDisks lib sources) t) := by
  obtain ⟨hin, rfl, hhidden⟩ := localTitle_some ht
  refine ⟨?_, t, hin, rfl, hhidden, fun newId => ⟨rfl, rfl, rfl, rfl, ?_⟩⟩
  · have hmap : ((addRenumber lib gid sources compact).filter fun r =>
        ((sourceDisks lib sources).find? fun d => d.id = r.diskId).map (·.gameId) = some t.id).map
          (·.diskId) =
        ((addRenumber lib gid sources compact).map (·.diskId)).filter fun id =>
          ((sourceDisks lib sources).find? fun d => d.id = id).map (·.gameId) = some t.id := by
      rw [List.filter_map]
      rfl
    have hown : ((if compact then lib.order gid else []).filter fun id =>
        ((sourceDisks lib sources).find? fun d => d.id = id).map (·.gameId) = some t.id) = [] := by
      cases compact with
      | true =>
        have hone := filter_order hids hs gid
        rw [if_neg (by rintro rfl; exact hgid hs)] at hone
        exact hone
      | false => rfl
    have hone := flatMap_filter_one hnd hs (filter_order hids hs)
    rw [snapshot, addPlan, hmap, ids_addRenumber, List.filter_append, hown, List.nil_append, hone]
  · rw [remade, snapshot]
    split
    · rename_i harranged
      exact ⟨fun _ => harranged, fun _ => rfl⟩
    · rename_i hnot
      exact ⟨fun hno => (by cases hno), fun hyes => absurd hyes hnot⟩

/-- What an add leaves. -/
structure Added (lib added : Library Id) (gid : Id) (sources : List Id) (snaps : List (UndoSnapshot Id)) :
    Prop where
  some : sources ≠ []
  once : sources.Nodup
  apart : gid ∉ sources
  target : ∃ t ∈ lib.titles, t.id = gid
  order : added.order gid = lib.order gid ++ sources.flatMap lib.order
  others : ∀ g, g ≠ gid → g ∉ sources → added.order g = lib.order g
  titles : added.titles.map (·.id) = (lib.titles.map (·.id)).filter fun g => g ∉ sources
  disks : added.disks.map (fun d => (d.id, d.hidden)) = lib.disks.map fun d => (d.id, d.hidden)
  boards : List.Forall₂ SameBoard lib.devices added.devices
  snaps : List.Forall₂ (SnapOf lib) sources snaps

theorem ids_arrange (g : Id) (renamed : Option Units) (lib : Library Id) :
    (arrange g renamed lib).titles.map (·.id) = lib.titles.map (·.id) := by
  rw [arrange, List.map_map]
  refine List.map_congr_left fun t _ => ?_
  simp only [Function.comp]
  split
  · split
    · rfl
    · rfl
  · rfl

/-- Titles with no disk left are gone, and only they of those emptied. -/
theorem run_deleteEmptied {lib : Library Id} {sources : List Id} (hne : sources ≠ [])
    (hempty : ∀ g ∈ sources, noDiskLeft lib g = true) :
    (run (deleteEmptied sources) lib).disks = lib.disks ∧
      (run (deleteEmptied sources) lib).devices = lib.devices ∧
      (run (deleteEmptied sources) lib).titles.map (·.id) =
        (lib.titles.map (·.id)).filter fun g => g ∉ sources := by
  rw [deleteEmptied, if_neg hne]
  refine ⟨rfl, rfl, ?_⟩
  simp only [run, List.foldl_cons, List.foldl_nil]
  rw [List.filter_map]
  refine congrArg (List.map _) (List.filter_congr fun t _ => ?_)
  simp only [Function.comp, decide_eq_decide]
  constructor
  · rintro hkept hin
    exact hkept ⟨hin, hempty t.id hin⟩
  · rintro hout ⟨hin, -⟩
    exact hout hin

theorem snaps_of {lib : Library Id} (hids : (lib.disks.map (·.id)).Nodup) {sources : List Id}
    (hnd : sources.Nodup) (hgid : gid ∉ sources) (compact : Bool)
    (hlocal : ∀ g ∈ sources, (lib.localTitle g).isSome) :
    List.Forall₂ (SnapOf lib) sources ((sources.filterMap lib.localTitle).map
      (snapshot lib (addPlan lib gid sources compact) (sourceDisks lib sources))) := by
  have hgo : ∀ gs : List Id, gs ⊆ sources → List.Forall₂ (SnapOf lib) gs ((gs.filterMap lib.localTitle).map
      (snapshot lib (addPlan lib gid sources compact) (sourceDisks lib sources))) := by
    intro gs hsub
    induction gs with
    | nil => exact .nil
    | cons g gs ih =>
      rw [List.cons_subset] at hsub
      obtain ⟨t, ht⟩ := Option.isSome_iff_exists.mp (hlocal g hsub.1)
      rw [List.filterMap_cons, ht, List.map_cons]
      exact .cons (snapshot_of hids hnd hgid compact hsub.1 ht) (ih hsub.2)
  exact hgo sources (List.Subset.refl _)

theorem added_ok {lib added : Library Id} {pick : AddPick Id} (hids : (lib.disks.map (·.id)).Nodup)
    (h : addDisksToSet lib gid pick rename = .ok (added, snaps)) :
    ∃ sources, Added lib added gid sources snaps := by
  obtain ⟨current, sources, hcurrent, hne, hnd, hgid, hlocal, rfl, rfl⟩ := addDisksToSet_ok h
  refine ⟨sources, ?_⟩
  have hrs := addRenumber_nodup hids hnd hgid rename.isSome
  obtain ⟨set, others, hset, hsorted, hsetIds, hothers, hbefore, hafter⟩ :=
    add_disks hids hnd hgid rename.isSome
  have hplan : run (applyPlan (addPlan lib gid sources rename.isSome) lib.devices) lib =
      applied (addPlan lib gid sources rename.isSome) lib := run_applyPlan hrs lib
  have hempty : ∀ g ∈ sources, ∀ d ∈ (applied (addPlan lib gid sources rename.isSome) lib).disks,
      d.gameId ≠ g := by
    rintro g hg d hd rfl
    rcases List.mem_append.mp (hafter.mem_iff.mp hd) with hd | hd
    · exact hgid (hset d hd ▸ hg)
    · exact (hothers d hd).2 hg
  generalize (rename.bind fun r => if trim r ≠ current.title then some (trim r) else none) = renamed
  have hnone : ∀ g ∈ sources, noDiskLeft
      (arrange gid renamed (applied (addPlan lib gid sources rename.isSome) lib)) g = true := by
    rintro g hg
    exact List.all_eq_true.mpr fun d hd => decide_eq_true (hempty g hg d hd)
  have hdeleted := run_deleteEmptied hne hnone
  rw [ids_arrange] at hdeleted
  have hrun : run (applyPlan (addPlan lib gid sources rename.isSome) lib.devices ++ [arrange gid renamed] ++
      deleteEmptied sources) lib = run (deleteEmptied sources)
        (arrange gid renamed (applied (addPlan lib gid sources rename.isSome) lib)) := by
    rw [run_append, run_append, hplan]
    rfl
  rw [hrun]
  generalize run (deleteEmptied sources)
    (arrange gid renamed (applied (addPlan lib gid sources rename.isSome) lib)) = added at hdeleted
  obtain ⟨hdisks, hdevices, htitles⟩ := hdeleted
  have hdisks' : added.disks = lib.disks.map (movedBy (addRenumber lib gid sources rename.isSome)) := hdisks
  have hperm : added.disks.Perm (set ++ others) := by
    rw [hdisks']
    exact hafter
  have hsame : added.disks.map (fun d => (d.id, d.hidden)) = lib.disks.map fun d => (d.id, d.hidden) := by
    rw [hdisks]
    exact applied_ids _ lib
  have hids' : (added.disks.map (·.id)).Nodup := by
    rw [ids_of_disks hsame]
    exact hids
  constructor
  case some => exact hne
  case once => exact hnd
  case apart => exact hgid
  case target =>
    obtain ⟨hin, hid, -⟩ := localTitle_some hcurrent
    exact ⟨current, hin, hid⟩
  case order => rw [Library.order, sorted_disksOf hids' hperm hset (fun d hd => (hothers d hd).1) hsorted, hsetIds]
  case others =>
    rintro g hg hout
    have htook : ∀ d ∈ sortByNo (lib.disksOf gid) ++ incomingOf lib sources, d.gameId ≠ g := by
      rintro d hd rfl
      rcases List.mem_append.mp hd with hd | hd
      · exact hg (mem_disksOf.mp ((sortByNo_perm _).mem_iff.mp hd)).2
      · exact hout (mem_incomingOf.mp hd).2
    have hput : ∀ d ∈ set, d.gameId ≠ g := fun d hd heq => hg (heq.symm.trans (hset d hd))
    rw [Library.order, Library.order, sorted_other hids hbefore hperm htook hput]
  case titles => exact htitles
  case disks => exact hsame
  case boards =>
    rw [hdevices]
    exact applied_boards _ lib
  case snaps => exact snaps_of hids hnd hgid _ hlocal

-- ---------------------------------------------------------------------------
-- Put back
-- ---------------------------------------------------------------------------

theorem mem_order_ids {lib : Library Id} (h : Sound lib) {g : Id} (hg : g ∈ lib.titles.map (·.id)) :
    lib.order g ≠ [] := by
  obtain ⟨t, ht, rfl⟩ := List.mem_map.mp hg
  obtain ⟨d, hd, hdg⟩ := h.full t ht
  exact List.ne_nil_of_mem (mem_order.mpr ⟨d, hd, hdg, rfl⟩)

theorem Added.source_title {lib added : Library Id} {sources : List Id} {snaps : List (UndoSnapshot Id)}
    (h : Added lib added gid sources snaps) {s : Id} (hs : s ∈ sources) : ∃ t ∈ lib.titles, t.id = s ∧ t.hidden = false := by
  have hall := h.snaps
  clear h
  induction hall with
  | nil => cases hs
  | cons hsnap _ ih =>
    rcases List.mem_cons.mp hs with rfl | hs
    · obtain ⟨-, t, ht, hid, hhidden, -⟩ := hsnap
      exact ⟨t, ht, hid, hhidden⟩
    · exact ih hs

theorem exists_of_forall₂ {α β : Type} {R : α → β → Prop} {xs : List α} {ys : List β} {y : β}
    (h : List.Forall₂ R xs ys) (hy : y ∈ ys) : ∃ x ∈ xs, R x y := by
  induction h with
  | nil => cases hy
  | cons hR _ ih =>
    rcases List.mem_cons.mp hy with rfl | hy
    · exact ⟨_, List.mem_cons_self .., hR⟩
    · obtain ⟨x, hx, hR'⟩ := ih hy
      exact ⟨x, List.mem_cons_of_mem _ hx, hR'⟩

/-- The snapshots of an add can be undone in any order, as new titles. -/
theorem Added.undoable {lib added : Library Id} {sources : List Id} {snaps : List (UndoSnapshot Id)}
    (hsound : Sound lib)
    (h : Added lib added gid sources snaps) {again : List (Id × UndoSnapshot Id)} {left : List Id}
    (hleft : left.Perm sources) (hagain : List.Forall₂ (fun s p => SnapOf lib s p.2) left again)
    (hnew : (again.map (·.1)).Nodup) (hfresh : ∀ p ∈ again, p.1 ∉ lib.titles.map (·.id)) :
    AllUndoable added gid again := by
  have hdiskIds : again.flatMap (·.2.diskIds) = left.flatMap lib.order := by
    clear hleft hnew hfresh
    induction hagain with
    | nil => rfl
    | cons hsnap _ ih => rw [List.flatMap_cons, List.flatMap_cons, ih, hsnap.1]
  have hsnapOf : ∀ p ∈ again, ∃ s ∈ sources, SnapOf lib s p.2 := by
    rintro p hp
    obtain ⟨s, hs, hsnap⟩ := exists_of_forall₂ hagain hp
    exact ⟨s, hleft.mem_iff.mp hs, hsnap⟩
  have hin : ∀ id ∈ again.flatMap (·.2.diskIds), id ∈ sources.flatMap lib.order := by
    rintro id hid
    rw [hdiskIds] at hid
    exact ((hleft.flatMap_right lib.order).mem_iff).mp hid
  have hids : added.disks.map (·.id) = lib.disks.map (·.id) := ids_of_disks h.disks
  have htarget : gid ∈ lib.titles.map (·.id) := by
    obtain ⟨t, ht, hid⟩ := h.target
    exact List.mem_map.mpr ⟨t, ht, hid⟩
  constructor
  case ids =>
    rw [hids]
    exact hsound.ids
  case devices =>
    rw [ids_of_boards h.boards]
    exact hsound.devices
  case some =>
    rintro p hp
    obtain ⟨s, hs, hsnap⟩ := hsnapOf p hp
    obtain ⟨t, ht, hid, -⟩ := h.source_title hs
    rw [hsnap.1]
    exact mem_order_ids hsound (List.mem_map.mpr ⟨t, ht, hid⟩)
  case once =>
    rw [hdiskIds]
    exact orders_nodup hsound.ids (hleft.nodup_iff.mpr h.once)
  case inside =>
    rintro p hp id hid
    rw [h.order]
    exact List.mem_append_right _ (hin id (List.mem_flatMap.mpr ⟨p, hp, hid⟩))
  case here =>
    rintro d hd hdid
    obtain ⟨d', hd', hsame, hhidden⟩ := hidden_of_disks h.disks hd
    obtain ⟨s, hs, hsid⟩ := List.mem_flatMap.mp (hin d.id hdid)
    rw [← hsame] at hsid
    obtain ⟨t, ht, hid, hlocal⟩ := h.source_title hs
    obtain ⟨t', ht', hid', hhidden'⟩ := hsound.home d' hd'
    rw [gameId_of_order hsound.ids hd' hsid] at hid'
    have hsameTitle : t' = t := List.inj_on_of_nodup_map hsound.titleIds ht' ht (hid'.trans hid.symm)
    rw [← hhidden, ← hhidden', hsameTitle, hlocal]
  case title =>
    have hthere : gid ∈ added.titles.map (·.id) := by
      rw [h.titles]
      exact List.mem_filter.mpr ⟨htarget, decide_eq_true h.apart⟩
    obtain ⟨t, ht, hid⟩ := List.mem_map.mp hthere
    exact ⟨t, ht, hid⟩
  case keeps =>
    obtain ⟨id, hid⟩ := List.exists_mem_of_ne_nil _ (mem_order_ids hsound htarget)
    refine ⟨id, by rw [h.order]; exact List.mem_append_left _ hid, fun hout => ?_⟩
    obtain ⟨s, hs, hsid⟩ := List.mem_flatMap.mp (hin id hout)
    obtain ⟨d, hd, rfl, rfl⟩ := mem_order.mp hid
    exact h.apart (gameId_of_order hsound.ids hd hsid ▸ hs)
  case new => exact hnew
  case fresh =>
    rintro p hp d hd hg
    have hnot := hfresh p hp
    have hdin : d.id ∈ added.order p.1 := mem_order.mpr ⟨d, hd, hg, rfl⟩
    have hsource : p.1 ∉ sources := by
      rintro hs
      obtain ⟨t, ht, hid, -⟩ := h.source_title hs
      exact hnot (List.mem_map.mpr ⟨t, ht, hid⟩)
    rw [h.others p.1 (fun heq => hnot (heq ▸ htarget)) hsource] at hdin
    obtain ⟨d', hd', hg', -⟩ := mem_order.mp hdin
    obtain ⟨t, ht, hid, -⟩ := hsound.home d' hd'
    exact hnot (List.mem_map.mpr ⟨t, ht, hid.trans hg'⟩)

/-- A library after an add and the undos, against the library before: `now` says what each
title has become. -/
structure PutBack (lib added done : Library Id) (gid : Id) (now : Id → Id) : Prop where
  disks : done.disks.map (·.id) = lib.disks.map (·.id)
  titles : (done.titles.map (·.id)).Perm (lib.titles.map fun t => now t.id)
  apart : (done.titles.map (·.id)).Nodup
  partition : ∀ d ∈ lib.disks, ∃ d' ∈ done.disks, d'.id = d.id ∧ d'.gameId = now d.gameId
  order : ∀ t ∈ lib.titles, done.order (now t.id) = lib.order t.id
  stays : ∀ t ∈ lib.titles, t.id ∈ added.titles.map (·.id) → now t.id = t.id
  remade : ∀ t ∈ lib.titles, t.id ∉ added.titles.map (·.id) →
    Numbered done (now t.id) ∧ ∃ u ∈ done.titles, u.id = now t.id ∧ SameTitle t u
  left : now gid = gid ∧ Numbered done gid
  full : ∀ t ∈ done.titles, ∃ d ∈ done.disks, d.gameId = t.id
  boards : List.Forall₂ SameBoard lib.devices done.devices
  named : ∀ t ∈ lib.titles, t.id = gid ∨ t.id ∉ added.titles.map (·.id) →
    ∀ id ∈ lib.order t.id, Named done id

/-- What the emptied titles become, the others staying. -/
theorem exists_now {α : Type} {R : Id → α → Prop} {gs : List Id} {xs : List α} (f : α → Id)
    (hnd : gs.Nodup) (h : List.Forall₂ R gs xs) :
    ∃ now : Id → Id, (∀ g, g ∉ gs → now g = g) ∧ List.Forall₂ (fun g x => R g x ∧ now g = f x) gs xs := by
  induction h with
  | nil => exact ⟨id, fun _ _ => rfl, .nil⟩
  | cons hR hrest ih =>
    rename_i g x gs xs
    rw [List.nodup_cons] at hnd
    obtain ⟨now, hstays, hall⟩ := ih hnd.2
    refine ⟨Function.update now g (f x), fun g' hg' => ?_, .cons ⟨hR, Function.update_self ..⟩ ?_⟩
    · rw [List.mem_cons, not_or] at hg'
      rw [Function.update_of_ne hg'.1]
      exact hstays g' hg'.2
    · clear ih hstays hrest
      induction hall with
      | nil => exact .nil
      | cons hhead _ ih =>
        rename_i g' x' gs' xs' _
        have hne : g' ≠ g := by
          rintro rfl
          exact hnd.1 (List.mem_cons_self ..)
        refine .cons ⟨hhead.1, by rw [Function.update_of_ne hne]; exact hhead.2⟩ (ih ⟨?_, ?_⟩)
        · exact fun hin => hnd.1 (List.mem_cons_of_mem _ hin)
        · exact (List.nodup_cons.mp hnd.2).2

omit [LinearOrder Id] in
theorem map_now {α : Type} {R : Id → α → Prop} {now : Id → Id} {f : α → Id} {gs : List Id} {xs : List α}
    (h : List.Forall₂ (fun g x => R g x ∧ now g = f x) gs xs) : gs.map now = xs.map f := by
  induction h with
  | nil => rfl
  | cons hhead _ ih => rw [List.map_cons, List.map_cons, hhead.2, ih]

theorem filter_append_perm {gs left : List Id} (hgs : gs.Nodup) (hleft : left.Nodup)
    (hsub : ∀ g ∈ left, g ∈ gs) : ((gs.filter fun g => g ∉ left) ++ left).Perm gs := by
  have hapart : ((gs.filter fun g => g ∉ left) ++ left).Nodup := by
    rw [List.nodup_append]
    refine ⟨hgs.filter _, hleft, ?_⟩
    rintro g hg g' hg' rfl
    exact of_decide_eq_true (List.mem_filter.mp hg).2 hg'
  refine (List.perm_ext_iff_of_nodup hapart hgs).mpr fun g => ?_
  rw [List.mem_append, List.mem_filter, decide_eq_true_eq]
  constructor
  · rintro (⟨hin, -⟩ | hin)
    · exact hin
    · exact hsub g hin
  · rintro hin
    by_cases hg : g ∈ left
    · exact .inr hg
    · exact .inl ⟨hin, hg⟩

theorem filter_none {lib added : Library Id} {sources : List Id} {snaps : List (UndoSnapshot Id)}
    (hsound : Sound lib) (h : Added lib added gid sources snaps) (ids : List Id)
    (hids : ids ⊆ sources.flatMap lib.order) :
    (lib.order gid).filter (fun id => id ∉ ids) = lib.order gid := by
  rw [List.filter_eq_self]
  rintro id hid
  rw [decide_eq_true_eq]
  rintro hin
  obtain ⟨s, hs, hsid⟩ := List.mem_flatMap.mp (hids hin)
  obtain ⟨d, hd, rfl, rfl⟩ := mem_order.mp hid
  exact h.apart (gameId_of_order hsound.ids hd hsid ▸ hs)

/-- The set undone: after an add and the undo of every snapshot, in any order and each as a
new title, every title has its disks back in their order. -/
theorem undone {lib added : Library Id} {pick : AddPick Id} {snaps : List (UndoSnapshot Id)}
    {again : List (Id × UndoSnapshot Id)} (hsound : Sound lib)
    (hadd : addDisksToSet lib gid pick rename = .ok (added, snaps))
    (hall : (again.map (·.2)).Perm snaps) (hnew : (again.map (·.1)).Nodup)
    (hfresh : ∀ p ∈ again, p.1 ∉ lib.titles.map (·.id)) :
    ∃ done now, undoAll added again = .ok done ∧ PutBack lib added done gid now := by
  obtain ⟨sources, h⟩ := added_ok hsound.ids hadd
  obtain ⟨left, hagain, hleft⟩ : ∃ left, List.Forall₂ (fun s p => SnapOf lib s p.2) left again ∧
      left.Perm sources := by
    obtain ⟨left, hflip, hperm⟩ := List.perm_comp_forall₂ hall h.snaps.flip
    exact ⟨left, List.forall₂_map_right_iff.mp hflip.flip, hperm⟩
  have hundoable := h.undoable hsound hleft hagain hnew hfresh
  obtain ⟨done, hdone, hrun⟩ := undoAll_ok hundoable
  obtain ⟨now, hstays, hnow⟩ := exists_now (·.1) (hleft.nodup_iff.mpr h.once) hagain
  refine ⟨done, now, hdone, ?_⟩
  have hne : again ≠ [] := by
    rintro rfl
    rw [List.forall₂_nil_right_iff.mp hagain] at hleft
    exact h.some hleft.symm.eq_nil
  have hrebuilt : ∀ t ∈ lib.titles, t.id ∈ sources →
      ∃ p ∈ again, now t.id = p.1 ∧ p.2.diskIds = lib.order t.id ∧ SameTitle t (remade p.1 p.2) := by
    rintro t ht hs
    obtain ⟨p, hp, hsnap, heq⟩ := exists_of_forall₂ hnow.flip (hleft.mem_iff.mpr hs)
    obtain ⟨hids, t', ht', hid, -, hsame⟩ := hsnap
    have hone : t' = t := List.inj_on_of_nodup_map hsound.titleIds ht' ht hid
    exact ⟨p, hp, heq, hids, hone ▸ hsame p.1⟩
  have hgone : ∀ t ∈ lib.titles, (t.id ∉ added.titles.map (·.id) ↔ t.id ∈ sources) := by
    rintro t ht
    rw [h.titles, List.mem_filter, decide_eq_true_eq, not_and, not_not]
    exact ⟨fun hin => hin (List.mem_map_of_mem ht), fun hin _ => hin⟩
  have hgid : now gid = gid := hstays gid fun hin => h.apart (hleft.mem_iff.mp hin)
  have hleftOrder : done.order gid = lib.order gid := by
    have hin : again.flatMap (·.2.diskIds) ⊆ sources.flatMap lib.order := by
      rintro id hid
      obtain ⟨p, hp, hpid⟩ := List.mem_flatMap.mp hid
      obtain ⟨s, hs, hsnap⟩ := exists_of_forall₂ hagain hp
      rw [hsnap.1] at hpid
      exact List.mem_flatMap.mpr ⟨s, hleft.mem_iff.mp hs, hpid⟩
    have hout : (sources.flatMap lib.order).filter (fun id => id ∉ again.flatMap (·.2.diskIds)) = [] := by
      rw [List.filter_eq_nil_iff]
      rintro id hid
      obtain ⟨s, hs, hsid⟩ := List.mem_flatMap.mp hid
      obtain ⟨p, hp, hsnap⟩ := exists_of_forall₂ hagain.flip (hleft.mem_iff.mpr hs)
      rw [decide_eq_true_eq, not_not]
      exact List.mem_flatMap.mpr ⟨p, hp, by rw [hsnap.1]; exact hsid⟩
    rw [hrun.left, h.order, List.filter_append, filter_none hsound h _ hin, hout, List.append_nil]
  have horder : ∀ t ∈ lib.titles, done.order (now t.id) = lib.order t.id := by
    rintro t ht
    by_cases hs : t.id ∈ sources
    · obtain ⟨p, hp, heq, hids, -⟩ := hrebuilt t ht hs
      rw [heq, (hrun.made p hp).1, hids]
    · rw [hstays t.id fun hin => hs (hleft.mem_iff.mp hin)]
      by_cases htarget : t.id = gid
      · rw [htarget, hleftOrder]
      · have hnot : t.id ∉ again.map (·.1) := by
          rintro hin
          obtain ⟨p, hp, heq⟩ := List.mem_map.mp hin
          exact hfresh p hp (heq ▸ List.mem_map_of_mem ht)
        rw [(hrun.others t.id htarget hnot).1, h.others t.id htarget hs]
  have hdoneIds : done.titles.map (·.id) =
      (lib.titles.map (·.id)).filter (fun g => g ∉ sources) ++ again.map (·.1) := by
    rw [hrun.titles, List.map_append, h.titles, List.map_map]
    rfl
  have htitles : (done.titles.map (·.id)).Perm (lib.titles.map fun t => now t.id) := by
    have hparts := filter_append_perm hsound.titleIds (hleft.nodup_iff.mpr h.once) (fun s hs => by
      obtain ⟨t, ht, hid, -⟩ := h.source_title (hleft.mem_iff.mp hs)
      exact List.mem_map.mpr ⟨t, ht, hid⟩)
    have hkept : ((lib.titles.map (·.id)).filter fun g => g ∉ left).map now =
        (lib.titles.map (·.id)).filter fun g => g ∉ left := by
      refine (List.map_congr_left fun g hg => ?_).trans (List.map_id _)
      exact hstays g (of_decide_eq_true (List.mem_filter.mp hg).2)
    have hsame : (lib.titles.map (·.id)).filter (fun g => g ∉ sources) =
        (lib.titles.map (·.id)).filter fun g => g ∉ left :=
      List.filter_congr fun g _ => decide_eq_decide.mpr (not_congr hleft.mem_iff.symm)
    have hmap := hparts.map now
    rw [List.map_append, hkept, map_now hnow, List.map_map] at hmap
    rw [hdoneIds, hsame]
    exact hmap
  constructor
  case disks => rw [ids_of_disks hrun.disks, ids_of_disks h.disks]
  case titles => exact htitles
  case apart =>
    rw [hdoneIds, List.nodup_append]
    refine ⟨hsound.titleIds.filter _, hnew, ?_⟩
    rintro g hg g' hg' rfl
    obtain ⟨p, hp, rfl⟩ := List.mem_map.mp hg'
    exact hfresh p hp (List.mem_filter.mp hg).1
  case partition =>
    rintro d hd
    obtain ⟨t, ht, hid, -⟩ := hsound.home d hd
    have hin : d.id ∈ done.order (now t.id) := by
      rw [horder t ht, hid]
      exact mem_order.mpr ⟨d, hd, rfl, rfl⟩
    obtain ⟨d', hd', hg, hsame⟩ := mem_order.mp hin
    exact ⟨d', hd', hsame, by rw [hg, hid]⟩
  case order => exact horder
  case stays =>
    rintro t ht hthere
    exact hstays t.id fun hin => (hgone t ht).mpr (hleft.mem_iff.mp hin) hthere
  case remade =>
    rintro t ht hout
    obtain ⟨p, hp, heq, -, hsame⟩ := hrebuilt t ht ((hgone t ht).mp hout)
    refine ⟨heq ▸ (hrun.made p hp).2, remade p.1 p.2, ?_, heq.symm, hsame⟩
    rw [hrun.titles]
    exact List.mem_append_right _ (List.mem_map_of_mem hp)
  case left => exact ⟨hgid, hrun.leftNumbers (.inl hne)⟩
  case full =>
    rintro u hu
    have hin := htitles.mem_iff.mp (List.mem_map_of_mem hu)
    obtain ⟨t, ht, heq⟩ := List.mem_map.mp hin
    obtain ⟨id, hid⟩ := List.exists_mem_of_ne_nil _
      (mem_order_ids hsound (List.mem_map_of_mem (f := (·.id)) ht))
    rw [← horder t ht, heq] at hid
    obtain ⟨d, hd, hg, -⟩ := mem_order.mp hid
    exact ⟨d, hd, hg⟩
  case boards => exact SameBoards.trans h.boards hrun.boards
  case named =>
    rintro t ht hinvolved id hid
    refine hrun.named hne id ?_
    rw [h.order, List.mem_append]
    rcases hinvolved with htarget | hout
    · exact .inl (htarget ▸ hid)
    · exact .inr (List.mem_flatMap.mpr ⟨t.id, (hgone t ht).mp hout, hid⟩)

/-- A game, its data disks in a title of their own, and a third title. -/
def threeTitles : Library Nat where
  disks := [⟨10, 1, 2, false⟩, ⟨20, 2, 3, false⟩, ⟨21, 2, 1, false⟩, ⟨30, 3, 1, false⟩]
  titles := [⟨1, units "Game", none, none, none, none, none, none, none, false⟩,
    ⟨2, units "Data", some 1990, none, none, some human, none, none, none, false⟩,
    ⟨3, units "Extra", none, none, none, none, none, none, none, false⟩]
  devices := [⟨7, some 20, some 2, some 3, 4, some 10, some 1, some 2⟩]
  memberships := [(5, 2)]

def oneSet : Library Nat where
  disks := [⟨10, 1, 2, false⟩, ⟨20, 1, 4, false⟩, ⟨21, 1, 3, false⟩, ⟨30, 1, 5, false⟩]
  titles := [⟨1, units "Game", none, none, none, some human, none, none, none, false⟩]
  devices := [⟨7, some 20, some 1, some 4, 4, some 10, some 1, some 2⟩]
  memberships := []

def dataSnapshot : UndoSnapshot Nat := ⟨[21, 20], units "Data", some 1990, none, none, some human, true⟩

def extraSnapshot : UndoSnapshot Nat := ⟨[30], units "Extra", none, none, none, none, false⟩

theorem threeTitles_sound : Sound threeTitles :=
  ⟨by decide, by decide, by decide, by decide, by decide⟩

theorem undone_backwards :
    ∃ done now, undoAll oneSet [(101, extraSnapshot), (100, dataSnapshot)] = .ok done ∧
      PutBack threeTitles oneSet done 1 now := by
  have hadd : addDisksToSet threeTitles 1 (.disks [20, 30]) none =
      .ok (oneSet, [dataSnapshot, extraSnapshot]) := by decide
  exact undone threeTitles_sound hadd (.swap ..) (by decide) (by decide)

end WebAdf.DiskSets
