import WebAdf.DiskSets.Store
import Mathlib.Data.List.Perm.Lattice
import Mathlib.Tactic.Common

/-!
# What a plan does

A plan's statements leave each disk where the plan puts it and every board that names
such a disk told of it; everything else stays. Disks numbered one after another are in
that order.
-/

namespace WebAdf.DiskSets

open Lib

variable {Id : Type} [LinearOrder Id]

-- ---------------------------------------------------------------------------
-- Order in a title
-- ---------------------------------------------------------------------------

theorem byNo_iff {a b : Disk Id} :
    byNo a b = true ↔ a.diskNo < b.diskNo ∨ (a.diskNo = b.diskNo ∧ a.id ≤ b.id) := by
  simp [byNo]

theorem byNo_trans (a b c : Disk Id) (hab : byNo a b = true) (hbc : byNo b c = true) : byNo a c = true := by
  rw [byNo_iff] at *
  rcases hab with hab | ⟨hab, hle⟩
  · rcases hbc with hbc | ⟨hbc, -⟩
    · exact .inl (by omega)
    · exact .inl (by omega)
  · rcases hbc with hbc | ⟨hbc, hle'⟩
    · exact .inl (by omega)
    · exact .inr ⟨by omega, le_trans hle hle'⟩

theorem byNo_total (a b : Disk Id) : byNo a b = true ∨ byNo b a = true := by
  rw [byNo_iff, byNo_iff]
  rcases lt_trichotomy a.diskNo b.diskNo with h | h | h
  · exact .inl (.inl h)
  · rcases le_total a.id b.id with hle | hle
    · exact .inl (.inr ⟨h, hle⟩)
    · exact .inr (.inr ⟨h.symm, hle⟩)
  · exact .inr (.inl h)

theorem byNo_antisymm {a b : Disk Id} (hab : byNo a b = true) (hba : byNo b a = true) : a.id = b.id := by
  rw [byNo_iff] at *
  rcases hab with hab | ⟨hab, hle⟩
  · rcases hba with hba | ⟨hba, -⟩
    · omega
    · omega
  · rcases hba with hba | ⟨-, hle'⟩
    · omega
    · exact le_antisymm hle hle'

instance : IsTrans (Disk Id) fun a b => byNo a b = true := ⟨byNo_trans⟩

instance : Std.Total fun a b : Disk Id => byNo a b = true := ⟨byNo_total⟩

theorem sortByNo_perm (xs : List (Disk Id)) : (sortByNo xs).Perm xs :=
  List.perm_insertionSort _ xs

theorem sortByNo_sorted (xs : List (Disk Id)) : (sortByNo xs).Pairwise fun a b => byNo a b = true :=
  List.pairwise_insertionSort _ xs

omit [LinearOrder Id] in
theorem eq_of_id {xs : List (Disk Id)} (h : (xs.map (·.id)).Nodup) (ha : a ∈ xs) (hb : b ∈ xs)
    (hid : a.id = b.id) : a = b := List.inj_on_of_nodup_map h ha hb hid

/-- What is sorted is the sort of its members. -/
theorem sortByNo_eq {xs ys : List (Disk Id)} (hids : (xs.map (·.id)).Nodup) (h : ys.Perm xs)
    (hsorted : ys.Pairwise fun a b => byNo a b = true) : sortByNo xs = ys := by
  refine List.Perm.eq_of_pairwise (fun a b ha hb hab hba => ?_) (sortByNo_sorted xs) hsorted
    ((sortByNo_perm xs).trans h.symm)
  exact eq_of_id hids ((sortByNo_perm xs).mem_iff.mp ha) (h.mem_iff.mp hb) (byNo_antisymm hab hba)

theorem sortByNo_congr {xs ys : List (Disk Id)} (hids : (xs.map (·.id)).Nodup) (h : ys.Perm xs) :
    sortByNo ys = sortByNo xs :=
  (sortByNo_eq hids ((sortByNo_perm ys).trans h) (sortByNo_sorted ys)).symm

theorem filter_sortByNo (p : Disk Id → Bool) {xs : List (Disk Id)} (hids : (xs.map (·.id)).Nodup) :
    (sortByNo xs).filter p = sortByNo (xs.filter p) := by
  refine (sortByNo_eq ?_ ((sortByNo_perm xs).filter p) ((sortByNo_sorted xs).filter p)).symm
  exact hids.sublist (List.filter_sublist.map _)

-- ---------------------------------------------------------------------------
-- Numbers one after another
-- ---------------------------------------------------------------------------

/-- The disks of `numberFrom`, where they end up. -/
def placedFrom (gameId : Id) : Int → List (Disk Id) → List (Disk Id)
  | _, [] => []
  | next, x :: xs =>
    { x with gameId := gameId, diskNo := next + 1 } :: placedFrom gameId (next + 1) xs

omit [LinearOrder Id] in
theorem ids_numberFrom (g : Id) (next : Int) (xs : List (Disk Id)) :
    (numberFrom g next xs).map (·.diskId) = xs.map (·.id) := by
  induction xs generalizing next with
  | nil => rfl
  | cons x xs ih => rw [numberFrom, List.map_cons, ih, List.map_cons]

omit [LinearOrder Id] in
theorem ids_placedFrom (g : Id) (next : Int) (xs : List (Disk Id)) :
    (placedFrom g next xs).map (·.id) = xs.map (·.id) := by
  induction xs generalizing next with
  | nil => rfl
  | cons x xs ih => rw [placedFrom, List.map_cons, ih, List.map_cons]

omit [LinearOrder Id] in
theorem mem_placedFrom {xs : List (Disk Id)} (h : d ∈ placedFrom g next xs) :
    d.gameId = g ∧ next < d.diskNo ∧ ∃ x ∈ xs, x.id = d.id ∧ x.hidden = d.hidden := by
  induction xs generalizing next with
  | nil => cases h
  | cons x xs ih =>
    rw [placedFrom, List.mem_cons] at h
    rcases h with rfl | h
    · exact ⟨rfl, Int.lt_succ next, x, List.mem_cons_self .., rfl, rfl⟩
    · obtain ⟨hg, hlt, y, hy, heq⟩ := ih h
      exact ⟨hg, by omega, y, List.mem_cons_of_mem _ hy, heq⟩

theorem placedFrom_sorted (g : Id) (next : Int) (xs : List (Disk Id)) :
    (placedFrom g next xs).Pairwise fun a b => byNo a b = true := by
  induction xs generalizing next with
  | nil => exact .nil
  | cons x xs ih =>
    rw [placedFrom, List.pairwise_cons]
    refine ⟨fun d hd => byNo_iff.mpr (.inl ?_), ih (next + 1)⟩
    exact (mem_placedFrom hd).2.1

/-- Numbers from 1 on. -/
def oneTo (n : Nat) : List Int := (List.range n).map fun i : Nat => (i : Int) + 1

omit [LinearOrder Id] in
theorem numbers_placedFrom (g : Id) (next : Int) (xs : List (Disk Id)) :
    (placedFrom g next xs).map (·.diskNo) =
      (List.range xs.length).map fun i : Nat => next + (i : Int) + 1 := by
  induction xs generalizing next with
  | nil => rfl
  | cons x xs ih =>
    rw [placedFrom, List.map_cons, ih, List.length_cons, List.range_succ_eq_map, List.map_cons,
      List.map_map]
    congr 1
    · simp
    · refine List.map_congr_left fun i _ => ?_
      simp only [Function.comp, Nat.cast_succ]
      omega

-- ---------------------------------------------------------------------------
-- Disks moved
-- ---------------------------------------------------------------------------

/-- A disk after every statement of `rs`. -/
def movedBy (rs : List (Renumber Id)) (d : Disk Id) : Disk Id :=
  match rs.find? fun r => r.diskId = d.id ∧ r.fromGameId = d.gameId with
  | some r => { d with gameId := r.gameId, diskNo := r.diskNo }
  | none => d

theorem movedBy_other {rs : List (Renumber Id)} (h : d.id ∉ rs.map (·.diskId)) : movedBy rs d = d := by
  have hnone : (rs.find? fun r => r.diskId = d.id ∧ r.fromGameId = d.gameId) = none := by
    rw [List.find?_eq_none]
    rintro r hr hmatch
    simp only [decide_eq_true_eq] at hmatch
    exact h (List.mem_map.mpr ⟨r, hr, hmatch.1⟩)
  rw [movedBy, hnone]

theorem movedBy_id (rs : List (Renumber Id)) (d : Disk Id) :
    (movedBy rs d).id = d.id ∧ (movedBy rs d).hidden = d.hidden := by
  rw [movedBy]
  split
  · exact ⟨rfl, rfl⟩
  · exact ⟨rfl, rfl⟩

theorem movedBy_mem {rs : List (Renumber Id)} (hnd : (rs.map (·.diskId)).Nodup) (hr : r ∈ rs)
    (hid : r.diskId = d.id) (hfrom : r.fromGameId = d.gameId) :
    movedBy rs d = { d with gameId := r.gameId, diskNo := r.diskNo } := by
  have hsome : (rs.find? fun r => r.diskId = d.id ∧ r.fromGameId = d.gameId) = some r := by
    cases hfind : rs.find? fun r => r.diskId = d.id ∧ r.fromGameId = d.gameId with
    | none =>
      rw [List.find?_eq_none] at hfind
      exact absurd (by simp [hid, hfrom]) (hfind r hr)
    | some r' =>
      have hmatch := List.find?_some hfind
      simp only [decide_eq_true_eq] at hmatch
      have hsame := List.inj_on_of_nodup_map hnd (List.mem_of_find?_eq_some hfind) hr
        (hmatch.1.trans hid.symm)
      rw [hsame]
  rw [movedBy, hsome]

theorem run_moves {rs : List (Renumber Id)} (hnd : (rs.map (·.diskId)).Nodup) (lib : Library Id) :
    run (rs.map moveDisk) lib = { lib with disks := lib.disks.map (movedBy rs) } := by
  induction rs generalizing lib with
  | nil =>
    have hsame : lib.disks.map (movedBy []) = lib.disks :=
      (List.map_congr_left fun d _ => rfl).trans (List.map_id lib.disks)
    rw [hsame]
    rfl
  | cons r rs ih =>
    rw [List.map_cons, List.nodup_cons] at hnd
    have hstep : run ((r :: rs).map moveDisk) lib = run (rs.map moveDisk) (moveDisk r lib) := rfl
    rw [hstep, ih hnd.2, moveDisk, List.map_map]
    congr 1
    refine List.map_congr_left fun d _ => ?_
    simp only [Function.comp]
    by_cases hmatch : d.id = r.diskId ∧ d.gameId = r.fromGameId
    · rw [if_pos hmatch]
      have hother : d.id ∉ rs.map (·.diskId) := by rw [hmatch.1]; exact hnd.1
      have hfirst : movedBy (r :: rs) d = { d with gameId := r.gameId, diskNo := r.diskNo } := by
        rw [movedBy, List.find?_cons_of_pos (by simp [hmatch.1, hmatch.2])]
      rw [hfirst]
      exact movedBy_other hother
    · rw [if_neg hmatch]
      have hskip : ¬ (decide (r.diskId = d.id ∧ r.fromGameId = d.gameId) = true) := by
        simp only [decide_eq_true_eq]
        rintro ⟨hid, hfrom⟩
        exact hmatch ⟨hid.symm, hfrom.symm⟩
      have hrest : ((r :: rs).find? fun r => r.diskId = d.id ∧ r.fromGameId = d.gameId) =
          rs.find? fun r => r.diskId = d.id ∧ r.fromGameId = d.gameId := List.find?_cons_of_neg hskip
      rw [movedBy, movedBy, hrest]

/-- Disks numbered one after another, moved. -/
theorem map_movedBy {rs : List (Renumber Id)} {xs : List (Disk Id)} (hnd : (rs.map (·.diskId)).Nodup)
    (hsub : numberFrom g next xs ⊆ rs) : xs.map (movedBy rs) = placedFrom g next xs := by
  induction xs generalizing next with
  | nil => rfl
  | cons x xs ih =>
    rw [numberFrom, List.cons_subset] at hsub
    rw [List.map_cons, placedFrom, ih hsub.2, movedBy_mem hnd hsub.1 rfl rfl]

-- ---------------------------------------------------------------------------
-- Boards told
-- ---------------------------------------------------------------------------

/-- What a board is told of its desired disk is so. -/
def DesiredRight (disks : List (Disk Id)) (v : Device Id) : Prop :=
  ∀ id, v.desiredDiskId = some id →
    ∃ d ∈ disks, d.id = id ∧ v.desiredGameId = some d.gameId ∧ v.desiredDiskNo = some d.diskNo

def MountedRight (disks : List (Disk Id)) (v : Device Id) : Prop :=
  ∀ id, v.mountedDiskId = some id →
    ∃ d ∈ disks, d.id = id ∧ v.mountedGameId = some d.gameId ∧ v.mountedDiskNo = some d.diskNo

/-- The same board, wanting and holding the same. -/
structure SameBoard (v w : Device Id) : Prop where
  id : w.id = v.id
  desired : w.desiredDiskId = v.desiredDiskId
  version : w.desiredVersion = v.desiredVersion
  mounted : w.mountedDiskId = v.mountedDiskId

omit [LinearOrder Id] in
theorem SameBoard.refl (v : Device Id) : SameBoard v v := ⟨rfl, rfl, rfl, rfl⟩

theorem SameBoard.trans (h : SameBoard u v) (h' : SameBoard v w) : SameBoard u w :=
  ⟨h'.id.trans h.id, h'.desired.trans h.desired, h'.version.trans h.version, h'.mounted.trans h.mounted⟩

/-- A statement about boards, on one board. -/
def toldDesired (disks : List (Disk Id)) (deviceId diskId : Id) (p : Place Id) (v : Device Id) : Device Id :=
  if v.id = deviceId ∧ v.desiredDiskId = some diskId ∧ diskIsAt disks diskId p = true then
    { v with desiredGameId := some p.gameId, desiredDiskNo := some p.diskNo }
  else v

def toldMounted (disks : List (Disk Id)) (deviceId diskId : Id) (p : Place Id) (v : Device Id) : Device Id :=
  if v.id = deviceId ∧ v.mountedDiskId = some diskId ∧ diskIsAt disks diskId p = true then
    { v with mountedGameId := some p.gameId, mountedDiskNo := some p.diskNo }
  else v

/-- What a statement may do to a board: tell it nothing, or what is so. -/
structure Told (disks : List (Disk Id)) (v w : Device Id) : Prop where
  same : SameBoard v w
  desired : DesiredRight disks v → DesiredRight disks w
  mounted : MountedRight disks v → MountedRight disks w

omit [LinearOrder Id] in
theorem Told.refl (disks : List (Disk Id)) (v : Device Id) : Told disks v v := ⟨.refl v, id, id⟩

theorem Told.trans (h : Told disks u v) (h' : Told disks v w) : Told disks u w :=
  ⟨h.same.trans h'.same, fun hr => h'.desired (h.desired hr), fun hr => h'.mounted (h.mounted hr)⟩

theorem diskIsAt_iff {disks : List (Disk Id)} : diskIsAt disks diskId p = true ↔
    ∃ d ∈ disks, d.id = diskId ∧ d.gameId = p.gameId ∧ d.diskNo = p.diskNo := by
  simp [diskIsAt, and_assoc]

theorem toldDesired_told (disks : List (Disk Id)) (deviceId diskId : Id) (p : Place Id) (v : Device Id) :
    Told disks v (toldDesired disks deviceId diskId p v) := by
  rw [toldDesired]
  split
  · rename_i h
    refine ⟨⟨rfl, rfl, rfl, rfl⟩, fun _ id hid => ?_, fun hr => hr⟩
    obtain ⟨d, hd, hdid, hg, hn⟩ := diskIsAt_iff.mp h.2.2
    have hsame : diskId = id := Option.some.inj (h.2.1.symm.trans hid)
    exact ⟨d, hd, hdid.trans hsame, by rw [hg], by rw [hn]⟩
  · exact .refl disks v

theorem toldMounted_told (disks : List (Disk Id)) (deviceId diskId : Id) (p : Place Id) (v : Device Id) :
    Told disks v (toldMounted disks deviceId diskId p v) := by
  rw [toldMounted]
  split
  · rename_i h
    refine ⟨⟨rfl, rfl, rfl, rfl⟩, fun hr => hr, fun _ id hid => ?_⟩
    obtain ⟨d, hd, hdid, hg, hn⟩ := diskIsAt_iff.mp h.2.2
    have hsame : diskId = id := Option.some.inj (h.2.1.symm.trans hid)
    exact ⟨d, hd, hdid.trans hsame, by rw [hg], by rw [hn]⟩
  · exact .refl disks v

/-- An update on one board; `ref` is the board as the plan read it. -/
def toldBy (disks : List (Disk Id)) (devs : List (Device Id)) (v : Device Id) (u : DeviceUpdate Id) :
    Device Id :=
  match devs.find? fun v => v.id = u.deviceId with
  | none => v
  | some ref =>
    let w := match u.desired, ref.desiredDiskId with
      | some p, some diskId => toldDesired disks u.deviceId diskId p v
      | _, _ => v
    match u.mounted, ref.mountedDiskId with
    | some p, some diskId => toldMounted disks u.deviceId diskId p w
    | _, _ => w

theorem toldBy_told (disks : List (Disk Id)) (devs : List (Device Id)) (v : Device Id) (u : DeviceUpdate Id) :
    Told disks v (toldBy disks devs v u) := by
  rw [toldBy]
  split
  · exact .refl disks v
  · rename_i ref _
    have hfirst : Told disks v (match u.desired, ref.desiredDiskId with
        | some p, some diskId => toldDesired disks u.deviceId diskId p v
        | _, _ => v) := by
      split
      · exact toldDesired_told ..
      · exact .refl disks v
    dsimp only
    split
    · exact hfirst.trans (toldMounted_told ..)
    · exact hfirst

theorem run_nameDevice (devs : List (Device Id)) (u : DeviceUpdate Id) (lib : Library Id) :
    run (nameDevice devs u) lib =
      { lib with devices := lib.devices.map fun v => toldBy lib.disks devs v u } := by
  rw [nameDevice]
  cases hfind : devs.find? fun v => v.id = u.deviceId with
  | none =>
    have hsame : (lib.devices.map fun v => toldBy lib.disks devs v u) = lib.devices := by
      refine (List.map_congr_left fun v _ => ?_).trans (List.map_id lib.devices)
      rw [toldBy, hfind]
      rfl
    rw [hsame]
    rfl
  | some ref =>
    have hone : ∀ v, toldBy lib.disks devs v u =
        (match u.mounted, ref.mountedDiskId with
          | some p, some diskId => toldMounted lib.disks u.deviceId diskId p
              (match u.desired, ref.desiredDiskId with
                | some p, some diskId => toldDesired lib.disks u.deviceId diskId p v
                | _, _ => v)
          | _, _ => match u.desired, ref.desiredDiskId with
            | some p, some diskId => toldDesired lib.disks u.deviceId diskId p v
            | _, _ => v) := by
      rintro v
      rw [toldBy, hfind]
    simp only [hone]
    cases u.desired with
    | none =>
      cases u.mounted with
      | none => simp [run]
      | some p =>
        cases ref.mountedDiskId with
        | none => simp [run]
        | some diskId => rfl
    | some q =>
      cases ref.desiredDiskId with
      | none =>
        cases u.mounted with
        | none => simp [run]
        | some p =>
          cases ref.mountedDiskId with
          | none => simp [run]
          | some diskId => rfl
      | some diskId =>
        cases u.mounted with
        | none => rfl
        | some p =>
          cases ref.mountedDiskId with
          | none => rfl
          | some diskId' =>
            simp only [run, List.foldl_append, List.foldl_cons, List.foldl_nil, nameDesired, nameMounted,
              List.map_map]
            rfl

omit [LinearOrder Id] in
theorem run_append (xs ys : List (Stmt Id)) (lib : Library Id) : run (xs ++ ys) lib = run ys (run xs lib) :=
  List.foldl_append

theorem run_nameDevices (devs : List (Device Id)) (us : List (DeviceUpdate Id)) (lib : Library Id) :
    run (us.flatMap (nameDevice devs)) lib =
      { lib with devices := lib.devices.map fun v => us.foldl (toldBy lib.disks devs) v } := by
  induction us generalizing lib with
  | nil =>
    have hsame : (lib.devices.map fun v => ([] : List (DeviceUpdate Id)).foldl (toldBy lib.disks devs) v) =
        lib.devices := List.map_id lib.devices
    rw [hsame]
    rfl
  | cons u us ih =>
    rw [List.flatMap_cons, run_append, run_nameDevice, ih]
    simp only [List.map_map, List.foldl_cons]
    rfl

theorem toldAll_told (disks : List (Disk Id)) (devs : List (Device Id)) (us : List (DeviceUpdate Id))
    (v : Device Id) : Told disks v (us.foldl (toldBy disks devs) v) := by
  induction us generalizing v with
  | nil => exact .refl disks v
  | cons u us ih =>
    rw [List.foldl_cons]
    exact (toldBy_told disks devs v u).trans (ih _)

/-- An update that says so makes it so. -/
theorem toldAll_desired {disks : List (Disk Id)} {devs : List (Device Id)}
    {us : List (DeviceUpdate Id)} {u : DeviceUpdate Id} {v ref : Device Id} {p : Place Id} {diskId : Id}
    (hfind : (devs.find? fun w => w.id = v.id) = some ref)
    (href : ref.desiredDiskId = v.desiredDiskId) (hu : u ∈ us) (hid : u.deviceId = v.id)
    (hp : u.desired = some p) (hdisk : v.desiredDiskId = some diskId)
    (hat : diskIsAt disks diskId p = true) : DesiredRight disks (us.foldl (toldBy disks devs) v) := by
  induction us generalizing v with
  | nil => cases hu
  | cons u' us ih =>
    rw [List.foldl_cons]
    have hold := (toldBy_told disks devs v u').same
    rcases List.mem_cons.mp hu with rfl | hu
    · refine (toldAll_told disks devs us _).desired ?_
      have hsame : (devs.find? fun w => w.id = u.deviceId) = some ref := by rw [hid]; exact hfind
      have hnamed : DesiredRight disks (toldDesired disks u.deviceId diskId p v) := by
        rw [toldDesired, if_pos ⟨hid.symm, hdisk, hat⟩]
        rintro id heq
        obtain ⟨d, hd, hdid, hg, hn⟩ := diskIsAt_iff.mp hat
        have heq' : diskId = id := Option.some.inj (hdisk.symm.trans heq)
        exact ⟨d, hd, hdid.trans heq', by rw [hg], by rw [hn]⟩
      rw [toldBy, hsame]
      dsimp only
      rw [hp, href, hdisk]
      dsimp only
      split
      · exact (toldMounted_told ..).desired hnamed
      · exact hnamed
    · exact ih (by rw [hold.id]; exact hfind) (by rw [hold.desired]; exact href) hu
        (by rw [hold.id]; exact hid) (by rw [hold.desired]; exact hdisk)

theorem toldAll_mounted {disks : List (Disk Id)} {devs : List (Device Id)}
    {us : List (DeviceUpdate Id)} {u : DeviceUpdate Id} {v ref : Device Id} {p : Place Id} {diskId : Id}
    (hfind : (devs.find? fun w => w.id = v.id) = some ref)
    (href : ref.mountedDiskId = v.mountedDiskId) (hu : u ∈ us) (hid : u.deviceId = v.id)
    (hp : u.mounted = some p) (hdisk : v.mountedDiskId = some diskId)
    (hat : diskIsAt disks diskId p = true) : MountedRight disks (us.foldl (toldBy disks devs) v) := by
  induction us generalizing v with
  | nil => cases hu
  | cons u' us ih =>
    rw [List.foldl_cons]
    have hold := (toldBy_told disks devs v u').same
    rcases List.mem_cons.mp hu with rfl | hu
    · refine (toldAll_told disks devs us _).mounted ?_
      have hsame : (devs.find? fun w => w.id = u.deviceId) = some ref := by rw [hid]; exact hfind
      have hnamed : ∀ w, SameBoard v w → MountedRight disks (toldMounted disks u.deviceId diskId p w) := by
        rintro w hw
        rw [toldMounted, if_pos ⟨by rw [hw.id, hid], by rw [hw.mounted, hdisk], hat⟩]
        rintro id heq
        obtain ⟨d, hd, hdid, hg, hn⟩ := diskIsAt_iff.mp hat
        have heq' : diskId = id := Option.some.inj ((hw.mounted.trans hdisk).symm.trans heq)
        exact ⟨d, hd, hdid.trans heq', by rw [hg], by rw [hn]⟩
      rw [toldBy, hsame]
      dsimp only
      rw [hp, href, hdisk]
      dsimp only
      split
      · exact hnamed _ (toldDesired_told ..).same
      · exact hnamed v (.refl v)
    · exact ih (by rw [hold.id]; exact hfind) (by rw [hold.mounted]; exact href) hu
        (by rw [hold.id]; exact hid) (by rw [hold.mounted]; exact hdisk)

-- ---------------------------------------------------------------------------
-- A whole plan
-- ---------------------------------------------------------------------------

/-- The updates say where every disk a board names is put. -/
def Tells (rs : List (Renumber Id)) (us : List (DeviceUpdate Id)) (devs : List (Device Id)) : Prop :=
  ∀ r ∈ rs, ∀ v ∈ devs,
    (v.desiredDiskId = some r.diskId → ∃ u ∈ us, u.deviceId = v.id ∧ u.desired = some r.place) ∧
      (v.mountedDiskId = some r.diskId → ∃ u ∈ us, u.deviceId = v.id ∧ u.mounted = some r.place)

theorem find_of_nodup {α β : Type} [DecidableEq β] {f : α → β} {xs : List α} {x : α}
    (hnd : (xs.map f).Nodup) (hx : x ∈ xs) : (xs.find? fun y => f y = f x) = some x := by
  cases hfind : xs.find? fun y => f y = f x with
  | none =>
    rw [List.find?_eq_none] at hfind
    exact absurd (by simp) (hfind x hx)
  | some y =>
    have hy := List.find?_some hfind
    simp only [decide_eq_true_eq] at hy
    rw [List.inj_on_of_nodup_map hnd (List.mem_of_find?_eq_some hfind) hx hy]

theorem deviceUpdates_tells {rs : List (Renumber Id)} (hnd : (rs.map (·.diskId)).Nodup)
    (devs : List (Device Id)) : Tells rs (deviceUpdates rs devs) devs := by
  rintro r hr v hv
  have hplace : (rs.reverse.find? fun r' => r'.diskId = r.diskId).map Renumber.place = some r.place := by
    have hback : (rs.reverse.map (·.diskId)).Nodup := by
      rw [List.map_reverse, List.nodup_reverse]
      exact hnd
    rw [find_of_nodup hback (List.mem_reverse.mpr hr)]
    rfl
  constructor
  · rintro hwant
    let mounted := v.mountedDiskId.bind fun id =>
      (rs.reverse.find? fun r' => r'.diskId = id).map Renumber.place
    refine ⟨⟨v.id, some r.place, mounted⟩, List.mem_filterMap.mpr ⟨v, hv, ?_⟩, rfl, rfl⟩
    simp only [hwant, Option.bind_some, hplace, Option.isSome_some, Bool.true_or, if_true]
    rfl
  · rintro hheld
    let desired := v.desiredDiskId.bind fun id =>
      (rs.reverse.find? fun r' => r'.diskId = id).map Renumber.place
    refine ⟨⟨v.id, desired, some r.place⟩, List.mem_filterMap.mpr ⟨v, hv, ?_⟩, rfl, rfl⟩
    simp only [hheld, Option.bind_some, hplace, Option.isSome_some, Bool.or_true, if_true]
    rfl

omit [LinearOrder Id] in
theorem Tells.append {rs rs' : List (Renumber Id)} {us us' : List (DeviceUpdate Id)}
    {devs : List (Device Id)} (h : Tells rs us devs) (h' : Tells rs' us' devs) :
    Tells (rs ++ rs') (us ++ us') devs := by
  rintro r hr v hv
  rcases List.mem_append.mp hr with hr | hr
  · constructor
    · rintro hwant
      obtain ⟨u, hu, htold⟩ := (h r hr v hv).1 hwant
      exact ⟨u, List.mem_append_left _ hu, htold⟩
    · rintro hheld
      obtain ⟨u, hu, htold⟩ := (h r hr v hv).2 hheld
      exact ⟨u, List.mem_append_left _ hu, htold⟩
  · constructor
    · rintro hwant
      obtain ⟨u, hu, htold⟩ := (h' r hr v hv).1 hwant
      exact ⟨u, List.mem_append_right _ hu, htold⟩
    · rintro hheld
      obtain ⟨u, hu, htold⟩ := (h' r hr v hv).2 hheld
      exact ⟨u, List.mem_append_right _ hu, htold⟩

/-- The library with a plan's disks moved and its boards told. -/
def applied (plan : Plan Id) (lib : Library Id) : Library Id :=
  { lib with
    disks := lib.disks.map (movedBy plan.renumber)
    devices := lib.devices.map fun v =>
      plan.devices.foldl (toldBy (lib.disks.map (movedBy plan.renumber)) lib.devices) v }

theorem run_applyPlan {plan : Plan Id} (hnd : (plan.renumber.map (·.diskId)).Nodup) (lib : Library Id) :
    run (applyPlan plan lib.devices) lib = applied plan lib := by
  rw [applyPlan, run_append, run_moves hnd, run_nameDevices]
  rfl

theorem applied_ids (plan : Plan Id) (lib : Library Id) :
    (applied plan lib).disks.map (fun d => (d.id, d.hidden)) = lib.disks.map fun d => (d.id, d.hidden) := by
  simp only [applied, List.map_map]
  refine List.map_congr_left fun d _ => ?_
  simp only [Function.comp, (movedBy_id plan.renumber d).1, (movedBy_id plan.renumber d).2]

theorem applied_boards (plan : Plan Id) (lib : Library Id) :
    List.Forall₂ SameBoard lib.devices (applied plan lib).devices := by
  rw [applied, List.forall₂_map_right_iff, List.forall₂_same]
  exact fun v _ => (toldAll_told _ lib.devices plan.devices v).same

/-- Every board that wants or holds the disk names its title and number. -/
structure Named (lib : Library Id) (id : Id) : Prop where
  desired : ∀ v ∈ lib.devices, v.desiredDiskId = some id → DesiredRight lib.disks v
  mounted : ∀ v ∈ lib.devices, v.mountedDiskId = some id → MountedRight lib.disks v

theorem applied_named {plan : Plan Id} {lib : Library Id} (hnd : (plan.renumber.map (·.diskId)).Nodup)
    (hdevs : (lib.devices.map (·.id)).Nodup) (htells : Tells plan.renumber plan.devices lib.devices)
    (hr : r ∈ plan.renumber) (hd : d ∈ lib.disks) (hid : r.diskId = d.id) (hfrom : r.fromGameId = d.gameId) :
    Named (applied plan lib) d.id := by
  have hat : diskIsAt (lib.disks.map (movedBy plan.renumber)) d.id r.place = true := by
    rw [diskIsAt_iff]
    refine ⟨movedBy plan.renumber d, List.mem_map_of_mem hd, (movedBy_id _ d).1, ?_⟩
    rw [movedBy_mem hnd hr hid hfrom]
    exact ⟨rfl, rfl⟩
  constructor
  · rintro w hw hwant
    obtain ⟨v, hv, rfl⟩ := List.mem_map.mp hw
    have hsame := (toldAll_told (lib.disks.map (movedBy plan.renumber)) lib.devices plan.devices v).same
    have hwant' : v.desiredDiskId = some d.id := hsame.desired.symm.trans hwant
    obtain ⟨u, hu, hboard, hplace⟩ := (htells r hr v hv).1 (by rw [hwant', hid])
    exact toldAll_desired (find_of_nodup hdevs hv) rfl hu hboard hplace hwant' hat
  · rintro w hw hheld
    obtain ⟨v, hv, rfl⟩ := List.mem_map.mp hw
    have hsame := (toldAll_told (lib.disks.map (movedBy plan.renumber)) lib.devices plan.devices v).same
    have hheld' : v.mountedDiskId = some d.id := hsame.mounted.symm.trans hheld
    obtain ⟨u, hu, hboard, hplace⟩ := (htells r hr v hv).2 (by rw [hheld', hid])
    exact toldAll_mounted (find_of_nodup hdevs hv) rfl hu hboard hplace hheld' hat

/-- What is told of a disk the plan leaves alone stays so. -/
theorem Named.applied {lib : Library Id} {id : Id} (h : Named lib id) (plan : Plan Id)
    (hother : id ∉ plan.renumber.map (·.diskId)) : Named (applied plan lib) id := by
  have hkept : ∀ d ∈ lib.disks, d.id = id → d ∈ lib.disks.map (movedBy plan.renumber) := by
    rintro d hd rfl
    exact List.mem_map.mpr ⟨d, hd, movedBy_other hother⟩
  constructor
  · rintro w hw hwant
    obtain ⟨v, hv, rfl⟩ := List.mem_map.mp hw
    have htold := toldAll_told (lib.disks.map (movedBy plan.renumber)) lib.devices plan.devices v
    have hwant' : v.desiredDiskId = some id := htold.same.desired.symm.trans hwant
    refine htold.desired fun other hother' => ?_
    obtain ⟨d, hd, hid, hright⟩ := h.desired v hv hwant' other hother'
    have hsame : other = id := Option.some.inj (hother'.symm.trans hwant')
    exact ⟨d, hkept d hd (hid.trans hsame), hid, hright⟩
  · rintro w hw hheld
    obtain ⟨v, hv, rfl⟩ := List.mem_map.mp hw
    have htold := toldAll_told (lib.disks.map (movedBy plan.renumber)) lib.devices plan.devices v
    have hheld' : v.mountedDiskId = some id := htold.same.mounted.symm.trans hheld
    refine htold.mounted fun other hother' => ?_
    obtain ⟨d, hd, hid, hright⟩ := h.mounted v hv hheld' other hother'
    have hsame : other = id := Option.some.inj (hother'.symm.trans hheld')
    exact ⟨d, hkept d hd (hid.trans hsame), hid, hright⟩

end WebAdf.DiskSets
