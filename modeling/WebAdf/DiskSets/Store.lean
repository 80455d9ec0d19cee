import WebAdf.Poll.Body
import Mathlib.Data.List.Sort
import Mathlib.Order.Defs.LinearOrder

/-!
# Disk sets

A disk set is a title of several disks. The planners decide which title and number
each disk gets; the store applies a plan to one organisation's library as one run of
statements, each pinned to what the plan was made from. Adding disks to a set empties
their titles, and gives what an undo needs to make each again.
-/

namespace WebAdf.DiskSets

open Lib
open Poll (trim)

variable {Id : Type} [LinearOrder Id]

structure Disk (Id : Type) where
  id : Id
  gameId : Id
  diskNo : Int
  hidden : Bool
  deriving DecidableEq

structure Device (Id : Type) where
  id : Id
  desiredDiskId : Option Id
  desiredGameId : Option Id
  desiredDiskNo : Option Int
  desiredVersion : Nat
  mountedDiskId : Option Id
  mountedGameId : Option Id
  mountedDiskNo : Option Int
  deriving DecidableEq

/-- A title, and whether a cover or a production is linked to it. -/
structure Title (Id : Type) where
  id : Id
  title : Units
  year : Option Int
  publisher : Option Units
  metadataSource : Option Units
  diskOrderSource : Option Units
  coverAssetId : Option Units
  coverOverrideSha256 : Option Units
  demozooProductionId : Option Int
  hidden : Bool
  deriving DecidableEq

structure Place (Id : Type) where
  gameId : Id
  diskNo : Int
  deriving DecidableEq

structure DeviceUpdate (Id : Type) where
  deviceId : Id
  desired : Option (Place Id)
  mounted : Option (Place Id)

structure Renumber (Id : Type) where
  diskId : Id
  gameId : Id
  diskNo : Int
  fromGameId : Id

def Renumber.place (r : Renumber Id) : Place Id := ⟨r.gameId, r.diskNo⟩

structure Plan (Id : Type) where
  renumber : List (Renumber Id)
  emptiedGameIds : List Id
  devices : List (DeviceUpdate Id)

inductive Refusal where
  | notFound
  | staleOrder
  | nothingToAdd
  | sameTitle
  | staleUndo
  deriving DecidableEq

-- ---------------------------------------------------------------------------
-- The plans
-- ---------------------------------------------------------------------------

def byNo (a b : Disk Id) : Bool := a.diskNo < b.diskNo || (a.diskNo == b.diskNo && a.id ≤ b.id)

def sortByNo (disks : List (Disk Id)) : List (Disk Id) :=
  disks.insertionSort fun a b => byNo a b = true

def deviceUpdates (renumber : List (Renumber Id)) (devices : List (Device Id)) : List (DeviceUpdate Id) :=
  let place id := (renumber.reverse.find? fun r => r.diskId = id).map Renumber.place
  devices.filterMap fun dev =>
    let desired := dev.desiredDiskId.bind place
    let mounted := dev.mountedDiskId.bind place
    if desired.isSome || mounted.isSome then some ⟨dev.id, desired, mounted⟩ else none

/-- Disks into a title, numbered one after another behind `next`. -/
def numberFrom (gameId : Id) : Int → List (Disk Id) → List (Renumber Id)
  | _, [] => []
  | next, x :: xs => ⟨x.id, gameId, next + 1, x.gameId⟩ :: numberFrom gameId (next + 1) xs

/-- Titles in the order they are met. -/
def titlesOf (disks : List (Disk Id)) : List Id :=
  disks.foldl (fun order x => if x.gameId ∈ order then order else order ++ [x.gameId]) []

def planAddDisks (gameId : Id) (targetDisks incoming allDisksOfSources : List (Disk Id))
    (devices : List (Device Id)) (compact : Bool) : Except Refusal (Plan Id) :=
  if incoming = [] then .error .nothingToAdd
  else if incoming.any fun x => x.gameId = gameId then .error .sameTitle
  else
    let sourceOrder := titlesOf incoming
    let own := if compact then numberFrom gameId 0 (sortByNo targetDisks) else []
    let next := if compact then (targetDisks.length : Int)
      else targetDisks.foldl (fun m x => max m x.diskNo) 0
    let moved := sourceOrder.flatMap fun g => sortByNo (allDisksOfSources.filter fun y => y.gameId = g)
    let renumber := own ++ numberFrom gameId next moved
    .ok ⟨renumber, sourceOrder, deviceUpdates renumber devices⟩

def planReorder (gameId : Id) (disks : List (Disk Id)) (orderedIds : List Id) (devices : List (Device Id)) :
    Except Refusal (Plan Id) :=
  if orderedIds.length ≠ disks.length ∨ ¬ orderedIds.Nodup ∨
      ∃ id ∈ orderedIds, id ∉ disks.map (·.id) then .error .staleOrder
  else
    let current id := (disks.find? fun x => x.id = id).map (·.gameId)
    let renumber := orderedIds.zipIdx.filterMap fun p =>
      (current p.1).map fun from_ => ⟨p.1, gameId, (p.2 : Int) + 1, from_⟩
    .ok ⟨renumber, [], deviceUpdates renumber devices⟩

-- ---------------------------------------------------------------------------
-- The store
-- ---------------------------------------------------------------------------

/-- One organisation's library; a membership is a collection and a title. -/
structure Library (Id : Type) where
  disks : List (Disk Id)
  titles : List (Title Id)
  devices : List (Device Id)
  memberships : List (Id × Id)
  deriving DecidableEq

def sourceDisks (lib : Library Id) (sources : List Id) : List (Disk Id) :=
  lib.disks.filter fun d => d.gameId ∈ sources

abbrev Stmt (Id : Type) := Library Id → Library Id

/-- The statements of one transaction. -/
def run (stmts : List (Stmt Id)) (lib : Library Id) : Library Id := stmts.foldl (fun lib stmt => stmt lib) lib

def Library.disksOf (lib : Library Id) (gameId : Id) : List (Disk Id) :=
  lib.disks.filter fun d => d.gameId = gameId

/-- A disk's update, pinned to the title the plan read it in. -/
def moveDisk (r : Renumber Id) : Stmt Id := fun lib =>
  { lib with disks := lib.disks.map fun d =>
      if d.id = r.diskId ∧ d.gameId = r.fromGameId then { d with gameId := r.gameId, diskNo := r.diskNo }
      else d }

def diskIsAt (disks : List (Disk Id)) (diskId : Id) (p : Place Id) : Bool :=
  disks.any fun d => d.id = diskId && d.gameId = p.gameId && d.diskNo = p.diskNo

/-- What a board is told of its desired disk, while it names that disk and the disk is there. -/
def nameDesired (deviceId diskId : Id) (p : Place Id) : Stmt Id := fun lib =>
  { lib with devices := lib.devices.map fun v =>
      if v.id = deviceId ∧ v.desiredDiskId = some diskId ∧ diskIsAt lib.disks diskId p = true then
        { v with desiredGameId := some p.gameId, desiredDiskNo := some p.diskNo }
      else v }

def nameMounted (deviceId diskId : Id) (p : Place Id) : Stmt Id := fun lib =>
  { lib with devices := lib.devices.map fun v =>
      if v.id = deviceId ∧ v.mountedDiskId = some diskId ∧ diskIsAt lib.disks diskId p = true then
        { v with mountedGameId := some p.gameId, mountedDiskNo := some p.diskNo }
      else v }

def nameDevice (devs : List (Device Id)) (u : DeviceUpdate Id) : List (Stmt Id) :=
  match devs.find? fun v => v.id = u.deviceId with
  | none => []
  | some ref =>
    (match u.desired, ref.desiredDiskId with
      | some p, some diskId => [nameDesired u.deviceId diskId p]
      | _, _ => []) ++
    (match u.mounted, ref.mountedDiskId with
      | some p, some diskId => [nameMounted u.deviceId diskId p]
      | _, _ => [])

def applyPlan (plan : Plan Id) (devs : List (Device Id)) : List (Stmt Id) :=
  plan.renumber.map moveDisk ++ plan.devices.flatMap (nameDevice devs)

def noDiskLeft (lib : Library Id) (gameId : Id) : Bool := lib.disks.all fun d => d.gameId ≠ gameId

/-- Memberships, then the titles, each only where no disk is left. -/
def deleteEmptied (emptied : List Id) : List (Stmt Id) :=
  if emptied = [] then []
  else
    [fun lib => { lib with
        memberships := lib.memberships.filter fun m => ¬ (m.2 ∈ emptied ∧ noDiskLeft lib m.2 = true) },
      fun lib => { lib with
        titles := lib.titles.filter fun t => ¬ (t.id ∈ emptied ∧ noDiskLeft lib t.id = true) }]

def human : Units := units "human"

/-- The target: arranged by a person, and perhaps renamed. -/
def arrange (gameId : Id) (renamed : Option Units) : Stmt Id := fun lib =>
  { lib with titles := lib.titles.map fun t =>
      if t.id = gameId then
        match renamed with
        | none => { t with diskOrderSource := some human }
        | some name => { t with diskOrderSource := some human, title := name, metadataSource := some human }
      else t }

def insertTitle (t : Title Id) : Stmt Id := fun lib => { lib with titles := lib.titles ++ [t] }

structure UndoSnapshot (Id : Type) where
  diskIds : List Id
  title : Units
  year : Option Int
  publisher : Option Units
  metadataSource : Option Units
  diskOrderSource : Option Units
  hadExtras : Bool
  deriving DecidableEq

inductive AddPick (Id : Type) where
  | disks (ids : List Id)
  | titles (sourceGameIds : List Id)

/-- A title of this library, not a stand-in for a remote one. -/
def Library.localTitle (lib : Library Id) (gameId : Id) : Option (Title Id) :=
  lib.titles.find? fun t => t.id = gameId && !t.hidden

/-- Every disk of each title, titles in the order given. -/
def diskIdsOfTitles (lib : Library Id) (gameId : Id) (sourceGameIds : List Id) : Except Refusal (List Id) :=
  let ids := sourceGameIds.reverse.dedup.reverse
  if ids = [] then .error .nothingToAdd
  else if gameId ∈ ids then .error .sameTitle
  else if ids.any fun g => (lib.localTitle g).isNone then .error .notFound
  else if ids.any fun g => (lib.disksOf g).isEmpty then .error .nothingToAdd
  else .ok (ids.flatMap fun g => (sortByNo (lib.disksOf g)).map (·.id))

def AddPick.isEmpty : AddPick Id → Bool
  | .disks ids => ids.isEmpty
  | .titles ids => ids.isEmpty

def pickedIds (lib : Library Id) (gameId : Id) : AddPick Id → Except Refusal (List Id)
  | .disks ids => .ok ids.reverse.dedup.reverse
  | .titles ids => diskIdsOfTitles lib gameId ids

/-- The picked disks in the order they were picked, as far as they are there. -/
def Library.picked (lib : Library Id) (ids : List Id) : List (Disk Id) :=
  ids.filterMap fun id => lib.disks.find? fun d => d.id = id && !d.hidden

def snapshot (lib : Library Id) (plan : Plan Id) (allOfSources : List (Disk Id)) (t : Title Id) :
    UndoSnapshot Id where
  diskIds := (plan.renumber.filter fun r =>
    (allOfSources.find? fun d => d.id = r.diskId).map (·.gameId) = some t.id).map (·.diskId)
  title := t.title
  year := t.year
  publisher := t.publisher
  metadataSource := t.metadataSource
  diskOrderSource := if t.diskOrderSource = some human then some human else none
  hadExtras := t.coverAssetId.isSome || t.coverOverrideSha256.isSome || t.demozooProductionId.isSome ||
    lib.memberships.any fun m => m.2 = t.id

def addDisksToSet (lib : Library Id) (gameId : Id) (pick : AddPick Id) (rename : Option Units) :
    Except Refusal (Library Id × List (UndoSnapshot Id)) :=
  if pick.isEmpty then .error .nothingToAdd
  else match lib.localTitle gameId with
  | none => .error .notFound
  | some current => do
    let ids ← pickedIds lib gameId pick
    let picked := lib.picked ids
    if picked.length ≠ ids.length then .error .notFound
    else if picked.any fun d => d.gameId = gameId then .error .sameTitle
    else if (titlesOf picked).any fun g => (lib.localTitle g).isNone then .error .notFound
    else
      -- every disk of each source: the plan empties its title
      let allOfSources := lib.disks.filter fun d => d.gameId ∈ titlesOf picked
      let plan ← planAddDisks gameId (lib.disksOf gameId) picked allOfSources lib.devices rename.isSome
      let undo := (plan.emptiedGameIds.filterMap lib.localTitle).map (snapshot lib plan allOfSources)
      let renamed := rename.bind fun r => if trim r ≠ current.title then some (trim r) else none
      .ok (run (applyPlan plan lib.devices ++ [arrange gameId renamed] ++ deleteEmptied plan.emptiedGameIds) lib,
        undo)

/-- `newId` is the title made again: a hash of the disks and the time. -/
def undoMove (lib : Library Id) (newId : Id) (snap : UndoSnapshot Id) : Except Refusal (Library Id) :=
  if snap.diskIds = [] ∨ ¬ snap.diskIds.Nodup then .error .notFound
  else
    let moving := lib.disks.filter fun d => d.id ∈ snap.diskIds ∧ d.hidden = false
    if moving.length ≠ snap.diskIds.length then .error .notFound
    else
      match titlesOf moving with
      | [gid] =>
        if lib.titles.all fun t => t.id ≠ gid then .error .notFound
        else do
          let first ← planReorder newId moving snap.diskIds lib.devices
          let rest := sortByNo ((lib.disksOf gid).filter fun d => d.id ∉ snap.diskIds)
          if rest = [] then .error .staleUndo
          else
            let second ← planReorder gid rest (rest.map (·.id)) lib.devices
            let merged : Plan Id :=
              ⟨first.renumber ++ second.renumber, [], first.devices ++ second.devices⟩
            .ok (run (insertTitle ⟨newId, snap.title, snap.year, snap.publisher, snap.metadataSource,
              snap.diskOrderSource, none, none, none, false⟩ :: applyPlan merged lib.devices) lib)
      | _ => .error .staleUndo

end WebAdf.DiskSets
