import Mathlib.Data.List.Nodup
import WebAdf.Server.Transfers

/-!
# The queue's cursor

Each operation either moves a board's cursor or leaves the rows its text lists,
for every time from then on. So between two moments at which the cursor has one
value the text is the same, apart from rows that lapsed meanwhile.
-/

namespace WebAdf.Server

open Lib Send

-- ---------------------------------------------------------------------------
-- Rows
-- ---------------------------------------------------------------------------

/-- One row an id, and no active row finished. -/
structure Db.Ok (db : Db) : Prop where
  ids : (db.transfers.map (·.file.id.text)).Nodup
  unfinished : ∀ t ∈ db.transfers, t.status.active = true → t.finishedAt = none

def Db.version (db : Db) (dev : String) : Option Nat := (db.device dev).map Device.sendVersion

/-- What an operation may do to a board: its cursor grows, or its rows stay. -/
structure Cursor (dev : String) (now : Int) (db db' : Db) : Prop where
  moves : ∃ v v', db.version dev = some v ∧ db'.version dev = some v' ∧
    (v < v' ∨ v = v' ∧ ∀ t ≥ now, db'.queueRows dev t = db.queueRows dev t)

theorem Cursor.refl (h : db.version dev = some v) (now : Int) : Cursor dev now db db :=
  ⟨v, v, h, h, .inr ⟨rfl, fun _ _ => rfl⟩⟩

theorem Cursor.trans (h : Cursor dev now a b) (h' : Cursor dev now' b c) (hle : now ≤ now') :
    Cursor dev now' a c := by
  obtain ⟨v, w, hv, hw, hvw⟩ := h.moves
  obtain ⟨w', x, hw', hx, hwx⟩ := h'.moves
  obtain rfl : w = w' := Option.some.inj (hw.symm.trans hw')
  refine ⟨v, x, hv, hx, ?_⟩
  rcases hvw with hlt | ⟨rfl, hrows⟩
  · rcases hwx with hlt' | ⟨rfl, -⟩
    · exact .inl (Nat.lt_trans hlt hlt')
    · exact .inl hlt
  · rcases hwx with hlt' | ⟨rfl, hrows'⟩
    · exact .inl hlt'
    · exact .inr ⟨rfl, fun t ht => (hrows' t ht).trans (hrows t (Int.le_trans hle ht))⟩

theorem Cursor.version (h : Cursor dev now a b) : ∃ v, b.version dev = some v := by
  obtain ⟨-, v', -, hv', -⟩ := h.moves
  exact ⟨v', hv'⟩

-- ---------------------------------------------------------------------------
-- Updates
-- ---------------------------------------------------------------------------

theorem find?_update {key : α → String} {f : α → α} (hkey : ∀ a, key (f a) = key a) (p : α → Bool)
    (rows : List α) (id : String) :
    (update p f rows).find? (key · == id) =
      (rows.find? (key · == id)).map fun a => if p a then f a else a := by
  induction rows with
  | nil => rfl
  | cons a rows ih =>
    have hid : key (if p a then f a else a) = key a := by
      split
      · exact hkey a
      · rfl
    rw [update, List.map_cons, List.find?_cons, List.find?_cons, hid]
    cases key a == id with
    | true => rfl
    | false => exact ih

/-- An update of rows the text lists as before. -/
theorem filterMap_update {g : α → Option β} (h : ∀ a ∈ rows, p a = true → g (f a) = g a) :
    (update p f rows).filterMap g = rows.filterMap g := by
  rw [update, List.filterMap_map]
  refine List.filterMap_congr fun a ha => ?_
  dsimp only [Function.comp_apply]
  split
  · rename_i hp
    exact h a ha hp
  · rfl

/-- A deletion of rows the text does not list. -/
theorem filterMap_filter {rows : List α} {keep : α → Bool} {g : α → Option β} (h : ∀ a ∈ rows, keep a = false → g a = none) :
    (rows.filter keep).filterMap g = rows.filterMap g := by
  induction rows with
  | nil => rfl
  | cons a rows ih =>
    have hrest := ih fun b hb => h b (List.mem_cons_of_mem _ hb)
    rw [List.filter_cons]
    split
    · rw [List.filterMap_cons, List.filterMap_cons, hrest]
    · rename_i hkeep
      rw [List.filterMap_cons, h a (List.mem_cons_self ..) (by simpa using hkeep), hrest]

theorem listed_eq_none (h : t.deviceId ≠ dev ∨ t.status.active = false ∨ t.expiresAt ≤ time) :
    Transfer.listed dev writes time t = none := by
  unfold Transfer.listed
  rw [if_neg]
  simp only [Bool.and_eq_true, beq_iff_eq, decide_eq_true_eq]
  rintro ⟨⟨⟨hdev, hactive⟩, hexp⟩, -⟩
  rcases h with h | h | h
  · exact h hdev
  · rw [h] at hactive
    cases hactive
  · omega

namespace Db

theorem device_update (db : Db) {f : Device → Device} (hid : ∀ d, (f d).id = d.id)
    (p : Device → Bool) (dev : String) :
    ({ db with devices := update p f db.devices } : Db).device dev =
      (db.device dev).map fun d => if p d then f d else d :=
  find?_update hid p db.devices dev

theorem device_id {db : Db} (h : db.device dev = some d) : d.id = dev := by
  have := List.find?_some h
  exact beq_iff_eq.1 this

theorem device_bumpSend (db : Db) (p : String → Bool) (dev : String) :
    (db.bumpSend p).device dev =
      (db.device dev).map fun d => if p d.id then { d with sendVersion := d.sendVersion + 1 } else d :=
  device_update db (f := fun d => { d with sendVersion := d.sendVersion + 1 }) (fun _ => rfl)
    (fun d => p d.id) dev

theorem version_bumpSend (db : Db) (p : String → Bool) (h : db.version dev = some v) :
    (db.bumpSend p).version dev = some (if p dev then v + 1 else v) := by
  unfold version at h ⊢
  obtain ⟨d, hd, rfl⟩ := Option.map_eq_some_iff.1 h
  rw [device_bumpSend, hd, Option.map_some, Option.map_some, device_id hd]
  split <;> rfl

theorem writes_bumpSend (db : Db) (p : String → Bool) (dev : String) :
    (db.bumpSend p).writes dev = db.writes dev := by
  unfold writes
  rw [device_bumpSend]
  cases db.device dev with
  | none => rfl
  | some d =>
    rw [Option.map_some]
    split <;> rfl

theorem queueRows_bumpSend (db : Db) (p : String → Bool) (dev : String) (t : Int) :
    (db.bumpSend p).queueRows dev t = db.queueRows dev t := by
  rw [queueRows, writes_bumpSend]
  rfl

end Db

-- ---------------------------------------------------------------------------
-- What an operation is made of
-- ---------------------------------------------------------------------------

/-- The rows change, and the boards stay as they are. -/
theorem Cursor.rows {db db' : Db} (hv : db.version dev = some v) (hdevices : db'.devices = db.devices)
    (hrows : ∀ t ≥ now, ∀ w, db'.transfers.filterMap (Transfer.listed dev w t) =
      db.transfers.filterMap (Transfer.listed dev w t)) : Cursor dev now db db' := by
  have hdevice : db'.device dev = db.device dev := by rw [Db.device, hdevices, Db.device]
  refine ⟨v, v, hv, by rw [Db.version, hdevice]; exact hv, .inr ⟨rfl, fun t ht => ?_⟩⟩
  rw [Db.queueRows, Db.writes, hdevice, hrows t ht]
  rfl

/-- The cursor of the boards named moves; the rows of the others stay. -/
theorem Cursor.bump {db db' : Db} {p : String → Bool} (hv : db.version dev = some v) (hdevices : db'.devices = db.devices)
    (hrows : p dev = false → ∀ t ≥ now, ∀ w, db'.transfers.filterMap (Transfer.listed dev w t) =
      db.transfers.filterMap (Transfer.listed dev w t)) : Cursor dev now db (db'.bumpSend p) := by
  have hdevice : db'.device dev = db.device dev := by rw [Db.device, hdevices, Db.device]
  have hv' : db'.version dev = some v := by rw [Db.version, hdevice]; exact hv
  cases hp : p dev with
  | true =>
    refine ⟨v, v + 1, hv, ?_, .inl (Nat.lt_succ_self v)⟩
    rw [Db.version_bumpSend _ _ hv', if_pos hp]
  | false =>
    have hstay := Cursor.rows hv hdevices (hrows hp)
    have hbump : Cursor dev now db' (db'.bumpSend p) := by
      refine ⟨v, v, hv', ?_, .inr ⟨rfl, fun t _ => Db.queueRows_bumpSend ..⟩⟩
      rw [Db.version_bumpSend _ _ hv', hp]
      rfl
    exact hstay.trans hbump (Int.le_refl now)

/-- Rows of other boards are not listed, before or after. -/
theorem rows_elsewhere {db : Db} {p : Transfer → Bool} {f : Transfer → Transfer}
    (hp : ∀ t ∈ db.transfers, p t = true → t.deviceId ≠ dev) (hf : ∀ t, (f t).deviceId = t.deviceId)
    (time : Int) (w : Bool) :
    (db.setTransfers p f).transfers.filterMap (Transfer.listed dev w time) =
      db.transfers.filterMap (Transfer.listed dev w time) :=
  filterMap_update fun t ht hpt => by
    rw [listed_eq_none (.inl (hp t ht hpt)), listed_eq_none (.inl (by rw [hf]; exact hp t ht hpt))]

-- ---------------------------------------------------------------------------
-- Rows kept in order
-- ---------------------------------------------------------------------------

theorem map_update {g : α → β} (h : ∀ a, p a = true → g (f a) = g a) (rows : List α) :
    (update p f rows).map g = rows.map g := by
  rw [update, List.map_map]
  refine List.map_congr_left fun a _ => ?_
  dsimp only [Function.comp_apply]
  split
  · rename_i hp
    exact h a hp
  · rfl

/-- An update that ends rows, or keeps active ones active. -/
theorem Db.Ok.set {db : Db} {p : Transfer → Bool} {f : Transfer → Transfer} (h : db.Ok)
    (hfile : ∀ t, p t = true → (f t).file = t.file)
    (hopen : ∀ t, p t = true → (f t).status.active = true →
      t.status.active = true ∧ (f t).finishedAt = t.finishedAt) : (db.setTransfers p f).Ok := by
  constructor
  · change ((update p f db.transfers).map (·.file.id.text)).Nodup
    rw [map_update (fun t ht => by rw [hfile t ht])]
    exact h.ids
  · intro t ht hactive
    obtain ⟨u, hu, rfl⟩ := List.mem_map.1 ht
    by_cases hp : p u = true
    · rw [if_pos hp] at hactive ⊢
      obtain ⟨huactive, hsame⟩ := hopen u hp hactive
      rw [hsame]
      exact h.unfinished u hu huactive
    · rw [if_neg hp] at hactive ⊢
      exact h.unfinished u hu hactive

theorem Db.Ok.filter {db : Db} (h : db.Ok) (keep : Transfer → Bool) :
    ({ db with transfers := db.transfers.filter keep } : Db).Ok :=
  ⟨h.ids.sublist (List.Sublist.map _ List.filter_sublist),
    fun t ht => h.unfinished t (List.mem_of_mem_filter ht)⟩

/-- Only the queue's rows matter. -/
theorem Db.Ok.of_transfers {db db' : Db} (h : db.Ok) (hsame : db'.transfers = db.transfers) : db'.Ok :=
  ⟨hsame ▸ h.ids, fun t ht => h.unfinished t (hsame ▸ ht)⟩

/-- The rows with one id are one row. -/
theorem Db.Ok.unique {db : Db} (h : db.Ok) (ht : t ∈ db.transfers) (hu : u ∈ db.transfers)
    (hid : t.file.id.text = u.file.id.text) : t = u :=
  List.inj_on_of_nodup_map h.ids ht hu hid

-- ---------------------------------------------------------------------------
-- Into the queue
-- ---------------------------------------------------------------------------

/-- New rows of a board: queued and not finished. -/
def New (dev : String) (rows : List Transfer) : Prop :=
  ∀ r ∈ rows, r.deviceId = dev ∧ r.finishedAt = none

theorem insertQueued_cursor {db : Db} (hv : db.version dev = some v) (hnew : New board rows) (at_ : Int) :
    Cursor dev now db (db.insertQueued board at_ rows) := by
  unfold Db.insertQueued
  dsimp only
  split
  · exact .refl hv now
  · unfold Db.insertTransfers
    split
    · rw [Option.map_some, Option.getD_some]
      refine .bump hv rfl fun hboard t _ w => ?_
      rw [List.filterMap_append]
      have hnone : rows.filterMap (Transfer.listed dev w t) = [] := by
        rw [List.filterMap_eq_nil_iff]
        intro r hr
        refine listed_eq_none (.inl fun hdev => ?_)
        rw [← hdev, (hnew r hr).1, beq_self_eq_true] at hboard
        cases hboard
      rw [hnone, List.append_nil]
    · exact .refl hv now

theorem insertQueued_ok {db : Db} (h : db.Ok) (hnew : New board rows) (at_ : Int) :
    (db.insertQueued board at_ rows).Ok := by
  unfold Db.insertQueued
  dsimp only
  split
  · exact h
  · unfold Db.insertTransfers
    split
    · rename_i hfresh
      constructor
      · change ((db.transfers ++ rows).map (·.file.id.text)).Nodup
        rw [List.map_append, List.nodup_append]
        refine ⟨h.ids, hfresh.1, fun a ha b hb hab => ?_⟩
        obtain ⟨t, ht, rfl⟩ := List.mem_map.1 ha
        obtain ⟨r, hr, rfl⟩ := List.mem_map.1 hb
        exact hfresh.2 r hr t ht hab
      · intro t ht hactive
        rcases List.mem_append.1 ht with ht | ht
        · exact h.unfinished t ht hactive
        · exact (hnew t ht).2
    · exact h

theorem mapM_forall {f : α → Option β} {P : β → Prop} (hP : ∀ a b, f a = some b → P b)
    {l : List α} {bs : List β} (h : l.mapM f = some bs) : ∀ b ∈ bs, P b := by
  induction l generalizing bs with
  | nil =>
    rw [List.mapM_nil] at h
    obtain rfl := Option.some.inj h
    exact fun b hb => absurd hb List.not_mem_nil
  | cons a l ih =>
    rw [List.mapM_cons] at h
    obtain ⟨b, hb, h⟩ := Option.bind_eq_some_iff.1 h
    obtain ⟨rest, hrest, h⟩ := Option.bind_eq_some_iff.1 h
    obtain rfl := Option.some.inj h
    intro c hc
    rcases List.mem_cons.1 hc with rfl | hc
    · exact hP a c hb
    · exact ih hrest c hc

theorem jobRows_new (h : Db.jobRows orgId board jobId now files = some rows) : New board rows := by
  refine mapM_forall (fun p r hr => ?_) h
  unfold Db.jobRow at hr
  split at hr
  · split at hr
    · cases hr
    · obtain rfl := Option.some.inj hr
      exact ⟨rfl, rfl⟩
  · cases hr

theorem blob_new (file : QueueRow) (orgId board : String) (createdAt now : Int) :
    New board [Db.queuedRow file orgId board createdAt now] := by
  intro r hr
  rw [List.mem_singleton.1 hr]
  exact ⟨rfl, rfl⟩

-- ---------------------------------------------------------------------------
-- Reports
-- ---------------------------------------------------------------------------

/-- A report's flags say whether the board can write. -/
theorem flags_writes (h : Db.flagsOf rx cap poll = some f) (d : Device) :
    boardWrites (f.set d) = f.writeOn := by
  unfold Db.flagsOf at h
  split at h
  · obtain rfl := Option.some.inj h
    rename_i c
    unfold boardWrites Db.Flags.set
    dsimp only [Option.orElse_some, Option.getD_some]
    cases c.browse <;> cases c.write <;> simp
  · split at h
    · obtain rfl := Option.some.inj h
      unfold boardWrites Db.Flags.set
      simp
    · cases h

/-- With no copy onto a volume waiting, the switch changes nothing. -/
theorem rows_without_volumes {db : Db} (h : db.volumeWaits dev = false) (time : Int) (w w' : Bool) :
    db.transfers.filterMap (Transfer.listed dev w time) =
      db.transfers.filterMap (Transfer.listed dev w' time) := by
  refine List.filterMap_congr fun t ht => ?_
  have hnot : ¬ (t.deviceId = dev ∧ t.status.active = true ∧ t.file.dest.isSome = true) := by
    intro hvol
    unfold Db.volumeWaits at h
    rw [List.any_eq_false] at h
    refine h t ht ?_
    rw [hvol.1, hvol.2.1, hvol.2.2, beq_self_eq_true]
    rfl
  unfold Transfer.listed
  by_cases hdev : t.deviceId = dev
  · cases hactive : t.status.active with
    | false => simp
    | true =>
      have hdest : t.file.dest.isNone = true := by
        cases hd : t.file.dest with
        | none => rfl
        | some d => exact absurd ⟨hdev, hactive, by rw [hd]; rfl⟩ hnot
      simp [hdest]
  · simp [hdev]

theorem reportSet_writes (h : Db.flagsOf rx cap poll = flags) (db : Db) (d : Device) :
    boardWrites (db.reportSet flags rx at_ d) = flags.elim (boardWrites d) Db.Flags.writeOn := by
  cases flags with
  | none => rfl
  | some f => exact flags_writes h d

/-- A report that moves no cursor changes no row of the text. -/
theorem report_rows {db : Db} (hid : d.id = dev) (hstill : db.writesMoved flags d = 0) (time : Int) :
    db.transfers.filterMap
        (Transfer.listed dev (flags.elim (boardWrites d) Db.Flags.writeOn) time) =
      db.transfers.filterMap (Transfer.listed dev (boardWrites d) time) := by
  cases flags with
  | none => rfl
  | some f =>
    unfold Db.writesMoved at hstill
    dsimp only at hstill
    split at hstill
    · cases hstill
    rename_i hmoved
    rw [Bool.and_eq_true, not_and_or, Bool.not_eq_true, Bool.not_eq_true] at hmoved
    rcases hmoved with hsame | hvolumes
    · have heq : boardWrites d = f.writeOn := by simpa using hsame
      rw [heq]
      rfl
    · rw [hid] at hvolumes
      exact rows_without_volumes hvolumes ..

theorem recordSendRx_cursor {db : Db} (hv : db.version dev = some v) (board : String) (rx : Rx)
    (cap : Option Db.Cap) (poll : Bool) (at_ : Int) :
    Cursor dev now db (db.recordSendRx board rx cap poll at_) := by
  obtain ⟨d, hd, rfl⟩ := Option.map_eq_some_iff.1 hv
  have hid := Db.device_id hd
  let flags := Db.flagsOf rx cap poll
  have hkeep : ∀ d, (db.reportSet flags rx at_ d).id = d.id := by
    intro d
    unfold Db.reportSet
    cases flags <;> rfl
  have hdevice : (db.recordSendRx board rx cap poll at_).device dev = _ :=
    Db.device_update db hkeep (fun d => d.id == board && Db.reportDue flags rx at_ d) dev
  rw [hd, Option.map_some] at hdevice
  split at hdevice
  · refine ⟨d.sendVersion, d.sendVersion + db.writesMoved flags d, hv, ?_, ?_⟩
    · rw [Db.version, hdevice]
      rfl
    by_cases hstill : db.writesMoved flags d = 0
    · refine .inr ⟨by rw [hstill]; rfl, fun t _ => ?_⟩
      rw [Db.queueRows, Db.writes, hdevice, Option.elim_some, reportSet_writes rfl, Db.queueRows,
        Db.writes, hd]
      exact report_rows hid hstill t
    · exact .inl (by omega)
  · refine ⟨d.sendVersion, d.sendVersion, hv, ?_, .inr ⟨rfl, fun t _ => ?_⟩⟩
    · rw [Db.version, hdevice]
      rfl
    · rw [Db.queueRows, Db.writes, hdevice, Db.queueRows, Db.writes, hd]
      rfl

theorem recordSendRx_ok {db : Db} (h : db.Ok) (board : String) (rx : Rx) (cap : Option Db.Cap)
    (poll : Bool) (at_ : Int) : (db.recordSendRx board rx cap poll at_).Ok :=
  h.of_transfers rfl

-- ---------------------------------------------------------------------------
-- On and out
-- ---------------------------------------------------------------------------

theorem recordChunk_cursor {db : Db} (hv : db.version dev = some v) (board : String) (id : Units)
    (offset : Nat) (at_ : Int) : Cursor dev now db (db.recordChunk board id offset at_) := by
  unfold Db.recordChunk
  dsimp only
  split
  · have hrows : Cursor dev now db (db.setTransfers
        (fun t => Db.moving board id t && decide (t.file.sizeBytes > offset))
        Transfer.sent) := by
      refine .rows hv rfl fun time _ w => filterMap_update fun t _ hp => ?_
      rw [Db.moving, Bool.and_eq_true, Bool.and_eq_true] at hp
      unfold Transfer.listed
      rw [hp.1.2]
      rfl
    obtain ⟨w, hw⟩ := hrows.version
    exact hrows.trans (recordSendRx_cursor hw ..) (Int.le_refl now)
  · exact .refl hv now

theorem recordChunk_ok {db : Db} (h : db.Ok) (board : String) (id : Units) (offset : Nat) (at_ : Int) :
    (db.recordChunk board id offset at_).Ok := by
  unfold Db.recordChunk
  dsimp only
  split
  · refine recordSendRx_ok (h.set (f := Transfer.sent) (fun _ _ => rfl) fun t hp _ => ⟨?_, rfl⟩) ..
    rw [Db.moving, Bool.and_eq_true, Bool.and_eq_true] at hp
    exact hp.1.2
  · exact h

/-- Rows of one board end, and its cursor moves. -/
theorem end_cursor {db : Db} (hv : db.version dev = some v) (board : String) {p : Transfer → Bool}
    (hp : ∀ t ∈ db.transfers, p t = true → t.deviceId = board) (status : TransferStatus)
    (at_ : Int) :
    Cursor dev now db ((db.setTransfers p (Transfer.ended status at_)).bumpSend (· == board)) := by
  refine .bump hv rfl fun hboard t _ w =>
    rows_elsewhere (f := Transfer.ended status at_) (fun t ht hpt hdev => ?_) (fun _ => rfl) t w
  rw [← hdev, hp t ht hpt, beq_self_eq_true] at hboard
  cases hboard

theorem end_ok {db : Db} (h : db.Ok) (p : Transfer → Bool) (hstatus : TransferStatus.active s = false)
    (at_ : Int) (q : String → Bool) : ((db.setTransfers p (Transfer.ended s at_)).bumpSend q).Ok := by
  refine Db.Ok.of_transfers (h.set (p := p) (f := Transfer.ended s at_) (fun _ _ => rfl)
    fun t _ hactive => ?_) rfl
  change s.active = true at hactive
  rw [hstatus] at hactive
  cases hactive

theorem finishTransfer_cursor {db : Db} (hv : db.version dev = some v) (board : String) (id : Units)
    (o : Db.Outcome) (at_ : Int) : Cursor dev now db (db.finishTransfer board id o at_) := by
  unfold Db.finishTransfer
  dsimp only
  split
  · refine end_cursor hv _ (fun t _ hp => ?_) ..
    unfold Db.finishable at hp
    rw [Bool.and_eq_true, Bool.and_eq_true, beq_iff_eq, beq_iff_eq] at hp
    exact hp.1.2
  · exact .refl hv now

theorem finishTransfer_ok {db : Db} (h : db.Ok) (board : String) (id : Units) (o : Db.Outcome)
    (at_ : Int) : (db.finishTransfer board id o at_).Ok := by
  unfold Db.finishTransfer
  dsimp only
  split
  · exact end_ok h _ (by cases o <;> rfl) ..
  · exact h

theorem cancelTransfer_cursor {db : Db} (h : db.Ok) (hv : db.version dev = some v) (orgId : String)
    (id : Units) (at_ : Int) : Cursor dev now db (db.cancelTransfer orgId id at_) := by
  unfold Db.cancelTransfer
  dsimp only
  split
  · rename_i done hdone
    have hmem := List.mem_of_find?_eq_some hdone
    have hmatch := List.find?_some hdone
    refine end_cursor hv _ (fun t ht hp => ?_) ..
    simp only [Bool.and_eq_true, beq_iff_eq] at hp hmatch
    -- the id is the key: the row matched is the row found
    rw [h.unique ht hmem (hp.1.1.trans hmatch.1.1.symm)]
  · exact .refl hv now

theorem cancelTransfer_ok {db : Db} (h : db.Ok) (orgId : String) (id : Units) (at_ : Int) :
    (db.cancelTransfer orgId id at_).Ok := by
  unfold Db.cancelTransfer
  dsimp only
  split
  · exact end_ok h _ rfl ..
  · exact h

theorem cancelQueueSends_cursor {db : Db} (hv : db.version dev = some v) (orgId board : String)
    (at_ : Int) : Cursor dev now db (db.cancelQueueSends orgId board at_) := by
  unfold Db.cancelQueueSends
  dsimp only
  split
  · refine end_cursor hv _ (fun t _ hp => ?_) ..
    simp only [Bool.and_eq_true, beq_iff_eq] at hp
    exact hp.1.1.2
  · exact .refl hv now

theorem cancelQueueSends_ok {db : Db} (h : db.Ok) (orgId board : String) (at_ : Int) :
    (db.cancelQueueSends orgId board at_).Ok := by
  unfold Db.cancelQueueSends
  dsimp only
  split
  · exact end_ok h _ rfl ..
  · exact h

theorem failWritesWhenOff_cursor {db : Db} (hv : db.version dev = some v) (board : String) (at_ : Int) :
    Cursor dev now db (db.failWritesWhenOff board at_) := by
  unfold Db.failWritesWhenOff
  dsimp only
  split
  · have hend : Cursor dev now db _ := end_cursor hv board (p := fun t =>
      t.deviceId == board && t.status.active && t.file.dest.isSome) (fun t _ hp => by
        simp only [Bool.and_eq_true, beq_iff_eq] at hp
        exact hp.1.1) .failed at_
    obtain ⟨w, hw⟩ := hend.version
    exact hend.trans (.rows hw rfl fun _ _ _ => rfl) (Int.le_refl now)
  · exact .rows hv rfl fun _ _ _ => rfl

theorem failWritesWhenOff_ok {db : Db} (h : db.Ok) (board : String) (at_ : Int) :
    (db.failWritesWhenOff board at_).Ok := by
  unfold Db.failWritesWhenOff
  dsimp only
  split
  · exact (end_ok h (s := .failed) _ rfl at_ (· == board)).of_transfers rfl
  · exact h.of_transfers rfl

/-- A finished row is not listed, so it may go. -/
theorem deleted_cursor {db : Db} (hv : db.version dev = some v) {keep : Transfer → Bool}
    (hkeep : ∀ t ∈ db.transfers, keep t = false → t.status.active = false ∨ t.expiresAt ≤ now) :
    Cursor dev now db { db with transfers := db.transfers.filter keep } := by
  refine .rows hv rfl fun time htime w => filterMap_filter fun t ht hdel => listed_eq_none ?_
  rcases hkeep t ht hdel with h | h
  · exact .inr (.inl h)
  · exact .inr (.inr (Int.le_trans h htime))

theorem expireTransfers_cursor {db : Db} (h : db.Ok) (hv : db.version dev = some v) (at_ : Int) :
    Cursor dev now db (db.expireTransfers at_) := by
  unfold Db.expireTransfers
  dsimp only
  set p : Transfer → Bool := fun t => t.status.active && decide (t.expiresAt < at_)
  have hexpired : Cursor dev now db ((db.setTransfers p (Transfer.ended .expired at_)).bumpSend
      fun id => (db.transfers.filter p).any (·.deviceId == id)) := by
    refine .bump hv rfl fun hnone t _ w =>
      rows_elsewhere (f := Transfer.ended .expired at_) (fun t ht hpt hdev => ?_) (fun _ => rfl) t w
    rw [List.any_eq_false] at hnone
    exact hnone t (List.mem_filter.2 ⟨ht, hpt⟩) (by rw [hdev, beq_self_eq_true])
  have hok := end_ok h p (s := .expired) rfl at_ fun id => (db.transfers.filter p).any (·.deviceId == id)
  obtain ⟨w, hw⟩ := hexpired.version
  refine hexpired.trans (deleted_cursor hw fun t ht hdel => ?_) (Int.le_refl now)
  cases hactive : t.status.active with
  | false => exact .inl rfl
  | true =>
    rw [hok.unfinished t ht hactive] at hdel
    cases hdel

theorem expireTransfers_ok {db : Db} (h : db.Ok) (at_ : Int) : (db.expireTransfers at_).Ok := by
  unfold Db.expireTransfers
  dsimp only
  exact Db.Ok.filter (end_ok h _ rfl ..) _

theorem cleared_lapsed (h : Db.cleared now t = true) : t.status.active = false ∨ t.expiresAt ≤ now := by
  unfold Db.cleared at h
  simpa using h

theorem clearFinishedTransfers_cursor {db : Db} (hv : db.version dev = some v) (orgId board : String) :
    Cursor dev now db (db.clearFinishedTransfers orgId board now) := by
  refine deleted_cursor hv fun t _ hdel => ?_
  simp only [Bool.not_eq_false', Bool.and_eq_true] at hdel
  exact cleared_lapsed hdel.1.2

theorem clearTransfer_cursor {db : Db} (hv : db.version dev = some v) (orgId : String) (id : Units) :
    Cursor dev now db (db.clearTransfer orgId id now) := by
  refine deleted_cursor hv fun t _ hdel => ?_
  simp only [Bool.not_eq_false', Bool.and_eq_true] at hdel
  exact cleared_lapsed hdel.2

-- ---------------------------------------------------------------------------
-- Cancel the rest
-- ---------------------------------------------------------------------------

theorem cancelRows_cursor {db : Db} (hv : db.version dev = some v) (orgId job : String) (at_ : Int) :
    Cursor dev now db (db.cancelRows orgId job at_) := by
  unfold Db.cancelRows
  dsimp only
  split
  · refine .bump hv rfl fun hnone t _ w =>
      rows_elsewhere (f := Transfer.ended .cancelled at_) (fun t ht hpt hdev => ?_) (fun _ => rfl) t w
    rw [List.any_eq_false] at hnone
    exact hnone t (List.mem_filter.2 ⟨ht, hpt⟩) (by rw [hdev, beq_self_eq_true])
  · exact .refl hv now

theorem unmarkJob_cursor {db : Db} (hv : db.version dev = some v) (orgId job : String) :
    Cursor dev now db (db.unmarkJob orgId job) :=
  .rows hv rfl fun _ _ _ => filterMap_update fun _ _ _ => rfl

theorem cancelParts_cursor {db : Db} (hv : db.version dev = some v) (orgId job cancelId : String)
    (at_ : Int) : Cursor dev now db (db.cancelParts orgId job cancelId at_) := by
  unfold Db.cancelParts
  dsimp only
  split
  · exact .refl hv now
  -- the requests and the uploads first, which the text does not read
  set db₁ := (db.setRequests _ _).dropArriving orgId _
  have hv₁ : db₁.version dev = some v := hv
  have hfirst : Cursor dev now db db₁ := .rows hv rfl fun _ _ _ => rfl
  have hrows := hfirst.trans (cancelRows_cursor hv₁ orgId job at_) (Int.le_refl now)
  obtain ⟨w, hw⟩ := hrows.version
  have hstopped := hrows.trans (unmarkJob_cursor hw orgId job) (Int.le_refl now)
  split
  · obtain ⟨x, hx⟩ := hstopped.version
    exact hstopped.trans (.rows hx rfl fun _ _ _ => rfl) (Int.le_refl now)
  · exact hstopped

theorem cancelRows_ok {db : Db} (h : db.Ok) (orgId job : String) (at_ : Int) :
    (db.cancelRows orgId job at_).Ok := by
  unfold Db.cancelRows
  dsimp only
  split
  · exact end_ok h _ rfl ..
  · exact h

theorem unmarkJob_ok {db : Db} (h : db.Ok) (orgId job : String) : (db.unmarkJob orgId job).Ok :=
  Db.Ok.set (h.of_transfers rfl) (fun _ _ => rfl) fun _ _ hactive => ⟨hactive, rfl⟩

theorem cancelParts_ok {db : Db} (h : db.Ok) (orgId job cancelId : String) (at_ : Int) :
    (db.cancelParts orgId job cancelId at_).Ok := by
  unfold Db.cancelParts
  dsimp only
  split
  · exact h
  set db₁ := (db.setRequests _ _).dropArriving orgId _
  have hok₁ : db₁.Ok := h.of_transfers rfl
  have hstopped := unmarkJob_ok (cancelRows_ok hok₁ orgId job at_) orgId job
  split
  · exact hstopped.of_transfers rfl
  · exact hstopped

theorem cancelJob_cursor {db : Db} (hv : db.version dev = some v) (orgId job cancelId : String)
    (at_ : Int) : Cursor dev now db (db.cancelJob orgId job cancelId at_) := by
  unfold Db.cancelJob
  split
  · split
    · exact .refl hv now
    · split
      · exact cancelQueueSends_cursor hv ..
      · exact .refl hv now
  · exact cancelParts_cursor hv ..

theorem cancelJob_ok {db : Db} (h : db.Ok) (orgId job cancelId : String) (at_ : Int) :
    (db.cancelJob orgId job cancelId at_).Ok := by
  unfold Db.cancelJob
  split
  · split
    · exact h
    · split
      · exact cancelQueueSends_ok h ..
      · exact h
  · exact cancelParts_ok h ..

-- ---------------------------------------------------------------------------
-- Runs
-- ---------------------------------------------------------------------------

/-- What happens to a board's rows. -/
inductive QueueOp
  | queueOne (orgId board : String) (id : Uuid) (a : QueueFile) (stored : Bool) (createdAt : Int)
  | queueMany (orgId board : String) (jobId : Option String) (files : List Db.JobFile)
  | chunk (board : String) (id : Units) (offset : Nat)
  | finish (board : String) (id : Units) (o : Db.Outcome)
  | cancel (orgId : String) (id : Units)
  | cancelSends (orgId board : String)
  | cancelRest (orgId job cancelId : String)
  | writesOff (board : String)
  | expire
  | report (board : String) (rx : Rx) (cap : Option Db.Cap) (poll : Bool)
  | clearAll (orgId board : String)
  | clearOne (orgId : String) (id : Units)

def QueueOp.run (now : Int) (db : Db) : QueueOp → Db
  | .queueOne orgId board id a stored createdAt =>
    db.queueTransferFromBlob orgId board id a stored createdAt now
  | .queueMany orgId board jobId files => db.queueTransfers orgId board jobId files now
  | .chunk board id offset => db.recordChunk board id offset now
  | .finish board id o => db.finishTransfer board id o now
  | .cancel orgId id => db.cancelTransfer orgId id now
  | .cancelSends orgId board => db.cancelQueueSends orgId board now
  | .cancelRest orgId job cancelId => db.cancelJob orgId job cancelId now
  | .writesOff board => db.failWritesWhenOff board now
  | .expire => db.expireTransfers now
  | .report board rx cap poll => db.recordSendRx board rx cap poll now
  | .clearAll orgId board => db.clearFinishedTransfers orgId board now
  | .clearOne orgId id => db.clearTransfer orgId id now

theorem QueueOp.cursor {db : Db} (h : db.Ok) (hv : db.version dev = some v) (op : QueueOp) (now : Int) :
    Cursor dev now db (op.run now db) := by
  cases op with
  | queueOne orgId board id a stored createdAt =>
    change Cursor dev now db (db.queueTransferFromBlob orgId board id a stored createdAt now)
    unfold Db.queueTransferFromBlob
    split
    · split
      · exact .refl hv now
      · exact insertQueued_cursor hv (blob_new _ _ _ _ _) now
    · exact .refl hv now
  | queueMany orgId board jobId files =>
    change Cursor dev now db (db.queueTransfers orgId board jobId files now)
    unfold Db.queueTransfers
    split
    · rename_i hrows
      split
      · exact .refl hv now
      · exact insertQueued_cursor hv (jobRows_new hrows) now
    · exact .refl hv now
  | chunk board id offset => exact recordChunk_cursor hv ..
  | finish board id o => exact finishTransfer_cursor hv ..
  | cancel orgId id => exact cancelTransfer_cursor h hv ..
  | cancelSends orgId board => exact cancelQueueSends_cursor hv ..
  | cancelRest orgId job cancelId => exact cancelJob_cursor hv ..
  | writesOff board => exact failWritesWhenOff_cursor hv ..
  | expire => exact expireTransfers_cursor h hv ..
  | report board rx cap poll => exact recordSendRx_cursor hv ..
  | clearAll orgId board => exact clearFinishedTransfers_cursor hv ..
  | clearOne orgId id => exact clearTransfer_cursor hv ..

theorem QueueOp.ok {db : Db} (h : db.Ok) (op : QueueOp) (now : Int) : (op.run now db).Ok := by
  cases op with
  | queueOne orgId board id a stored createdAt =>
    change (db.queueTransferFromBlob orgId board id a stored createdAt now).Ok
    unfold Db.queueTransferFromBlob
    split
    · split
      · exact h
      · exact insertQueued_ok h (blob_new _ _ _ _ _) now
    · exact h
  | queueMany orgId board jobId files =>
    change (db.queueTransfers orgId board jobId files now).Ok
    unfold Db.queueTransfers
    split
    · rename_i hrows
      split
      · exact h
      · exact insertQueued_ok h (jobRows_new hrows) now
    · exact h
  | chunk board id offset => exact recordChunk_ok h ..
  | finish board id o => exact finishTransfer_ok h ..
  | cancel orgId id => exact cancelTransfer_ok h ..
  | cancelSends orgId board => exact cancelQueueSends_ok h ..
  | cancelRest orgId job cancelId => exact cancelJob_ok h ..
  | writesOff board => exact failWritesWhenOff_ok h ..
  | expire => exact expireTransfers_ok h ..
  | report board rx cap poll => exact recordSendRx_ok h ..
  | clearAll orgId board => exact h.filter _
  | clearOne orgId id => exact h.filter _

/-- Operations one after another, and time going on. -/
inductive QueueRun : Db → Int → Db → Int → Prop
  | start (db : Db) (t : Int) : QueueRun db t db t
  | wait : QueueRun db t db' t' → t' ≤ t'' → QueueRun db t db' t''
  | step (op : QueueOp) : QueueRun db t db' t' → QueueRun db t (op.run t' db') t'

theorem QueueRun.ok (h : QueueRun db t db' t') (hok : db.Ok) : db'.Ok := by
  induction h with
  | start => exact hok
  | wait _ _ ih => exact ih
  | step op _ ih => exact op.ok ih _

theorem QueueRun.le (h : QueueRun db t db' t') : t ≤ t' := by
  induction h with
  | start => exact Int.le_refl _
  | wait _ hle ih => exact Int.le_trans ih hle
  | step op _ ih => exact ih

theorem QueueRun.cursor (h : QueueRun db t db' t') (hok : db.Ok) (hv : db.version dev = some v) :
    Cursor dev t' db db' := by
  induction h with
  | start => exact .refl hv _
  | wait _ hle ih =>
    obtain ⟨w, hw⟩ := ih.version
    exact ih.trans (.refl hw _) hle
  | step op hrun ih =>
    obtain ⟨w, hw⟩ := ih.version
    exact ih.trans (op.cursor (hrun.ok hok) hw _) (Int.le_refl _)

/-- No row of the board's queue lapses between two times. -/
def Db.NoLapse (db : Db) (dev : String) (t t' : Int) : Prop :=
  ∀ r ∈ db.transfers, r.deviceId = dev → r.status.active = true → t < r.expiresAt → t' < r.expiresAt

theorem queueRows_noLapse {db : Db} (h : db.NoLapse dev t t') (hle : t ≤ t') :
    db.queueRows dev t' = db.queueRows dev t := by
  refine List.filterMap_congr fun r hr => ?_
  unfold Transfer.listed
  by_cases hdev : r.deviceId = dev
  · cases hactive : r.status.active with
    | false => simp
    | true =>
      have hiff : r.expiresAt > t' ↔ r.expiresAt > t :=
        ⟨fun hexp => Int.lt_of_le_of_lt hle hexp, h r hr hdev hactive⟩
      simp only [hiff]
  · simp [hdev]

theorem Db.ok_of_empty {db : Db} (h : db.transfers = []) : db.Ok := by
  constructor
  · rw [h]
    exact List.nodup_nil
  · intro t ht
    rw [h] at ht
    cases ht

/-- At two moments of one cursor the text is the same but for rows that lapsed:
it is what the earlier rows give at the later time, and where none of them
lapsed, what they gave before. -/
theorem same_version_same_text {db₀ : Db} (hstart : db₀.transfers = [])
    (hbefore : QueueRun db₀ t₀ db t) (h : QueueRun db t db' t')
    (hv : db.version dev = some v) (hv' : db'.version dev = some v) :
    db'.sendQueueText dev t' = db.sendQueueText dev t' ∧
      (db.NoLapse dev t t' → db'.sendQueueText dev t' = db.sendQueueText dev t) := by
  have hok := hbefore.ok (Db.ok_of_empty hstart)
  have hrows : db'.queueRows dev t' = db.queueRows dev t' := by
    obtain ⟨w, w', hw, hw', hcase⟩ := (h.cursor hok hv).moves
    obtain rfl : v = w := Option.some.inj (hv.symm.trans hw)
    obtain rfl : v = w' := Option.some.inj (hv'.symm.trans hw')
    rcases hcase with hlt | ⟨-, hrows⟩
    · exact absurd hlt (Nat.lt_irrefl v)
    · exact hrows t' (Int.le_refl t')
  have htext : db'.sendQueueText dev t' = db.sendQueueText dev t' := by
    rw [Db.sendQueueText, hrows, Db.sendQueueText]
  refine ⟨htext, fun hlapse => ?_⟩
  rw [htext, Db.sendQueueText, queueRows_noLapse hlapse h.le, Db.sendQueueText]

def someBoard : Device :=
  { id := "b", orgId := "o", rxProto := some 5, browseOn := true, writeOn := true, sendRx := some .c,
    sendRxAt := some 0, sendVersion := 0, reqVersion := 0 }

def someFile : QueueFile :=
  { path := units "a", sizeBytes := 3, crc32 := 7, protection := 0, comment := [], dest := none,
    onClash := none }

def firstId : Uuid := ⟨units "00000000-0000-4000-8000-000000000000", by decide⟩

/-- A file queued and its first chunk taken. -/
theorem chunk_same_text :
    let db₀ : Db := ⟨[someBoard], [], [], []⟩
    let db := db₀.queueTransferFromBlob "o" "b" firstId someFile true 5 5
    (db.recordChunk "b" firstId.text 0 5).sendQueueText "b" 5 = db.sendQueueText "b" 5 := by
  intro db₀ db
  have hbefore : QueueRun db₀ 5 db 5 :=
    (QueueRun.start db₀ 5).step (.queueOne "o" "b" firstId someFile true 5)
  have h : QueueRun db 5 (db.recordChunk "b" firstId.text 0 5) 5 :=
    (QueueRun.start db 5).step (.chunk "b" firstId.text 0)
  exact (same_version_same_text (v := 1) rfl hbefore h (by decide) (by decide)).1

end WebAdf.Server
