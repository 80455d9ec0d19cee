import WebAdf.Firmware.PnetNet
import WebAdf.Lib.Run

/-!
# The link delivers in order and once

The board's batches are one direction of stop and wait, the Amiga's the other. While
a batch is out, whatever is on its way under its number is a front of the ring, no
shorter than the batch is now; an echo that names it comes after the Amiga took it,
for the one before has another counter.
-/

namespace WebAdf.Firmware

open Lib
open Relation (ReflTransGen)

namespace PnetNet

variable {n : PnetNet}

-- ---------------------------------------------------------------------------
-- Pieces of the queue
-- ---------------------------------------------------------------------------

theorem Delivered.more {whole : Prop} {q : List Bytes} (h : Delivered whole q got g) (more : List Bytes)
    (hg : g ≤ q.length) : Delivered whole (q ++ more) got g := by
  induction h with
  | none => exact .none
  | @batch got g w g' h hw hlt hle hwhole ih =>
    refine .batch (ih (by omega)) ?_ hlt hle hwhole
    have hfit : w.length ≤ (q.drop g).length := by
      rw [hw, List.length_take]
      exact Nat.min_le_right _ _
    rw [List.drop_append_of_le_length (by omega), List.take_append_of_le_length hfit]
    exact hw

theorem Delivered.weaken {whole whole' : Prop} (h : Delivered whole q got g) (hw : whole' → whole) :
    Delivered whole' q got g := by
  induction h with
  | none => exact .none
  | batch _ hpiece hlt hle hwhole ih => exact .batch ih hpiece hlt hle fun h => hwhole (hw h)

/-- In whole pieces, what was delivered is the front of the q. -/
theorem Delivered.flatten {whole : Prop} (h : Delivered whole q got g) (hw : whole) :
    got.flatten = q.take g := by
  induction h with
  | none => rfl
  | @batch got g w g' h hpiece hlt hle hwhole ih =>
    rw [List.flatten_append, ih, List.flatten_singleton, hwhole hw, List.take_add]
    congr 1

/-- Nothing before `g` is missing. -/
theorem Delivered.sublist {whole : Prop} {q : List Bytes} (h : Delivered whole q got g) :
    (q.take g).Sublist got.flatten := by
  induction h with
  | none => exact List.Sublist.refl _
  | @batch got g w g' h hpiece hlt hle hwhole ih =>
    obtain ⟨d, rfl⟩ : ∃ d, g' = g + d := ⟨g' - g, by omega⟩
    rw [List.flatten_append, List.flatten_singleton, List.take_add]
    refine List.Sublist.append ih ?_
    rw [hpiece]
    exact List.take_sublist_take_left (by omega)

-- ---------------------------------------------------------------------------
-- The invariants
-- ---------------------------------------------------------------------------

/-- A front of the ring that holds the batch out. -/
def Piece (n : PnetNet) (w : List Bytes) : Prop :=
  ∃ k, w = n.rx.frames.take k ∧ n.link.nframes.toNat ≤ k ∧ k ≤ n.rx.frames.length ∧
    (n.shrunk = false → k = n.link.nframes.toNat)

/-- The Amiga took the batch out. -/
def Took (n : PnetNet) : Prop := n.link.backup = true ∧ n.amiga.received.length = n.started

/-- What the Amiga received ends where the ring starts, the batch out apart. -/
structure Placed (n : PnetNet) : Prop where
  took : n.Took → ∃ got w, n.amiga.received = got ++ [w] ∧
    Delivered (n.shrunk = false) n.queued got n.gone ∧ n.Piece w
  not : ¬ n.Took → Delivered (n.shrunk = false) n.queued n.amiga.received n.gone

/-- The board's batches. -/
structure Down (n : PnetNet) : Prop where
  flow : Flow n.started n.link.backup n.amiga.received.length (n.toAmiga.map (·.no)) (n.toBoard.map (·.ackNo))
  pico : n.link.pico = counter 0x7f n.started
  last : n.amiga.last = counter 0x7f n.amiga.received.length
  ring : n.rx.Ok
  held : n.rx.frames <:+ n.queued
  out : n.link.backup = true → 0 < n.link.nframes.toNat ∧ n.link.nframes.toNat ≤ n.rx.frames.length
  named : ∀ c ∈ n.toAmiga, c.pico = counter 0x7f c.no
  echoed : ∀ c ∈ n.toBoard, ∀ h, pnetParseHdrFromAmiga c.bytes = .ok h → h.picoCtr = counter 0x7f c.ackNo
  pieces : ∀ c ∈ n.toAmiga, n.amiga.received.length < c.no → n.Piece c.frames
  placed : n.Placed

/-- The Amiga's batches. -/
structure Up (n : PnetNet) : Prop where
  flow : Flow n.sent.length n.amiga.out n.takings.length (n.toBoard.map (·.no)) (n.toAmiga.map (·.ackNo))
  ctr : n.amiga.ctr = counter 0xff n.sent.length
  last : n.link.lastAmiga = counter 0xff n.takings.length
  ring : n.tx.Ok
  echoed : ∀ c ∈ n.toAmiga, c.amiga = counter 0xff c.ackNo
  named : ∀ c ∈ n.toBoard, ∀ h, pnetParseHdrFromAmiga c.bytes = .ok h → h.amigaCtr = counter 0xff c.no
  batches : ∀ c ∈ n.toBoard, ∀ h, pnetParseHdrFromAmiga c.bytes = .ok h → n.takings.length < c.no →
    (⟨h.compressed, slice c.bytes pnetHdrBytes h.compressedSize.toNat⟩ : AmigaBatch) = n.amiga.batch
  sentLast : n.amiga.out = true → n.sent.getLast? = some n.amiga.batch
  once : n.takings.map Taking.batch = n.sent.take n.takings.length
  passed : n.released ++ n.tx.frames = n.takings.flatMap fun t => t.frames.take t.passed
  within : ∀ t ∈ n.takings, t.passed ≤ t.frames.length ∧ t.passed ≤ PnetLink.batchCount t.batch.payload
  counted : n.link.queued = UInt32.ofNat (n.takings.map Taking.passed).sum ∧
    n.link.over_ + n.link.malformed = UInt32.ofNat (n.takings.map Taking.missed).sum

theorem Down.boot (rxMem txMem : Nat → Bytes) (rxSlots txSlots : UInt32) :
    (boot rxMem txMem rxSlots txSlots).Down where
  flow := .boot
  pico := rfl
  last := rfl
  ring := PnetRing.init_ok _ _
  held := by
    simp [PnetNet.boot, PnetRing.init_frames]
  out := nofun
  named := nofun
  echoed := nofun
  pieces := nofun
  placed := ⟨nofun, fun _ => by
    rw [PnetNet.boot, gone, PnetRing.init_frames]
    exact .none⟩

theorem Up.boot (rxMem txMem : Nat → Bytes) (rxSlots txSlots : UInt32) :
    (boot rxMem txMem rxSlots txSlots).Up where
  flow := .boot
  ctr := rfl
  last := rfl
  ring := PnetRing.init_ok _ _
  echoed := nofun
  named := nofun
  batches := nofun
  sentLast := nofun
  once := rfl
  passed := PnetRing.init_frames _ _
  within := nofun
  counted := ⟨rfl, rfl⟩

/-- What has left the ring is the front of the queue. -/
theorem Down.drop_gone (h : n.Down) : n.rx.frames = n.queued.drop n.gone := List.suffix_iff_eq_drop.1 h.held

theorem Down.gone_le (h : n.Down) : n.gone ≤ n.queued.length := Nat.sub_le _ _

theorem Down.gone_add (h : n.Down) : n.gone + n.rx.frames.length = n.queued.length :=
  Nat.sub_add_cancel h.held.length_le

-- ---------------------------------------------------------------------------
-- The board's own steps
-- ---------------------------------------------------------------------------

theorem Down.queue (h : n.Down) (f : Bytes) : (n.queue f).Down := by
  obtain ⟨hok, hframes⟩ := PnetRing.push_frames h.ring f
  have hgone : (n.queue f).gone = n.gone := by
    show (n.queued ++ _).length - (n.rx.push f).2.frames.length = _
    rw [hframes, List.length_append, List.length_append, Nat.add_sub_add_right]
    rfl
  have hpiece : ∀ w, n.Piece w → (n.queue f).Piece w := by
    rintro w ⟨k, rfl, hk, hle, hwhole⟩
    refine ⟨k, ?_, hk, ?_, hwhole⟩
    · show _ = (n.rx.push f).2.frames.take k
      rw [hframes, List.take_append_of_le_length hle]
    · show k ≤ (n.rx.push f).2.frames.length
      rw [hframes, List.length_append]
      omega
  refine ⟨h.flow, h.pico, h.last, hok, ?_, fun hb => ?_, h.named, h.echoed, fun c hc hno => hpiece _ (h.pieces c hc hno),
    ⟨fun ht => ?_, fun ht => ?_⟩⟩
  · obtain ⟨pre, hpre⟩ := h.held
    refine ⟨pre, ?_⟩
    show pre ++ (n.rx.push f).2.frames = n.queued ++ _
    rw [hframes, ← List.append_assoc, hpre]
  · refine ⟨(h.out hb).1, Nat.le_trans (h.out hb).2 ?_⟩
    show _ ≤ (n.rx.push f).2.frames.length
    rw [hframes, List.length_append]
    exact Nat.le_add_right _ _
  · obtain ⟨got, w, hgot, hdel, hw⟩ := h.placed.took ht
    exact ⟨got, w, hgot, hgone ▸ hdel.more _ h.gone_le, hpiece w hw⟩
  · exact hgone ▸ (h.placed.not ht).more _ h.gone_le

theorem Down.start (h : n.Down) (hk : k ≤ n.rx.frames.length) : (n.start k).Down := by
  by_cases hno : k = 0 ∨ n.link.backup = true
  · have hsame : n.start k = n := by
      rw [PnetNet.start, PnetLink.start, if_pos hno, if_pos hno]
    rw [hsame]
    exact h
  · have hnet : n.start k = { n with
        link := { n.link with pico := n.link.pico + 1, backup := true, nframes := UInt8.ofNat (min k pnetMaxFrames) }
        started := n.started + 1 } := by
      rw [PnetNet.start, PnetLink.start, if_neg hno, if_neg hno]
    rw [not_or, Bool.not_eq_true] at hno
    obtain ⟨hk0, hout⟩ := hno
    have hflow := h.flow
    rw [hout] at hflow
    have htook : n.started ≤ n.amiga.received.length := by simpa using hflow.behind
    rw [hnet]
    refine ⟨hflow.start, ?_, h.last, h.ring, h.held, fun _ => ?_, h.named, h.echoed, fun c hc hno => ?_,
      ⟨fun ht => ?_, fun _ => h.placed.not ?_⟩⟩
    · show n.link.pico + 1 = counter 0x7f (n.started + 1)
      rw [counter_succ, h.pico]
    · show 0 < (UInt8.ofNat (min k pnetMaxFrames)).toNat ∧ _ ≤ n.rx.frames.length
      rw [pnetMaxFrames, UInt8.toNat_ofNat', Nat.mod_eq_of_lt (by omega)]
      omega
    · have hle := (h.flow.dataRange c.no (List.mem_map_of_mem hc)).2
      have : n.amiga.received.length < c.no := hno
      omega
    · have : n.amiga.received.length = n.started + 1 := ht.2
      have := hflow.ahead
      omega
    · rintro ⟨hb, -⟩
      rw [hout] at hb
      cases hb

theorem Down.shrink (h : n.Down) (k : Nat) : (n.shrink k).Down := by
  obtain ⟨l, hl, hpico, hbackup, hpos, hle⟩ : ∃ l, n.link.shrink k = l ∧ l.pico = n.link.pico ∧ l.backup = n.link.backup ∧
      (0 < n.link.nframes.toNat → 0 < l.nframes.toNat) ∧ l.nframes.toNat ≤ n.link.nframes.toNat := by
    refine ⟨_, rfl, ?_⟩
    unfold PnetLink.shrink
    split
    · next hc =>
      have hnat : (UInt8.ofNat k).toNat = k := by
        have := n.link.nframes.toNat_lt
        rw [UInt8.toNat_ofNat', Nat.mod_eq_of_lt (by omega)]
      refine ⟨rfl, rfl, fun _ => ?_, ?_⟩
      · show 0 < (UInt8.ofNat k).toNat
        omega
      · show (UInt8.ofNat k).toNat ≤ _
        omega
    · exact ⟨rfl, rfl, id, Nat.le_refl _⟩
  have hnet : n.shrink k = { n with link := l, shrunk := true } := by rw [PnetNet.shrink, hl]
  rw [hnet]
  have hpiece : ∀ w, n.Piece w → ({ n with link := l, shrunk := true } : PnetNet).Piece w := by
    rintro w ⟨k, hw, hk, hlen, -⟩
    exact ⟨k, hw, Nat.le_trans hle hk, hlen, nofun⟩
  refine ⟨by simpa [hbackup] using h.flow, hpico.trans h.pico, h.last, h.ring, h.held, fun hb => ?_, h.named, h.echoed,
    fun c hc hno => hpiece _ (h.pieces c hc hno), ⟨fun ht => ?_, fun ht => ?_⟩⟩
  · obtain ⟨hn, hlen⟩ := h.out (hbackup ▸ hb)
    exact ⟨hpos hn, Nat.le_trans hle hlen⟩
  · obtain ⟨got, w, hgot, hdel, hw⟩ := h.placed.took ⟨hbackup ▸ ht.1, ht.2⟩
    exact ⟨got, w, hgot, hdel.weaken nofun, hpiece w hw⟩
  · exact (h.placed.not fun hn => ht ⟨hbackup.trans hn.1, hn.2⟩).weaken nofun

theorem Down.boardSend (h : n.Down) : n.boardSend.Down := by
  refine ⟨?_, h.pico, h.last, h.ring, h.held, h.out, fun c hc => ?_, h.echoed, fun c hc hno => ?_,
    ⟨h.placed.took, h.placed.not⟩⟩
  · show Flow _ _ _ ((n.toAmiga ++ _).map _) _
    rw [List.map_append]
    exact h.flow.sendData
  · rcases List.mem_append.1 hc with hc | hc
    · exact h.named c hc
    · rw [List.mem_singleton.1 hc]
      exact h.pico
  · rcases List.mem_append.1 hc with hc | hc
    · exact h.pieces c hc hno
    · rw [List.mem_singleton.1 hc] at hno ⊢
      have hlt : n.amiga.received.length < n.started := hno
      have hbehind := h.flow.behind
      have hout : n.link.backup = true := by
        by_contra hb
        rw [if_neg hb] at hbehind
        omega
      exact ⟨_, rfl, Nat.le_refl _, (h.out hout).2, fun _ => rfl⟩

-- ---------------------------------------------------------------------------
-- A capture
-- ---------------------------------------------------------------------------

/-- A capture whose header checks out: what becomes of the link is the acknowledgement's
doing but for what the taking counts. -/
theorem capture_ok (h : n.Up) (hc : pnetParseHdrFromAmiga c.bytes = .ok hd) (rest : List ToBoard) (win : Option Bytes) :
    ∃ l tx ts, n.capture c rest win = { n with
        link := l, rx := n.rx.drop (n.link.ack hd).1.toUInt32, tx := tx, toBoard := rest, takings := n.takings ++ ts } ∧
      l.pico = n.link.pico ∧ l.backup = (n.link.ack hd).2.backup ∧ l.nframes = (n.link.ack hd).2.nframes ∧
      (hd.amigaCtr = n.link.lastAmiga ∧ l.lastAmiga = n.link.lastAmiga ∧ tx = n.tx ∧ ts = [] ∧
          l.queued = n.link.queued ∧ l.over_ + l.malformed = n.link.over_ + n.link.malformed ∨
        hd.amigaCtr ≠ n.link.lastAmiga ∧ l.lastAmiga = hd.amigaCtr ∧
          ∃ t : Taking, ts = [t] ∧ t.batch = ⟨hd.compressed, slice c.bytes pnetHdrBytes hd.compressedSize.toNat⟩ ∧
            PnetLink.Passed t.frames (PnetLink.batchCount t.batch.payload) t.passed n.link l n.tx tx) := by
  obtain ⟨k, la, hack, hpico, hlast, hqueued, hover, hmalformed⟩ : ∃ k la, n.link.ack hd = (k, la) ∧ la.pico = n.link.pico ∧
      la.lastAmiga = n.link.lastAmiga ∧ la.queued = n.link.queued ∧ la.over_ = n.link.over_ ∧
      la.malformed = n.link.malformed := by
    unfold PnetLink.ack
    split
    · exact ⟨_, _, rfl, rfl, rfl, rfl, rfl, rfl⟩
    · exact ⟨_, _, rfl, rfl, rfl, rfl, rfl, rfl⟩
  by_cases hnew : hd.amigaCtr = n.link.lastAmiga
  · obtain ⟨l, htake, hsame, hq, hd'⟩ := PnetLink.take_dup la hd
      (slice c.bytes pnetHdrBytes hd.compressedSize.toNat) n.tx win (hnew.trans hlast.symm)
    refine ⟨l, n.tx, [], ?_, hsame.2.1.trans hpico, ?_, ?_, .inl ⟨hnew, hsame.1.trans hlast, rfl, rfl, hq.trans hqueued,
      ?_⟩⟩
    · rw [capture, hc]
      dsimp only
      rw [hack]
      dsimp only
      rw [htake, List.append_nil]
      rfl
    · rw [hack]
      exact hsame.2.2.1
    · rw [hack]
      exact hsame.2.2.2
    · rw [hd', hover, hmalformed]
  · obtain ⟨l, tx, p, htake, hla, hlp, hlb, hln, hpassed⟩ := PnetLink.take_new la hd
      (slice c.bytes pnetHdrBytes hd.compressedSize.toNat) h.ring win (hlast ▸ hnew)
    have hp : (tx.count - n.tx.count).toNat = p := by
      have hlen := congrArg List.length hpassed.frames
      rw [List.length_append, List.length_take, Nat.min_eq_left hpassed.readable, PnetRing.length_frames,
        PnetRing.length_frames] at hlen
      rw [UInt32.toNat_sub_of_le _ _ (UInt32.le_iff_toNat_le.2 (by omega))]
      omega
    refine ⟨l, tx, _, ?_, hlp.trans hpico, ?_, ?_, .inr ⟨hnew, hla,
      ⟨⟨hd.compressed, slice c.bytes pnetHdrBytes hd.compressedSize.toNat⟩, win, p⟩, rfl, rfl,
      hpassed.readable, hpassed.within, hpassed.frames, hpassed.ok, ?_, ?_⟩⟩
    · rw [capture, hc]
      dsimp only
      rw [hack]
      dsimp only
      rw [htake]
      dsimp only
      rw [if_pos rfl, hp]
    · rw [hack]
      exact hlb
    · rw [hack]
      exact hln
    · exact hpassed.queued.trans (by rw [hqueued])
    · exact hpassed.dropped.trans (by rw [hover, hmalformed])

theorem capture_error (hc : pnetParseHdrFromAmiga c.bytes = .error e) (rest : List ToBoard) (win : Option Bytes) :
    n.capture c rest win = { n with toBoard := rest } := by
  rw [capture, hc]

/-- The echo of the batch out: the Amiga took it, and its frames leave the ring. -/
theorem Down.acked (h : n.Down) (hc : n.toBoard = c :: rest) (hp : pnetParseHdrFromAmiga c.bytes = .ok hd)
    (hout : n.link.backup = true) (hecho : hd.picoCtr = n.link.pico) :
    c.ackNo = n.started ∧ n.Took := by
  have hflow := h.flow
  rw [hout, hc, List.map_cons] at hflow
  rcases hflow.echoes with ⟨hno, htook⟩ | hno
  · exact ⟨hno, hout, htook⟩
  · -- the batch before has the counter before
    have hctr := h.echoed c (by rw [hc]; exact List.mem_cons_self ..) hd hp
    rw [hecho, h.pico, ← hno] at hctr
    exact absurd hctr (counter_next _ _)

theorem Down.capture (h : n.Down) (hu : n.Up) (hc : n.toBoard = c :: rest) (win : Option Bytes) :
    (n.capture c rest win).Down := by
  have hrest : ∀ c' ∈ rest, c' ∈ n.toBoard := fun c' hc' => hc ▸ List.mem_cons_of_mem _ hc'
  have hflow := h.flow
  rw [hc, List.map_cons] at hflow
  cases hp : pnetParseHdrFromAmiga c.bytes with
  | error e =>
    rw [capture_error hp]
    exact ⟨hflow.dropAck, h.pico, h.last, h.ring, h.held, h.out, h.named, fun c' hc' => h.echoed c' (hrest c' hc'),
      h.pieces, ⟨h.placed.took, h.placed.not⟩⟩
  | ok hd =>
    obtain ⟨l, tx, ts, hcap, hpico, hbackup, hnframes, -⟩ := capture_ok hu hp rest win
    rw [hcap]
    by_cases hno : !n.link.backup ∨ hd.picoCtr ≠ n.link.pico
    · have hack : n.link.ack hd = (0, n.link) := by rw [PnetLink.ack, if_pos hno]
      rw [hack] at hbackup hnframes
      have hrx : (n.rx.drop (n.link.ack hd).1.toUInt32).frames = n.rx.frames := by
        rw [hack, PnetRing.drop_frames]
        rfl
      have hgone : n.queued.length - (n.rx.drop (n.link.ack hd).1.toUInt32).frames.length = n.gone := by
        rw [hrx]
        rfl
      have hpiece : ∀ w, n.Piece w → ({ n with
          link := l, rx := n.rx.drop (n.link.ack hd).1.toUInt32, tx := tx, toBoard := rest,
          takings := n.takings ++ ts } : PnetNet).Piece w := by
        rintro w ⟨k, hw, hk, hle, hwhole⟩
        exact ⟨k, by rw [hw]; exact congrArg _ hrx.symm, by rw [hnframes]; exact hk, by rw [hrx]; exact hle,
          fun hs => by rw [hnframes]; exact hwhole hs⟩
      refine ⟨by rw [hbackup]; exact hflow.dropAck, hpico.trans h.pico, h.last, PnetRing.drop_ok h.ring _,
        by rw [hrx]; exact h.held, fun hb => ?_, h.named, fun c' hc' => h.echoed c' (hrest c' hc'),
        fun c' hc' hlt => hpiece _ (h.pieces c' hc' hlt), ⟨fun ht => ?_, fun ht => ?_⟩⟩
      · rw [hrx, hnframes]
        exact h.out (hbackup ▸ hb)
      · obtain ⟨got, w, hgot, hdel, hw⟩ := h.placed.took ⟨hbackup ▸ ht.1, ht.2⟩
        refine ⟨got, w, hgot, ?_, hpiece w hw⟩
        show Delivered _ n.queued got (n.queued.length - (n.rx.drop (n.link.ack hd).1.toUInt32).frames.length)
        rw [hgone]
        exact hdel
      · show Delivered _ n.queued n.amiga.received
          (n.queued.length - (n.rx.drop (n.link.ack hd).1.toUInt32).frames.length)
        rw [hgone]
        exact h.placed.not fun hn => ht ⟨hbackup.trans hn.1, hn.2⟩
    · have hack : n.link.ack hd = (n.link.nframes, { n.link with
          backup := false, nframes := 0, acked := n.link.acked + 1 }) := by rw [PnetLink.ack, if_neg hno]
      rw [not_or, Bool.not_eq_true', Bool.not_eq_false, not_not] at hno
      obtain ⟨hout, hecho⟩ := hno
      obtain ⟨hackNo, htook⟩ := h.acked hc hp hout hecho
      obtain ⟨got, w, hgot, hdel, k, hw, hk, hle, hwhole⟩ := h.placed.took htook
      obtain ⟨hpos, hlen⟩ := h.out hout
      rw [hack] at hbackup hnframes
      have hrx : (n.rx.drop (n.link.ack hd).1.toUInt32).frames = n.rx.frames.drop n.link.nframes.toNat := by
        rw [hack, PnetRing.drop_frames]
        rfl
      have hgone : n.queued.length - (n.rx.drop (n.link.ack hd).1.toUInt32).frames.length =
          n.gone + n.link.nframes.toNat := by
        have := h.gone_add
        rw [hrx, List.length_drop]
        omega
      have hwlen : w.length = k := by rw [hw, List.length_take, Nat.min_eq_left hle]
      rw [hout, hackNo] at hflow
      refine ⟨by rw [hbackup]; exact hflow.acked, hpico.trans h.pico, h.last, PnetRing.drop_ok h.ring _, ?_,
        fun hb => ?_, h.named, fun c' hc' => h.echoed c' (hrest c' hc'), fun c' hc' hlt => ?_,
        ⟨fun ht => ?_, fun _ => ?_⟩⟩
      · show (n.rx.drop _).frames <:+ _
        rw [hrx]
        exact (List.drop_suffix _ _).trans h.held
      · have hb : l.backup = true := hb
        rw [hbackup] at hb
        cases hb
      · have hmax := (h.flow.dataRange c'.no (List.mem_map_of_mem hc')).2
        have hlast : n.amiga.received.length = n.started := htook.2
        have : n.amiga.received.length < c'.no := hlt
        omega
      · have hb : l.backup = true := ht.1
        rw [hbackup] at hb
        cases hb
      · show Delivered _ n.queued n.amiga.received
          (n.queued.length - (n.rx.drop (n.link.ack hd).1.toUInt32).frames.length)
        rw [hgone, hgot]
        refine hdel.batch ?_ (by omega) (by omega) fun hs => ?_
        · rw [hwlen, ← h.drop_gone]
          exact hw
        · rw [hwlen, hwhole hs]

theorem Up.capture (h : n.Up) (hc : n.toBoard = c :: rest) (win : Option Bytes) : (n.capture c rest win).Up := by
  have hrest : ∀ c' ∈ rest, c' ∈ n.toBoard := fun c' hc' => hc ▸ List.mem_cons_of_mem _ hc'
  have hmem : c ∈ n.toBoard := hc ▸ List.mem_cons_self ..
  have hflow := h.flow
  rw [hc, List.map_cons] at hflow
  cases hp : pnetParseHdrFromAmiga c.bytes with
  | error e =>
    rw [capture_error hp]
    exact ⟨hflow.dropData, h.ctr, h.last, h.ring, h.echoed, fun c' hc' => h.named c' (hrest c' hc'),
      fun c' hc' => h.batches c' (hrest c' hc'), h.sentLast, h.once, h.passed, h.within, h.counted⟩
  | ok hd =>
    obtain ⟨l, tx, ts, hcap, -, -, -, htake⟩ := capture_ok h hp rest win
    rw [hcap]
    have hctr := h.named c hmem hd hp
    rcases htake with ⟨-, hlast, rfl, rfl, hq, ho⟩ | ⟨hnew, hlast, t, rfl, ht, hpassed⟩
    · rw [List.append_nil]
      exact ⟨hflow.dropData, h.ctr, hlast.trans h.last, h.ring, h.echoed, fun c' hc' => h.named c' (hrest c' hc'),
        fun c' hc' => h.batches c' (hrest c' hc'), h.sentLast, h.once, h.passed, h.within,
        hq.trans h.counted.1, ho.trans h.counted.2⟩
    · -- another counter than the last taken: the one after it
      obtain ⟨hno, hsent, hout⟩ : c.no = n.takings.length + 1 ∧ c.no = n.sent.length ∧ n.amiga.out = true := by
        rcases hflow.arrives with hsame | hnext
        · refine absurd ?_ hnew
          rw [hctr, h.last, hsame]
        · exact hnext
      have hbatch := h.batches c hmem hd hp (by omega)
      have hlen : (n.takings ++ [t]).length = c.no := by rw [List.length_append, List.length_singleton, hno]
      have hpast : ∀ {c'}, (n.takings ++ [t]).length < c' → n.takings.length < c' := fun hlt =>
        Nat.lt_of_le_of_lt (by rw [List.length_append]; exact Nat.le_add_right _ _) hlt
      refine ⟨by rw [hlen]; exact hflow.take, h.ctr, by rw [hlast, hctr, hlen], hpassed.ok, h.echoed,
        fun c' hc' => h.named c' (hrest c' hc'), fun c' hc' h' hp' hlt => h.batches c' (hrest c' hc') h' hp' (hpast hlt),
        h.sentLast, ?_, ?_, fun t' ht' => ?_, ?_, ?_⟩
      · show (n.takings ++ [t]).map _ = n.sent.take (n.takings ++ [t]).length
        have hlast' := h.sentLast hout
        rw [List.getLast?_eq_getElem?] at hlast'
        rw [hlen, hno, List.take_add_one, List.map_append, h.once, List.map_singleton, ht, hbatch]
        rw [show n.takings.length = n.sent.length - 1 by omega, hlast']
        rfl
      · show n.released ++ tx.frames = (n.takings ++ [t]).flatMap _
        rw [hpassed.frames, ← List.append_assoc, h.passed, List.flatMap_append, List.flatMap_singleton]
      · rcases List.mem_append.1 ht' with ht' | ht'
        · exact h.within t' ht'
        · rw [List.mem_singleton.1 ht']
          exact ⟨hpassed.readable, hpassed.within⟩
      · show l.queued = UInt32.ofNat ((n.takings ++ [t]).map _).sum
        rw [hpassed.queued, h.counted.1, List.map_append, List.sum_append, List.map_singleton, List.sum_singleton,
          UInt32.ofNat_add]
      · show l.over_ + l.malformed = UInt32.ofNat ((n.takings ++ [t]).map _).sum
        rw [hpassed.dropped, h.counted.2, List.map_append, List.sum_append, List.map_singleton, List.sum_singleton,
          UInt32.ofNat_add]
        rfl

/-- The board's counters and what it counts are all that the Amiga's batches hang on. -/
theorem Up.link (h : n.Up) (l : PnetLink) (started : Nat) (shrunk : Bool) (hlast : l.lastAmiga = n.link.lastAmiga)
    (hq : l.queued = n.link.queued) (ho : l.over_ + l.malformed = n.link.over_ + n.link.malformed) :
    ({ n with link := l, started := started, shrunk := shrunk } : PnetNet).Up :=
  ⟨h.flow, h.ctr, hlast.trans h.last, h.ring, h.echoed, h.named, h.batches, h.sentLast, h.once, h.passed, h.within,
    hq.trans h.counted.1, ho.trans h.counted.2⟩

theorem Up.queue (h : n.Up) (f : Bytes) : (n.queue f).Up :=
  ⟨h.flow, h.ctr, h.last, h.ring, h.echoed, h.named, h.batches, h.sentLast, h.once, h.passed, h.within, h.counted⟩

theorem Up.start (h : n.Up) (k : Nat) : (n.start k).Up := by
  obtain ⟨hlast, hq, ho⟩ : (n.link.start k).lastAmiga = n.link.lastAmiga ∧ (n.link.start k).queued = n.link.queued ∧
      (n.link.start k).over_ + (n.link.start k).malformed = n.link.over_ + n.link.malformed := by
    unfold PnetLink.start
    split
    · exact ⟨rfl, rfl, rfl⟩
    · exact ⟨rfl, rfl, rfl⟩
  exact h.link _ _ _ hlast hq ho

theorem Up.shrink (h : n.Up) (k : Nat) : (n.shrink k).Up := by
  obtain ⟨hlast, hq, ho⟩ : (n.link.shrink k).lastAmiga = n.link.lastAmiga ∧ (n.link.shrink k).queued = n.link.queued ∧
      (n.link.shrink k).over_ + (n.link.shrink k).malformed = n.link.over_ + n.link.malformed := by
    unfold PnetLink.shrink
    split
    · exact ⟨rfl, rfl, rfl⟩
    · exact ⟨rfl, rfl, rfl⟩
  exact h.link _ _ _ hlast hq ho

theorem Up.boardSend (h : n.Up) : n.boardSend.Up := by
  refine ⟨?_, h.ctr, h.last, h.ring, fun c hc => ?_, h.named, h.batches, h.sentLast, h.once, h.passed, h.within, h.counted⟩
  · show Flow _ _ _ _ ((n.toAmiga ++ _).map _)
    rw [List.map_append]
    exact h.flow.sendAck
  · rcases List.mem_append.1 hc with hc | hc
    · exact h.echoed c hc
    · rw [List.mem_singleton.1 hc]
      exact h.last

theorem Up.release (h : n.Up) (k : UInt32) : (n.release k).Up := by
  refine ⟨h.flow, h.ctr, h.last, PnetRing.drop_ok h.ring k, h.echoed, h.named, h.batches, h.sentLast, h.once, ?_, h.within,
    h.counted⟩
  show n.released ++ n.tx.frames.take k.toNat ++ (n.tx.drop k).frames = _
  rw [PnetRing.drop_frames, List.append_assoc, List.take_append_drop]
  exact h.passed

theorem Down.release (h : n.Down) (k : UInt32) : (n.release k).Down :=
  ⟨h.flow, h.pico, h.last, h.ring, h.held, h.out, h.named, h.echoed, h.pieces, ⟨h.placed.took, h.placed.not⟩⟩

-- ---------------------------------------------------------------------------
-- The Amiga's steps
-- ---------------------------------------------------------------------------

theorem Down.amigaStart (h : n.Down) (b : AmigaBatch) : (n.amigaStart b).Down :=
  ⟨h.flow, h.pico, h.last, h.ring, h.held, h.out, h.named, h.echoed, h.pieces, ⟨h.placed.took, h.placed.not⟩⟩

theorem Up.amigaStart (h : n.Up) (b : AmigaBatch) (hout : n.amiga.out = false) : (n.amigaStart b).Up := by
  have hflow := h.flow
  rw [hout] at hflow
  have hall : n.sent.length ≤ n.takings.length := by simpa using hflow.behind
  have hlen : (n.sent ++ [b]).length = n.sent.length + 1 := by rw [List.length_append, List.length_singleton]
  refine ⟨by rw [PnetNet.amigaStart, hlen]; exact hflow.start, ?_, h.last, h.ring, h.echoed, h.named,
    fun c hc hd _ hlt => ?_, fun _ => ?_, ?_, h.passed, h.within, h.counted⟩
  · show n.amiga.ctr + 1 = counter 0xff (n.sent ++ [b]).length
    rw [hlen, counter_succ, h.ctr]
  · have hle := (h.flow.dataRange c.no (List.mem_map_of_mem hc)).2
    have : n.takings.length < c.no := hlt
    omega
  · show (n.sent ++ [b]).getLast? = some b
    rw [List.getLast?_append, List.getLast?_singleton]
    rfl
  · show n.takings.map _ = (n.sent ++ [b]).take n.takings.length
    rw [List.take_append_of_le_length hflow.ahead]
    exact h.once

/-- What the checks let through of a batch the Amiga sent is that batch. -/
theorem amiga_bytes (a : Amiga) (b : AmigaBatch) (dataSize : UInt16) (tail : Bytes) (hlen : b.payload.length < 2 ^ 16)
    (hp : pnetParseHdrFromAmiga (a.bytes b dataSize tail) = .ok hd) :
    hd.amigaCtr = a.ctr ∧ hd.picoCtr = a.last ∧
      (⟨hd.compressed, slice (a.bytes b dataSize tail) pnetHdrBytes hd.compressedSize.toNat⟩ : AmigaBatch) = b := by
  have hunpack : hdrUnpack (a.bytes b dataSize tail) = (a.header b dataSize, true) :=
    (show hdrUnpack (a.bytes b dataSize tail) = hdrUnpack (hdrPack (a.header b dataSize)) from rfl).trans
      (hdrUnpack_hdrPack _)
  have hhd : hd = a.header b dataSize := by rw [pnetParseHdrFromAmiga_hdr hp, hunpack]
  have hsize : (a.header b dataSize).compressedSize.toNat = b.payload.length := by
    show (UInt16.ofNat b.payload.length).toNat = _
    rw [UInt16.toNat_ofNat', Nat.mod_eq_of_lt hlen]
  subst hhd
  refine ⟨rfl, rfl, ?_⟩
  rw [hsize, Amiga.bytes, slice_append_at (length_hdrPack _) rfl]
  rfl

theorem Down.amigaSend (h : n.Down) (b : AmigaBatch) (dataSize : UInt16) (tail : Bytes)
    (hlen : b.payload.length < 2 ^ 16) : (n.amigaSend b dataSize tail).Down := by
  refine ⟨?_, h.pico, h.last, h.ring, h.held, h.out, h.named, fun c hc hd hp => ?_, h.pieces,
    ⟨h.placed.took, h.placed.not⟩⟩
  · show Flow _ _ _ _ ((n.toBoard ++ _).map _)
    rw [List.map_append]
    exact h.flow.sendAck
  · rcases List.mem_append.1 hc with hc | hc
    · exact h.echoed c hc hd hp
    · rw [List.mem_singleton.1 hc] at hp ⊢
      exact (amiga_bytes _ _ _ _ hlen hp).2.1.trans h.last

theorem Up.amigaSend (h : n.Up) (b : AmigaBatch) (dataSize : UInt16) (tail : Bytes)
    (hb : n.amiga.out = true → b = n.amiga.batch) (hlen : b.payload.length < 2 ^ 16) :
    (n.amigaSend b dataSize tail).Up := by
  refine ⟨?_, h.ctr, h.last, h.ring, h.echoed, fun c hc hd hp => ?_, fun c hc hd hp hlt => ?_, h.sentLast, h.once, h.passed,
    h.within, h.counted⟩
  · show Flow _ _ _ ((n.toBoard ++ _).map _) _
    rw [List.map_append]
    exact h.flow.sendData
  · rcases List.mem_append.1 hc with hc | hc
    · exact h.named c hc hd hp
    · rw [List.mem_singleton.1 hc] at hp ⊢
      exact (amiga_bytes _ _ _ _ hlen hp).1.trans h.ctr
  · rcases List.mem_append.1 hc with hc | hc
    · exact h.batches c hc hd hp hlt
    · rw [List.mem_singleton.1 hc] at hp hlt ⊢
      -- a batch not yet taken is the one out
      have hnew : n.takings.length < n.sent.length := hlt
      have hbehind := h.flow.behind
      have hout : n.amiga.out = true := by
        by_contra hno
        rw [if_neg hno] at hbehind
        omega
      exact (amiga_bytes _ _ _ _ hlen hp).2.2.trans (hb hout)

theorem Down.amigaTake (h : n.Down) (hc : n.toAmiga = c :: rest) : (n.amigaTake c rest).Down := by
  have hrest : ∀ c' ∈ rest, c' ∈ n.toAmiga := fun c' hc' => hc ▸ List.mem_cons_of_mem _ hc'
  have hmem : c ∈ n.toAmiga := hc ▸ List.mem_cons_self ..
  have hflow := h.flow
  rw [hc, List.map_cons] at hflow
  have hname := h.named c hmem
  by_cases hsame : c.pico = n.amiga.last
  · have hreceived : (n.amiga.take c).received = n.amiga.received := if_pos hsame
    have hpieces : ∀ c' ∈ rest, n.amiga.received.length < c'.no → n.Piece c'.frames := fun c' hc' =>
      h.pieces c' (hrest c' hc')
    refine ⟨by rw [PnetNet.amigaTake, hreceived]; exact hflow.dropData, h.pico, ?_, h.ring, h.held, h.out,
      fun c' hc' => h.named c' (hrest c' hc'), h.echoed, fun c' hc' hlt => ?_, ⟨fun ht => ?_, fun ht => ?_⟩⟩
    · show c.pico = counter 0x7f (n.amiga.take c).received.length
      rw [hreceived, hsame, h.last]
    · refine hpieces c' hc' ?_
      rw [← hreceived]
      exact hlt
    · show ∃ got w, (n.amiga.take c).received = got ++ [w] ∧ _
      rw [hreceived]
      refine h.placed.took ⟨ht.1, ?_⟩
      rw [← hreceived]
      exact ht.2
    · show Delivered _ _ (n.amiga.take c).received _
      rw [hreceived]
      refine h.placed.not fun hn => ht ⟨hn.1, ?_⟩
      show (n.amiga.take c).received.length = _
      rw [hreceived]
      exact hn.2
  · -- another counter than the last: the batch out
    have hreceived : (n.amiga.take c).received = n.amiga.received ++ [c.frames] := if_neg hsame
    obtain ⟨hno, hstarted, hout⟩ : c.no = n.amiga.received.length + 1 ∧ c.no = n.started ∧ n.link.backup = true := by
      rcases hflow.arrives with hold | hnext
      · refine absurd ?_ hsame
        rw [hname, h.last, hold]
      · exact hnext
    have hlen : (n.amiga.take c).received.length = c.no := by
      rw [hreceived, List.length_append, List.length_singleton, hno]
    have hclosed := h.placed.not fun hn => by
      have := hn.2
      omega
    refine ⟨by rw [PnetNet.amigaTake, hlen]; exact hflow.take, h.pico, ?_, h.ring, h.held, h.out,
      fun c' hc' => h.named c' (hrest c' hc'), h.echoed, fun c' hc' hlt => ?_, ⟨fun _ => ?_, fun ht => ?_⟩⟩
    · show c.pico = counter 0x7f (n.amiga.take c).received.length
      rw [hlen, hname]
    · have hlt : (n.amiga.take c).received.length < c'.no := hlt
      exact h.pieces c' (hrest c' hc') (by omega)
    · exact ⟨_, _, hreceived, hclosed, h.pieces c hmem (by omega)⟩
    · refine absurd ⟨hout, ?_⟩ ht
      show (n.amiga.take c).received.length = n.started
      rw [hlen, hstarted]

theorem Up.amigaTake (h : n.Up) (hc : n.toAmiga = c :: rest) : (n.amigaTake c rest).Up := by
  have hrest : ∀ c' ∈ rest, c' ∈ n.toAmiga := fun c' hc' => hc ▸ List.mem_cons_of_mem _ hc'
  have hflow := h.flow
  rw [hc, List.map_cons] at hflow
  have hecho := h.echoed c (hc ▸ List.mem_cons_self ..)
  have hkeep : n.amiga.out = (n.amiga.take c).out →
      Flow n.sent.length (n.amiga.take c).out n.takings.length (n.toBoard.map (·.no)) (rest.map (·.ackNo)) := fun ho =>
    ho ▸ hflow.dropAck
  refine ⟨?_, h.ctr, h.last, h.ring, fun c' hc' => h.echoed c' (hrest c' hc'), h.named, h.batches, fun ho => ?_, h.once,
    h.passed, h.within, h.counted⟩
  · show Flow n.sent.length (n.amiga.take c).out n.takings.length (n.toBoard.map (·.no)) (rest.map (·.ackNo))
    by_cases hout : n.amiga.out = true
    · by_cases hmine : c.amiga = n.amiga.ctr
      · have hfalse : (n.amiga.take c).out = false := by simp [Amiga.take, hmine]
        have hno : c.ackNo = n.sent.length := by
          rw [hout] at hflow
          rcases hflow.echoes with ⟨hno, -⟩ | hno
          · exact hno
          · rw [hecho, h.ctr, ← hno] at hmine
            exact absurd hmine.symm (counter_next _ _)
        rw [hout, hno] at hflow
        rw [hfalse]
        exact hflow.acked
      · exact hkeep (by simp [Amiga.take, hmine])
    · exact hkeep (by simp [Amiga.take, Bool.not_eq_true _ ▸ hout])
  · refine h.sentLast ?_
    have ho : (n.amiga.out && c.amiga != n.amiga.ctr) = true := ho
    exact (Bool.and_eq_true_iff.1 ho).1

-- ---------------------------------------------------------------------------
-- What the ways do
-- ---------------------------------------------------------------------------

theorem Down.faultyAmiga (h : n.Down) (hf : Faulty n.toAmiga ways) : ({ n with toAmiga := ways } : PnetNet).Down :=
  ⟨h.flow.faultyData (hf.map _), h.pico, h.last, h.ring, h.held, h.out, fun c hc => h.named c (hf.mem hc), h.echoed,
    fun c hc => h.pieces c (hf.mem hc), ⟨h.placed.took, h.placed.not⟩⟩

theorem Up.faultyAmiga (h : n.Up) (hf : Faulty n.toAmiga ways) : ({ n with toAmiga := ways } : PnetNet).Up :=
  ⟨h.flow.faultyAcks (hf.map _), h.ctr, h.last, h.ring, fun c hc => h.echoed c (hf.mem hc), h.named, h.batches, h.sentLast,
    h.once, h.passed, h.within, h.counted⟩

theorem Down.faultyBoard (h : n.Down) (hf : Faulty n.toBoard ways) : ({ n with toBoard := ways } : PnetNet).Down :=
  ⟨h.flow.faultyAcks (hf.map _), h.pico, h.last, h.ring, h.held, h.out, h.named, fun c hc => h.echoed c (hf.mem hc),
    h.pieces, ⟨h.placed.took, h.placed.not⟩⟩

theorem Up.faultyBoard (h : n.Up) (hf : Faulty n.toBoard ways) : ({ n with toBoard := ways } : PnetNet).Up :=
  ⟨h.flow.faultyData (hf.map _), h.ctr, h.last, h.ring, h.echoed, fun c hc => h.named c (hf.mem hc),
    fun c hc => h.batches c (hf.mem hc), h.sentLast, h.once, h.passed, h.within, h.counted⟩

/-- Damage that is noticed leaves only captures that say what was sent. -/
theorem damaged_mem {early late : List ToBoard} (hd : Noticed c.bytes b)
    (hc' : c' ∈ early ++ { c with bytes := b } :: late) (hp : pnetParseHdrFromAmiga c'.bytes = .ok h) :
    c' ∈ early ++ c :: late := by
  rcases List.mem_append.1 hc' with hc' | hc'
  · exact List.mem_append_left _ hc'
  · rcases List.mem_cons.1 hc' with rfl | hc'
    · obtain ⟨e, he⟩ := hd
      rw [he] at hp
      cases hp
    · exact List.mem_append_right _ (List.mem_cons_of_mem _ hc')

theorem Down.damage (h : n.Down) (hc : n.toBoard = early ++ c :: late) (hd : Noticed c.bytes b) :
    ({ n with toBoard := early ++ { c with bytes := b } :: late } : PnetNet).Down := by
  refine ⟨?_, h.pico, h.last, h.ring, h.held, h.out, h.named, fun c' hc' h' hp => ?_, h.pieces,
    ⟨h.placed.took, h.placed.not⟩⟩
  · have hflow := h.flow
    rw [hc, List.map_append, List.map_cons] at hflow
    show Flow _ _ _ _ ((early ++ _ :: late).map _)
    rw [List.map_append, List.map_cons]
    exact hflow
  · exact h.echoed c' (hc ▸ damaged_mem hd hc' hp) h' hp

theorem Up.damage (h : n.Up) (hc : n.toBoard = early ++ c :: late) (hd : Noticed c.bytes b) :
    ({ n with toBoard := early ++ { c with bytes := b } :: late } : PnetNet).Up := by
  refine ⟨?_, h.ctr, h.last, h.ring, h.echoed, fun c' hc' h' hp => ?_, fun c' hc' h' hp => ?_, h.sentLast, h.once, h.passed,
    h.within, h.counted⟩
  · have hflow := h.flow
    rw [hc, List.map_append, List.map_cons] at hflow
    show Flow _ _ _ ((early ++ _ :: late).map _) _
    rw [List.map_append, List.map_cons]
    exact hflow
  · exact h.named c' (hc ▸ damaged_mem hd hc' hp) h' hp
  · exact h.batches c' (hc ▸ damaged_mem hd hc' hp) h' hp

theorem Step.inv (hs : Step Noticed n n') (h : n.Down ∧ n.Up) : n'.Down ∧ n'.Up := by
  obtain ⟨hd, hu⟩ := h
  cases hs with
  | queue f => exact ⟨hd.queue f, hu.queue f⟩
  | start k hk => exact ⟨hd.start hk, hu.start k⟩
  | shrink k => exact ⟨hd.shrink k, hu.shrink k⟩
  | boardSend => exact ⟨hd.boardSend, hu.boardSend⟩
  | capture win hc => exact ⟨hd.capture hu hc win, hu.capture hc win⟩
  | release k => exact ⟨hd.release k, hu.release k⟩
  | amigaStart b hout => exact ⟨hd.amigaStart b, hu.amigaStart b hout⟩
  | amigaSend b dataSize tail hb hlen => exact ⟨hd.amigaSend b dataSize tail hlen, hu.amigaSend b dataSize tail hb hlen⟩
  | amigaTake hc => exact ⟨hd.amigaTake hc, hu.amigaTake hc⟩
  | faultyAmiga hf => exact ⟨hd.faultyAmiga hf, hu.faultyAmiga hf⟩
  | faultyBoard hf => exact ⟨hd.faultyBoard hf, hu.faultyBoard hf⟩
  | damage early b hc hn => exact ⟨hd.damage hc hn, hu.damage hc hn⟩

-- ---------------------------------------------------------------------------
-- The link
-- ---------------------------------------------------------------------------

/-- The runs of a link from its start. -/
def Runs (Damage : Bytes → Bytes → Prop) (n : PnetNet) : Prop :=
  ∃ rxMem txMem rxSlots txSlots, ReflTransGen (Step Damage) (boot rxMem txMem rxSlots txSlots) n

theorem Runs.inv (h : Runs Noticed n) : n.Down ∧ n.Up := by
  obtain ⟨rxMem, txMem, rxSlots, txSlots, hrun⟩ := h
  exact invariant_run (I := fun n => n.Down ∧ n.Up) (fun _ _ => Step.inv) hrun ⟨Down.boot .., Up.boot ..⟩

theorem Down.delivered (h : n.Down) : ∃ g, n.gone ≤ g ∧ Delivered (n.shrunk = false) n.queued n.amiga.received g := by
  by_cases ht : n.Took
  · obtain ⟨got, w, hgot, hdel, k, hw, hk, hle, hwhole⟩ := h.placed.took ht
    have hpos := (h.out ht.1).1
    have hwlen : w.length = k := by rw [hw, List.length_take, Nat.min_eq_left hle]
    refine ⟨n.gone + w.length, Nat.le_add_right _ _, hgot ▸ hdel.batch ?_ (by omega) (Nat.le_refl _) fun _ => rfl⟩
    rw [← h.drop_gone, hwlen]
    exact hw
  · exact ⟨n.gone, Nat.le_refl _, h.placed.not ht⟩

theorem delivers (hd : n.Down) (hu : n.Up) : n.Delivers := by
  obtain ⟨g, hg, hdel⟩ := hd.delivered
  refine ⟨hd.held, ⟨g, hg, hdel⟩, ?_, fun hs => ?_, hu.once, fun ho => ?_, hu.passed, hu.within, hu.counted⟩
  · exact (List.take_sublist_take_left hg).trans hdel.sublist
  · rw [hdel.flatten hs]
    exact List.take_prefix _ _
  · have hflow := hu.flow
    rw [ho] at hflow
    exact Nat.le_antisymm hflow.ahead (by simpa using hflow.behind)

/-- Frames leave the ring by an acknowledgement and no other way. -/
theorem Step.acknowledged (hs : Step Noticed n n') (hd : n.Down) (hu : n.Up) (hne : n'.gone ≠ n.gone) :
    Acknowledged n n' := by
  have hkept : n'.rx = n.rx → n'.queued = n.queued → False := by
    intro hr hq
    apply hne
    rw [gone, gone, hr, hq]
  cases hs with
  | queue f =>
    refine absurd ?_ hne
    show (n.queued ++ _).length - (n.rx.push f).2.frames.length = _
    rw [(PnetRing.push_frames hd.ring f).2, List.length_append, List.length_append, Nat.add_sub_add_right]
    rfl
  | @capture c rest win hc =>
    cases hp : pnetParseHdrFromAmiga c.bytes with
    | error e =>
      rw [capture_error hp] at hkept
      exact (hkept rfl rfl).elim
    | ok h =>
      obtain ⟨l, tx, ts, hcap, -⟩ := capture_ok hu hp rest win
      by_cases hno : !n.link.backup ∨ h.picoCtr ≠ n.link.pico
      · refine absurd ?_ hne
        rw [hcap, gone, PnetLink.ack, if_pos hno]
        show n.queued.length - (n.rx.drop 0).frames.length = _
        rw [PnetRing.drop_frames]
        rfl
      · have hack : n.link.ack h = (n.link.nframes, { n.link with
            backup := false, nframes := 0, acked := n.link.acked + 1 }) := by rw [PnetLink.ack, if_neg hno]
        rw [not_or, Bool.not_eq_true', Bool.not_eq_false, not_not] at hno
        obtain ⟨hout, hecho⟩ := hno
        obtain ⟨got, w, hgot, hdel, k, hw, hk, hle, hwhole⟩ := hd.placed.took (hd.acked hc hp hout hecho).2
        refine ⟨⟨c, rest, win, h, hc, rfl, hp, hecho⟩, hout, ?_, w, ?_, ?_⟩
        · rw [hcap, hack]
          exact PnetRing.drop_frames _
        · rw [hgot, List.getLast?_concat]
          rfl
        · rw [hw]
          exact List.take_prefix_take_left hk
  | start k hk => exact (hkept rfl rfl).elim
  | shrink k => exact (hkept rfl rfl).elim
  | boardSend => exact (hkept rfl rfl).elim
  | release k => exact (hkept rfl rfl).elim
  | amigaStart b hout => exact (hkept rfl rfl).elim
  | amigaSend b dataSize tail hb hlen => exact (hkept rfl rfl).elim
  | amigaTake hc => exact (hkept rfl rfl).elim
  | faultyAmiga hf => exact (hkept rfl rfl).elim
  | faultyBoard hf => exact (hkept rfl rfl).elim
  | damage early b hc hn => exact (hkept rfl rfl).elim

/-- Whatever is lost, repeated or noticeably damaged, the link delivers in order and
once, and frames leave the ring only when acknowledged. -/
theorem link_delivers (h : Runs Noticed n) :
    n.Delivers ∧ ∀ n', Step Noticed n n' → n'.gone ≠ n.gone → Acknowledged n n' := by
  obtain ⟨hd, hu⟩ := h.inv
  exact ⟨delivers hd hu, fun n' hs hne => hs.acknowledged hd hu hne⟩

/-- A frame queued, and its batch started. -/
def oneOut : PnetNet := ((boot (fun _ => []) (fun _ => []) 2 2).queue [7]).start 1

theorem oneOut_runs (Damage : Bytes → Bytes → Prop) :
    ReflTransGen (Step Damage) (boot (fun _ => []) (fun _ => []) 2 2) oneOut :=
  .tail (.single (.queue [7])) (.start 1 (by decide))

/-- Taken and echoed, the frame has left the ring. -/
theorem link_delivers_one : ∃ n, Runs Noticed n ∧ n.amiga.received = [[[7]]] ∧ n.gone = 1 ∧ n.Delivers := by
  have hrun := oneOut_runs Noticed
  have hsent := hrun.tail .boardSend
  have htaken := hsent.tail (.amigaTake rfl)
  have hecho := htaken.tail (.amigaSend ⟨0, []⟩ 0 [0xaa] nofun (by decide))
  have hdone := hecho.tail (.capture none rfl)
  exact ⟨_, ⟨_, _, _, _, hdone⟩, by decide, by decide, (link_delivers ⟨_, _, _, _, hdone⟩).1⟩

/-- The header is outside the checksum: a damaged echo frees a batch that never arrived. -/
theorem damaged_echo : ¬ ∀ n, Runs AnyDamage n → n.Delivers := by
  intro h
  have hrun := oneOut_runs AnyDamage
  have hsent := hrun.tail (.amigaSend ⟨0, []⟩ 0 [0xaa] nofun (by decide))
  have hhurt := hsent.tail (.damage [] [0x54, 0x50, 0, 0, 0, 0, 0, 0, 3, 0, 0xff, 0x80, 0xaa] rfl
    (by unfold AnyDamage; decide))
  have hfreed := hhurt.tail (.capture none rfl)
  exact absurd (h _ ⟨_, _, _, _, hfreed⟩).noneLost.length_le (by decide)

end PnetNet

end WebAdf.Firmware
