import WebAdf.Firmware.PnetLz4Iter
import WebAdf.Firmware.PnetLz4Encode

/-!
# Packing a batch toward the Amiga

Which waiting frames make one batch, which of them go as LZ4 blocks, and the
track that carries them.
-/

namespace WebAdf.Firmware

open Lib

def pnetPackLz4BudgetUs : UInt32 := 500

/-- What a frame's data pointer points to: the caller's frame, or the window. -/
inductive DataAt
  | caller (frame : Bytes)
  | win (off : Nat)

/-- A packed frame; its block is `lz4Len` bytes at `lz4`, none when it goes MFM. -/
structure PnetOut where
  data : DataAt
  len : Nat
  lz4 : Option Nat
  lz4Len : Nat

/-- The packer's memory: the window, the blocks and the hash table. `nowUs` is
the microsecond clock, by the number of the reading. -/
structure PackMem where
  win : Bytes
  blk : Bytes
  table : List UInt16
  entries : Nat
  nowUs : Option (Nat → UInt32)

structure PnetPack where
  f : List PnetOut
  lz4 : Nat
  wire : Nat
  saved : Nat
  encodes : Nat
  unencoded : Nat
  budget : Bool

/-- The loop's variables: the bytes used of the window, of the blocks and of the
payload. -/
structure PackState where
  pk : PnetPack
  mem : PackMem
  dec : Nat
  blk : Nat
  payload : Nat

def wireOf (f : PnetOut) : Nat := 2 * (if f.lz4Len ≠ 0 then f.lz4Len else f.len)

def pnetOutPayloadBytes (f : List PnetOut) : Nat :=
  if f = [] then 0 else f.foldl (fun b f => b + (8 + wireOf f)) 4

/-- The budget's flag before frame `i`, whose reading of the clock is `i + 1`. -/
def budgetSpent (mem : PackMem) (budget : Bool) (i : Nat) : Bool :=
  budget || match mem.nowUs with
    | some now => now (i + 1) - now 0 ≥ pnetPackLz4BudgetUs
    | none => false

/-- With LZ4: the frame copied into the window, and its block if one was made.
The new state, and the size of the block. -/
def linkFrame (st : PackState) (i : Nat) (data : Bytes) : PackState × Nat :=
  let mem := { st.mem with win := blit st.mem.win st.dec data }
  let pk := { st.pk with budget := budgetSpent mem st.pk.budget i }
  if pk.budget then ({ st with mem := mem, pk := pk }, 0)
  else
    let e := pnetLz4EncodeLinked (mem.win.take st.dec) data (data.length - 1) mem.table mem.entries
    let mem := { mem with blk := blit mem.blk st.blk e.written, table := e.tab }
    ({ st with mem := mem, pk := { pk with encodes := pk.encodes + 1 } }, e.size)

/-- The frame added to the batch, the window moved past it. -/
def addFrame (st : PackState) (lz4 : Bool) (data : Bytes) (z : Nat) : PackState :=
  let len := data.length
  let f : PnetOut :=
    { data := if lz4 then .win st.dec else .caller data, len := len
      lz4 := if z ≠ 0 then some st.blk else none, lz4Len := z }
  let pk := { st.pk with
    f := st.pk.f ++ [f]
    lz4 := if z ≠ 0 then st.pk.lz4 + 1 else st.pk.lz4
    saved := if z ≠ 0 then st.pk.saved + 2 * (len - z) else st.pk.saved
    unencoded := if lz4 && st.pk.budget then st.pk.unencoded + 1 else st.pk.unencoded }
  let (win, dec) :=
    if lz4 then pnetLz4WinAdvance st.mem.win st.dec len else (st.mem.win, st.dec + winBytes len)
  { pk := pk, mem := { st.mem with win := win }, dec := dec, blk := st.blk + z
    payload := st.payload + (8 + 2 * (if z ≠ 0 then z else len)) }

/-- The frames from number `i` on, until one does not fit. -/
def packFrom (lz4 : Bool) (cap : Nat) (st : PackState) : Nat → List Bytes → PackState
  | _, [] => st
  | i, data :: rest =>
    let len := data.length
    if len = 0 ∨ len > pnetEthMtu ∨ winBytes len > pnetLz4Window - st.dec then st
    else
      let (st, z) := if lz4 then linkFrame st i data else (st, 0)
      let wire := 2 * (if z ≠ 0 then z else len)
      if st.payload + 8 + wire > pnetToAmigaMaxPayload ∨
          pnetLeadBytes + 4 + pnetHdrMfmBytes + st.payload + 8 + wire + pnetTrailBytes + 3 > cap then
        st
      else packFrom lz4 cap (addFrame st lz4 data z) (i + 1) rest

/-- The batch, and the memory it points into. -/
def pnetPack (mem : PackMem) (lz4 : Bool) (frames : List Bytes) (cap : Nat) : PnetPack × PackMem :=
  let st := packFrom lz4 cap ⟨⟨[], 0, 0, 0, 0, 0, false⟩, mem, 0, 0, 4⟩ 0
    (frames.take pnetMaxFrames)
  ({ st.pk with wire := if st.pk.f = [] then 0 else st.payload }, st.mem)

-- ---------------------------------------------------------------------------
-- The track
-- ---------------------------------------------------------------------------

/-- A packed frame's bytes. -/
def PnetOut.frame (f : PnetOut) (mem : PackMem) : Bytes :=
  match f.data with
  | .caller frame => frame.take f.len
  | .win off => slice mem.win off f.len

def PnetOut.block (f : PnetOut) (mem : PackMem) : Bytes := slice mem.blk (f.lz4.getD 0) f.lz4Len

/-- A frame's two headers and its bytes, MFM from a clean start. -/
def putFrame (mem : PackMem) (f : PnetOut) : Bytes :=
  let z := f.lz4Len ≠ 0
  let ch := put16 (if z then 0x8000 ||| pnetSizeLz4 ||| f.lz4Len else 0x8000 ||| 2 * f.len) ++
    put16 f.len
  let (head, last) := pnetMfmEncode 0 ch
  head ++ (pnetMfmEncode last (if z then f.block mem else f.frame mem)).1

def putPayload (mem : PackMem) (flags : UInt8) (f : List PnetOut) : Bytes :=
  if f = [] then []
  else (pnetMfmEncode 0 [UInt8.ofNat f.length, flags]).1 ++ f.flatMap (putFrame mem)

/-- The track's bytes, none when it might not fit `cap` or a frame is unsendable.
`txLead` is the lead-in this build sends. -/
def pnetBuildToAmigaOut (txLead cap : Nat) (amigaCtr picoCtr flags : UInt8) (mem : PackMem)
    (f : List PnetOut) : Bytes :=
  if f.length > pnetMaxFrames then []
  else if f.any fun f => f.len == 0 || pnetEthMtu < f.len || 0x3fff < f.lz4Len ||
      (f.lz4Len != 0 && f.lz4 == none) then []
  else if txLead + 4 + pnetHdrMfmBytes + pnetOutPayloadBytes f + pnetTrailBytes + 3 > cap then []
  else
    let pay := putPayload mem flags f
    let h : PnetHdr :=
      { checksum := pnetChecksum pay, dataSize := UInt16.ofNat pay.length
        compressedSize := UInt16.ofNat pay.length, mode := pnetModeEthernet, compressed := 0
        amigaCtr := amigaCtr, picoCtr := picoCtr }
    let track := List.replicate txLead 0xaa ++ pnetPutHdrToAmiga h ++ pay
    let end' := (track.length + pnetTrailBytes + 3) / 4 * 4
    track ++ List.replicate (end' - track.length) 0xaa

end WebAdf.Firmware

/-!
# What a packed batch carries

`CarriesAll`: each packed frame stands for one of the caller's, as its own
bytes or as a block that decodes to them against the frames before it. The
packer keeps this of the memory it has used, and both of its budgets.
-/

namespace WebAdf.Firmware

open Lib

/-- The packed frame `f` stands for `data`, after the window bytes `ws`. -/
structure Carries (mem : PackMem) (ws : Bytes) (f : PnetOut) (data : Bytes) : Prop where
  len : f.len = data.length
  sendable : 0 < data.length ∧ data.length ≤ pnetEthMtu
  window : (ws ++ padded data).length ≤ pnetLz4Window
  shorter : f.lz4Len < data.length
  plain : f.lz4Len = 0 → f.frame mem = data
  block : f.lz4Len ≠ 0 → f.lz4 ≠ none ∧ (f.block mem).length = f.lz4Len ∧
    pnetLz4Decode (f.block mem) ws data.length = (some data.length, data)

/-- The packed frames stand for the frames `ds`, each after the ones before it. -/
def CarriesAll (mem : PackMem) : Bytes → List PnetOut → List Bytes → Prop
  | _, [], [] => True
  | ws, f :: fs, data :: ds => Carries mem ws f data ∧ CarriesAll mem (ws ++ padded data) fs ds
  | _, _, _ => False

def windowOf (ds : List Bytes) : Bytes := ds.flatMap padded

/-- `mem` is what `mem'` has at the start of its two buffers. -/
structure Grows (mem mem' : PackMem) : Prop where
  win : mem.win <+: mem'.win
  blk : mem.blk <+: mem'.blk

theorem Carries.grows (h : Carries mem ws f data) (hg : Grows mem mem') :
    Carries mem' ws f data := by
  have hblock : f.lz4Len ≠ 0 → f.block mem' = f.block mem := fun hz =>
    slice_longer hg.blk (h.block hz).2.1
  refine ⟨h.len, h.sendable, h.window, h.shorter, fun hz => ?_, fun hz => ?_⟩
  · have hframe := h.plain hz
    rw [PnetOut.frame] at hframe ⊢
    cases hd : f.data with
    | caller frame => rwa [hd] at hframe
    | win off =>
      rw [hd] at hframe
      dsimp only at hframe ⊢
      rw [slice_longer hg.win (by rw [hframe, h.len]), hframe]
  · rw [hblock hz]
    exact h.block hz

theorem CarriesAll.grows (h : CarriesAll mem ws fs ds) (hg : Grows mem mem') :
    CarriesAll mem' ws fs ds := by
  induction fs generalizing ws ds with
  | nil =>
    cases ds with
    | nil => trivial
    | cons => exact h
  | cons f fs ih =>
    cases ds with
    | nil => exact h
    | cons data ds => exact ⟨h.1.grows hg, ih h.2⟩

theorem CarriesAll.concat (h : CarriesAll mem ws fs ds)
    (hf : Carries mem (ws ++ windowOf ds) f data) :
    CarriesAll mem ws (fs ++ [f]) (ds ++ [data]) := by
  induction fs generalizing ws ds with
  | nil =>
    cases ds with
    | nil => exact ⟨by simpa [windowOf] using hf, trivial⟩
    | cons => exact h.elim
  | cons f' fs ih =>
    cases ds with
    | nil => exact h.elim
    | cons data' ds => exact ⟨h.1, ih h.2 (by simpa [windowOf] using hf)⟩

theorem CarriesAll.length (h : CarriesAll mem ws fs ds) : fs.length = ds.length := by
  induction fs generalizing ws ds with
  | nil =>
    cases ds with
    | nil => rfl
    | cons => exact h.elim
  | cons f fs ih =>
    cases ds with
    | nil => exact h.elim
    | cons data ds => rw [List.length_cons, List.length_cons, ih h.2]

-- ---------------------------------------------------------------------------
-- The packer
-- ---------------------------------------------------------------------------

/-- The part of the memory that the frames so far use. -/
def PackState.used (st : PackState) : PackMem :=
  { st.mem with win := st.mem.win.take st.dec, blk := st.mem.blk.take st.blk }

/-- The frames `ds` are packed, within the payload and within `cap`. -/
structure Packing (lz4 : Bool) (cap : Nat) (st : PackState) (ds : List Bytes) : Prop where
  carries : CarriesAll st.used [] st.pk.f ds
  dec : st.dec = (windowOf ds).length
  inside : st.dec ≤ pnetLz4Window
  laid : lz4 = true → Laid st.mem.win st.dec (windowOf ds)
  room : st.mem.blk.length = pnetLz4Window
  blk : st.blk ≤ st.dec
  payload : st.payload = st.pk.f.foldl (fun b f => b + (8 + wireOf f)) 4
  most : st.payload ≤ pnetToAmigaMaxPayload
  fits : st.pk.f ≠ [] → pnetLeadBytes + 4 + pnetHdrMfmBytes + st.payload + pnetTrailBytes + 3 ≤ cap

theorem Packing.start (hwin : mem.win.length = pnetLz4Window)
    (hblk : mem.blk.length = pnetLz4Window) :
    Packing lz4 cap ⟨⟨[], 0, 0, 0, 0, 0, false⟩, mem, 0, 0, 4⟩ [] :=
  ⟨trivial, rfl, Nat.zero_le _, fun _ => Laid.start hwin, hblk, Nat.le_refl _, rfl,
    show 4 ≤ pnetToAmigaMaxPayload by decide, fun h => absurd rfl h⟩

/-- The copy and the block of a frame, past what is used. -/
structure Linked (st st' : PackState) (ds : List Bytes) (data : Bytes) (z : Nat) : Prop where
  f : st'.pk.f = st.pk.f
  dec : st'.dec = st.dec
  blk : st'.blk = st.blk
  payload : st'.payload = st.payload
  win : st'.mem.win = blit st.mem.win st.dec data
  room : st'.mem.blk.length = st.mem.blk.length
  kept : st'.mem.blk.take st.blk = st.mem.blk.take st.blk
  shorter : z < data.length
  block : z ≠ 0 → (slice st'.mem.blk st.blk z).length = z ∧
    pnetLz4Decode (slice st'.mem.blk st.blk z) (windowOf ds) data.length = (some data.length, data)

theorem linkFrame_linked (h : Packing true cap st ds) (i : Nat) (hpos : 0 < data.length)
    (hfits : st.dec + winBytes data.length ≤ pnetLz4Window) :
    Linked st (linkFrame st i data).1 ds data (linkFrame st i data).2 := by
  have hlen := le_winBytes data.length
  have hblk := h.blk
  have hroom := h.room
  have hlaid := h.laid rfl
  rw [linkFrame]
  dsimp only
  split
  · exact ⟨rfl, rfl, rfl, rfl, rfl, rfl, rfl, hpos, fun hz => absurd rfl hz⟩
  · have hwindow : (blit st.mem.win st.dec data).take st.dec = windowOf ds := by
      rw [take_blit (by rw [hlaid.size]; omega) (Nat.le_refl _), h.dec, hlaid.held]
    obtain ⟨hsize, hwritten, hgood⟩ := lz4_linked_round_trip (windowOf ds) data
      (data.length - 1) st.mem.table st.mem.entries
    rw [hwindow]
    generalize pnetLz4EncodeLinked (windowOf ds) data (data.length - 1) st.mem.table
      st.mem.entries = e at hsize hwritten hgood ⊢
    have hin : st.blk + e.written.length ≤ st.mem.blk.length := by omega
    refine ⟨rfl, rfl, rfl, rfl, rfl, length_blit hin, ?_, by omega, fun hz => ?_⟩
    · exact take_blit hin (Nat.le_refl _)
    · obtain ⟨hall, hdec⟩ := hgood hz
      rw [← hall, slice_blit_self hin]
      exact ⟨rfl, hdec _ (Nat.le_refl _)⟩

/-- A frame that was linked and then did not fit leaves the batch as it was. -/
theorem Packing.linked (h : Packing true cap st ds) (hl : Linked st st' ds data z)
    (hfits : st.dec + winBytes data.length ≤ pnetLz4Window) : Packing true cap st' ds := by
  have hlen := le_winBytes data.length
  have hlaid := h.laid rfl
  have hsize := hlaid.size
  have hin : st.dec + data.length ≤ st.mem.win.length := by omega
  have hwin : st'.mem.win.take st.dec = st.mem.win.take st.dec := by
    rw [hl.win]
    exact take_blit hin (Nat.le_refl _)
  refine ⟨?_, ?_, ?_, fun _ => ⟨?_, ?_, ?_⟩, ?_, ?_, ?_, ?_, ?_⟩
  · rw [hl.f]
    refine h.carries.grows ⟨?_, ?_⟩
    · simp only [PackState.used, hl.dec, hwin, List.prefix_rfl]
    · simp only [PackState.used, hl.blk, hl.kept, List.prefix_rfl]
  · rw [hl.dec, h.dec]
  · rw [hl.dec]
    exact h.inside
  · rw [hl.dec, h.dec]
  · rw [hl.win, length_blit hin, hsize]
  · rw [← h.dec, hwin, h.dec, hlaid.held]
  · rw [hl.room, h.room]
  · rw [hl.dec, hl.blk]
    exact h.blk
  · rw [hl.payload, hl.f, h.payload]
  · rw [hl.payload]
    exact h.most
  · rw [hl.payload, hl.f]
    exact h.fits

theorem slice_padded (ws data : Bytes) :
    slice (ws ++ padded data) ws.length data.length = data := by
  rw [padded]
  split
  · exact slice_append_at rfl rfl
  · rw [slice_append_right (Nat.le_refl _), Nat.sub_self, slice_self]

theorem slice_take (xs : Bytes) (a n : Nat) : slice (xs.take (a + n)) a n = slice xs a n := by
  rw [slice, slice, List.drop_take, Nat.add_sub_cancel_left, List.take_take, Nat.min_self]

/-- What the state holds of the frame about to be added. -/
structure Ready (lz4 : Bool) (st : PackState) (ds : List Bytes) (data : Bytes) (z : Nat) : Prop where
  copied : lz4 = true → ∃ win, Laid win st.dec (windowOf ds) ∧ st.mem.win = blit win st.dec data
  shorter : z < data.length
  block : z ≠ 0 → (slice st.mem.blk st.blk z).length = z ∧
    pnetLz4Decode (slice st.mem.blk st.blk z) (windowOf ds) data.length = (some data.length, data)

theorem Linked.ready (hl : Linked st st' ds data z) (h : Packing true cap st ds) :
    Ready true st' ds data z := by
  refine ⟨fun _ => ⟨st.mem.win, ?_, ?_⟩, hl.shorter, ?_⟩
  · rw [hl.dec]
    exact h.laid rfl
  · rw [hl.dec, hl.win]
  · rw [hl.blk]
    exact hl.block

section
variable {lz4 : Bool} {cap z : Nat} {st : PackState} {ds : List Bytes} {data : Bytes}

theorem addFrame_dec : (addFrame st lz4 data z).dec = st.dec + winBytes data.length := by
  have hmod := Nat.and_one_is_mod data.length
  rw [addFrame, winBytes]
  cases lz4 with
  | false => rfl
  | true =>
    dsimp only
    rw [if_pos rfl, pnetLz4WinAdvance]
    split
    · dsimp only
      omega
    · dsimp only
      omega

theorem Ready.window (hr : Ready true st ds data z)
    (hfits : st.dec + winBytes data.length ≤ pnetLz4Window) :
    (addFrame st true data z).used.win = windowOf ds ++ padded data := by
  obtain ⟨win, hlaid, hwin⟩ := hr.copied rfl
  have hnext := hlaid.advance hfits
  simp only [PackState.used, addFrame, if_true, hwin]
  rw [hnext.offset, hnext.held]

theorem Packing.carried (h : Packing lz4 cap st ds) (hr : Ready lz4 st ds data z)
    (hfits : st.dec + winBytes data.length ≤ pnetLz4Window)
    (hsend : 0 < data.length ∧ data.length ≤ pnetEthMtu) :
    ∃ f, (addFrame st lz4 data z).pk.f = st.pk.f ++ [f] ∧
      wireOf f = 2 * (if z ≠ 0 then z else data.length) ∧
      Carries (addFrame st lz4 data z).used (windowOf ds) f data := by
  refine ⟨_, rfl, rfl, rfl, hsend, ?_, hr.shorter, fun _ => ?_, fun hz => ?_⟩
  · rw [List.length_append, length_padded, ← h.dec]
    exact hfits
  · cases lz4 with
    | false => exact List.take_length
    | true =>
      simp only [PnetOut.frame, if_true, hr.window hfits, h.dec]
      exact slice_padded _ _
  · have hused : slice (addFrame st lz4 data z).used.blk st.blk z = slice st.mem.blk st.blk z :=
      slice_take _ _ _
    refine ⟨by simp [hz], ?_, ?_⟩
    · simp only [PnetOut.block, if_pos hz, Option.getD_some, hused]
      exact (hr.block hz).1
    · simp only [PnetOut.block, if_pos hz, Option.getD_some, hused]
      exact (hr.block hz).2

theorem Packing.add (h : Packing lz4 cap st ds) (hr : Ready lz4 st ds data z)
    (hfits : st.dec + winBytes data.length ≤ pnetLz4Window)
    (hsend : 0 < data.length ∧ data.length ≤ pnetEthMtu)
    (hroom : ¬ (st.payload + 8 + 2 * (if z ≠ 0 then z else data.length) > pnetToAmigaMaxPayload ∨
      pnetLeadBytes + 4 + pnetHdrMfmBytes + st.payload + 8 +
        2 * (if z ≠ 0 then z else data.length) + pnetTrailBytes + 3 > cap)) :
    Packing lz4 cap (addFrame st lz4 data z) (ds ++ [data]) := by
  obtain ⟨f, hf, hwire, hcarries⟩ := h.carried hr hfits hsend
  have hlen := le_winBytes data.length
  have hshort := hr.shorter
  have hblk := h.blk
  have hwindow : windowOf (ds ++ [data]) = windowOf ds ++ padded data := by simp [windowOf]
  have hgrows : Grows st.used (addFrame st lz4 data z).used := by
    refine ⟨?_, List.take_prefix_take_left (Nat.le_add_right _ _)⟩
    cases lz4 with
    | false => exact List.take_prefix_take_left (Nat.le_add_right _ _)
    | true =>
      rw [hr.window hfits, PackState.used]
      simp only [h.dec, (h.laid rfl).held, List.prefix_append]
  refine ⟨?_, ?_, ?_, ?_, h.room, ?_, ?_, ?_, ?_⟩
  · rw [hf]
    exact (h.carries.grows hgrows).concat hcarries
  · rw [addFrame_dec, hwindow, List.length_append, length_padded, h.dec]
  · rw [addFrame_dec]
    exact hfits
  · rintro rfl
    obtain ⟨win, hlaid, hwin⟩ := hr.copied rfl
    have hnext := hlaid.advance hfits
    rw [hwindow]
    simp only [addFrame, if_true, hwin]
    exact hnext
  · rw [addFrame_dec]
    simp only [addFrame]
    omega
  · rw [hf, List.foldl_append, ← h.payload, List.foldl_cons, List.foldl_nil, hwire]
    rfl
  · simp only [addFrame]
    omega
  · intro _
    simp only [addFrame]
    omega

end

theorem packFrom_packing (h : Packing lz4 cap st done) (i : Nat) (todo : List Bytes) :
    ∃ n, Packing lz4 cap (packFrom lz4 cap st i todo) (done ++ todo.take n) := by
  induction todo generalizing st done i with
  | nil => exact ⟨0, by simpa [packFrom] using h⟩
  | cons data rest ih =>
    have hnone {st : PackState} (h : Packing lz4 cap st done) :
        ∃ n, Packing lz4 cap st (done ++ (data :: rest).take n) := ⟨0, by simpa using h⟩
    rw [packFrom]
    split
    · exact hnone h
    · rename_i hsend
      have hinside := h.inside
      have hfits : st.dec + winBytes data.length ≤ pnetLz4Window := by omega
      -- the state the frame is added to, with or without a block
      obtain ⟨next, hnext, hp, hr, hdec⟩ : ∃ next,
          next = (if lz4 then linkFrame st i data else (st, 0)) ∧
          Packing lz4 cap next.1 done ∧ Ready lz4 next.1 done data next.2 ∧
          next.1.dec = st.dec := by
        cases lz4 with
        | false => exact ⟨_, rfl, h, ⟨fun hf => absurd hf (by simp), by simp; omega,
            fun hz => absurd rfl hz⟩, rfl⟩
        | true =>
          have hl := linkFrame_linked h i (by omega) hfits
          exact ⟨_, rfl, h.linked hl hfits, hl.ready h, hl.dec⟩
      rw [← hnext]
      obtain ⟨st', z⟩ := next
      dsimp only at hp hr hdec ⊢
      generalize hwire : (if z ≠ 0 then z else data.length) = wire
      by_cases hroom : st'.payload + 8 + 2 * wire > pnetToAmigaMaxPayload ∨
          pnetLeadBytes + 4 + pnetHdrMfmBytes + st'.payload + 8 + 2 * wire + pnetTrailBytes + 3 > cap
      · rw [if_pos hroom]
        exact hnone hp
      · rw [if_neg hroom]
        rw [← hwire] at hroom
        obtain ⟨n, hn⟩ := ih (hp.add hr (by omega) (by omega) hroom) (i + 1)
        exact ⟨n + 1, by simpa using hn⟩

/-- Every batch stands for the first frames waiting, and its payload and its
track are within their bounds. -/
theorem pnetPack_carries (mem : PackMem) (lz4 : Bool) (frames : List Bytes) (cap : Nat)
    (hwin : mem.win.length = pnetLz4Window) (hblk : mem.blk.length = pnetLz4Window) :
    let (pk, mem') := pnetPack mem lz4 frames cap
    CarriesAll mem' [] pk.f (frames.take pk.f.length) ∧ pk.f.length ≤ pnetMaxFrames ∧
      pnetOutPayloadBytes pk.f ≤ pnetToAmigaMaxPayload ∧
      (pk.f ≠ [] → pnetLeadBytes + 4 + pnetHdrMfmBytes + pnetOutPayloadBytes pk.f +
        pnetTrailBytes + 3 ≤ cap) := by
  have hstart : Packing lz4 cap ⟨⟨[], 0, 0, 0, 0, 0, false⟩, mem, 0, 0, 4⟩ [] := .start hwin hblk
  obtain ⟨n, hp⟩ := packFrom_packing hstart 0 (frames.take pnetMaxFrames)
  rw [List.nil_append, List.take_take] at hp
  rw [pnetPack]
  dsimp only
  generalize packFrom lz4 cap ⟨⟨[], 0, 0, 0, 0, 0, false⟩, mem, 0, 0, 4⟩ 0
    (frames.take pnetMaxFrames) = st at hp ⊢
  have hlen := hp.carries.length
  have htake : frames.take st.pk.f.length = frames.take (min n pnetMaxFrames) := by
    rw [hlen, List.length_take, List.take_eq_take_iff]
    omega
  have hall : CarriesAll st.mem [] st.pk.f (frames.take st.pk.f.length) := by
    rw [htake]
    exact hp.carries.grows ⟨List.take_prefix _ _, List.take_prefix _ _⟩
  have hmost := hp.most
  have hfits := hp.fits
  have hpayload := hp.payload
  refine ⟨hall, ?_, ?_, ?_⟩
  · rw [hlen, List.length_take]
    omega
  · rw [pnetOutPayloadBytes]
    split
    · exact Nat.zero_le _
    · omega
  · intro hne
    have := hfits hne
    rw [pnetOutPayloadBytes, if_neg hne]
    omega

end WebAdf.Firmware
