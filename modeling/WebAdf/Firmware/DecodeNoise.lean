import WebAdf.Firmware.DecodeLaws

/-!
# The decoder on any bytes at all

The decoder once more, with a note of every byte it reads, every body it tries
and every sector it stores. What it leaves is what the bodies it tried are: a
sector is stored when one verified for it, and nothing else of the output moves.
-/

namespace WebAdf.Firmware

open Lib Adfmfm

/-- What a body is: its checksums fail, or it has no room, or it is a sector. -/
inductive Verdict
  | bad
  | foreign
  | sector (header data : Bytes)
  deriving DecidableEq

def verdict (mfm : Bytes) (nsec body : Nat) : Verdict :=
  match readBody (realign mfm body secBodyBytes) with
  | none => .bad
  | some (header, data) =>
    if (header.getD 2 0).toNat ≥ nsec then .foreign else .sector header data

/-- Latest first: the bytes read, the bodies tried and the sectors stored. -/
structure Touched where
  reads : List Nat
  bodies : List Nat
  stores : List Nat

/-- The bytes that `realign` reads. -/
def realignReads (bit n : Nat) : List Nat :=
  if bit % 8 = 0 then (List.range n).map (bit / 8 + ·)
  else (List.range n).flatMap fun i => [bit / 8 + i, bit / 8 + i + 1]

/-- The sector that `accept` copies to the output. -/
def storesOf (st : DecodeState) : Verdict → List Nat
  | .sector header _ =>
    if st.out.found &&& (1 <<< (header.getD 2 0).toUInt32) = 0 then [(header.getD 2 0).toNat] else []
  | _ => []

/-- `decodeBits` with its notes. -/
def decodeTouched (mfm : Bytes) (nsec b : Nat) (sr : UInt32) (st : DecodeState) (t : Touched) :
    DecodeState × Touched :=
  if b < mfm.length * 8 then
    let sr := shiftIn mfm b sr
    let t := { t with reads := b / 8 :: t.reads }
    if b < 31 ∨ sr ≠ 0x44894489 then decodeTouched mfm nsec (b + 1) sr st t
    else
      let body := b + 1
      if body + bodyBits > mfm.length * 8 then (st, t)
      else
        let t : Touched :=
          { reads := realignReads body secBodyBytes ++ t.reads, bodies := body :: t.bodies
            stores := storesOf st (verdict mfm nsec body) ++ t.stores }
        let (good, st) := st.candidate mfm nsec body
        if good then decodeTouched mfm nsec (body + bodyBits) 0 st t
        else decodeTouched mfm nsec (b + 1) sr st t
  else (st, t)
termination_by mfm.length * 8 - b
decreasing_by all_goals omega

def mfmDecodeTouched (mfm adfOut : Bytes) (nsec : Nat) : DecodeState × Touched :=
  if nsec = 0 ∨ nsec > mfmMaxSectors then (⟨emptyResult, false, adfOut⟩, ⟨[], [], []⟩)
  else decodeTouched mfm nsec 0 0 ⟨emptyResult, false, adfOut⟩ ⟨[], [], []⟩

/-- The notes change nothing. -/
theorem decodeTouched_fst (mfm : Bytes) (nsec b : Nat) (sr : UInt32) (st : DecodeState)
    (t : Touched) : (decodeTouched mfm nsec b sr st t).1 = decodeBits mfm nsec b sr st := by
  induction hk : mfm.length * 8 - b using Nat.strong_induction_on generalizing b sr st t with
  | _ k ih =>
    rw [decodeTouched, decodeBits]
    by_cases hb : b < mfm.length * 8
    · rw [if_pos hb, if_pos hb]
      dsimp only
      by_cases hno : b < 31 ∨ shiftIn mfm b sr ≠ 0x44894489
      · rw [if_pos hno, if_pos hno]
        exact ih _ (by omega) _ _ _ _ rfl
      · rw [if_neg hno, if_neg hno]
        by_cases hend : b + 1 + bodyBits > mfm.length * 8
        · rw [if_pos hend, if_pos hend]
        · rw [if_neg hend, if_neg hend]
          rcases st.candidate mfm nsec (b + 1) with ⟨good, st'⟩
          dsimp only
          cases good with
          | true =>
            rw [if_pos rfl, if_pos rfl]
            exact ih _ (by omega) _ _ _ _ rfl
          | false =>
            rw [if_neg Bool.false_ne_true, if_neg Bool.false_ne_true]
            exact ih _ (by omega) _ _ _ _ rfl
    · rw [if_neg hb, if_neg hb]

theorem mfmDecodeTouched_fst (mfm adfOut : Bytes) (nsec : Nat) :
    mfmDecodeTrackRn mfm adfOut nsec =
      ((mfmDecodeTouched mfm adfOut nsec).1.out, (mfmDecodeTouched mfm adfOut nsec).1.adfOut) := by
  rw [mfmDecodeTrackRn, mfmDecodeTouched]
  split
  · rfl
  · rw [← decodeTouched_fst mfm nsec 0 0 _ ⟨[], [], []⟩]

-- ---------------------------------------------------------------------------
-- Reads
-- ---------------------------------------------------------------------------

theorem realignReads_lt (h : body + bodyBits ≤ len * 8) :
    ∀ i ∈ realignReads body secBodyBytes, i < len := by
  have hbits : bodyBits = 8640 := rfl
  have hbytes : secBodyBytes = 1080 := rfl
  intro i hi
  rw [realignReads] at hi
  by_cases hat : body % 8 = 0
  · rw [if_pos hat] at hi
    obtain ⟨j, hj, rfl⟩ := List.mem_map.mp hi
    have := List.mem_range.mp hj
    omega
  · rw [if_neg hat] at hi
    obtain ⟨j, hj, hi⟩ := List.mem_flatMap.mp hi
    have := List.mem_range.mp hj
    simp only [List.mem_cons, List.not_mem_nil, or_false] at hi
    omega

-- ---------------------------------------------------------------------------
-- What the bodies tried make of the output
-- ---------------------------------------------------------------------------

/-- Sector `i` is in a body that was tried and verified. -/
def Verified (mfm : Bytes) (nsec : Nat) (bodies : List Nat) (i : Nat) (data : Bytes) : Prop :=
  ∃ body ∈ bodies, ∃ header, verdict mfm nsec body = .sector header data ∧
    (header.getD 2 0).toNat = i

/-- The state is what the notes say, over the output `adf` it began with. -/
structure Noted (mfm adf : Bytes) (nsec : Nat) (st : DecodeState) (t : Touched) : Prop where
  reads : ∀ i ∈ t.reads, i < mfm.length
  bodies : ∀ body ∈ t.bodies, body + bodyBits ≤ mfm.length * 8
  size : st.adfOut.length = adf.length
  found : ∀ i < 32, st.out.found.toBitVec.getLsbD i = true ↔ ∃ data, Verified mfm nsec t.bodies i data
  held : ∀ i < 32, st.out.found.toBitVec.getLsbD i = true →
    Verified mfm nsec t.bodies i (slice st.adfOut (i * sectorDataBytes) sectorDataBytes)
  kept : ∀ i < nsec, st.out.found.toBitVec.getLsbD i = false →
    slice st.adfOut (i * sectorDataBytes) sectorDataBytes =
      slice adf (i * sectorDataBytes) sectorDataBytes
  stored : ∀ i < 32, i ∈ t.stores ↔ st.out.found.toBitVec.getLsbD i = true
  once : t.stores.Nodup
  bad : st.out.badChecksums =
    UInt16.ofNat (t.bodies.countP fun body => verdict mfm nsec body = .bad)
  foreign : st.out.foreignSectors =
    UInt16.ofNat (t.bodies.countP fun body => verdict mfm nsec body = .foreign)
  known : st.haveTrackNo = true ↔ ∃ i data, Verified mfm nsec t.bodies i data
  track : st.out.trackNoConsistent = true ↔ ∀ body ∈ t.bodies, ∀ header data,
    verdict mfm nsec body = .sector header data → header.getD 1 0 = st.out.trackNo

theorem candidate_eq (st : DecodeState) (mfm : Bytes) (nsec body : Nat) :
    st.candidate mfm nsec body =
      match verdict mfm nsec body with
      | .bad => (false, { st with out := { st.out with badChecksums := st.out.badChecksums + 1 } })
      | .foreign =>
        (false, { st with out := { st.out with foreignSectors := st.out.foreignSectors + 1 } })
      | .sector header data => (true, st.accept header data body) := by
  rw [DecodeState.candidate, verdict]
  rcases readBody (realign mfm body secBodyBytes) with _ | ⟨header, data⟩
  · rfl
  · dsimp only
    by_cases hid : (header.getD 2 0).toNat ≥ nsec
    · rw [if_pos hid, if_pos hid]
    · rw [if_neg hid, if_neg hid]

theorem verdict_sector (h : verdict mfm nsec body = .sector header data) :
    (header.getD 2 0).toNat < nsec ∧ data.length = sectorDataBytes ∧
      readBody (realign mfm body secBodyBytes) = some (header, data) := by
  rw [verdict] at h
  rcases hbody : readBody (realign mfm body secBodyBytes) with _ | ⟨header', data'⟩
  · rw [hbody] at h
    cases h
  · rw [hbody] at h
    dsimp only at h
    by_cases hid : (header'.getD 2 0).toNat ≥ nsec
    · rw [if_pos hid] at h
      cases h
    · rw [if_neg hid] at h
      cases h
      refine ⟨Nat.lt_of_not_le hid, ?_, rfl⟩
      rw [readBody] at hbody
      split at hbody
      · cases hbody
        simp [mfmJoinOddEven]
      · cases hbody

theorem verified_cons (mfm : Bytes) (nsec body : Nat) (bodies : List Nat) (i : Nat) (data : Bytes) :
    Verified mfm nsec (body :: bodies) i data ↔
      (∃ header, verdict mfm nsec body = .sector header data ∧ (header.getD 2 0).toNat = i) ∨
        Verified mfm nsec bodies i data := by
  simp [Verified]

/-- What taking a sector up does to the report and the output. -/
theorem accept_spec (st : DecodeState) (header data : Bytes) (body : Nat)
    (hid : (header.getD 2 0).toNat < mfmMaxSectors) :
    (∀ i < 32, (st.accept header data body).out.found.toBitVec.getLsbD i =
        (st.out.found.toBitVec.getLsbD i || decide (i = (header.getD 2 0).toNat))) ∧
      (st.accept header data body).out.badChecksums = st.out.badChecksums ∧
      (st.accept header data body).out.foreignSectors = st.out.foreignSectors ∧
      (st.accept header data body).haveTrackNo = true ∧
      (st.accept header data body).out.trackNo =
        (if st.haveTrackNo = true then st.out.trackNo else header.getD 1 0) ∧
      (st.accept header data body).out.trackNoConsistent =
        (st.out.trackNoConsistent && (!st.haveTrackNo || header.getD 1 0 == st.out.trackNo)) ∧
      (st.accept header data body).adfOut =
        (if st.out.found.toBitVec.getLsbD (header.getD 2 0).toNat = true then st.adfOut
          else blit st.adfOut ((header.getD 2 0).toNat * sectorDataBytes) data) ∧
      storesOf st (.sector header data) =
        (if st.out.found.toBitVec.getLsbD (header.getD 2 0).toNat = true then []
          else [(header.getD 2 0).toNat]) := by
  have hmax : (header.getD 2 0).toNat < 22 := hid
  have hbit : ∀ i < 32, ((1 : UInt32) <<< (header.getD 2 0).toUInt32).toBitVec.getLsbD i =
      decide (i = (header.getD 2 0).toNat) := by
    intro i hi
    have := bit_of_sector hid hi
    rwa [UInt8.ofNat_toNat] at this
  have hzero := and_bit_eq_zero st.out.found (by omega) hbit
  obtain ⟨hfound, hbad, hforeign⟩ := noteHeader_keeps st.out st.haveTrackNo header body
  have hnote : (st.out.noteHeader st.haveTrackNo header body).trackNo =
        (if st.haveTrackNo = true then st.out.trackNo else header.getD 1 0) ∧
      (st.out.noteHeader st.haveTrackNo header body).trackNoConsistent =
        (st.out.trackNoConsistent && (!st.haveTrackNo || header.getD 1 0 == st.out.trackNo)) := by
    unfold DecodeResult.noteHeader
    generalize header.getD 1 0 = track
    cases st.haveTrackNo with
    | false => simp
    | true =>
      by_cases htrack : track = st.out.trackNo
      · simp [htrack]
      · simp [htrack]
  rw [DecodeState.accept, storesOf]
  generalize st.out.noteHeader st.haveTrackNo header body = out at *
  generalize header.getD 2 0 = id at *
  generalize header.getD 1 0 = track at *
  simp only [hfound]
  cases hset : st.out.found.toBitVec.getLsbD id.toNat with
  | true =>
    have hne : ¬st.out.found &&& 1 <<< id.toUInt32 = 0 := by
      rw [hzero, hset]
      simp
    rw [if_neg hne, if_pos rfl, if_pos rfl, if_neg hne]
    refine ⟨?_, hbad, hforeign, rfl, hnote.1, hnote.2, rfl, rfl⟩
    intro i hi
    by_cases hin : i = id.toNat
    · simp [hfound, hin, hset]
    · simp [hfound, hin]
  | false =>
    rw [if_pos (hzero.mpr hset), if_neg Bool.false_ne_true, if_neg Bool.false_ne_true,
      if_pos (hzero.mpr hset)]
    refine ⟨?_, hbad, hforeign, rfl, hnote.1, hnote.2, rfl, rfl⟩
    intro i hi
    simp only
    rw [UInt32.toBitVec_or, BitVec.getLsbD_or, hbit i hi]

-- ---------------------------------------------------------------------------
-- The notes hold
-- ---------------------------------------------------------------------------

section
variable {mfm adf : Bytes} {nsec : Nat} {st : DecodeState} {t : Touched}

theorem Noted.read (h : Noted mfm adf nsec st t) (hb : b < mfm.length * 8) :
    Noted mfm adf nsec st { t with reads := b / 8 :: t.reads } := by
  refine { h with reads := ?_ }
  intro i hi
  rcases List.mem_cons.mp hi with rfl | hi
  · omega
  · exact h.reads i hi

theorem Noted.tries (h : Noted mfm adf nsec st t) (hbody : body + bodyBits ≤ mfm.length * 8) :
    (∀ i ∈ realignReads body secBodyBytes ++ t.reads, i < mfm.length) ∧
      ∀ b ∈ body :: t.bodies, b + bodyBits ≤ mfm.length * 8 := by
  constructor
  · intro i hi
    rcases List.mem_append.mp hi with hi | hi
    · exact realignReads_lt hbody i hi
    · exact h.reads i hi
  · intro b hb
    rcases List.mem_cons.mp hb with rfl | hb
    · exact hbody
    · exact h.bodies b hb

theorem ofNat_succ (n : Nat) : UInt16.ofNat (n + 1) = UInt16.ofNat n + 1 :=
  UInt16.ofNat_add n 1

/-- A body that is no sector is counted, and leaves the output as it is. -/
theorem Noted.refused (h : Noted mfm adf nsec st t) (hbody : body + bodyBits ≤ mfm.length * 8)
    (hno : ∀ header data, verdict mfm nsec body ≠ .sector header data) :
    Noted mfm adf nsec (st.candidate mfm nsec body).2
      { reads := realignReads body secBodyBytes ++ t.reads, bodies := body :: t.bodies
        stores := storesOf st (verdict mfm nsec body) ++ t.stores } := by
  obtain ⟨hreads, hbodies⟩ := h.tries hbody
  have hver : ∀ i data, Verified mfm nsec (body :: t.bodies) i data ↔
      Verified mfm nsec t.bodies i data := by
    intro i data
    rw [verified_cons]
    constructor
    · rintro (⟨header, hv, -⟩ | hv)
      · exact absurd hv (hno header data)
      · exact hv
    · exact Or.inr
  have htrack : (∀ b ∈ body :: t.bodies, ∀ header data,
        verdict mfm nsec b = .sector header data → header.getD 1 0 = st.out.trackNo) ↔
      ∀ b ∈ t.bodies, ∀ header data,
        verdict mfm nsec b = .sector header data → header.getD 1 0 = st.out.trackNo := by
    constructor
    · exact fun hall b hb => hall b (List.mem_cons_of_mem _ hb)
    · intro hall b hb header data hv
      rcases List.mem_cons.mp hb with rfl | hb
      · exact absurd hv (hno header data)
      · exact hall b hb header data hv
  have hfound : ∀ i < 32, st.out.found.toBitVec.getLsbD i = true ↔
      ∃ data, Verified mfm nsec (body :: t.bodies) i data := by
    intro i hi
    simp only [hver]
    exact h.found i hi
  have hheld : ∀ i < 32, st.out.found.toBitVec.getLsbD i = true →
      Verified mfm nsec (body :: t.bodies) i
        (slice st.adfOut (i * sectorDataBytes) sectorDataBytes) := by
    intro i hi hset
    rw [hver]
    exact h.held i hi hset
  have hknown : st.haveTrackNo = true ↔ ∃ i data, Verified mfm nsec (body :: t.bodies) i data := by
    simp only [hver]
    exact h.known
  rw [candidate_eq]
  cases hv : verdict mfm nsec body with
  | bad =>
    refine ⟨hreads, hbodies, h.size, hfound, hheld, h.kept, h.stored, h.once, ?_, ?_, hknown,
      h.track.trans htrack.symm⟩
    · rw [List.countP_cons_of_pos (by simp [hv]), ofNat_succ, ← h.bad]
    · rw [List.countP_cons_of_neg (by simp [hv]), ← h.foreign]
  | foreign =>
    refine ⟨hreads, hbodies, h.size, hfound, hheld, h.kept, h.stored, h.once, ?_, ?_, hknown,
      h.track.trans htrack.symm⟩
    · rw [List.countP_cons_of_neg (by simp [hv]), ← h.bad]
    · rw [List.countP_cons_of_pos (by simp [hv]), ofNat_succ, ← h.foreign]
  | sector header data => exact absurd hv (hno header data)

/-- A body that is a sector is stored, unless an earlier one was. -/
theorem Noted.taken (h : Noted mfm adf nsec st t) (hbody : body + bodyBits ≤ mfm.length * 8)
    (hnsec : nsec ≤ mfmMaxSectors) (hadf : adf.length = nsec * sectorDataBytes)
    (hv : verdict mfm nsec body = .sector header data) :
    Noted mfm adf nsec (st.candidate mfm nsec body).2
      { reads := realignReads body secBodyBytes ++ t.reads, bodies := body :: t.bodies
        stores := storesOf st (verdict mfm nsec body) ++ t.stores } := by
  obtain ⟨hreads, hbodies⟩ := h.tries hbody
  obtain ⟨hid, hdata, -⟩ := verdict_sector hv
  have hmax : nsec ≤ 22 := hnsec
  obtain ⟨hfound, hbad, hforeign, hknown, htrack, hcons, hout, hstores⟩ :=
    accept_spec st header data body (Nat.lt_of_lt_of_le hid hnsec)
  have hver : ∀ i d, Verified mfm nsec (body :: t.bodies) i d ↔
      ((header.getD 2 0).toNat = i ∧ data = d) ∨ Verified mfm nsec t.bodies i d := by
    intro i d
    rw [verified_cons, hv]
    constructor
    · rintro (⟨header', he, hi⟩ | hold)
      · cases he
        exact Or.inl ⟨hi, rfl⟩
      · exact Or.inr hold
    · rintro (⟨hi, rfl⟩ | hold)
      · exact Or.inl ⟨header, rfl, hi⟩
      · exact Or.inr hold
  have hfit : (header.getD 2 0).toNat * sectorDataBytes + data.length ≤ st.adfOut.length := by
    rw [hdata, h.size, hadf]
    exact block_le hid
  rw [candidate_eq, hv]
  dsimp only
  rw [hstores]
  generalize st.accept header data body = st' at *
  generalize (header.getD 2 0).toNat = n at *
  have hother : ∀ i, i ≠ n → slice st'.adfOut (i * sectorDataBytes) sectorDataBytes =
      slice st.adfOut (i * sectorDataBytes) sectorDataBytes := by
    intro i hin
    rw [hout]
    split
    · rfl
    · rw [slice_blit_disjoint hfit]
      rw [hdata]
      rcases Nat.lt_or_gt_of_ne hin with hlt | hlt
      · exact .inl (block_le hlt)
      · exact .inr (block_le hlt)
  refine ⟨hreads, hbodies, ?_, ?_, ?_, ?_, ?_, ?_, ?_, ?_, ?_, ?_⟩
  · rw [hout]
    split
    · exact h.size
    · rw [length_blit hfit, h.size]
  · intro i hi
    rw [hfound i hi, Bool.or_eq_true, decide_eq_true_eq, h.found i hi]
    simp only [hver]
    constructor
    · rintro (⟨d, hd⟩ | rfl)
      · exact ⟨d, Or.inr hd⟩
      · exact ⟨data, Or.inl ⟨rfl, rfl⟩⟩
    · rintro ⟨d, ⟨rfl, -⟩ | hd⟩
      · exact Or.inr rfl
      · exact Or.inl ⟨d, hd⟩
  · intro i hi hset
    rw [hver]
    by_cases hin : i = n
    · subst hin
      cases hold : st.out.found.toBitVec.getLsbD i with
      | true =>
        rw [hout, if_pos hold]
        exact Or.inr (h.held i hi hold)
      | false =>
        have hself := slice_blit_self hfit
        rw [hdata] at hself
        rw [hout, if_neg (by rw [hold]; simp), hself]
        exact Or.inl ⟨rfl, rfl⟩
    · rw [hfound i hi, decide_eq_false hin, Bool.or_false] at hset
      rw [hother i hin]
      exact Or.inr (h.held i hi hset)
  · intro i hi hunset
    rw [hfound i (by omega), Bool.or_eq_false_iff, decide_eq_false_iff_not] at hunset
    rw [hother i hunset.2]
    exact h.kept i hi hunset.1
  · intro i hi
    rw [hfound i hi, List.mem_append, h.stored i hi, Bool.or_eq_true, decide_eq_true_eq]
    cases hold : st.out.found.toBitVec.getLsbD n with
    | true =>
      simp only [if_true, List.not_mem_nil, false_or]
      constructor
      · exact Or.inl
      · rintro (hset | rfl)
        · exact hset
        · exact hold
    | false =>
      simp only [Bool.false_eq_true, if_false, List.mem_singleton]
      exact Or.comm
  · cases hold : st.out.found.toBitVec.getLsbD n with
    | true => exact h.once
    | false =>
      simp only [Bool.false_eq_true, if_false, List.singleton_append, List.nodup_cons]
      refine ⟨?_, h.once⟩
      rw [h.stored n (by omega), hold]
      simp
  · rw [hbad, List.countP_cons_of_neg (by simp [hv]), ← h.bad]
  · rw [hforeign, List.countP_cons_of_neg (by simp [hv]), ← h.foreign]
  · simp only [hver]
    exact ⟨fun _ => ⟨n, data, Or.inl ⟨rfl, rfl⟩⟩, fun _ => hknown⟩
  · have hall : (∀ b ∈ body :: t.bodies, ∀ hd d, verdict mfm nsec b = .sector hd d →
          hd.getD 1 0 = st'.out.trackNo) ↔
        header.getD 1 0 = st'.out.trackNo ∧ ∀ b ∈ t.bodies, ∀ hd d,
          verdict mfm nsec b = .sector hd d → hd.getD 1 0 = st'.out.trackNo := by
      constructor
      · intro hall
        exact ⟨hall body (List.mem_cons_self ..) header data hv,
          fun b hb => hall b (List.mem_cons_of_mem _ hb)⟩
      · rintro ⟨hfirst, hrest⟩ b hb hd d hvb
        rcases List.mem_cons.mp hb with rfl | hb
        · rw [hv] at hvb
          cases hvb
          exact hfirst
        · exact hrest b hb hd d hvb
    rw [hall, hcons, Bool.and_eq_true, h.track, htrack]
    cases hhave : st.haveTrackNo with
    | true =>
      simp only [if_true, Bool.not_true, Bool.false_or, beq_iff_eq]
      exact And.comm
    | false =>
      have hnone : ∀ b ∈ t.bodies, ∀ hd d, verdict mfm nsec b ≠ .sector hd d := by
        intro b hb hd d hvb
        have := h.known.mpr ⟨_, d, b, hb, hd, hvb, rfl⟩
        rw [hhave] at this
        cases this
      simp only [Bool.not_false, Bool.true_or, and_true, Bool.false_eq_true, if_false, true_and]
      exact ⟨fun _ b hb hd d hvb => absurd hvb (hnone b hb hd d),
        fun _ b hb hd d hvb => absurd hvb (hnone b hb hd d)⟩

theorem Noted.tried (h : Noted mfm adf nsec st t) (hbody : body + bodyBits ≤ mfm.length * 8)
    (hnsec : nsec ≤ mfmMaxSectors) (hadf : adf.length = nsec * sectorDataBytes) :
    Noted mfm adf nsec (st.candidate mfm nsec body).2
      { reads := realignReads body secBodyBytes ++ t.reads, bodies := body :: t.bodies
        stores := storesOf st (verdict mfm nsec body) ++ t.stores } := by
  by_cases hv : ∃ header data, verdict mfm nsec body = .sector header data
  · obtain ⟨header, data, hv⟩ := hv
    exact h.taken hbody hnsec hadf hv
  · exact h.refused hbody fun header data he => hv ⟨header, data, he⟩

theorem Noted.run (h : Noted mfm adf nsec st t) (hnsec : nsec ≤ mfmMaxSectors)
    (hadf : adf.length = nsec * sectorDataBytes) (b : Nat) (sr : UInt32) :
    Noted mfm adf nsec (decodeTouched mfm nsec b sr st t).1
      (decodeTouched mfm nsec b sr st t).2 := by
  induction hk : mfm.length * 8 - b using Nat.strong_induction_on generalizing b sr st t with
  | _ k ih =>
    rw [decodeTouched]
    by_cases hb : b < mfm.length * 8
    · have hread := h.read hb
      rw [if_pos hb]
      dsimp only
      by_cases hno : b < 31 ∨ shiftIn mfm b sr ≠ 0x44894489
      · rw [if_pos hno]
        exact ih _ (by omega) hread _ _ rfl
      · rw [if_neg hno]
        by_cases hend : b + 1 + bodyBits > mfm.length * 8
        · rw [if_pos hend]
          exact hread
        · rw [if_neg hend]
          have htried := hread.tried (show b + 1 + bodyBits ≤ mfm.length * 8 by omega) hnsec hadf
          generalize st.candidate mfm nsec (b + 1) = c at htried ⊢
          obtain ⟨good, st'⟩ := c
          dsimp only at htried ⊢
          cases good with
          | true =>
            rw [if_pos rfl]
            exact ih _ (by omega) htried _ _ rfl
          | false =>
            rw [if_neg Bool.false_ne_true]
            exact ih _ (by omega) htried _ _ rfl
    · rw [if_neg hb]
      exact h

theorem noted_start (mfm adf : Bytes) (nsec : Nat) :
    Noted mfm adf nsec ⟨emptyResult, false, adf⟩ ⟨[], [], []⟩ where
  reads := nofun
  bodies := nofun
  size := rfl
  found := by simp [emptyResult, Verified]
  held := by simp [emptyResult]
  kept := fun _ _ _ => rfl
  stored := by simp [emptyResult]
  once := List.nodup_nil
  bad := rfl
  foreign := rfl
  known := by simp [Verified]
  track := by simp [emptyResult]

end

-- ---------------------------------------------------------------------------
-- The whole run
-- ---------------------------------------------------------------------------

/-- `header` and `data` are a sector body's, and both its checksums hold. -/
structure Checked (sec header data : Bytes) : Prop where
  start : header = mfmJoinOddEven sec 4
  content : data = mfmJoinOddEven (sec.drop 56) sectorDataBytes
  headerSum : mfmChecksum (header ++ mfmJoinOddEven (sec.drop 8) 16) 20 =
    headerBe32 (mfmJoinOddEven (sec.drop 40) 4)
  dataSum : mfmChecksum data sectorDataBytes = headerBe32 (mfmJoinOddEven (sec.drop 48) 4)

theorem readBody_checked (h : readBody sec = some (header, data)) : Checked sec header data := by
  rw [readBody] at h
  split at h
  · rename_i hsums
    cases h
    exact ⟨rfl, rfl, hsums.1, hsums.2⟩
  · cases h

theorem mfmDecodeTouched_noted (mfm : Bytes) (hadf : adf.length = nsec * sectorDataBytes) :
    Noted mfm adf nsec (mfmDecodeTouched mfm adf nsec).1 (mfmDecodeTouched mfm adf nsec).2 := by
  rw [mfmDecodeTouched]
  by_cases hbad : nsec = 0 ∨ nsec > mfmMaxSectors
  · rw [if_pos hbad]
    exact noted_start mfm adf nsec
  · rw [if_neg hbad]
    exact (noted_start mfm adf nsec).run (by omega) hadf 0 0

/-- On any bytes the decoder reads only those bytes, stores a sector if and only
if it reports it found, from a body inside them whose checksums hold, and leaves
the rest of the output alone. A sector that has no room is counted and not
stored; one that names another track is stored, and the report says so. -/
theorem mfmDecodeTrackRn_noise (mfm : Bytes) (hadf : adf.length = nsec * sectorDataBytes) :
    let st := (mfmDecodeTouched mfm adf nsec).1
    let t := (mfmDecodeTouched mfm adf nsec).2
    mfmDecodeTrackRn mfm adf nsec = (st.out, st.adfOut) ∧
      (∀ i ∈ t.reads, i < mfm.length) ∧ st.adfOut.length = adf.length ∧
      (∀ i < 32, i ∈ t.stores ↔ st.out.found.toBitVec.getLsbD i = true) ∧ t.stores.Nodup ∧
      (∀ i < 32, st.out.found.toBitVec.getLsbD i = true → i < nsec ∧
        ∃ body ∈ t.bodies, body + bodyBits ≤ mfm.length * 8 ∧ ∃ header,
          Checked (realign mfm body secBodyBytes) header
            (slice st.adfOut (i * sectorDataBytes) sectorDataBytes) ∧
          (header.getD 2 0).toNat = i) ∧
      (∀ i < nsec, st.out.found.toBitVec.getLsbD i = false →
        slice st.adfOut (i * sectorDataBytes) sectorDataBytes =
          slice adf (i * sectorDataBytes) sectorDataBytes) ∧
      st.out.foreignSectors =
        UInt16.ofNat (t.bodies.countP fun body => verdict mfm nsec body = .foreign) ∧
      st.out.badChecksums =
        UInt16.ofNat (t.bodies.countP fun body => verdict mfm nsec body = .bad) ∧
      (st.out.trackNoConsistent = true ↔ ∀ body ∈ t.bodies, ∀ header data,
        verdict mfm nsec body = .sector header data → header.getD 1 0 = st.out.trackNo) := by
  have h := mfmDecodeTouched_noted mfm hadf
  refine ⟨mfmDecodeTouched_fst mfm adf nsec, h.reads, h.size, h.stored, h.once, ?_, h.kept,
    h.foreign, h.bad, h.track⟩
  intro i hi hset
  obtain ⟨body, hbody, header, hv, hid⟩ := h.held i hi hset
  obtain ⟨hlt, -, hread⟩ := verdict_sector hv
  exact ⟨by omega, body, hbody, h.bodies body hbody, header, readBody_checked hread, hid⟩

-- ---------------------------------------------------------------------------
-- Sectors of two tracks in one capture
-- ---------------------------------------------------------------------------

theorem readBody_fields (nsec : Nat) (trackNo : UInt8) (n : Nat)
    (hdata : data.length = sectorDataBytes) :
    readBody (sectorFields (headerAndLabel nsec trackNo n) data) =
      some ([0xff, trackNo, UInt8.ofNat n, UInt8.ofNat (nsec - n)], data) := by
  obtain ⟨hh, hl, hhs, hds, hd⟩ := sectorFields_at (length_headerAndLabel nsec trackNo n) hdata
  have hfield (off : Nat) {m : Nat} {src : Bytes} (hm : src.length = m)
      (hraw : slice (sectorFields (headerAndLabel nsec trackNo n) data) off (2 * m) =
        splitLanes src) :
      mfmJoinOddEven ((sectorFields (headerAndLabel nsec trackNo n) data).drop off) m = src := by
    rw [mfmJoinOddEven, ← joinLanes_take, ← hm]
    rw [← hm] at hraw
    exact (congrArg (joinLanes · src.length) hraw).trans (joinLanes_splitLanes src)
  have header := hfield 0 (m := 4) rfl hh
  have label := hfield 8 (m := 16) rfl hl
  have hdrsum := hfield 40 (m := 4) rfl hhs
  have datsum := hfield 48 (m := 4) rfl hds
  have sector := hfield 56 hdata hd
  have hsum (v : UInt32) : headerBe32 (longBytes v) = v := long_longBytes v
  rw [List.drop_zero] at header
  rw [readBody, header, label, hdrsum, datsum, sector, hsum, hsum, mfmChecksum, mfmChecksum,
    List.take_append_drop, List.take_of_length_le (length_headerAndLabel nsec trackNo n).le,
    List.take_of_length_le hdata.le]
  exact if_pos ⟨rfl, rfl⟩

/-- Fewer than 32 bits after a reset are no sync word. -/
theorem Shifted.early (h : Shifted mfm p (b + 1) sr) (hb : b < p + 31)
    (hfirst : bitAt mfm p = false) : sr ≠ 0x44894489 := by
  rintro rfl
  have hone := h 30 (by decide)
  rw [show (0x44894489 : UInt32).toBitVec.getLsbD 30 = true from rfl, eq_comm,
    Bool.and_eq_true, decide_eq_true_eq] at hone
  rw [show b + 1 - 1 - 30 = p by omega, hfirst] at hone
  exact Bool.false_ne_true hone.2

/-- A sync word right after a reset is a candidate. -/
theorem decodeBits_sync (hsync : ∀ k < 32, bitAt mfm (p + k) = syncBit k)
    (hfit : p + 32 + bodyBits ≤ mfm.length * 8) (nsec : Nat) (st : DecodeState) :
    ∃ sr, decodeBits mfm nsec p 0 st =
      (let (good, st') := st.candidate mfm nsec (p + 32)
      if good then decodeBits mfm nsec (p + 32 + bodyBits) 0 st'
      else decodeBits mfm nsec (p + 32) sr st') := by
  have hwalk : ∀ k ≤ 31, ∃ sr, Shifted mfm p (p + k) sr ∧
      decodeBits mfm nsec p 0 st = decodeBits mfm nsec (p + k) sr st := by
    intro k hk
    induction k with
    | zero => exact ⟨0, Shifted.reset mfm p, rfl⟩
    | succ k ih =>
      obtain ⟨sr, hreg, hrun⟩ := ih (by omega)
      have hstep := hreg.step (Nat.le_add_right p k)
      have hearly := hstep.early (by omega) (hsync 0 (by decide))
      refine ⟨_, hstep, ?_⟩
      rw [hrun, decodeBits, if_pos (by omega)]
      dsimp only
      rw [if_pos (Or.inr hearly)]
      rfl
  obtain ⟨sr, hreg, hrun⟩ := hwalk 31 (Nat.le_refl _)
  have hstep := hreg.step (Nat.le_add_right p 31)
  have hword := Shifted.eq_sync hstep (Nat.le_refl _) hsync
  refine ⟨0x44894489, ?_⟩
  rw [hrun, decodeBits, if_pos (by omega)]
  dsimp only
  rw [hword, if_neg (by simp), if_neg (by omega)]

/-- A sector laid anywhere the search resets is taken up, whatever track it names. -/
theorem decodeBits_rawSector (pre post : Bytes) (trackNo : UInt8) (st : DecodeState)
    (hn : n < nsec) (hnsec : nsec ≤ mfmMaxSectors) (hdata : data.length = sectorDataBytes) :
    decodeBits (pre ++ (rawSector (headerAndLabel nsec trackNo n) data ++ post)) nsec
        (8 * pre.length) 0 st =
      decodeBits (pre ++ (rawSector (headerAndLabel nsec trackNo n) data ++ post)) nsec
        (8 * (pre.length + 1084)) 0
        (st.accept [0xff, trackNo, UInt8.ofNat n, UInt8.ofNat (nsec - n)] data
          (8 * pre.length + 32)) := by
  have hmax : nsec ≤ 22 := hnsec
  have hbits : bodyBits = 8640 := rfl
  have hfields := length_sectorFields (length_headerAndLabel nsec trackNo n) hdata
  have hraw := length_rawSector (length_headerAndLabel nsec trackNo n) hdata
  have hid : (UInt8.ofNat n).toNat = n := by
    rw [UInt8.toNat_ofNat']
    omega
  have hsync : ∀ k < 32, bitAt (pre ++ (rawSector (headerAndLabel nsec trackNo n) data ++ post))
      (8 * pre.length + k) = syncBit k := by
    intro k hk
    obtain ⟨i, j, rfl, hi, hj⟩ : ∃ i j, k = 8 * i + j ∧ i < 4 ∧ j < 8 :=
      ⟨k / 8, k % 8, by omega, by omega, by omega⟩
    rw [← Nat.add_assoc, ← Nat.mul_add, bitAt_byte _ _ hj,
      List.getD_append_right _ _ _ _ (Nat.le_add_right _ _), Nat.add_sub_cancel_left,
      List.getD_append _ _ _ _ (by omega), rawSector, List.getD_append _ _ _ _ hi]
    interval_cases i <;> interval_cases j <;> rfl
  have hbody : realign (pre ++ (rawSector (headerAndLabel nsec trackNo n) data ++ post))
      (8 * pre.length + 32) secBodyBytes = sectorFields (headerAndLabel nsec trackNo n) data := by
    rw [realign, if_pos (by omega), show (8 * pre.length + 32) / 8 = pre.length + 4 by omega, slice,
      ← List.drop_drop, List.drop_left' rfl, rawSector, List.append_assoc,
      List.drop_left' (show sync.length = 4 from rfl)]
    exact List.take_left' hfields
  obtain ⟨sr, hrun⟩ := decodeBits_sync hsync (by
    rw [List.length_append, List.length_append, hraw, hbits]
    omega) nsec st
  rw [hrun, DecodeState.candidate, hbody, readBody_fields nsec trackNo n hdata]
  have hroom : ¬n ≥ nsec := Nat.not_le.mpr hn
  simp only [List.getD_cons_succ, List.getD_cons_zero, hid, if_neg hroom, if_true]
  rw [show 8 * pre.length + 32 + bodyBits = 8 * (pre.length + 1084) by omega]

theorem decodeBits_end (h : mfm.length * 8 ≤ b) (nsec : Nat) (sr : UInt32) (st : DecodeState) :
    decodeBits mfm nsec b sr st = st := by
  rw [decodeBits, if_neg (by omega)]

/-- A sector of track 0 and one of track 1, one after the other. -/
def twoTracks : Bytes :=
  rawSector (headerAndLabel sectors 0 0) (List.replicate sectorDataBytes 0) ++
    rawSector (headerAndLabel sectors 1 1) (List.replicate sectorDataBytes 0)

/-- The second sector names another track than the first, and is stored. -/
theorem other_track_stored :
    let r := mfmDecodeTrackRn twoTracks (List.replicate trackDataBytes 7) sectors
    r.1.found = 3 ∧ r.1.trackNo = 0 ∧ r.1.foreignSectors = 0 ∧ r.1.trackNoConsistent = false ∧
      slice r.2 sectorDataBytes sectorDataBytes = List.replicate sectorDataBytes 0 := by
  have hzero : (List.replicate sectorDataBytes (0 : UInt8)).length = sectorDataBytes :=
    List.length_replicate ..
  have hraw : (rawSector (headerAndLabel sectors 0 0) (List.replicate sectorDataBytes 0)).length =
      1084 := length_rawSector rfl hzero
  have hraw' : (rawSector (headerAndLabel sectors 1 1) (List.replicate sectorDataBytes 0)).length =
      1084 := length_rawSector rfl hzero
  obtain ⟨st, hst⟩ : ∃ st : DecodeState,
      st = ⟨emptyResult, false, List.replicate trackDataBytes 7⟩ := ⟨_, rfl⟩
  have hfirst := decodeBits_rawSector [] (rawSector (headerAndLabel sectors 1 1)
    (List.replicate sectorDataBytes 0)) 0 st (show 0 < sectors by decide) (by decide) hzero
  have hsecond := fun st => decodeBits_rawSector (rawSector (headerAndLabel sectors 0 0)
    (List.replicate sectorDataBytes 0)) [] 1 st (show 1 < sectors by decide) (by decide) hzero
  rw [List.nil_append, ← twoTracks] at hfirst
  rw [List.append_nil, ← twoTracks, hraw] at hsecond
  have hlen : twoTracks.length = 2168 := by rw [twoTracks, List.length_append, hraw, hraw']
  have hrun : mfmDecodeTrackRn twoTracks (List.replicate trackDataBytes 7) sectors =
      (let st' := (st.accept [0xff, 0, UInt8.ofNat 0, UInt8.ofNat (sectors - 0)]
          (List.replicate sectorDataBytes 0) 32).accept
          [0xff, 1, UInt8.ofNat 1, UInt8.ofNat (sectors - 1)] (List.replicate sectorDataBytes 0) 8704
      (st'.out, st'.adfOut)) := by
    rw [List.length_nil, Nat.mul_zero, Nat.zero_add, Nat.zero_add] at hfirst
    rw [mfmDecodeTrackRn, if_neg (by decide), ← hst, hfirst, hsecond, decodeBits_end (by omega)]
  -- The first sector sets the track number, the second one does not agree with it.
  obtain ⟨hfound, -, hforeign, hknown, htrack, -, hout, -⟩ := accept_spec st
    [0xff, 0, UInt8.ofNat 0, UInt8.ofNat (sectors - 0)]
    (List.replicate sectorDataBytes 0) 32 (by decide)
  generalize st.accept [0xff, 0, UInt8.ofNat 0, UInt8.ofNat (sectors - 0)]
    (List.replicate sectorDataBytes 0) 32 = st1 at *
  obtain ⟨hfound2, -, hforeign2, -, htrack2, hcons2, hout2, -⟩ := accept_spec st1
    [0xff, 1, UInt8.ofNat 1, UInt8.ofNat (sectors - 1)]
    (List.replicate sectorDataBytes 0) 8704 (by decide)
  rw [hrun]
  dsimp only
  generalize st1.accept [0xff, 1, UInt8.ofNat 1, UInt8.ofNat (sectors - 1)]
    (List.replicate sectorDataBytes 0) 8704 = st2 at *
  have h1 : st1.out.trackNo = 0 := by rw [htrack, hst]; rfl
  have hunset : st1.out.found.toBitVec.getLsbD 1 = false := by
    rw [hfound 1 (by decide), hst]
    rfl
  refine ⟨?_, ?_, ?_, ?_, ?_⟩
  · apply UInt32.toBitVec_inj.mp
    apply BitVec.eq_of_getLsbD_eq
    intro i hi
    rw [hfound2 i hi, hfound i hi, hst]
    interval_cases i <;> rfl
  · rw [htrack2, hknown, if_pos rfl, h1]
  · rw [hforeign2, hforeign, hst]
    rfl
  · rw [hcons2, hknown, h1]
    simp
  · have hblank : (List.replicate trackDataBytes (7 : UInt8)).length = trackDataBytes :=
      List.length_replicate ..
    have hfit : 512 + (List.replicate sectorDataBytes (0 : UInt8)).length ≤ trackDataBytes := by
      rw [hzero]
      decide
    have hsize : st1.adfOut.length = trackDataBytes := by
      rw [hout, hst, if_neg (by decide), length_blit, hblank]
      rw [hblank, hzero]
      decide
    rw [hout2, show (([0xff, 1, UInt8.ofNat 1, UInt8.ofNat (sectors - 1)] : Bytes).getD 2 0).toNat =
      1 from rfl, if_neg (by rw [hunset]; exact Bool.false_ne_true)]
    have hself : slice (blit st1.adfOut 512 (List.replicate sectorDataBytes 0)) 512
        (List.replicate sectorDataBytes (0 : UInt8)).length = List.replicate sectorDataBytes 0 :=
      slice_blit_self (by rw [hsize]; exact hfit)
    rw [hzero] at hself
    exact hself

theorem mfmDecodeTrackRn_noise_two :
    (mfmDecodeTouched twoTracks (List.replicate trackDataBytes 7) sectors).1.adfOut.length =
      trackDataBytes :=
  have hadf : (List.replicate trackDataBytes (7 : UInt8)).length = sectors * sectorDataBytes :=
    List.length_replicate ..
  (mfmDecodeTrackRn_noise twoTracks hadf).2.2.1.trans hadf

end WebAdf.Firmware
