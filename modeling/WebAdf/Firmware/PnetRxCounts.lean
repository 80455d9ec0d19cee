import WebAdf.Firmware.PnetRxCells

/-!
# What the raw decoder writes

After the sync, measured or implied, each interval of an Amiga's gaps adds that
gap's cells, until one no longer fits. A gap of 24 cells or more needs two
lengths among the samples, for the fit. The interval after a measured sync must
not be a sync again: that one takes the first's place.
-/

namespace WebAdf.Firmware

open Lib

namespace PnetRx

-- ---------------------------------------------------------------------------
-- The samples along a capture
-- ---------------------------------------------------------------------------

theorem Cal.sampled {r : PnetRx} (h : r.Cal S) (hn : n ≤ 16) (hk : r.calK < 64) :
    (r.sampled n t).Cal ((n, t) :: S) := by
  rw [PnetRx.sampled, if_neg (by omega)]
  refine ⟨?_, ?_, ?_, ?_, ?_, .inl rfl⟩
  · simp only [List.length_cons, h.k]
  · simp only [List.map_cons, List.sum_cons, h.sn, Nat.add_comm]
  · simp only [List.map_cons, List.sum_cons, h.snn, Nat.add_comm]
  · simp only [List.map_cons, List.sum_cons, h.st, Nat.add_comm]
  · simp only [List.map_cons, List.sum_cons, h.snt, Nat.add_comm]

theorem Cal.full {r : PnetRx} (h : r.Cal S) (hk : 64 ≤ r.calK) : (r.sampled n t).Cal S := by
  rw [PnetRx.sampled, if_pos (.inl hk)]
  exact h

theorem length_pos {S : List (Nat × Nat)} (ha : a ∈ S) (hb : b ∈ S) (hne : a.1 ≠ b.1) :
    2 ≤ S.length := by
  match S with
  | [] => simp at ha
  | [c] =>
    rw [List.mem_singleton] at ha hb
    exact absurd (by rw [ha, hb]) hne
  | _ :: _ :: _ => simp

/-- Two lengths among the samples, and the fit counts. -/
theorem refit_counts {r : PnetRx} (ham : AmigaCell c p) (hcal : r.Cal S) (hS : Samples16 c p S)
    (ha : a ∈ S) (hb : b ∈ S) (hne : a.1 ≠ b.1) (hn : n ≤ 64) (ht : Reads c p n t) :
    r.refit.2 = true ∧ r.refit.1.byFit t = n ∧ r.refit.1.Cal S := by
  have hden := den_pos hcal ha hb hne
  have hnear := calCell_near ham hcal hS hden
  have hk : 2 ≤ r.calK := by
    rw [hcal.k]
    exact length_pos ha hb hne
  have hlow := calLow_near hcal hS (by omega) hnear
  have hc := ham.cell
  have hrange : 16 * 1900 ≤ r.calCell ∧ r.calCell ≤ 16 * 2010 := by
    have h : ((16 * 1900 : Int) : ℝ) ≤ r.calCell ∧ (r.calCell : ℝ) ≤ ((16 * 2010 : Int) : ℝ) := by
      push_cast
      constructor <;> linarith
    exact_mod_cast h
  have hnat : ((r.calCell.toNat : Nat) : Int) = r.calCell := Int.toNat_of_nonneg (by omega)
  have hnatR : ((r.calCell.toNat : Nat) : ℝ) = r.calCell := by exact_mod_cast hnat
  rw [refit]
  obtain hzero | ⟨hc16, hp16⟩ := hcal.fit
  · rw [if_neg (not_not.mpr hzero), if_neg (by omega), if_neg (by omega)]
    refine ⟨rfl, byFit_eq ham hn ht ?_ hlow, ?_⟩
    · simp only [hnatR]
      exact hnear
    · exact ⟨hcal.k, hcal.sn, hcal.snn, hcal.st, hcal.snt, .inr ⟨rfl, rfl⟩⟩
  · rw [if_pos (by omega)]
    refine ⟨rfl, byFit_eq ham hn ht ?_ (by rw [hp16]; exact hlow), hcal⟩
    rw [hc16, hnatR]
    exact hnear

/-- The lengths of up to 16 cells among `gaps`, the first `m` of them. -/
def shortGaps (m : Nat) (gaps : List Nat) : List Nat := (gaps.filter fun n => n ≤ 16).take m

/-- The samples after the gaps `done`, where the sync left room for `m` of them. -/
structure Sampled (m : Nat) (done : List Nat) (S : List (Nat × Nat)) : Prop where
  room : S.length + m = 64 + min m (done.filter fun n => n ≤ 16).length
  held : ∀ n ∈ shortGaps m done, ∃ t, (n, t) ∈ S

theorem Sampled.long (h : Sampled m done S) (hn : 16 < n) : Sampled m (done ++ [n]) S := by
  have hfilter : (done ++ [n]).filter (fun n => n ≤ 16) = done.filter fun n => n ≤ 16 := by
    simp [List.filter_append, hn]
  refine ⟨by rw [hfilter]; exact h.room, ?_⟩
  rw [shortGaps, hfilter]
  exact h.held

theorem Sampled.short (h : Sampled m done S) (hn : n ≤ 16) :
    Sampled m (done ++ [n]) (if S.length < 64 then (n, t) :: S else S) := by
  have hfilter : (done ++ [n]).filter (fun n => n ≤ 16) = (done.filter fun n => n ≤ 16) ++ [n] := by
    simp [List.filter_append, hn]
  have hroom := h.room
  constructor
  case room =>
    rw [hfilter, List.length_append, List.length_singleton]
    split
    · rw [List.length_cons]
      omega
    · omega
  case held =>
    intro a ha
    rw [shortGaps, hfilter, List.take_append] at ha
    obtain hold | hnew := List.mem_append.mp ha
    · obtain ⟨u, hu⟩ := h.held a hold
      split
      · exact ⟨u, List.mem_cons_of_mem _ hu⟩
      · exact ⟨u, hu⟩
    · have hpos : 0 < m - (done.filter fun n => n ≤ 16).length := by
        by_contra hle
        rw [show m - (done.filter fun n => n ≤ 16).length = 0 by omega] at hnew
        simp at hnew
      obtain rfl : a = n := by
        have := List.mem_of_mem_take hnew
        simpa using this
      rw [if_pos (by omega)]
      exact ⟨t, List.mem_cons_self ..⟩

-- ---------------------------------------------------------------------------
-- One gap
-- ---------------------------------------------------------------------------

/-- The decoder has counted `done` after the sync, and holds `bits`. -/
structure Tracks (m : Nat) (c p : ℝ) (r : PnetRx) (done : List Nat) (bits : List Bool) : Prop where
  inv : r.Inv bits
  synced : r.Synced c p
  samples : ∃ S, r.Cal S ∧ Samples16 c p S ∧ Sampled m done S
  running : r.overflowed = false
  hunted : r.syncOk = true ∧ r.huntFailed = false

/-- Two lengths of at most 16 cells are sampled before each gap of 24 or more. -/
def Varied (m : Nat) (gaps : List Nat) : Prop :=
  ∀ before n after, gaps = before ++ n :: after → 24 ≤ n →
    ∃ a ∈ shortGaps m before, ∃ b ∈ shortGaps m before, a ≠ b

theorem Synced.samples {r r' : PnetRx} (h : r.Synced c p) (hs : r.Samples r') : r'.Synced c p := by
  obtain ⟨k, sn, snn, st, snt, cc, pp, rfl⟩ := hs.same
  exact ⟨h.low⟩

/-- A gap is counted, and sampled when it is short. -/
theorem Tracks.counted {r : PnetRx} (h : Tracks m c p r done bits) (ham : AmigaCell c p)
    (hn : 1 ≤ n ∧ n ≤ 64) (ht : Reads c p n t)
    (hlong : 24 ≤ n → ∃ a ∈ shortGaps m done, ∃ b ∈ shortGaps m done, a ≠ b) :
    (r.counted t).2 = n ∧ Tracks m c p (r.counted t).1 (done ++ [n]) bits := by
  obtain ⟨S, hcal, hS, hsampled⟩ := h.samples
  have hclamp := clamped_reads ham hn.2 ht
  have hsamples := counted_samples r t
  have hinv := h.inv.samples hsamples (counted_ok h.inv.cal h.inv.low)
  have hrunning : (r.counted t).1.overflowed = false ∧
      (r.counted t).1.syncOk = true ∧ (r.counted t).1.huntFailed = false := by
    obtain ⟨k, sn, snn, st, snt, cc, pp, hsame⟩ := hsamples.same
    rw [hsame]
    exact ⟨h.running, h.hunted⟩
  suffices hmain : (r.counted t).2 = n ∧
      ∃ S, (r.counted t).1.Cal S ∧ Samples16 c p S ∧ Sampled m (done ++ [n]) S from
    ⟨hmain.1, hinv, h.synced.samples hsamples, hmain.2, hrunning.1, hrunning.2⟩
  rw [PnetRx.counted]
  by_cases hlarge : 24 ≤ n
  · have hnom := nominal_long ham h.synced ⟨hlarge, hn.2⟩ ht
    obtain ⟨a, ha, b, hb, hne⟩ := hlong hlarge
    obtain ⟨ta, hta⟩ := hsampled.held a ha
    obtain ⟨tb, htb⟩ := hsampled.held b hb
    obtain ⟨hfit, hcount, hcal'⟩ := refit_counts ham hcal hS hta htb hne hn.2 ht
    rw [if_neg (by omega), if_pos hnom, hfit, if_pos rfl]
    exact ⟨hcount, S, hcal', hS, hsampled.long (by omega)⟩
  · have hnom := nominal_eq ham h.synced ⟨hn.1, by omega⟩ ht
    rw [hnom, hclamp]
    by_cases hshort : n ≤ 16
    · rw [if_pos hshort]
      have hnext := hsampled.short (t := t) hshort
      refine ⟨rfl, _, ?_, ?_, hnext⟩
      · split
        · exact hcal.sampled hshort (by rw [hcal.k]; assumption)
        · exact hcal.full (by rw [hcal.k]; omega)
      · split
        · rintro a ha
          obtain rfl | ha := List.mem_cons.mp ha
          · exact ⟨hshort, ht⟩
          · exact hS a ha
        · exact hS
    · rw [if_neg hshort, if_neg hlarge]
      exact ⟨rfl, S, hcal, hS, hsampled.long (by omega)⟩

theorem Beside.tracks {r r' : PnetRx} (hb : r.Beside r') (h : Tracks m c p r done bits)
    (hinv : r'.Inv bits') (hrunning : r'.overflowed = false) : Tracks m c p r' done bits' := by
  obtain ⟨S, hcal, hS, hsampled⟩ := h.samples
  have hsynced := h.synced
  have hhunted := h.hunted
  rw [Beside] at hb
  refine ⟨hinv, ?_, ⟨S, ?_, hS, hsampled⟩, hrunning, ?_⟩
  · rw [hb]
    exact ⟨hsynced.low⟩
  · rw [hb]
    exact ⟨hcal.k, hcal.sn, hcal.snn, hcal.st, hcal.snt, hcal.fit⟩
  · rw [hb]
    exact hhunted

/-- A gap adds its cells, or ends the capture where they do not fit. -/
theorem Tracks.decode {r : PnetRx} (h : Tracks m c p r done bits) (ham : AmigaCell c p)
    (hn : 1 ≤ n ∧ n ≤ 64) (ht : Reads c p n t)
    (hlong : 24 ≤ n → ∃ a ∈ shortGaps m done, ∃ b ∈ shortGaps m done, a ≠ b) :
    ∃ r', r.decode t = some r' ∧ r'.words = r.words ∧ r'.capBits = r.capBits ∧
      if bits.length + n ≤ r.capBits then Tracks m c p r' (done ++ [n]) (bits ++ gapBits n)
      else r'.Inv bits ∧ r'.overflowed = true := by
  obtain ⟨hcells, htracks⟩ := h.counted ham hn ht hlong
  obtain ⟨r', hemit, hbeside, -, hfit⟩ := emit_ok htracks.inv (show 1 ≤ n from hn.1)
  obtain ⟨k, sn, snn, st, snt, cc, pp, hsame⟩ := (counted_samples r t).same
  have hcap : (r.counted t).1.capBits = r.capBits := by rw [hsame]
  rw [Nat.min_eq_left hn.2, hcap] at hfit
  refine ⟨r', ?_, ?_, hbeside.capBits.trans hcap, ?_⟩
  · rw [PnetRx.decode, h.running, if_neg Bool.false_ne_true, count_eq h.inv.cal h.inv.low]
    simp only [Option.bind_eq_bind, Option.bind_some, hcells, hemit]
  · rw [hbeside.words, hsame]
  · split
    · rename_i hroom
      rw [if_pos hroom] at hfit
      exact hbeside.tracks htracks hfit.1 (hfit.2.trans htracks.running)
    · rename_i hroom
      rwa [if_neg hroom] at hfit

theorem Tracks.told {r : PnetRx} (h : Tracks m c p r done bits) (words : Nat) :
    Tracks m c p { r with words := words } done bits := by
  obtain ⟨S, hcal, hS, hsampled⟩ := h.samples
  exact ⟨h.inv.told words r.leadNs r.syncNs r.syncOk r.implied, ⟨h.synced.low⟩,
    ⟨S, ⟨hcal.k, hcal.sn, hcal.snn, hcal.st, hcal.snt, hcal.fit⟩, hS, hsampled⟩, h.running, h.hunted⟩

end PnetRx

-- ---------------------------------------------------------------------------
-- The rest of a capture
-- ---------------------------------------------------------------------------

/-- Nothing more is written after the buffer ran out. -/
theorem pnetRxFeed_stopped {r : PnetRx} (h : r.Inv bits) (ho : r.overflowed = true) (ns : Nat) :
    ∃ r', pnetRxFeed r ns = some r' ∧ r'.Inv bits ∧ r'.overflowed = true := by
  have hcount := h.told (bump r.words) r.leadNs r.syncNs r.syncOk r.implied
  rw [pnetRxFeed]
  dsimp only
  split
  · exact ⟨_, rfl, h.told (bump r.words) ns r.syncNs r.syncOk r.implied, ho⟩
  split
  · exact ⟨_, rfl, hcount, ho⟩
  split
  · rename_i himplied
    have htwo : 2020 ≤ ns ∧ ns ≤ 4130 := PnetRx.inRange_iff.mp himplied.2.2.2
    have hlow : -130 ≤ ((2 * pnetCellNs : Nat) : Int) - ns ∧
        ((2 * pnetCellNs : Nat) : Int) - ns ≤ 1980 := by
      simp only [pnetCellNs]
      omega
    have hpw := i32_ok (z := ((2 * pnetCellNs : Nat) : Int) - ns) (by omega)
    rw [hpw]
    simp only [Option.bind_eq_bind, Option.bind_some]
    refine ⟨_, if_pos ho, { h.told (bump r.words) r.leadNs ns true true with low := hlow, cal := ?_ }, ho⟩
    exact ⟨h.cal.k, h.cal.sn, h.cal.snn, h.cal.st, h.cal.snt, h.cal.fit⟩
  split
  · obtain ⟨r', hhunt, hinv, -, hover, -⟩ := hcount.hunt_ok ns
    exact ⟨r', hhunt, hinv, hover.trans ho⟩
  · exact ⟨_, if_pos ho, hcount, ho⟩

theorem pnetRxFeeds_stopped (values : List Nat) {r : PnetRx} (h : r.Inv bits)
    (ho : r.overflowed = true) : ∃ r', pnetRxFeeds r values = some r' ∧ r'.Inv bits := by
  induction values generalizing r with
  | nil => exact ⟨r, rfl, h⟩
  | cons ns rest ih =>
    obtain ⟨r₁, hfeed, hinv, hover⟩ := pnetRxFeed_stopped h ho ns
    obtain ⟨r', hrest, hinv'⟩ := ih hinv hover
    exact ⟨r', by rw [pnetRxFeeds, hfeed, Option.bind_some, hrest], hinv'⟩

/-- After the sync a value is an interval, but for a second sync straight after it. -/
theorem pnetRxFeed_synced {r : PnetRx} (h : PnetRx.Tracks m c p r done bits) (hw : 2 ≤ r.words)
    (hdata : bits = [] → inRange ns pnetRxSyncMinNs pnetRxSyncMaxNs = false) :
    pnetRxFeed r ns = { r with words := bump r.words }.decode ns := by
  obtain ⟨hsync, hfailed⟩ := h.hunted
  have hbranch : (!r.syncOk || (r.bit == 0 && inRange ns pnetRxSyncMinNs pnetRxSyncMaxNs)) = false := by
    rw [hsync, h.inv.bit]
    cases bits with
    | nil => simp [hdata rfl]
    | cons _ _ => simp
  rw [pnetRxFeed]
  simp only [hfailed, hbranch, Bool.false_eq_true, if_false]
  rw [if_neg (by omega), if_neg (by rintro ⟨h1, -⟩; omega)]

/-- The bits of the gaps, as far as they fit in `room` bits. -/
def fitting (room : Nat) : List Nat → List Bool
  | [] => []
  | n :: rest => if n ≤ room then PnetRx.gapBits n ++ fitting (room - n) rest else []

/-- From the sync on, the capture of an Amiga's gaps. -/
theorem pnetRxFeeds_tracks (ham : AmigaCell c p) {gaps ts : List Nat}
    (hreads : List.Forall₂ (Reads c p) gaps ts) {r : PnetRx}
    (h : PnetRx.Tracks m c p r done bits) (hgaps : ∀ n ∈ gaps, 1 ≤ n ∧ n ≤ 64)
    (hvaried : PnetRx.Varied m (done ++ gaps)) (hw : 2 ≤ r.words)
    (hcount : r.words + (r.capBits - bits.length) < 2 ^ 32)
    (hdata : bits = [] → ∀ t ∈ ts.head?, inRange t pnetRxSyncMinNs pnetRxSyncMaxNs = false) :
    ∃ r', pnetRxFeeds r ts = some r' ∧
      r'.Inv (bits ++ fitting (r.capBits - bits.length) gaps) := by
  induction hreads generalizing r done bits with
  | nil =>
    refine ⟨r, rfl, ?_⟩
    rw [fitting, List.append_nil]
    exact h.inv
  | @cons n t gaps ts ht hreads ih =>
    have hn := hgaps n (List.mem_cons_self ..)
    have hfeed := pnetRxFeed_synced h hw fun hnil => hdata hnil t rfl
    obtain ⟨r₁, hdecode, hwords, hcap, hnext⟩ :=
      (h.told (bump r.words)).decode ham hn ht (hvaried done n gaps rfl)
    simp only at hwords hcap hnext
    rw [pnetRxFeeds, hfeed, hdecode, Option.bind_some, fitting]
    by_cases hroom : bits.length + n ≤ r.capBits
    · have hbump := bump_of_lt (show r.words + 1 < 2 ^ 32 by omega)
      rw [if_pos hroom] at hnext
      have hlen : (bits ++ PnetRx.gapBits n).length = bits.length + n := by
        rw [List.length_append, PnetRx.gapBits_length hn.1]
      obtain ⟨r', hrest, hinv⟩ := ih hnext (fun k hk => hgaps k (List.mem_cons_of_mem _ hk))
        (by rwa [List.append_assoc, List.singleton_append]) (by omega) (by omega)
        (fun hnil => by rw [hnil] at hlen; simp at hlen; omega)
      refine ⟨r', hrest, ?_⟩
      rw [if_pos (by omega), ← List.append_assoc]
      rwa [hlen, hcap, ← Nat.sub_sub] at hinv
    · rw [if_neg hroom] at hnext
      rw [if_neg (by omega), List.append_nil]
      exact pnetRxFeeds_stopped ts hnext.1 hnext.2

-- ---------------------------------------------------------------------------
-- The sync
-- ---------------------------------------------------------------------------

/-- The samples fit the decoder's sums by themselves. -/
theorem PnetRx.Tracks.start {r : PnetRx} (h : r.Inv []) (hs : r.Synced c p) (hcal : r.Cal S)
    (hS : PnetRx.Samples16 c p S) (hroom : S.length + m = 64) (ho : r.overflowed = false)
    (hhunted : r.syncOk = true ∧ r.huntFailed = false) : PnetRx.Tracks m c p r [] [] := by
  refine ⟨h, hs, ⟨S, hcal, hS, by simpa using hroom, ?_⟩, ho, hhunted⟩
  simp [PnetRx.shortGaps]

/-- The decoder has not been refused, and has decoded nothing. -/
structure PnetRx.Hunting (r : PnetRx) : Prop where
  bit : r.bit = 0
  hunted : r.huntFailed = false
  running : r.overflowed = false

/-- A measured sync, the first or one that takes another's place. -/
theorem measured_sync {r : PnetRx} (h : r.Inv []) (hunting : r.Hunting) (hw : 1 ≤ r.words)
    (hw' : r.words + 1 < 2 ^ 32) (hs : Reads c p 16 s)
    (hwin : inRange s pnetRxSyncMinNs pnetRxSyncMaxNs = true) :
    ∃ r', pnetRxFeed r s = some r' ∧ PnetRx.Tracks 63 c p r' [] [] ∧ r'.words = r.words + 1 ∧
      r'.capBits = r.capBits := by
  have hrange : 30020 ≤ s ∧ s ≤ 32130 := PnetRx.inRange_iff.mp hwin
  obtain ⟨r', hhunt, hinv, hwords, hover, -⟩ :=
    (h.told (bump r.words) r.leadNs r.syncNs r.syncOk r.implied).hunt_ok s
  have hnottwo : inRange s pnetRxTwoMinNs pnetRxTwoMaxNs = false := by
    rw [← Bool.not_eq_true, PnetRx.inRange_iff]
    rintro ⟨-, hle⟩
    have hmax : pnetRxTwoMaxNs = 4130 := rfl
    omega
  have hfeed : pnetRxFeed r s = some r' := by
    rw [pnetRxFeed, ← hhunt]
    simp only [hunting.hunted, hnottwo, hunting.bit, hwin, Bool.false_eq_true, if_false, and_false,
      beq_self_eq_true, Bool.and_true, Bool.or_true, if_true]
    rw [if_neg (by omega)]
  rw [hwin, PnetRx.hunt] at hhunt
  have hpw := i32_ok (z := ((pnetSyncCells * pnetCellNs : Nat) : Int) - s) (by
    simp only [pnetSyncCells, pnetCellNs]
    omega)
  have hadd := fun q : PnetRx => PnetRx.calAdd_eq (n := pnetSyncCells) (PnetRx.calReset_ok q)
    (show s ≤ 34130 by omega)
  simp only [if_true, hpw, Option.bind_eq_bind, Option.bind_some, hadd, Option.some.injEq] at hhunt
  have hfields : r'.pwNs = (16 * 2000 : Nat) - (s : Int) ∧ r'.Cal [(16, s)] ∧
      r'.syncOk = true ∧ r'.huntFailed = false ∧ r'.capBits = r.capBits := by
    rw [← hhunt]
    split
    · refine ⟨rfl, ⟨rfl, rfl, rfl, ?_, ?_, .inl rfl⟩, rfl, hunting.hunted, rfl⟩
      · simp [PnetRx.sampled, PnetRx.calReset, pnetSyncCells]
      · simp [PnetRx.sampled, PnetRx.calReset, pnetSyncCells]
    · refine ⟨rfl, ⟨rfl, rfl, rfl, ?_, ?_, .inl rfl⟩, rfl, hunting.hunted, rfl⟩
      · simp [PnetRx.sampled, PnetRx.calReset, pnetSyncCells]
      · simp [PnetRx.sampled, PnetRx.calReset, pnetSyncCells]
  obtain ⟨hlow, hcal, hsync, hfailed, hcap⟩ := hfields
  refine ⟨r', hfeed, ?_, ?_, hcap⟩
  · refine PnetRx.Tracks.start hinv ⟨16, s, .inr rfl, hlow, hs⟩ hcal ?_ rfl
      (hover.trans hunting.running) ⟨hsync, hfailed⟩
    simp only [PnetRx.Samples16, List.mem_singleton]
    rintro a rfl
    exact ⟨Nat.le_refl _, hs⟩
  · rw [hwords]
    exact bump_of_lt hw'

/-- What was written is `bits`. -/
structure PnetRx.Writes (r : PnetRx) (bits : List Bool) : Prop where
  bit : r.bit = bits.length
  holds : ∀ b < bits.length, bitAt r.buf b = bits.getD b false

theorem PnetRx.Inv.writes {r : PnetRx} (h : r.Inv bits) : r.Writes bits := by
  refine ⟨h.bit, ?_⟩
  intro b hb
  have hcleared := h.cleared
  exact h.holds b (by omega)

theorem pnetRxFeeds_append (xs ys : List Nat) (r : PnetRx) :
    pnetRxFeeds r (xs ++ ys) = (pnetRxFeeds r xs).bind fun r => pnetRxFeeds r ys := by
  induction xs generalizing r with
  | nil => rfl
  | cons x xs ih =>
    simp only [List.cons_append, pnetRxFeeds, Option.bind_assoc]
    congr 1
    funext r
    exact ih r

theorem measured_writes (ham : AmigaCell c p) {before gaps ts : List Nat}
    (hreads : List.Forall₂ (Reads c p) gaps ts) (hgaps : ∀ n ∈ gaps, 1 ≤ n ∧ n ≤ 64)
    (hroom : 8 * buf.length + 64 < 2 ^ 32)
    (hbefore : pnetRxFeeds (pnetRxInit buf prearmed) before = some r) (hne : before ≠ [])
    (hunting : r.Hunting) (hlen : before.length + 1 + 8 * buf.length < 2 ^ 32)
    (hs : Reads c p 16 s) (hwin : inRange s pnetRxSyncMinNs pnetRxSyncMaxNs = true)
    (hdata : ∀ t ∈ ts.head?, inRange t pnetRxSyncMinNs pnetRxSyncMaxNs = false)
    (hvaried : PnetRx.Varied 63 gaps) :
    ∃ r', pnetRxFeeds (pnetRxInit buf prearmed) (before ++ s :: ts) = some r' ∧
      r'.Writes (fitting (8 * buf.length) gaps) := by
  obtain ⟨r₀, bits, hr, hinv, hsize, -, -, hwords⟩ :=
    pnetRxFeeds_ok before (pnetRxInit_inv buf prearmed hroom)
  obtain rfl : r = r₀ := Option.some.inj (hbefore.symm.trans hr)
  have hnil : bits = [] := List.eq_nil_of_length_eq_zero (hinv.bit.symm.trans hunting.bit)
  rw [hnil] at hinv
  have hpos := List.length_pos_of_ne_nil hne
  have hcount : r.words = before.length := by
    rw [hwords (by simp only [pnetRxInit]; omega)]
    exact Nat.zero_add _
  have hcap : r.capBits = 8 * buf.length := hinv.cap.trans (congrArg _ hsize)
  obtain ⟨r₁, hfeed, htracks, hw, hcap₁⟩ :=
    measured_sync hinv hunting (by omega) (by omega) hs hwin
  obtain ⟨r', hrest, hinv'⟩ := pnetRxFeeds_tracks ham hreads htracks hgaps hvaried (by omega)
    (by rw [hw, hcap₁, hcap, hcount, List.length_nil]; omega) (fun _ => hdata)
  refine ⟨r', ?_, ?_⟩
  · rw [pnetRxFeeds_append, hbefore, Option.bind_some, pnetRxFeeds, hfeed, Option.bind_some, hrest]
  · rw [hcap₁, hcap] at hinv'
    exact hinv'.writes

/-- A sync implied by a gap of two cells straight after the first edge. -/
theorem implied_writes (ham : AmigaCell c p) {gaps ts : List Nat}
    (hreads : List.Forall₂ (Reads c p) (2 :: gaps) ts) (hgaps : ∀ n ∈ gaps, 1 ≤ n ∧ n ≤ 64)
    (hroom : 8 * buf.length + 64 < 2 ^ 32) (hlead : pnetRxImpliedLeadNs ≤ lead)
    (hvaried : PnetRx.Varied 64 (2 :: gaps)) :
    ∃ r', pnetRxFeeds (pnetRxInit buf false) (lead :: ts) = some r' ∧
      r'.Writes (fitting (8 * buf.length) (2 :: gaps)) := by
  cases hreads with
  | @cons _ t _ ts ht hreads =>
  have hb := ht.bounds
  have hc := ham.cell
  have hp := ham.low
  have htwo : 2020 ≤ t ∧ t ≤ 4130 := by
    have h : ((2020 : Nat) : ℝ) ≤ t ∧ (t : ℝ) ≤ ((4130 : Nat) : ℝ) := by
      push_cast at hb ⊢
      constructor <;> linarith
    exact_mod_cast h
  have hwin : inRange t pnetRxTwoMinNs pnetRxTwoMaxNs = true := PnetRx.inRange_iff.mpr htwo
  have hpw := i32_ok (z := ((2 * pnetCellNs : Nat) : Int) - t) (by
    simp only [pnetCellNs]
    omega)
  -- the decoder as the implied sync leaves it
  let r₀ : PnetRx := { pnetRxInit buf false with
    words := 2, leadNs := lead, syncOk := true, implied := true, syncNs := t,
    pwNs := ((2 * pnetCellNs : Nat) : Int) - t }
  have hinit := pnetRxInit_inv buf false hroom
  have hlow : r₀.LowOk := by
    have hpw₀ : r₀.pwNs = ((2 * pnetCellNs : Nat) : Int) - t := rfl
    have hcell : pnetCellNs = 2000 := rfl
    constructor <;> omega
  have hinv : r₀.Inv [] :=
    ⟨hinit.room, hinit.cap, hinit.bit, hinit.fits, hinit.cleared, hinit.holds, hlow,
      ⟨hinit.cal.k, hinit.cal.sn, hinit.cal.snn, hinit.cal.st, hinit.cal.snt, hinit.cal.fit⟩⟩
  have htracks : PnetRx.Tracks 64 c p r₀ [] [] :=
    .start hinv ⟨2, t, .inl rfl, rfl, ht⟩ (S := []) ⟨rfl, rfl, rfl, rfl, rfl, .inl rfl⟩
      (by simp [PnetRx.Samples16]) rfl rfl ⟨rfl, rfl⟩
  have hfeeds : pnetRxFeeds (pnetRxInit buf false) (lead :: t :: ts) =
      (r₀.decode t).bind fun r => pnetRxFeeds r ts := by
    have h0 : pnetRxFeed (pnetRxInit buf false) lead =
        some { pnetRxInit buf false with words := 1, leadNs := lead } := rfl
    rw [pnetRxFeeds, h0, Option.bind_some, pnetRxFeeds]
    congr 1
    rw [pnetRxFeed]
    simp only [Nat.one_ne_zero, if_false, hwin, hpw, Option.bind_eq_bind, Option.bind_some]
    rw [if_neg (show ¬(pnetRxInit buf false).huntFailed = true from Bool.false_ne_true),
      if_pos ⟨trivial, rfl, hlead, trivial⟩]
    rfl
  obtain ⟨r₁, hdecode, hw, hcap, hnext⟩ :=
    htracks.decode ham (by omega) ht (fun h => absurd h (by decide))
  have hcap₀ : r₀.capBits = 8 * buf.length := Nat.mul_comm ..
  rw [hcap₀] at hcap hnext
  rw [List.length_nil, Nat.zero_add] at hnext
  rw [hfeeds, hdecode, Option.bind_some, fitting]
  by_cases hfit : 2 ≤ 8 * buf.length
  · rw [if_pos hfit] at hnext
    obtain ⟨r', hrest, hinv'⟩ := pnetRxFeeds_tracks ham hreads hnext hgaps hvaried
      (by rw [hw]) (by rw [hw, hcap, show r₀.words = 2 from rfl]; omega) (fun h => by simp [PnetRx.gapBits] at h)
    refine ⟨r', hrest, ?_⟩
    rw [if_pos hfit]
    rw [hcap] at hinv'
    exact hinv'.writes
  · rw [if_neg hfit] at hnext
    obtain ⟨r', hrest, hinv'⟩ := pnetRxFeeds_stopped ts hnext.1 hnext.2
    refine ⟨r', hrest, ?_⟩
    rw [if_neg hfit]
    exact hinv'.writes

-- ---------------------------------------------------------------------------
-- Real captures, and any
-- ---------------------------------------------------------------------------

/-- Two lengths before the first long gap, among as many as are sampled. -/
theorem PnetRx.varied_of {first rest : List Nat} (ha : a ∈ PnetRx.shortGaps m first)
    (hb : b ∈ PnetRx.shortGaps m first) (hne : a ≠ b) (hshort : ∀ n ∈ first, n < 24) :
    PnetRx.Varied m (first ++ rest) := by
  intro before n after hgaps hn
  obtain ⟨more, hbefore⟩ : ∃ more, before = first ++ more := by
    obtain ⟨more, hmore, -⟩ | ⟨more, hmore, -⟩ := List.append_eq_append_iff.mp hgaps
    · exact ⟨more, hmore⟩
    · cases more with
      | nil => exact ⟨[], by rw [hmore, List.append_nil, List.append_nil]⟩
      | cons k more =>
        have hk : n = k := by simp_all
        have hlt := hshort k (by rw [hmore]; simp)
        omega
  have hmem : ∀ x ∈ PnetRx.shortGaps m first, x ∈ PnetRx.shortGaps m before := by
    intro x hx
    rw [hbefore, PnetRx.shortGaps, List.filter_append, List.take_append]
    exact List.mem_append_left _ hx
  exact ⟨a, hmem a ha, b, hmem b hb, hne⟩

/-- An Amiga's gaps are counted exactly, and no capture at all leaves a type or
the buffer. -/
theorem pnetRx_counts :
    (∀ c p : ℝ, AmigaCell c p → ∀ (buf : Bytes) (gaps ts : List Nat),
      8 * buf.length + 64 < 2 ^ 32 → (∀ n ∈ gaps, 1 ≤ n ∧ n ≤ 64) →
      List.Forall₂ (Reads c p) gaps ts →
      (∀ (prearmed : Bool) (before : List Nat) (r : PnetRx) (s : Nat),
        pnetRxFeeds (pnetRxInit buf prearmed) before = some r → before ≠ [] → r.Hunting →
        before.length + 1 + 8 * buf.length < 2 ^ 32 → Reads c p 16 s →
        inRange s pnetRxSyncMinNs pnetRxSyncMaxNs = true →
        (∀ t ∈ ts.head?, inRange t pnetRxSyncMinNs pnetRxSyncMaxNs = false) →
        PnetRx.Varied 63 gaps →
        ∃ r', pnetRxFeeds (pnetRxInit buf prearmed) (before ++ s :: ts) = some r' ∧
          r'.Writes (fitting (8 * buf.length) gaps)) ∧
      (∀ lead : Nat, pnetRxImpliedLeadNs ≤ lead → gaps.head? = some 2 → PnetRx.Varied 64 gaps →
        ∃ r', pnetRxFeeds (pnetRxInit buf false) (lead :: ts) = some r' ∧
          r'.Writes (fitting (8 * buf.length) gaps))) ∧
    ∀ (buf : Bytes) (prearmed : Bool) (values : List Nat), 8 * buf.length + 64 < 2 ^ 32 →
      ∃ r, pnetRxFeeds (pnetRxInit buf prearmed) values = some r ∧
        r.buf.length = buf.length ∧ pnetRxBytes r ≤ buf.length ∧ r.cleared = pnetRxBytes r ∧
        (∀ b, r.bit ≤ b → b < 8 * pnetRxBytes r → bitAt r.buf b = false) ∧
        r.huntN ≤ values.length ∧ r.outOfRange ≤ values.length ∧
        (values.length < 2 ^ 32 → r.words = values.length) := by
  refine ⟨?_, ?_⟩
  · intro c p ham buf gaps ts hroom hgaps hreads
    refine ⟨?_, ?_⟩
    · intro prearmed before r s hbefore hne hunting hlen hs hwin hdata hvaried
      exact measured_writes ham hreads hgaps hroom hbefore hne hunting hlen hs hwin hdata hvaried
    · intro lead hlead hhead hvaried
      cases gaps with
      | nil => cases hhead
      | cons n gaps =>
        obtain rfl : n = 2 := Option.some.inj hhead
        exact implied_writes ham hreads (fun k hk => hgaps k (List.mem_cons_of_mem _ hk)) hroom
          hlead hvaried
  · intro buf prearmed values hroom
    obtain ⟨r, bits, hfeeds, hinv, hsize, hhunt, hoor, hwords⟩ :=
      pnetRxFeeds_ok values (pnetRxInit_inv buf prearmed hroom)
    have hcap := hinv.cap
    have hfits := hinv.fits
    have hbit := hinv.bit
    have hcleared : r.cleared = pnetRxBytes r := by rw [hinv.cleared, pnetRxBytes, hbit]
    have hlen : (pnetRxInit buf prearmed).buf.length = buf.length := rfl
    refine ⟨r, hfeeds, hsize, ?_, hcleared, ?_, ?_, ?_, ?_⟩
    · rw [pnetRxBytes]
      omega
    · intro b hb hlt
      rw [hinv.holds b (by omega), List.getD_eq_getElem?_getD, List.getElem?_eq_none (by omega)]
      rfl
    · exact hhunt.trans_eq (Nat.zero_add _)
    · exact hoor.trans_eq (Nat.zero_add _)
    · intro hlt
      exact (hwords ((Nat.zero_add _).trans_lt hlt)).trans (Nat.zero_add _)

theorem reads_of {c p : ℝ} {n t : Nat} (h : -1 / 2 ≤ (t : ℝ) - (n * c - p) ∧ (t : ℝ) - (n * c - p) ≤ 1 / 2) :
    Reads c p n t := abs_le.mpr ⟨by linarith [h.1], h.2⟩

/-- An empty batch's header, of a PAL Amiga, after either sync. -/
theorem pnetRx_counts_header :
    (∃ r', pnetRxFeeds (pnetRxInit (List.replicate 9 0xff) true)
        [26000, 30884, 3248, 5222, 115766] = some r' ∧ r'.Writes (fitting 72 [2, 3, 59])) ∧
    (∃ r', pnetRxFeeds (pnetRxInit (List.replicate 9 0xff) false)
        [9000, 3248, 5222, 115766] = some r' ∧ r'.Writes (fitting 72 [2, 3, 59])) ∧
    ∃ r, pnetRxFeeds (pnetRxInit (List.replicate 9 0xff) false) [9000, 31000, 4294967295] = some r ∧
      r.cleared = pnetRxBytes r := by
  have ham : AmigaCell 1974 700 := ⟨by norm_num, by norm_num⟩
  have hreads : List.Forall₂ (Reads 1974 700) [2, 3, 59] [3248, 5222, 115766] :=
    .cons (reads_of (by norm_num)) (.cons (reads_of (by norm_num)) (.cons (reads_of (by norm_num)) .nil))
  have hvaried : ∀ m, 2 ≤ m → PnetRx.Varied m ([2, 3] ++ [59]) := by
    intro m hm
    refine PnetRx.varied_of (a := 2) (b := 3) ?_ ?_ (by decide) (by decide)
    · simp [PnetRx.shortGaps, List.take_of_length_le, hm]
    · simp [PnetRx.shortGaps, List.take_of_length_le, hm]
  obtain ⟨hmeasured, himplied⟩ := pnetRx_counts.1 1974 700 ham (List.replicate 9 0xff) [2, 3, 59]
    [3248, 5222, 115766] (by decide) (by decide) hreads
  obtain ⟨r, hr, -, -, hcleared, -⟩ :=
    pnetRx_counts.2 (List.replicate 9 0xff) false [9000, 31000, 4294967295] (by decide)
  refine ⟨?_, himplied 9000 (by decide) rfl (hvaried 64 (by decide)), r, hr, hcleared⟩
  exact hmeasured true [26000] _ 30884 rfl (by simp) ⟨rfl, rfl, rfl⟩ (by decide)
    (reads_of (by norm_num)) (by decide) (by decide) (hvaried 63 (by decide))

/-- An NTSC cell and a long pulse leave the sync shorter than its window, and it is
never found; a first gap of 16 cells takes the sync's place; and 64 samples of one
length leave no fit, with which a gap of 59 cells is counted 58. -/
theorem pnetRx_miscounts :
    (¬∀ c p : ℝ, AmigaCell c p → ∀ (buf : Bytes) (gaps ts : List Nat) (lead s : Nat),
      8 * buf.length + 64 < 2 ^ 32 → (∀ n ∈ gaps, 1 ≤ n ∧ n ≤ 64) →
      (∀ before n after, gaps = before ++ n :: after → 24 ≤ n →
        ∃ a ∈ before, ∃ b ∈ before, a ≤ 16 ∧ b ≤ 16 ∧ a ≠ b) →
      List.Forall₂ (Reads c p) gaps ts → Reads c p 16 s →
      ∃ r', pnetRxFeeds (pnetRxInit buf false) (lead :: s :: ts) = some r' ∧
        r'.Writes (fitting (8 * buf.length) gaps)) ∧
    (Reads 1974 700 16 30884 ∧ List.Forall₂ (Reads 1974 700) [16, 2] [30884, 3248] ∧
      (pnetRxFeeds (pnetRxInit (List.replicate 4 0) false) [9000, 30884, 30884, 3248]).map
        PnetRx.bit = some 2 ∧ (fitting 32 [16, 2]).length = 18) ∧
    (List.Forall₂ (Reads 1955 700) [2, 3, 59] [3210, 5165, 114645] ∧
      (pnetRxFeeds (pnetRxInit (List.replicate 30 0) false)
        (9000 :: (List.replicate 64 3210 ++ [5165, 114645]))).map PnetRx.bit = some 189 ∧
      (fitting 240 (List.replicate 64 2 ++ [3, 59])).length = 190) := by
  refine ⟨?_, ⟨reads_of (by norm_num), ?_, by decide, by decide⟩, ?_,
    by decide, by rfl⟩
  · intro h
    obtain ⟨r', hfeeds, hwrites⟩ := h 1955 1700 ⟨by norm_num, by norm_num⟩ (List.replicate 4 0) [2, 3]
      [2210, 4165] 9000 29580 (by decide) (by decide)
      (fun before n after hgaps hn => by
        have hmem : n ∈ [2, 3] := by rw [hgaps]; simp
        simp only [List.mem_cons, List.not_mem_nil, or_false] at hmem
        omega)
      (.cons (reads_of (by norm_num)) (.cons (reads_of (by norm_num)) .nil)) (reads_of (by norm_num))
    have hbit : (pnetRxFeeds (pnetRxInit (List.replicate 4 0) false) [9000, 29580, 2210, 4165]).map
        PnetRx.bit = some 0 := by decide
    have hwritten := hwrites.bit
    rw [hfeeds, Option.map_some, Option.some.injEq] at hbit
    rw [hbit] at hwritten
    exact absurd hwritten (by decide)
  · exact .cons (reads_of (by norm_num)) (.cons (reads_of (by norm_num)) .nil)
  · exact .cons (reads_of (by norm_num)) (.cons (reads_of (by norm_num))
      (.cons (reads_of (by norm_num)) .nil))

end WebAdf.Firmware
