import WebAdf.DiskHistory.Version

/-!
# The walk equals recomputing each version

In an ascending chain the walk's image of a version is the one `materialise` replays,
so its rows show the difference of the two volumes, and it fails only where a version
from its window on cannot be replayed.
-/

namespace WebAdf.DiskHistory

open Lib Adffs

variable {σ : Type} {entries : List (VersionEntry σ)} {e p : VersionEntry σ} {read : σ → Except Thrown Bytes}
  {k : Nat} {img : Bytes}

/-- The order the versions are read in. -/
def Ascending (entries : List (VersionEntry σ)) : Prop := entries.Pairwise fun a b => a.seq < b.seq

theorem Ascending.findIdx? (h : Ascending entries) (hk : entries[k]? = some e) :
    entries.findIdx? (·.seq == e.seq) = some k := by
  obtain ⟨hlt, rfl⟩ := List.getElem?_eq_some_iff.mp hk
  rw [List.findIdx?_eq_some_iff_getElem]
  refine ⟨hlt, by simp, fun j hj => ?_⟩
  have hless := List.pairwise_iff_getElem.1 h j k (Nat.lt_trans hj hlt) hlt hj
  simp only [beq_iff_eq]
  omega

theorem checkContiguous_iff : checkContiguous entries = .ok () ↔ entries.IsChain fun a b => b.seq = a.seq + 1 := by
  constructor
  · intro h
    induction entries with
    | nil => exact .nil
    | cons a rest ih =>
      cases rest with
      | nil => exact .singleton a
      | cons b rest =>
        rw [checkContiguous] at h
        by_cases hab : b.seq ≠ a.seq + 1
        · rw [if_pos hab] at h
          cases h
        · rw [if_neg hab] at h
          exact .cons_cons (not_not.1 hab) (ih h)
  · exact checkContiguous_ok

-- ---------------------------------------------------------------------------
-- A version's image from the one before it
-- ---------------------------------------------------------------------------

/-- What `materialise` replays for the version at `k`. -/
theorem materialise_iff (h : Ascending entries) (hk : entries[k]? = some e) :
    materialise entries e.seq read = .ok img ↔ ∃ i, snapshotAt entries k = some i ∧
      ((entries.take (k + 1)).drop i).IsChain (fun a b => b.seq = a.seq + 1) ∧
        replay read ((entries.take (k + 1)).drop i) = .ok img := by
  have hne : entries.length ≠ 0 := by
    have := (List.getElem?_eq_some_iff.mp hk).1
    omega
  simp only [materialise, replayPlan, if_neg hne, h.findIdx? hk]
  cases snapshotAt entries k with
  | none => simp [bind, Except.bind, throw, throwThe, MonadExceptOf.throw]
  | some i =>
    simp only [bind_ok, checkContiguous_iff.symm]
    constructor
    · rintro ⟨plan, ⟨_, hc, hplan⟩, hr⟩
      obtain rfl := Except.ok.inj hplan
      exact ⟨i, rfl, hc, hr⟩
    · rintro ⟨j, hj, hc, hr⟩
      obtain rfl := Option.some.inj hj
      exact ⟨_, ⟨(), hc, rfl⟩, hr⟩

/-- One more delta is replayed last. -/
theorem replay_concat {first : VersionEntry σ} {rest : List (VersionEntry σ)} :
    replay read ((first :: rest) ++ [e]) = .ok img ↔ ∃ raw, replay read (first :: rest) = .ok raw ∧ replayDelta read raw e = .ok img := by
  simp only [List.cons_append, replay, bind_ok]
  constructor
  · rintro ⟨snap, hsnap, h⟩
    by_cases hi : (!isHistoryImage snap) = true
    · simp only [if_pos hi] at h
      cases h
    · simp only [if_neg hi, List.foldlM_append, List.foldlM_cons, List.foldlM_nil] at h
      obtain ⟨raw, hraw, h⟩ := bind_ok.1 h
      obtain ⟨img', himg, h⟩ := bind_ok.1 h
      obtain rfl := Except.ok.inj h
      refine ⟨raw, ⟨snap, hsnap, ?_⟩, himg⟩
      simp only [if_neg hi]
      exact hraw
  · rintro ⟨raw, ⟨snap, hsnap, hraw⟩, himg⟩
    refine ⟨snap, hsnap, ?_⟩
    by_cases hi : (!isHistoryImage snap) = true
    · simp only [if_pos hi] at hraw
      cases hraw
    · simp only [if_neg hi] at hraw ⊢
      rw [List.foldlM_append]
      refine bind_ok.2 ⟨raw, hraw, ?_⟩
      rw [List.foldlM_cons]
      exact bind_ok.2 ⟨img, himg, rfl⟩

theorem nextImage_snapshot (he : e.kind = .snapshot) (prev : Previous) : nextImage read prev e = .ok img ↔ replay read [e] = .ok img := by
  simp only [nextImage, he, replay, List.foldlM_nil]

/-- A snapshot is read as it is, whatever came before it. -/
theorem materialise_of_snapshot (h : Ascending entries) (hk : entries[k]? = some e) (he : e.kind = .snapshot) (prev : Previous) :
    materialise entries e.seq read = .ok img ↔ nextImage read prev e = .ok img := by
  have hlt : k < entries.length := (List.getElem?_eq_some_iff.mp hk).1
  have hplan : (entries.take (k + 1)).drop k = [e] := by
    rw [List.take_add_one, hk, List.drop_append_of_le_length (by rw [List.length_take]; omega)]
    simp
  rw [materialise_iff h hk, snapshotAt_snapshot hk he, nextImage_snapshot he]
  constructor
  · rintro ⟨i, hi, -, hr⟩
    obtain rfl := Option.some.inj hi
    rwa [hplan] at hr
  · intro hr
    refine ⟨k, rfl, ?_, ?_⟩
    · rw [hplan]
      exact .singleton e
    · rwa [hplan]

/-- A delta is one step over the version before it, which must be its predecessor. -/
theorem materialise_of_delta (h : Ascending entries) (hp : entries[k]? = some p) (hk : entries[k + 1]? = some e) (he : e.kind = .delta) :
    materialise entries e.seq read = .ok img ↔
      ∃ raw, materialise entries p.seq read = .ok raw ∧ e.seq = p.seq + 1 ∧ replayDelta read raw e = .ok img := by
  have hlt : k + 1 < entries.length := (List.getElem?_eq_some_iff.mp hk).1
  rw [materialise_iff h hk, snapshotAt_delta hk he]
  simp only [materialise_iff h hp]
  have hplan : ∀ i, i ≤ k → (entries.take (k + 1 + 1)).drop i = (entries.take (k + 1)).drop i ++ [e] := fun i hi => by
    rw [List.take_add_one, hk, List.drop_append_of_le_length (by rw [List.length_take]; omega)]
    rfl
  have hlast : ∀ i, i ≤ k → ∃ first rest, (entries.take (k + 1)).drop i = first :: rest ∧
      ((entries.take (k + 1)).drop i).getLast? = some p := fun i hi => by
    have hsplit : (entries.take (k + 1)).drop i = (entries.take k).drop i ++ [p] := by
      rw [List.take_add_one, hp, List.drop_append_of_le_length (by rw [List.length_take]; omega)]
      rfl
    rw [hsplit]
    cases hd : (entries.take k).drop i with
    | nil => exact ⟨p, [], rfl, by simp⟩
    | cons first rest => exact ⟨first, rest ++ [p], rfl, List.getLast?_concat⟩
  constructor
  · rintro ⟨i, hi, hc, hr⟩
    have hle := snapshotAt_le hi
    obtain ⟨first, rest, hcons, hl⟩ := hlast i hle
    rw [hplan i hle] at hc hr
    obtain ⟨hc, -, hlink⟩ := List.isChain_append.1 hc
    rw [hcons] at hr
    obtain ⟨raw, hraw, hstep⟩ := replay_concat.1 hr
    exact ⟨raw, ⟨i, hi, hc, hcons ▸ hraw⟩, hlink p hl e rfl, hstep⟩
  · rintro ⟨raw, ⟨i, hi, hc, hraw⟩, hseq, hstep⟩
    have hle := snapshotAt_le hi
    obtain ⟨first, rest, hcons, hl⟩ := hlast i hle
    refine ⟨i, hi, ?_, ?_⟩
    · rw [hplan i hle]
      refine List.isChain_append.2 ⟨hc, .singleton e, fun x hx y hy => ?_⟩
      rw [hl] at hx
      obtain rfl := Option.some.inj hx
      obtain rfl := Option.some.inj hy
      exact hseq
    · rw [hplan i hle, hcons]
      exact replay_concat.2 ⟨raw, hcons ▸ hraw, hstep⟩

/-- A chain whose first entry is a delta has no image there. -/
theorem materialise_of_delta_first (h : Ascending entries) (hk : entries[0]? = some e) (he : e.kind = .delta) :
    materialise entries e.seq read ≠ .ok img := fun hm => by
  obtain ⟨i, hi, -⟩ := (materialise_iff h hk).1 hm
  simp [snapshotAt, hk, he] at hi

-- ---------------------------------------------------------------------------
-- Where the walk starts
-- ---------------------------------------------------------------------------

theorem backToSnapshot_spec (entries : List (VersionEntry σ)) (i : Nat) :
    backToSnapshot entries i ≤ i ∧
      (backToSnapshot entries i = 0 ∨ (entries[backToSnapshot entries i]?.map (·.kind)) = some .snapshot) ∧
      ∀ j, backToSnapshot entries i < j → j ≤ i → (entries[j]?.map (·.kind)) ≠ some .snapshot := by
  induction i with
  | zero => exact ⟨Nat.le_refl 0, .inl rfl, fun j hj hle => absurd hle (Nat.not_le.2 hj)⟩
  | succ i ih =>
    rw [backToSnapshot]
    by_cases hs : (entries[i + 1]?.map (·.kind)) = some .snapshot
    · rw [if_pos hs]
      exact ⟨Nat.le_refl _, .inr hs, fun j hj hle => absurd hle (Nat.not_le.2 hj)⟩
    · rw [if_neg hs]
      obtain ⟨hle, hstart, hbetween⟩ := ih
      refine ⟨by omega, hstart, fun j hj hji => ?_⟩
      rcases Nat.lt_succ_iff_lt_or_eq.1 (Nat.lt_succ_of_le hji) with hlt | rfl
      · exact hbetween j hj (by omega)
      · exact hs

theorem kind_delta (he : e.kind ≠ .snapshot) : e.kind = .delta := by
  cases h : e.kind with
  | snapshot => exact absurd h he
  | delta => rfl

/-- If the version at `j` cannot be replayed, none is up to the next snapshot. -/
theorem not_materialise_after (h : Ascending entries) (hj : entries[j]? = some p) (hp : ∀ img, materialise entries p.seq read ≠ .ok img)
    (hle : j ≤ k) (hbetween : ∀ m, j < m → m ≤ k → (entries[m]?.map (·.kind)) ≠ some .snapshot) (hk : entries[k]? = some e) (img : Bytes) :
    materialise entries e.seq read ≠ .ok img := by
  induction k generalizing e img with
  | zero =>
    obtain rfl : j = 0 := Nat.le_zero.1 hle
    obtain rfl : p = e := Option.some.inj (hj.symm.trans hk)
    exact hp img
  | succ k ih =>
    by_cases heq : j = k + 1
    · subst heq
      obtain rfl : p = e := Option.some.inj (hj.symm.trans hk)
      exact hp img
    · have hlt : k + 1 < entries.length := (List.getElem?_eq_some_iff.mp hk).1
      have hprev : entries[k]? = some entries[k] := List.getElem?_eq_getElem (by omega)
      have hkind : e.kind = .delta := by
        have hm := hbetween (k + 1) (by omega) (Nat.le_refl _)
        rw [hk] at hm
        exact kind_delta fun hs => hm (congrArg some hs)
      intro hm
      obtain ⟨raw, hraw, -⟩ := (materialise_of_delta h hprev hk hkind).1 hm
      exact ih (by omega) (fun m hjm hmk => hbetween m hjm (by omega)) hprev raw hraw

-- ---------------------------------------------------------------------------
-- The walk
-- ---------------------------------------------------------------------------

section Walk

variable {localeCompare : Units → Units → Int} {metaBySeq : Nat → Option VersionMeta} {deviceNames : String → Option String}
  {start : Nat} {prev : Previous}

/-- What the walk holds before the entry at `k`: nothing before its start, then the
version before. -/
def Carried (entries : List (VersionEntry σ)) (read : σ → Except Thrown Bytes) (start k : Nat) (prev : Previous) : Prop :=
  if k ≤ start then prev.raw = none ∧ prev.volume = none
  else ∃ p raw, entries[k - 1]? = some p ∧ materialise entries p.seq read = .ok raw ∧
    prev = ⟨some raw, some (readVolume raw), some p.seq⟩

/-- In the walk the image of an entry is the replayed one. -/
theorem nextImage_iff (h : Ascending entries) (hc : Carried entries read start k prev) (hge : start ≤ k)
    (hstart : start = 0 ∨ (entries[start]?.map (·.kind)) = some .snapshot) (hk : entries[k]? = some e) :
    nextImage read prev e = .ok img ↔ materialise entries e.seq read = .ok img := by
  by_cases hs : e.kind = .snapshot
  · exact (materialise_of_snapshot h hk hs prev).symm
  have hd := kind_delta hs
  rw [Carried] at hc
  by_cases hle : k ≤ start
  · obtain rfl : k = start := Nat.le_antisymm hle hge
    rw [if_pos hle] at hc
    rcases hstart with rfl | hsnap
    · constructor
      · intro hn
        simp only [nextImage, hd, hc.1] at hn
        cases hn
      · intro hm
        exact absurd hm (materialise_of_delta_first h hk hd)
    · rw [hk] at hsnap
      exact absurd (Option.some.inj hsnap) hs
  · rw [if_neg hle] at hc
    obtain ⟨p, raw, hp, hraw, rfl⟩ := hc
    obtain ⟨k, rfl⟩ : ∃ j, k = j + 1 := ⟨k - 1, by omega⟩
    rw [Nat.add_sub_cancel] at hp
    rw [materialise_of_delta h hp hk hd]
    simp only [nextImage, hd, Option.any_some, decide_eq_true_eq]
    constructor
    · intro hn
      by_cases hgap : e.seq ≠ p.seq + 1
      · rw [if_pos hgap] at hn
        cases hn
      · rw [if_neg hgap] at hn
        exact ⟨raw, hraw, not_not.1 hgap, hn⟩
    · rintro ⟨raw', hraw', hseq, hn⟩
      obtain rfl := Except.ok.inj (hraw.symm.trans hraw')
      rw [if_neg (not_not.2 hseq)]
      exact hn

/-- What the row of the entry at `k` shows. -/
def ShownAt (localeCompare : Units → Units → Int) (entries : List (VersionEntry σ)) (read : σ → Except Thrown Bytes)
    (start k sectorCount : Nat) (e : VersionEntry σ) (shown : List TreeChange × Option String) : Prop :=
  if k < start then shown = ([], some (sectorSummary sectorCount))
  else ∃ img, materialise entries e.seq read = .ok img ∧
    if k = start then shown = changesFrom localeCompare none (readVolume img) k sectorCount
    else ∃ p raw, entries[k - 1]? = some p ∧ materialise entries p.seq read = .ok raw ∧
      shown = changesFrom localeCompare (some (readVolume raw)) (readVolume img) k sectorCount

theorem historyStep_ok (h : Ascending entries) (hc : Carried entries read start k prev)
    (hstart : start = 0 ∨ (entries[start]?.map (·.kind)) = some .snapshot) (hk : entries[k]? = some e)
    (hs : historyStep localeCompare read metaBySeq deviceNames start k prev e = .ok (row, prev')) :
    Carried entries read start (k + 1) prev' ∧ ∃ meta_ shown, metaBySeq e.seq = some meta_ ∧
      row = versionRow deviceNames e meta_ shown ∧ ShownAt localeCompare entries read start k meta_.sectorCount e shown := by
  rw [historyStep] at hs
  cases hm : metaBySeq e.seq with
  | none =>
    rw [hm] at hs
    cases hs
  | some meta_ =>
    rw [hm] at hs
    dsimp only at hs
    by_cases hlt : k < start
    · rw [if_pos hlt] at hs
      obtain ⟨rfl, rfl⟩ := Prod.mk.inj (Except.ok.inj hs)
      rw [Carried, if_pos (Nat.le_of_lt hlt)] at hc
      refine ⟨?_, meta_, _, rfl, rfl, ?_⟩
      · rw [Carried, if_pos (Nat.succ_le_of_lt hlt)]
        exact hc
      · rw [ShownAt, if_pos hlt]
    · rw [if_neg hlt] at hs
      have hge : start ≤ k := Nat.le_of_not_lt hlt
      obtain ⟨img, himg, hs⟩ := bind_ok.1 hs
      have hmat := (nextImage_iff h hc hge hstart hk).1 himg
      obtain ⟨rfl, rfl⟩ := Prod.mk.inj (Except.ok.inj hs)
      refine ⟨?_, meta_, _, rfl, rfl, ?_⟩
      · rw [Carried, if_neg (by omega)]
        exact ⟨e, img, hk, hmat, rfl⟩
      · rw [ShownAt, if_neg hlt]
        refine ⟨img, hmat, ?_⟩
        rw [Carried] at hc
        by_cases hle : k ≤ start
        · rw [if_pos hle] at hc
          rw [if_pos (Nat.le_antisymm hle hge), hc.2]
        · rw [if_neg hle] at hc
          obtain ⟨p, raw, hp, hraw, rfl⟩ := hc
          rw [if_neg (by omega)]
          exact ⟨p, raw, hp, hraw, rfl⟩

/-- A step goes through where there is metadata and, from the start on, an image. -/
theorem historyStep_goes (h : Ascending entries) (hc : Carried entries read start k prev)
    (hstart : start = 0 ∨ (entries[start]?.map (·.kind)) = some .snapshot) (hk : entries[k]? = some e)
    (hmeta : (metaBySeq e.seq).isSome = true) (himg : start ≤ k → ∃ img, materialise entries e.seq read = .ok img) :
    ∃ row prev', historyStep localeCompare read metaBySeq deviceNames start k prev e = .ok (row, prev') := by
  obtain ⟨meta_, hm⟩ := Option.isSome_iff_exists.1 hmeta
  rw [historyStep, hm]
  dsimp only
  by_cases hlt : k < start
  · rw [if_pos hlt]
    exact ⟨_, _, rfl⟩
  · rw [if_neg hlt]
    have hge : start ≤ k := Nat.le_of_not_lt hlt
    obtain ⟨img, hmat⟩ := himg hge
    have hnext := (nextImage_iff h hc hge hstart hk).2 hmat
    exact ⟨_, _, bind_ok.2 ⟨img, hnext, rfl⟩⟩

theorem drop_cons_of_getElem? {l : List α} {a : α} {rest : List α} (h : l.drop k = a :: rest) : l[k]? = some a ∧ l.drop (k + 1) = rest := by
  constructor
  · rw [← List.head?_drop, h]
    rfl
  · rw [← List.tail_drop, h]
    rfl

theorem historyFrom_ok (h : Ascending entries) (hstart : start = 0 ∨ (entries[start]?.map (·.kind)) = some .snapshot)
    (hrest : entries.drop k = rest) (hc : Carried entries read start k prev)
    (hs : historyFrom localeCompare read metaBySeq deviceNames start k prev rest = .ok rows) :
    rows.length = rest.length ∧ ∀ j e, rest[j]? = some e → ∃ meta_ shown, metaBySeq e.seq = some meta_ ∧
      rows[j]? = some (versionRow deviceNames e meta_ shown) ∧
      ShownAt localeCompare entries read start (k + j) meta_.sectorCount e shown := by
  induction rest generalizing k prev rows with
  | nil =>
    obtain rfl := Except.ok.inj hs
    exact ⟨rfl, fun j e hj => by simp at hj⟩
  | cons e rest ih =>
    obtain ⟨hk, hdrop⟩ := drop_cons_of_getElem? hrest
    rw [historyFrom] at hs
    obtain ⟨⟨row, prev'⟩, hstep, hs⟩ := bind_ok.1 hs
    obtain ⟨more, hmore, hs⟩ := bind_ok.1 hs
    obtain rfl := Except.ok.inj hs
    obtain ⟨hc', meta_, shown, hm, hrow, hshown⟩ := historyStep_ok h hc hstart hk hstep
    obtain ⟨hlen, hrows⟩ := ih hdrop hc' hmore
    refine ⟨by rw [List.length_cons, List.length_cons, hlen], fun j e' hj => ?_⟩
    cases j with
    | zero =>
      obtain rfl := Option.some.inj hj
      exact ⟨meta_, shown, hm, congrArg some hrow, hshown⟩
    | succ j =>
      obtain ⟨meta', shown', hm', hrow', hshown'⟩ := hrows j e' hj
      refine ⟨meta', shown', hm', hrow', ?_⟩
      rwa [show k + (j + 1) = k + 1 + j by omega]

theorem historyFrom_goes (h : Ascending entries) (hstart : start = 0 ∨ (entries[start]?.map (·.kind)) = some .snapshot)
    (hrest : entries.drop k = rest) (hc : Carried entries read start k prev) (hmeta : ∀ e ∈ rest, (metaBySeq e.seq).isSome = true)
    (himg : ∀ j e, rest[j]? = some e → start ≤ k + j → ∃ img, materialise entries e.seq read = .ok img) :
    ∃ rows, historyFrom localeCompare read metaBySeq deviceNames start k prev rest = .ok rows := by
  induction rest generalizing k prev with
  | nil => exact ⟨[], rfl⟩
  | cons e rest ih =>
    obtain ⟨hk, hdrop⟩ := drop_cons_of_getElem? hrest
    obtain ⟨row, prev', hstep⟩ := @historyStep_goes σ entries e read k localeCompare metaBySeq deviceNames start prev h hc hstart hk
      (hmeta e (List.mem_cons_self ..)) (himg 0 e rfl)
    obtain ⟨hc', -⟩ := historyStep_ok h hc hstart hk hstep
    obtain ⟨rows, hrows⟩ := ih hdrop hc' (fun e he => hmeta e (List.mem_cons_of_mem _ he)) fun j e' hj hle =>
      himg (j + 1) e' hj (by omega)
    exact ⟨row :: rows, bind_ok.2 ⟨_, hstep, bind_ok.2 ⟨rows, hrows, rfl⟩⟩⟩

theorem getElem?_markHead {rows : List (HistoryVersion σ)} {row : HistoryVersion σ} {j : Nat} (h : rows[j]? = some row) :
    ∃ isHead, (markHead rows)[j]? = some { row with isHead } := by
  induction rows generalizing j with
  | nil => simp at h
  | cons first rows ih =>
    cases rows with
    | nil =>
      cases j with
      | zero => exact ⟨true, congrArg some (Option.some.inj h ▸ rfl)⟩
      | succ j => simp at h
    | cons second rows =>
      rw [markHead]
      · cases j with
        | zero =>
          obtain rfl := Option.some.inj h
          exact ⟨first.isHead, rfl⟩
        | succ j => exact ih h
      · simp

theorem length_markHead (rows : List (HistoryVersion σ)) : (markHead rows).length = rows.length := by
  induction rows with
  | nil => rfl
  | cons first rows ih =>
    cases rows with
    | nil => rfl
    | cons second rows =>
      rw [markHead, List.length_cons, ih]
      · rfl
      · exact fun hnil => List.cons_ne_nil _ _ hnil

theorem detailStart_spec (entries : List (VersionEntry σ)) : detailStart entries ≤ entries.length - (detailed + 1) ∧
    (detailStart entries = 0 ∨ (entries[detailStart entries]?.map (·.kind)) = some .snapshot) ∧
      ∀ j, detailStart entries < j → j ≤ entries.length - (detailed + 1) → (entries[j]?.map (·.kind)) ≠ some .snapshot :=
  backToSnapshot_spec entries _

theorem carried_first (entries : List (VersionEntry σ)) (read : σ → Except Thrown Bytes) (start : Nat) :
    Carried entries read start 0 {} := by
  rw [Carried, if_pos (Nat.zero_le _)]
  exact ⟨rfl, rfl⟩

/-- The walk fails exactly where a version from its window on, or the one before that,
cannot be replayed, or a version has no metadata. -/
theorem loadHistory_goes_iff (h : Ascending entries) :
    (∃ rows, loadHistory localeCompare read metaBySeq deviceNames entries = .ok rows) ↔
      (∀ e ∈ entries, (metaBySeq e.seq).isSome = true) ∧
        ∀ k e, entries.length ≤ k + (detailed + 1) → entries[k]? = some e → ∃ img, materialise entries e.seq read = .ok img := by
  obtain ⟨hle, hstart, hbetween⟩ := detailStart_spec entries
  constructor
  · rintro ⟨rows, hrows⟩
    obtain ⟨rows, hwalk, -⟩ := bind_ok.1 hrows
    obtain ⟨-, hall⟩ := historyFrom_ok h hstart (show entries.drop 0 = entries from rfl) (carried_first entries read _) hwalk
    refine ⟨fun e he => ?_, fun k e hk hke => ?_⟩
    · obtain ⟨j, hj⟩ := List.getElem?_of_mem he
      obtain ⟨meta_, -, hm, -⟩ := hall j e hj
      rw [hm]
      rfl
    · obtain ⟨meta_, shown, -, -, hshown⟩ := hall k e hke
      rw [ShownAt, if_neg (by omega)] at hshown
      obtain ⟨img, himg, -⟩ := hshown
      exact ⟨img, himg⟩
  · rintro ⟨hmeta, himg⟩
    have hwindow : ∀ j e, entries[j]? = some e → detailStart entries ≤ 0 + j → ∃ img, materialise entries e.seq read = .ok img := by
      intro j e hj hge
      by_cases hwin : entries.length ≤ j + (detailed + 1)
      · exact himg j e hwin hj
      · -- an entry between the walk's start and its window is replayed by the version before the window
        by_contra hnone
        have hlast : entries.length - (detailed + 1) < entries.length := by
          have := (List.getElem?_eq_some_iff.mp hj).1
          rw [detailed]
          omega
        have hget := List.getElem?_eq_getElem hlast
        obtain ⟨img, hm⟩ := himg _ _ (by omega) hget
        exact not_materialise_after h hj (fun img hm => hnone ⟨img, hm⟩) (by omega)
          (fun m hjm hmk => hbetween m (by omega) hmk) hget img hm
    obtain ⟨rows, hrows⟩ : ∃ rows, historyFrom localeCompare read metaBySeq deviceNames (detailStart entries) 0 {} entries =
        .ok rows :=
      historyFrom_goes h hstart rfl (carried_first entries read _) hmeta hwindow
    exact ⟨_, bind_ok.2 ⟨rows, hrows, rfl⟩⟩

/-- What a row of the detail window must show: the difference of the two volumes, or the
sector note where one cannot be read. -/
def stepChanges (localeCompare : Units → Units → Int) (before after : Except NoVolume Volume) (sectorCount : Nat) :
    List TreeChange × Option String :=
  match before, after with
  | .ok before, .ok after => (diffTrees localeCompare before.root after.root, none)
  | _, _ => ([], some (sectorSummary sectorCount))

theorem changesFrom_some (before after : Except NoVolume Volume) (k n : Nat) :
    changesFrom localeCompare (some before) after k n = stepChanges localeCompare before after n := by
  cases before <;> cases after <;> rfl

/-- Every row of the detail window shows what recomputing its two versions shows, and the
list fails exactly where a version it has to replay does. -/
theorem loadHistory_recomputes (h : Ascending entries) :
    (∀ rows, loadHistory localeCompare read metaBySeq deviceNames entries = .ok rows → rows.length = entries.length ∧
      ∀ k p e, entries[k]? = some p → entries[k + 1]? = some e → entries.length ≤ k + 1 + detailed →
        ∃ row before after, rows.reverse[k + 1]? = some row ∧ row.seq = e.seq ∧
          materialise entries p.seq read = .ok before ∧ materialise entries e.seq read = .ok after ∧
            (row.changes, row.sectorNote) = stepChanges localeCompare (readVolume before) (readVolume after) row.sectorCount) ∧
    ((∃ rows, loadHistory localeCompare read metaBySeq deviceNames entries = .ok rows) ↔
      (∀ e ∈ entries, (metaBySeq e.seq).isSome = true) ∧
        ∀ k e, entries.length ≤ k + (detailed + 1) → entries[k]? = some e → ∃ img, materialise entries e.seq read = .ok img) := by
  refine ⟨fun rows hrows => ?_, loadHistory_goes_iff h⟩
  obtain ⟨hle, hstart, -⟩ := detailStart_spec entries
  obtain ⟨walked, hwalk, hout⟩ := bind_ok.1 hrows
  obtain rfl := Except.ok.inj hout
  obtain ⟨hlen, hall⟩ := historyFrom_ok h hstart (show entries.drop 0 = entries from rfl) (carried_first entries read _) hwalk
  refine ⟨by rw [List.length_reverse, length_markHead, hlen], fun k p e hp hk hwin => ?_⟩
  have hlt := (List.getElem?_eq_some_iff.mp hk).1
  obtain ⟨meta_, shown, -, hrow, hshown⟩ := hall (k + 1) e hk
  obtain ⟨isHead, hhead⟩ := getElem?_markHead hrow
  rw [ShownAt, if_neg (by rw [detailed] at *; omega)] at hshown
  obtain ⟨after, hafter, hshown⟩ := hshown
  rw [if_neg (by rw [detailed] at *; omega)] at hshown
  obtain ⟨p', before, hp', hbefore, rfl⟩ := hshown
  rw [Nat.zero_add, Nat.add_sub_cancel] at hp'
  obtain rfl : p = p' := Option.some.inj (hp.symm.trans hp')
  refine ⟨{ versionRow deviceNames e meta_ (changesFrom localeCompare (some (readVolume before)) (readVolume after)
    (0 + (k + 1)) meta_.sectorCount) with isHead }, before, after, ?_, rfl, hbefore, hafter, ?_⟩
  · rw [List.reverse_reverse]
    exact hhead
  · rw [changesFrom_some]
    rfl

end Walk

-- ---------------------------------------------------------------------------
-- Chains of snapshots
-- ---------------------------------------------------------------------------

/-- `n` versions, each a snapshot under its own number. -/
def snapshots (n : Nat) : List (VersionEntry Nat) := (List.range n).map fun i => ⟨i, .snapshot, i, i, "browser"⟩

/-- Every blob from the number `from'` on is an empty disk, and those before it are gone. -/
def readFrom (from' : Nat) (blob : Nat) : Except Thrown Bytes :=
  if blob < from' then .error (.storage "blob not found") else .ok (List.replicate adfBytes 0)

def editedMeta : Nat → Option VersionMeta := fun _ => some ⟨.browser, none, none, 3, 0⟩

theorem ascending_snapshots (n : Nat) : Ascending (snapshots n) :=
  List.pairwise_map.2 List.pairwise_lt_range

theorem materialise_snapshots {e : VersionEntry Nat} (hk : (snapshots n)[k]? = some e) (hle : from' ≤ k) :
    materialise (snapshots n) e.seq (readFrom from') = .ok (List.replicate adfBytes 0) := by
  have he : e = ⟨k, .snapshot, k, k, "browser"⟩ := by
    rw [snapshots, List.getElem?_map] at hk
    obtain ⟨i, hi, rfl⟩ := Option.map_eq_some_iff.1 hk
    obtain ⟨-, rfl⟩ := List.getElem?_eq_some_iff.1 hi
    rw [List.getElem_range]
  have hread : readFrom from' k = .ok (List.replicate adfBytes 0) := if_neg (Nat.not_lt.2 hle)
  have himage : isHistoryImage (List.replicate adfBytes 0) = true := by
    rw [isHistoryImage, List.length_replicate]
    rfl
  subst he
  refine (materialise_of_snapshot (ascending_snapshots n) hk rfl {}).2 ?_
  simp only [nextImage, hread]
  exact bind_ok.2 ⟨_, rfl, by simp [himage, pure, Except.pure]⟩

/-- Two versions that can be read. -/
theorem loadHistory_recomputes_two :
    ∃ rows, loadHistory (fun _ _ => 0) (readFrom 0) editedMeta (fun _ => none) (snapshots 2) = .ok rows :=
  (loadHistory_recomputes (ascending_snapshots 2)).2.2
    ⟨fun _ _ => rfl, fun k _ _ hk => ⟨_, materialise_snapshots hk (Nat.zero_le k)⟩⟩

/-- A lost version older than the window does not fail the list. -/
theorem lost_version_unnoticed : Ascending (snapshots 27) ∧
    (∃ rows, loadHistory (fun _ _ => 0) (readFrom 1) editedMeta (fun _ => none) (snapshots 27) = .ok rows) ∧
      ∃ e ∈ snapshots 27, ∀ img, materialise (snapshots 27) e.seq (readFrom 1) ≠ .ok img := by
  refine ⟨ascending_snapshots 27, ?_, ⟨0, .snapshot, 0, 0, "browser"⟩, by decide, fun img hm => ?_⟩
  · refine (loadHistory_goes_iff (ascending_snapshots 27)).2 ⟨fun _ _ => rfl, fun k e hle hk => ⟨_, materialise_snapshots hk ?_⟩⟩
    have hlen : (snapshots 27).length = 27 := rfl
    rw [hlen, detailed] at hle
    omega
  · have hfirst : (snapshots 27)[0]? = some ⟨0, .snapshot, 0, 0, "browser"⟩ := rfl
    have hn := (materialise_of_snapshot (ascending_snapshots 27) hfirst rfl {}).1 hm
    simp [nextImage, readFrom, bind, Except.bind] at hn

end WebAdf.DiskHistory
