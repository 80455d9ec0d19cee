import WebAdf.Firmware.PnetLz4

/-!
# LZ4 blocks, as the format has them

A block is a list of sequences, literals and a match each, and last literals.
`Block.bytes` spells it and `Block.output` says what it stands for; the decoder
accepts exactly the spelled blocks whose matches and output are in bounds, and a
block cut short only where a sequence's literals end.
-/

namespace WebAdf.Firmware.Lz4

open Lib

/-- Literals, then a match of `more + 4` bytes from `off` back. -/
structure Sequence where
  lits : Bytes
  off : Nat
  more : Nat
  small : off < 65536

/-- `nib` is the half of the last token that no match follows. -/
structure Block where
  seqs : List Sequence
  lits : Bytes
  nib : Nat
  half : nib < 16

def Sequence.bytes (s : Sequence) : Bytes := putSequence s.lits s.off s.more

/-- Where the literals of a sequence end in it. -/
def Sequence.pause (s : Sequence) : Nat := 1 + extlen s.lits.length + s.lits.length

def Sequence.output (s : Sequence) (out : Bytes) : Bytes :=
  copyMatch (out ++ s.lits) s.off (s.more + 4)

/-- The match starts in `out` or the literals, and ends by `limit`. -/
structure Sequence.Fits (s : Sequence) (limit : Nat) (out : Bytes) : Prop where
  ahead : 0 < s.off
  behind : s.off ≤ out.length + s.lits.length
  room : out.length + s.lits.length + (s.more + 4) ≤ limit

def lastBytes (lits : Bytes) (nib : Nat) : Bytes :=
  UInt8.ofNat (nibble lits.length <<< 4 ||| nib) :: (lengthRun lits.length ++ lits)

def Block.bytes (b : Block) : Bytes := b.seqs.flatMap Sequence.bytes ++ lastBytes b.lits b.nib

/-- The output before the last literals. -/
def produce (out : Bytes) : List Sequence → Bytes
  | [] => out
  | s :: rest => produce (s.output out) rest

def Block.output (b : Block) (window : Bytes) : Bytes := produce window b.seqs ++ b.lits

def AllFit (limit : Nat) (out : Bytes) : List Sequence → Prop
  | [] => True
  | s :: rest => s.Fits limit out ∧ AllFit limit (s.output out) rest

structure Block.Fits (b : Block) (limit : Nat) (window : Bytes) : Prop where
  seqs : AllFit limit window b.seqs
  last : (b.output window).length ≤ limit

/-- The lengths a block can be cut to and still be one: those that end with a
sequence's literals. -/
def pauses : List Sequence → List Nat
  | [] => []
  | s :: rest => s.pause :: (pauses rest).map (s.bytes.length + ·)

-- ---------------------------------------------------------------------------
-- Lengths read back
-- ---------------------------------------------------------------------------

theorem readRun_spelled (h : readRun len inp = some (n, rest)) :
    ∃ k, inp = putLen k ++ rest ∧ n = len + k := by
  induction inp generalizing len with
  | nil => simp [readRun] at h
  | cons b inp ih =>
    rw [readRun] at h
    by_cases hb : b = 255
    · rw [if_pos hb] at h
      obtain ⟨k, rfl, rfl⟩ := ih h
      refine ⟨k + 255, ?_, by omega⟩
      rw [putLen.eq_1 (k + 255), if_pos (by omega), Nat.add_sub_cancel, hb, List.cons_append]
    · rw [if_neg hb] at h
      simp only [Option.some.injEq, Prod.mk.injEq] at h
      obtain ⟨rfl, rfl⟩ := h
      refine ⟨b.toNat, ?_, rfl⟩
      have hlt : b.toNat < 255 := by
        have := b.toNat_lt
        have hne : b.toNat ≠ 255 := fun he => hb (UInt8.toNat_inj.mp he)
        omega
      rw [putLen, if_neg (by omega), UInt8.ofNat_toNat, List.singleton_append]

theorem readLength_spelled (hnib : nib < 16) (h : readLength nib base inp = some (n, rest)) :
    ∃ x, nib = nibble x ∧ inp = lengthRun x ++ rest ∧ n = x + base := by
  rw [readLength] at h
  by_cases hfull : nib = 15
  · rw [if_pos hfull] at h
    obtain ⟨k, rfl, rfl⟩ := readRun_spelled h
    refine ⟨k + 15, ?_, ?_, by omega⟩
    · rw [nibble, if_pos (by omega), hfull]
    · rw [lengthRun, if_pos (by omega), Nat.add_sub_cancel]
  · rw [if_neg hfull] at h
    simp only [Option.some.injEq, Prod.mk.injEq] at h
    obtain ⟨rfl, rfl⟩ := h
    refine ⟨nib, ?_, ?_, rfl⟩
    · rw [nibble, if_neg (by omega)]
    · rw [lengthRun, if_neg (by omega), List.nil_append]

theorem readRun_cut (hj : j < (putLen k).length) : readRun len ((putLen k).take j) = none := by
  fun_induction putLen k generalizing len j with
  | case1 k h ih =>
    cases j with
    | zero => rfl
    | succ j =>
      rw [List.take_succ_cons, readRun, if_pos rfl]
      exact ih (by simpa using hj)
  | case2 k h =>
    obtain rfl : j = 0 := by simpa using hj
    rfl

theorem readLength_cut (hj : j < (lengthRun x).length) :
    readLength (nibble x) base ((lengthRun x).take j) = none := by
  rw [lengthRun] at hj ⊢
  by_cases hx : 15 ≤ x
  · rw [if_pos hx] at hj ⊢
    rw [readLength, nibble, if_pos hx, if_pos rfl, readRun_cut hj]
  · simp [if_neg hx] at hj

theorem token_split (token : UInt8) :
    UInt8.ofNat ((token.toNat >>> 4) <<< 4 ||| (token.toNat &&& 15)) = token := by
  have hlow : token.toNat &&& 15 = token.toNat % 16 := Nat.and_two_pow_sub_one_eq_mod token.toNat 4
  have hwhole : (token.toNat >>> 4) <<< 4 ||| (token.toNat &&& 15) = token.toNat := by
    rw [hlow, ← Nat.shiftLeft_add_eq_or_of_lt (Nat.mod_lt _ (by decide)), Nat.shiftLeft_eq,
      Nat.shiftRight_eq_div_pow]
    omega
  rw [hwhole, UInt8.ofNat_toNat]

theorem token_high (token : UInt8) : token.toNat >>> 4 < 16 := by
  have := token.toNat_lt
  rw [Nat.shiftRight_eq_div_pow]
  omega

theorem token_low (token : UInt8) : token.toNat &&& 15 < 16 :=
  Nat.lt_succ_of_le Nat.and_le_right

theorem offset_split (lo hi : UInt8) : UInt8.ofNat (lo.toNat ||| hi.toNat <<< 8) = lo ∧
    UInt8.ofNat ((lo.toNat ||| hi.toNat <<< 8) >>> 8) = hi ∧ lo.toNat ||| hi.toNat <<< 8 < 65536 := by
  have hlo := lo.toNat_lt
  have hhi := hi.toNat_lt
  have hval : lo.toNat ||| hi.toNat <<< 8 = hi.toNat * 256 + lo.toNat := by
    rw [Nat.or_comm, ← Nat.shiftLeft_add_eq_or_of_lt hlo, Nat.shiftLeft_eq]
  refine ⟨?_, ?_, by omega⟩
  · apply UInt8.toNat_inj.mp
    rw [hval, UInt8.toNat_ofNat']
    omega
  · apply UInt8.toNat_inj.mp
    rw [hval, UInt8.toNat_ofNat', Nat.shiftRight_eq_div_pow]
    omega

-- ---------------------------------------------------------------------------
-- One sequence
-- ---------------------------------------------------------------------------

theorem lastBytes_ne (lits : Bytes) (nib : Nat) : lastBytes lits nib ≠ [] := by
  simp [lastBytes]

theorem length_lastBytes (lits : Bytes) (nib : Nat) :
    (lastBytes lits nib).length = 1 + extlen lits.length + lits.length := by
  simp only [lastBytes, List.length_cons, List.length_append, length_lengthRun]
  omega

theorem Sequence.length_bytes (s : Sequence) :
    s.bytes.length = s.pause + 2 + extlen s.more := by
  rw [Sequence.bytes, length_putSequence, Sequence.pause]
  omega

@[simp] theorem Sequence.length_output (s : Sequence) (out : Bytes) :
    (s.output out).length = out.length + s.lits.length + (s.more + 4) := by
  rw [Sequence.output, length_copyMatch, List.length_append]

theorem Sequence.reads (s : Sequence) (hfit : s.Fits limit out) (hrest : rest ≠ []) :
    readSequence limit out (s.bytes ++ rest) = .next (s.output out) rest :=
  readSequence_putSequence ⟨hfit.ahead, hfit.behind⟩ s.small hfit.room hrest

/-- What is not in bounds is noticed, with the sequence's bytes all there. -/
theorem Sequence.refused (s : Sequence) (rest : Bytes) (hout : out.length ≤ limit) (hfit : ¬s.Fits limit out) :
    ∃ o, readSequence limit out (s.bytes ++ rest) = .bad o := by
  obtain ⟨hlit, hml⟩ := token_nibbles (nibble_lt s.lits.length) (nibble_lt s.more)
  rw [Sequence.bytes, putSequence, List.cons_append, readSequence, hlit, List.append_assoc,
    readLength_lengthRun, Nat.add_zero]
  dsimp only
  by_cases hroom : s.lits.length > limit - out.length
  · rw [if_pos (Or.inr hroom)]
    exact ⟨_, rfl⟩
  · rw [if_neg (by simp; omega), List.append_assoc, List.take_left' rfl, List.drop_left' rfl,
      List.cons_append, List.cons_append]
    dsimp only
    rw [offset_bytes s.small]
    by_cases hoff : s.off = 0 ∨ s.off > (out ++ s.lits).length
    · rw [if_pos hoff]
      exact ⟨_, rfl⟩
    · rw [if_neg hoff, hml, readLength_lengthRun]
      dsimp only
      rw [not_or, List.length_append] at hoff
      rw [if_pos]
      · exact ⟨_, rfl⟩
      · by_contra hlong
        rw [List.length_append] at hlong
        exact hfit ⟨by omega, by omega, by omega⟩

theorem readSequence_last (hnib : nib < 16) (hout : out.length ≤ limit) :
    readSequence limit out (lastBytes lits nib) =
      if out.length + lits.length ≤ limit then .done (out ++ lits) else .bad out := by
  obtain ⟨hlit, -⟩ := token_nibbles (nibble_lt lits.length) hnib
  rw [lastBytes, readSequence, hlit, readLength_lengthRun, Nat.add_zero]
  dsimp only
  by_cases hroom : out.length + lits.length ≤ limit
  · rw [if_pos hroom, if_neg (by simp; omega), List.take_of_length_le (Nat.le_refl _),
      List.drop_of_length_le (Nat.le_refl _)]
  · rw [if_neg hroom, if_pos (Or.inr (by omega))]

/-- What the decoder took for a sequence is one. -/
theorem readSequence_next_spelled (h : readSequence limit out inp = .next out' rest) :
    ∃ s : Sequence, inp = s.bytes ++ rest ∧ rest ≠ [] := by
  cases inp with
  | nil => simp [readSequence] at h
  | cons token inp =>
    rw [readSequence] at h
    rcases hlit : readLength (token.toNat >>> 4) 0 inp with _ | ⟨lit, inp1⟩
    · simp [hlit] at h
    · rw [hlit] at h
      dsimp only at h
      by_cases hbad : lit > inp1.length ∨ lit > limit - out.length
      · simp [if_pos hbad] at h
      · rw [if_neg hbad] at h
        rcases hdrop : inp1.drop lit with _ | ⟨lo, _ | ⟨hi, inp2⟩⟩
        · simp [hdrop] at h
        · simp [hdrop] at h
        · rw [hdrop] at h
          dsimp only at h
          by_cases hoff : lo.toNat ||| hi.toNat <<< 8 = 0 ∨
              lo.toNat ||| hi.toNat <<< 8 > (out ++ inp1.take lit).length
          · rw [if_pos hoff] at h
            cases h
          · rw [if_neg hoff] at h
            rcases hml : readLength (token.toNat &&& 15) 4 inp2 with _ | ⟨ml, inp3⟩
            · simp [hml] at h
            · rw [hml] at h
              dsimp only at h
              by_cases hroom : ml > limit - (out ++ inp1.take lit).length
              · rw [if_pos hroom] at h
                cases h
              · rw [if_neg hroom] at h
                by_cases hend : inp3 = []
                · simp [if_pos hend] at h
                · rw [if_neg hend] at h
                  cases h
                  obtain ⟨x, hx, rfl, hlitx⟩ := readLength_spelled (token_high token) hlit
                  obtain ⟨y, hy, rfl, rfl⟩ := readLength_spelled (token_low token) hml
                  obtain ⟨hlo, hhi, hsmall⟩ := offset_split lo hi
                  obtain rfl : x = lit := by omega
                  rw [not_or] at hbad
                  have hlen : (inp1.take x).length = x := by
                    rw [List.length_take]
                    omega
                  refine ⟨⟨inp1.take x, _, y, hsmall⟩, ?_, hend⟩
                  rw [Sequence.bytes, putSequence, hlen, hlo, hhi, ← hx, ← hy, token_split]
                  simp only [List.cons_append, List.append_assoc, List.cons.injEq, true_and,
                    List.append_cancel_left_eq]
                  rw [← hdrop, List.take_append_drop]

theorem readSequence_done_spelled (h : readSequence limit out inp = .done out') :
    ∃ lits nib, nib < 16 ∧ inp = lastBytes lits nib := by
  cases inp with
  | nil => simp [readSequence] at h
  | cons token inp =>
    rw [readSequence] at h
    rcases hlit : readLength (token.toNat >>> 4) 0 inp with _ | ⟨lit, inp1⟩
    · simp [hlit] at h
    · rw [hlit] at h
      dsimp only at h
      by_cases hbad : lit > inp1.length ∨ lit > limit - out.length
      · simp [if_pos hbad] at h
      · rw [if_neg hbad] at h
        rcases hdrop : inp1.drop lit with _ | ⟨lo, _ | ⟨hi, inp2⟩⟩
        · obtain ⟨x, hx, rfl, hlitx⟩ := readLength_spelled (token_high token) hlit
          obtain rfl : x = lit := by omega
          rw [not_or] at hbad
          have hlen : inp1.length = x := by
            have := List.drop_eq_nil_iff.mp hdrop
            omega
          refine ⟨inp1, token.toNat &&& 15, token_low token, ?_⟩
          rw [lastBytes, hlen, ← hx, token_split]
        · simp [hdrop] at h
        · rw [hdrop] at h
          dsimp only at h
          split at h
          · cases h
          · split at h
            · cases h
            · split at h
              · cases h
              · split at h <;> cases h

/-- Cut short, a sequence is taken for a last one where its literals end, and for
nothing anywhere else. -/
theorem Sequence.reads_cut (s : Sequence) (hfit : s.Fits limit out) (hk : k < s.bytes.length) :
    if k = s.pause then readSequence limit out (s.bytes.take k) = .done (out ++ s.lits)
    else ∃ o, readSequence limit out (s.bytes.take k) = .bad o := by
  obtain ⟨hlit, hml⟩ := token_nibbles (nibble_lt s.lits.length) (nibble_lt s.more)
  have hroom := hfit.room
  rw [s.length_bytes] at hk
  rw [Sequence.pause] at hk ⊢
  cases k with
  | zero =>
    rw [if_neg (by omega)]
    exact ⟨out, rfl⟩
  | succ k =>
    rw [Sequence.bytes, putSequence, List.take_succ_cons, readSequence, hlit]
    by_cases hrun : k < extlen s.lits.length
    · rw [if_neg (by omega), List.take_append_of_le_length (by rw [length_lengthRun]; omega),
        readLength_cut (by rwa [length_lengthRun])]
      exact ⟨out, rfl⟩
    · obtain ⟨i, rfl⟩ := Nat.exists_eq_add_of_le (Nat.le_of_not_lt hrun)
      rw [← length_lengthRun, List.take_length_add_append, readLength_lengthRun,
        Nat.add_zero s.lits.length]
      dsimp only
      rw [length_lengthRun]
      by_cases hlits : i < s.lits.length
      · rw [if_neg (by omega), if_pos (Or.inl (by simp; omega))]
        exact ⟨out, rfl⟩
      · obtain ⟨j, rfl⟩ := Nat.exists_eq_add_of_le (Nat.le_of_not_lt hlits)
        rw [List.take_length_add_append, if_neg (c := _ ∨ _) (by simp; omega), List.take_left' rfl,
          List.drop_left' rfl]
        rcases j with _ | _ | j
        · rw [if_pos (by omega)]
          rfl
        · rw [if_neg (by omega)]
          exact ⟨_, rfl⟩
        · rw [if_neg (by omega), List.take_succ_cons, List.take_succ_cons]
          dsimp only
          rw [offset_bytes s.small, hml, readLength_cut (by rw [length_lengthRun]; omega)]
          split
          · exact ⟨_, rfl⟩
          · exact ⟨_, rfl⟩

/-- A block never ends on a match. -/
theorem Sequence.refused_end (s : Sequence) (hfit : s.Fits limit out) :
    ∃ o, readSequence limit out s.bytes = .bad o := by
  obtain ⟨hlit, hml⟩ := token_nibbles (nibble_lt s.lits.length) (nibble_lt s.more)
  have hroom := hfit.room
  have hbehind := hfit.behind
  have hahead := hfit.ahead
  have hrun : readLength (nibble s.more) 4 (lengthRun s.more) = some (s.more + 4, []) := by
    rw [← List.append_nil (lengthRun s.more), readLength_lengthRun]
  rw [Sequence.bytes, putSequence, readSequence, hlit, readLength_lengthRun, Nat.add_zero]
  dsimp only
  rw [if_neg (by simp; omega), List.take_left' rfl, List.drop_left' rfl]
  dsimp only
  rw [offset_bytes s.small, if_neg (by simp; omega), hml, hrun]
  dsimp only
  rw [if_neg (by simp; omega), if_pos rfl]
  exact ⟨_, rfl⟩

theorem readSequence_last_cut (hnib : nib < 16) (hk : k < (lastBytes lits nib).length) :
    readSequence limit out ((lastBytes lits nib).take k) = .bad out := by
  obtain ⟨hlit, -⟩ := token_nibbles (nibble_lt lits.length) hnib
  rw [length_lastBytes] at hk
  cases k with
  | zero => rfl
  | succ k =>
    rw [lastBytes, List.take_succ_cons, readSequence, hlit]
    by_cases hrun : k < extlen lits.length
    · rw [List.take_append_of_le_length (by rw [length_lengthRun]; omega),
        readLength_cut (by rwa [length_lengthRun])]
    · obtain ⟨i, rfl⟩ := Nat.exists_eq_add_of_le (Nat.le_of_not_lt hrun)
      rw [← length_lengthRun, List.take_length_add_append, readLength_lengthRun, Nat.add_zero]
      dsimp only
      rw [if_pos (Or.inl (by simp; omega))]

-- ---------------------------------------------------------------------------
-- Whole blocks
-- ---------------------------------------------------------------------------

theorem decodeLoop_bad (h : readSequence limit out inp = .bad out') :
    decodeLoop limit out inp = (false, out') := by
  rw [decodeLoop]
  split
  · simp_all
  · simp_all
  · simp_all

theorem spelled_ne (seqs : List Sequence) (lits : Bytes) (nib : Nat) :
    seqs.flatMap Sequence.bytes ++ lastBytes lits nib ≠ [] :=
  List.append_ne_nil_of_right_ne_nil _ (lastBytes_ne lits nib)

theorem Sequence.Fits.within {s : Sequence} (h : s.Fits limit out) :
    (s.output out).length ≤ limit := by
  rw [s.length_output]
  exact h.room

theorem decodeLoop_fits (hnib : nib < 16) (hout : out.length ≤ limit) (hfit : AllFit limit out seqs)
    (hend : (produce out seqs ++ lits).length ≤ limit) :
    decodeLoop limit out (seqs.flatMap Sequence.bytes ++ lastBytes lits nib) =
      (true, produce out seqs ++ lits) := by
  induction seqs generalizing out with
  | nil =>
    rw [List.flatMap_nil, List.nil_append]
    apply decodeLoop_done
    rw [readSequence_last hnib hout, if_pos (by simpa [produce] using hend), produce]
  | cons s rest ih =>
    obtain ⟨hs, hrest⟩ := hfit
    rw [List.flatMap_cons, List.append_assoc,
      decodeLoop_next (s.reads hs (spelled_ne rest lits nib))]
    exact ih hs.within hrest hend

theorem decodeLoop_unfit (hnib : nib < 16) (hout : out.length ≤ limit)
    (hfit : ¬(AllFit limit out seqs ∧ (produce out seqs ++ lits).length ≤ limit)) :
    (decodeLoop limit out (seqs.flatMap Sequence.bytes ++ lastBytes lits nib)).1 = false := by
  induction seqs generalizing out with
  | nil =>
    rw [List.flatMap_nil, List.nil_append]
    have hlast : readSequence limit out (lastBytes lits nib) = .bad out := by
      rw [readSequence_last hnib hout, if_neg (by simpa [produce, AllFit] using hfit)]
    rw [decodeLoop_bad hlast]
  | cons s rest ih =>
    rw [List.flatMap_cons, List.append_assoc]
    by_cases hs : s.Fits limit out
    · rw [decodeLoop_next (s.reads hs (spelled_ne rest lits nib))]
      exact ih hs.within (fun h => hfit ⟨⟨hs, h.1⟩, h.2⟩)
    · obtain ⟨o, ho⟩ := s.refused (rest.flatMap Sequence.bytes ++ lastBytes lits nib) hout hs
      rw [decodeLoop_bad ho]

/-- What decodes is a block. -/
theorem decodeLoop_spelled (h : (decodeLoop limit out inp).1 = true) :
    ∃ b : Block, inp = b.bytes := by
  fun_induction decodeLoop limit out inp with
  | case1 out inp o ho => simp at h
  | case2 out inp o ho =>
    obtain ⟨lits, nib, hnib, rfl⟩ := readSequence_done_spelled ho
    exact ⟨⟨[], lits, nib, hnib⟩, rfl⟩
  | case3 out inp o rest ho ih =>
    obtain ⟨b, rfl⟩ := ih h
    obtain ⟨s, rfl, -⟩ := readSequence_next_spelled ho
    refine ⟨⟨s :: b.seqs, b.lits, b.nib, b.half⟩, ?_⟩
    simp [Block.bytes]

theorem length_le_produce (out : Bytes) (seqs : List Sequence) :
    out.length ≤ (produce out seqs).length := by
  induction seqs generalizing out with
  | nil => exact Nat.le_refl _
  | cons s rest ih =>
    have h := ih (s.output out)
    rw [s.length_output] at h
    rw [produce]
    omega

theorem pauses_pos (h : k ∈ pauses seqs) : 0 < k := by
  cases seqs with
  | nil => cases h
  | cons s rest =>
    rw [pauses, List.mem_cons] at h
    rcases h with rfl | h
    · rw [Sequence.pause]
      omega
    · obtain ⟨i, -, rfl⟩ := List.mem_map.mp h
      rw [s.length_bytes]
      omega

theorem length_lt_output (b : Block) (h : k ∈ pauses b.seqs) (window : Bytes) :
    window.length < (b.output window).length := by
  rw [Block.output, List.length_append]
  cases hseqs : b.seqs with
  | nil =>
    rw [hseqs] at h
    cases h
  | cons s rest =>
    have hle := length_le_produce (s.output window) rest
    rw [s.length_output] at hle
    rw [produce]
    omega

/-- A block cut short decodes only at a pause, and then to less. -/
theorem decodeLoop_cut (hnib : nib < 16) (hfit : AllFit limit out seqs)
    (hk : k < (seqs.flatMap Sequence.bytes ++ lastBytes lits nib).length) :
    let cut := decodeLoop limit out ((seqs.flatMap Sequence.bytes ++ lastBytes lits nib).take k)
    (cut.1 = true ↔ k ∈ pauses seqs) ∧
      (cut.1 = true → cut.2.length < (produce out seqs ++ lits).length) := by
  induction seqs generalizing out k with
  | nil =>
    rw [List.flatMap_nil, List.nil_append] at hk ⊢
    rw [decodeLoop_bad (readSequence_last_cut hnib hk)]
    simp [pauses]
  | cons s rest ih =>
    obtain ⟨hs, hrest⟩ := hfit
    rw [List.flatMap_cons, List.append_assoc] at hk ⊢
    have hpause := s.length_bytes
    by_cases hin : k < s.bytes.length
    · have hcut := s.reads_cut hs hin
      have hnot : k ∉ (pauses rest).map (s.bytes.length + ·) := by
        intro hmem
        obtain ⟨i, -, rfl⟩ := List.mem_map.mp hmem
        omega
      rw [List.take_append_of_le_length (Nat.le_of_lt hin)]
      by_cases hp : k = s.pause
      · rw [if_pos hp] at hcut
        have hle := length_le_produce (s.output out) rest
        rw [s.length_output] at hle
        rw [decodeLoop_done hcut]
        refine ⟨by simp [pauses, hp], fun _ => ?_⟩
        rw [List.length_append, List.length_append, produce]
        omega
      · rw [if_neg hp] at hcut
        obtain ⟨o, ho⟩ := hcut
        rw [decodeLoop_bad ho]
        simp only [pauses, List.mem_cons]
        simp [hp, hnot]
    · obtain ⟨i, rfl⟩ := Nat.exists_eq_add_of_le (Nat.le_of_not_lt hin)
      rw [List.take_length_add_append]
      have hmem : s.bytes.length + i ∈ pauses (s :: rest) ↔ i ∈ pauses rest := by
        rw [pauses, List.mem_cons]
        constructor
        · rintro (h | h)
          · omega
          · obtain ⟨j, hj, hji⟩ := List.mem_map.mp h
            obtain rfl : j = i := by omega
            exact hj
        · intro h
          exact Or.inr (List.mem_map.mpr ⟨i, h, rfl⟩)
      rw [hmem, produce]
      cases i with
      | zero =>
        obtain ⟨o, ho⟩ := s.refused_end hs
        rw [List.take_zero, List.append_nil, decodeLoop_bad ho]
        refine ⟨⟨nofun, fun h => ?_⟩, nofun⟩
        have := pauses_pos h
        omega
      | succ i =>
        have hne : ((rest.flatMap Sequence.bytes ++ lastBytes lits nib).take (i + 1)) ≠ [] := by
          intro h
          rcases List.take_eq_nil_iff.mp h with h | h
          · omega
          · exact spelled_ne rest lits nib h
        rw [decodeLoop_next (s.reads hs hne)]
        exact ih hrest (by simpa using hk)

-- ---------------------------------------------------------------------------
-- The call
-- ---------------------------------------------------------------------------

theorem Block.bytes_ne (b : Block) : b.bytes ≠ [] := spelled_ne b.seqs b.lits b.nib

theorem pnetLz4Decode_none_iff (block window : Bytes) (room : Nat) :
    (pnetLz4Decode block window room).1 = none ↔
      block = [] ∨ (decodeLoop (window.length + room) window block).1 = false := by
  rw [pnetLz4Decode]
  by_cases hblock : block = []
  · simp [hblock]
  · rw [if_neg hblock]
    dsimp only
    cases (decodeLoop (window.length + room) window block).1 <;> simp [hblock]

/-- What is no block is refused. -/
theorem pnetLz4Decode_spelled (h : (pnetLz4Decode block window room).1 ≠ none) :
    ∃ b : Block, block = b.bytes := by
  rw [Ne, pnetLz4Decode_none_iff, not_or, Bool.not_eq_false] at h
  exact decodeLoop_spelled h.2

theorem pnetLz4Decode_fits (b : Block) (h : b.Fits (window.length + room) window) :
    pnetLz4Decode b.bytes window room =
      (some ((b.output window).length - window.length), (b.output window).drop window.length) := by
  have hdec := decodeLoop_fits b.half (Nat.le_add_right _ _) h.seqs h.last
  rw [pnetLz4Decode, if_neg b.bytes_ne, Block.bytes, hdec]
  dsimp only
  rw [if_pos rfl, List.length_drop, Block.output]

theorem pnetLz4Decode_unfit (b : Block) (h : ¬b.Fits (window.length + room) window) :
    (pnetLz4Decode b.bytes window room).1 = none := by
  rw [pnetLz4Decode_none_iff]
  exact Or.inr (decodeLoop_unfit b.half (Nat.le_add_right _ _) fun hfit => h ⟨hfit.1, hfit.2⟩)

theorem pnetLz4Decode_cut (b : Block) (h : b.Fits (window.length + room) window)
    (hk : k < b.bytes.length) :
    ((pnetLz4Decode (b.bytes.take k) window room).1 ≠ none ↔ k ∈ pauses b.seqs) ∧
      ∀ size, (pnetLz4Decode (b.bytes.take k) window room).1 = some size →
        size < (b.output window).length - window.length := by
  obtain ⟨hiff, hless⟩ := decodeLoop_cut b.half h.seqs hk
  constructor
  · rw [Ne, pnetLz4Decode_none_iff, not_or, Bool.not_eq_false]
    rw [← Block.bytes] at hiff
    rw [hiff]
    refine ⟨fun hcut => hcut.2, fun hcut => ⟨?_, hcut⟩⟩
    intro hempty
    have hpos := pauses_pos hcut
    rcases List.take_eq_nil_iff.mp hempty with h0 | h0
    · omega
    · exact b.bytes_ne h0
  · intro size hsize
    have hnone : (pnetLz4Decode (b.bytes.take k) window room).1 ≠ none := by simp [hsize]
    rw [Ne, pnetLz4Decode_none_iff, not_or, Bool.not_eq_false] at hnone
    rw [pnetLz4Decode, if_neg hnone.1] at hsize
    dsimp only at hsize
    rw [if_pos hnone.2, Option.some.injEq, List.length_drop] at hsize
    have hlt := hless hnone.2
    have hgrown := length_lt_output b (hiff.mp hnone.2) window
    rw [← Block.bytes, ← Block.output] at hlt
    omega

end WebAdf.Firmware.Lz4
