import WebAdf.Firmware.PnetLz4

/-!
# The encoder's blocks decode

What the encoder has written decodes, at every point of its search, to the
window and source up to its anchor. A match is only taken where its bytes were
compared, so the hash table's contents do not matter.
-/

namespace WebAdf.Firmware

open Lib

-- ---------------------------------------------------------------------------
-- Matches
-- ---------------------------------------------------------------------------

/-- `m` is a match of `base` that starts past `anchor` and ends by `mend`. -/
structure Matches (base : Bytes) (anchor mend : Nat) (m : Match) : Prop where
  behind : m.ref < m.pos
  start : anchor ≤ m.pos
  stop : m.pos + m.len ≤ mend
  long : 4 ≤ m.len
  same : ∀ k < m.len, base.getD (m.ref + k) 0 = base.getD (m.pos + k) 0

theorem forwards_matches (h : Matches base anchor mend m) :
    Matches base anchor mend (forwards base mend m) := by
  fun_induction forwards base mend m with
  | case1 m hgrow ih =>
    refine ih ⟨h.behind, h.start, by have := hgrow.1; simp only; omega,
      Nat.le_succ_of_le h.long, ?_⟩
    intro k hk
    rcases Nat.lt_succ_iff_lt_or_eq.mp hk with hk | rfl
    · exact h.same k hk
    · exact hgrow.2
  | case2 m _ => exact h

theorem backwards_matches (h : Matches base anchor mend m) :
    Matches base anchor mend (backwards base anchor m) := by
  fun_induction backwards base anchor m with
  | case1 m hgrow ih =>
    obtain ⟨hanchor, href, heq⟩ := hgrow
    have hb := h.behind
    have hs := h.stop
    refine ih ⟨by simp only; omega, by simp only; omega, by simp only; omega,
      Nat.le_succ_of_le h.long, ?_⟩
    intro k hk
    cases k with
    | zero => exact heq.symm
    | succ k =>
      have hsame := h.same k (by simpa using hk)
      simp only
      rwa [show m.ref - 1 + (k + 1) = m.ref + k by omega,
        show m.pos - 1 + (k + 1) = m.pos + k by omega]
  | case2 m _ => exact h

theorem sameFour_spec (h : sameFour base ref pos = true) :
    ∀ k < 4, base.getD (ref + k) 0 = base.getD (pos + k) 0 := by
  simp only [sameFour, Bool.and_eq_true, beq_iff_eq] at h
  obtain ⟨⟨⟨h0, h1⟩, h2⟩, h3⟩ := h
  intro k hk
  match k, hk with
  | 0, _ => exact h0
  | 1, _ => exact h1
  | 2, _ => exact h2
  | 3, _ => exact h3

theorem growMatch_matches (hsame : sameFour base ref pos = true) (href : ref < pos)
    (hanchor : anchor ≤ pos) (hmend : pos + 4 ≤ mend) :
    Matches base anchor mend (growMatch base mend anchor ref pos) :=
  backwards_matches (forwards_matches ⟨href, hanchor, hmend, Nat.le_refl 4, sameFour_spec hsame⟩)

-- ---------------------------------------------------------------------------
-- The search
-- ---------------------------------------------------------------------------

/-- What was written fits `cap` and decodes to `base` up to the anchor. -/
structure Encoding (base window : Bytes) (cap : Nat) (st : EncodeState) : Prop where
  fits : st.out.length ≤ cap
  order : st.anchor ≤ st.pos
  inside : st.anchor ≤ base.length
  decodes : ∀ limit rest, base.length ≤ limit → rest ≠ [] →
    decodeLoop limit window (st.out ++ rest) = decodeLoop limit (base.take st.anchor) rest

theorem take_append_slice (xs : Bytes) (h : a ≤ b) : xs.take a ++ slice xs a (b - a) = xs.take b := by
  rw [slice, ← List.take_append_drop a (xs.take b), List.take_take, Nat.min_eq_left h,
    List.drop_take]

theorem Encoding.sequence (h : Encoding base window cap st) (hbase : base.length ≤ 65536)
    (hm : Matches base st.anchor base.length m)
    (hcap : 3 + (m.pos - st.anchor) + extlen (m.pos - st.anchor) + extlen (m.len - 4) ≤
      cap - st.out.length) (tab : List UInt16) :
    Encoding base window cap
      { pos := m.pos + m.len, anchor := m.pos + m.len, misses := 0, tab := tab
        out := st.out ++ putSequence (slice base st.anchor (m.pos - st.anchor)) (m.pos - m.ref)
          (m.len - 4) } := by
  obtain ⟨hbehind, hstart, hstop, hlong, hsame⟩ := hm
  have hfits := h.fits
  have hlits : (slice base st.anchor (m.pos - st.anchor)).length = m.pos - st.anchor := by
    rw [length_slice]
    omega
  have hanchor : (base.take st.anchor).length = st.anchor := by
    rw [List.length_take]
    omega
  refine ⟨?_, Nat.le_refl _, hstop, ?_⟩
  · rw [List.length_append, length_putSequence, hlits]
    omega
  · intro limit rest hlimit hrest
    have hread : readSequence limit (base.take st.anchor)
        (putSequence (slice base st.anchor (m.pos - st.anchor)) (m.pos - m.ref) (m.len - 4) ++
          rest) = .next (copyMatch (base.take st.anchor ++ slice base st.anchor (m.pos - st.anchor))
            (m.pos - m.ref) (m.len - 4 + 4)) rest :=
      readSequence_putSequence (by rw [hlits, hanchor]; omega) (by omega)
        (by rw [hlits, hanchor]; omega) hrest
    have hcopy : copyMatch (base.take m.pos) (m.pos - m.ref) m.len = base.take (m.pos + m.len) := by
      apply copyMatch_take ⟨by omega, by omega⟩ hstop
      intro k hk
      rw [show m.pos - (m.pos - m.ref) = m.ref by omega]
      exact hsame k hk
    rw [take_append_slice _ hstart, show m.len - 4 + 4 = m.len by omega, hcopy] at hread
    rw [List.append_assoc, h.decodes limit _ hlimit (by simp [putSequence]), decodeLoop_next hread]

theorem Encoding.search (h : Encoding base window cap st) (hbase : base.length ≤ 65536)
    (hend : 13 ≤ base.length) :
    Encoding base window cap
      (encodeLoop base entries cap (base.length - 12) (base.length - 5) st).2 := by
  induction hk : base.length - 12 + 1 - st.pos using Nat.strong_induction_on generalizing st with
  | _ k ih =>
    rw [encodeLoop]
    by_cases hpos : st.pos ≤ base.length - 12
    · rw [if_pos hpos]
      dsimp only
      have horder := h.order
      split
      · -- a miss: the table and the position move on
        exact ih _ (by dsimp only; omega) ⟨h.fits, by dsimp only; omega, h.inside, h.decodes⟩ rfl
      · rename_i hhit
        rw [not_or, Nat.not_le, Bool.not_eq_false] at hhit
        obtain ⟨href, hsame⟩ := hhit
        have hm := growMatch_matches hsame href horder (show st.pos + 4 ≤ base.length - 5 by omega)
        have hend := growMatch_end base (base.length - 5) st.anchor
          (st.tab.getD (hashAt base entries st.pos) 0 ^^^ 0x8000).toNat st.pos
        split
        · exact ⟨h.fits, h.order, h.inside, h.decodes⟩
        · rename_i hcap
          have hstop := hm.stop
          exact ih _ (by dsimp only; omega) (h.sequence hbase
            ⟨hm.behind, hm.start, by omega, hm.long, hm.same⟩ (by omega) _) rfl
    · rw [if_neg hpos]
      exact h

-- ---------------------------------------------------------------------------
-- The whole block
-- ---------------------------------------------------------------------------

theorem Encoding.start (window src : Bytes) (cap : Nat) (tab : List UInt16) :
    Encoding (window ++ src) window cap ⟨window.length, window.length, 0, [], tab⟩ := by
  refine ⟨Nat.zero_le _, Nat.le_refl _, by simp, ?_⟩
  intro limit rest _ _
  rw [List.nil_append, List.take_left' rfl]

theorem Encoding.last (h : Encoding base window cap st) (hlimit : base.length ≤ limit) :
    decodeLoop limit window (st.out ++ putLast (slice base st.anchor (base.length - st.anchor))) =
      (true, base) := by
  have hinside := h.inside
  have hall := take_append_slice base hinside
  rw [List.take_of_length_le (Nat.le_refl _)] at hall
  have hlen := congrArg List.length hall
  rw [List.length_append] at hlen
  rw [h.decodes limit _ hlimit (by simp [putLast]),
    decodeLoop_done (readSequence_putLast (by omega)), hall]

/-- What an encoding has to be: the encoder gave up, or it wrote a block of at
most `cap` bytes that decodes against `window` to `src`. -/
def GoodBlock (window src : Bytes) (cap : Nat) (e : Encoded) : Prop :=
  e.size ≤ cap ∧ e.written.length ≤ cap ∧
    (e.size ≠ 0 → e.written.length = e.size ∧ ∀ room, src.length ≤ room →
      pnetLz4Decode e.written window room = (some src.length, src))

theorem GoodBlock.gave_up (h : out.length ≤ cap) : GoodBlock window src cap ⟨0, out, tab⟩ :=
  ⟨Nat.zero_le _, h, fun h => absurd rfl h⟩

theorem Encoding.finish (h : Encoding (window ++ src) window cap st) (fits : Bool) :
    GoodBlock window src cap (st.finish fits (window ++ src) cap) := by
  have hinside := h.inside
  have hfits := h.fits
  rw [EncodeState.finish]
  split
  · exact .gave_up h.fits
  · dsimp only
    split
    · exact .gave_up h.fits
    · have hlen : (st.out ++ putLast (slice (window ++ src) st.anchor
          ((window ++ src).length - st.anchor))).length ≤ cap := by
        rw [List.length_append, length_putLast, length_slice]
        rw [Nat.min_self]
        omega
      refine ⟨hlen, hlen, fun _ => ⟨rfl, ?_⟩⟩
      intro room hroom
      rw [pnetLz4Decode, if_neg (by simp [putLast]), h.last (by simp; omega)]
      simp

/-- The encoder gives up or returns a block of at most `cap` bytes, which is all
it wrote, and which decodes against the same window to the source, whatever the
hash table held. -/
theorem lz4_linked_round_trip (window src : Bytes) (cap : Nat) (tab : List UInt16)
    (entries : Nat) : GoodBlock window src cap (pnetLz4EncodeLinked window src cap tab entries) := by
  rw [pnetLz4EncodeLinked]
  dsimp only
  split
  · exact .gave_up (Nat.zero_le _)
  · rename_i hsize
    have hstart := Encoding.start window src cap tab
    split
    · exact (hstart.search (by omega) (by simp; omega)).finish _
    · exact hstart.finish true

/-- A frame found again in the window before it, through a stale table. -/
example : (pnetLz4EncodeLinked (List.replicate 4 9 ++ List.replicate 16 7) (List.replicate 20 7) 19
    (List.replicate 256 0x8004) 256).written = [0x0b, 16, 0, 0x50, 7, 7, 7, 7, 7] := by
  decide +kernel

end WebAdf.Firmware
