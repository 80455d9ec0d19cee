import Mathlib.Logic.Function.Basic
import WebAdf.Firmware.PnetMfm

/-!
# The frame rings

Fixed slots and two free-running counters. What a ring holds is a queue: a frame
published goes to its end, frames released leave its front.
-/

namespace WebAdf.Firmware

open Lib

def pnetRingMtu : Nat := 1518

/-- `slots` has the frame of each slot. -/
structure PnetRing where
  slots : Nat → Bytes
  n : UInt32
  head : UInt32
  tail : UInt32
  drops : UInt32

namespace PnetRing

def slot (r : PnetRing) (i : UInt32) : Nat := (i &&& (r.n - 1)).toNat

/-- Empty and refusing where `n` is no power of two. -/
def init (slots : Nat → Bytes) (n : UInt32) : Bool × PnetRing :=
  let ok := n != 0 && (n &&& (n - 1)) == 0
  (ok, { slots := slots, n := if ok then n else 0, head := 0, tail := 0, drops := 0 })

def count (r : PnetRing) : UInt32 := r.head - r.tail

def space (r : PnetRing) : UInt32 := r.n - r.count

/-- The claimed slot filled and published. -/
def commit (r : PnetRing) (f : Bytes) : PnetRing :=
  { r with slots := Function.update r.slots (r.slot r.head) f, head := r.head + 1 }

def refuse (r : PnetRing) : PnetRing := { r with drops := r.drops + 1 }

def push (r : PnetRing) (f : Bytes) : Bool × PnetRing :=
  if f.length = 0 ∨ f.length > pnetRingMtu then (false, r.refuse)
  else if r.space = 0 then (false, r.refuse)
  else (true, r.commit f)

def peek (r : PnetRing) (i : UInt32) : Option Bytes :=
  if i ≥ r.count then none else some (r.slots (r.slot (r.tail + i)))

def drop (r : PnetRing) (k : UInt32) : PnetRing :=
  { r with tail := r.tail + if k > r.count then r.count else k }

-- ---------------------------------------------------------------------------
-- The queue
-- ---------------------------------------------------------------------------

/-- The frames held, the oldest first. -/
def frames (r : PnetRing) : List Bytes :=
  (List.range r.count.toNat).map fun i => r.slots (r.slot (r.tail + UInt32.ofNat i))

/-- No slots or a power of two of them, and no more frames than slots. -/
structure Ok (r : PnetRing) : Prop where
  pow : r.n = 0 ∨ ∃ k < 32, r.n = UInt32.ofNat (2 ^ k)
  fits : r.count ≤ r.n

theorem length_frames (r : PnetRing) : r.frames.length = r.count.toNat := by
  rw [frames, List.length_map, List.length_range]

theorem peek_frames {r : PnetRing} (i : UInt32) : r.peek i = r.frames[i.toNat]? := by
  unfold peek frames
  by_cases h : i ≥ r.count
  · rw [if_pos h, List.getElem?_eq_none]
    rw [List.length_map, List.length_range]
    exact UInt32.le_iff_toNat_le.1 h
  · have hlt : i.toNat < r.count.toNat := UInt32.lt_iff_toNat_lt.1 (UInt32.not_le.1 h)
    rw [if_neg h, List.getElem?_map, List.getElem?_range hlt, Option.map_some, UInt32.ofNat_toNat]

/-- Slots go round: the place of a counter is its rest by the number of slots. -/
theorem slot_eq {r : PnetRing} (h : r.n = UInt32.ofNat (2 ^ k)) (hk : k < 32) (i : UInt32) :
    r.slot i = i.toNat % 2 ^ k := by
  have hpow : 2 ^ k < 2 ^ 32 := Nat.pow_lt_pow_right (by omega) hk
  have hn : (r.n - 1).toNat = 2 ^ k - 1 := by
    have hpos : 1 ≤ 2 ^ k := Nat.one_le_two_pow
    rw [h, UInt32.toNat_sub_of_le, UInt32.toNat_ofNat_of_lt' hpow, UInt32.toNat_one]
    rw [UInt32.le_iff_toNat_le, UInt32.toNat_ofNat_of_lt' hpow]
    exact hpos
  rw [slot, UInt32.toNat_and, hn, Nat.and_two_pow_sub_one_eq_mod]

theorem toNat_n {r : PnetRing} (h : r.n = UInt32.ofNat (2 ^ k)) (hk : k < 32) : r.n.toNat = 2 ^ k := by
  rw [h, UInt32.toNat_ofNat_of_lt' (Nat.pow_lt_pow_right (by omega) hk)]

/-- Two counters less than the number of slots apart have slots of their own. -/
theorem slot_ne {r : PnetRing} (h : r.n = UInt32.ofNat (2 ^ k)) (hk : k < 32) (t : UInt32) {i j : Nat}
    (hij : i < j) (hj : j < 2 ^ k + i) (hj32 : j < 2 ^ 32) :
    r.slot (t + UInt32.ofNat i) ≠ r.slot (t + UInt32.ofNat j) := by
  have hdvd : 2 ^ k ∣ 2 ^ 32 := Nat.pow_dvd_pow 2 (Nat.le_of_lt hk)
  have hplace : ∀ x < 2 ^ 32, r.slot (t + UInt32.ofNat x) = (t.toNat + x) % 2 ^ k := by
    intro x hx
    rw [slot_eq h hk, UInt32.toNat_add, UInt32.toNat_ofNat_of_lt' hx, Nat.mod_mod_of_dvd _ hdvd]
  rw [hplace i (by omega), hplace j hj32]
  intro he
  have hsub : (t.toNat + j - (t.toNat + i)) % 2 ^ k = 0 := (Nat.sub_mod_eq_zero_of_mod_eq he.symm)
  have hmod : (j - i) % 2 ^ k = j - i := Nat.mod_eq_of_lt (by omega)
  have hsame : t.toNat + j - (t.toNat + i) = j - i := by omega
  rw [hsame, hmod] at hsub
  omega

theorem init_ok (slots : Nat → Bytes) (n : UInt32) : (init slots n).2.Ok := by
  refine ⟨?_, UInt32.le_iff_toNat_le.2 ?_⟩
  swap
  · rw [init, count, UInt32.sub_self, UInt32.toNat_zero]
    exact Nat.zero_le _
  by_cases hok : (n != 0 && (n &&& (n - 1)) == 0) = true
  · obtain ⟨hn, hand⟩ := Bool.and_eq_true_iff.1 hok
    have hne : n ≠ 0 := bne_iff_ne.1 hn
    have hone : (1 : UInt32) ≤ n := UInt32.le_iff_toNat_le.2 (Nat.pos_of_ne_zero fun h0 => hne (UInt32.toNat.inj h0))
    have hpos : 0 < n.toNat := UInt32.le_iff_toNat_le.1 hone
    have hpow : n.toNat.isPowerOfTwo := by
      rw [← Nat.and_sub_one_eq_zero_iff_isPowerOfTwo (Nat.ne_of_gt hpos)]
      have hbits := congrArg UInt32.toNat (beq_iff_eq.1 hand)
      rwa [UInt32.toNat_and, UInt32.toNat_sub_of_le _ _ hone, UInt32.toNat_one] at hbits
    obtain ⟨k, hk⟩ := hpow
    refine .inr ⟨k, ?_, ?_⟩
    · rw [← Nat.pow_lt_pow_iff_right (a := 2) (by decide), ← hk]
      exact n.toNat_lt
    · show (if _ then n else 0) = _
      rw [if_pos hok, ← hk, UInt32.ofNat_toNat]
  · left
    show (if _ then n else 0) = _
    rw [if_neg hok]

theorem init_frames (slots : Nat → Bytes) (n : UInt32) : (init slots n).2.frames = [] := by
  rw [init, frames, count, UInt32.sub_self, UInt32.toNat_zero, List.range_zero, List.map_nil]

/-- Room for one more: the counters stay clear of the wrap. -/
theorem Ok.room {r : PnetRing} (h : r.Ok) (hs : r.space ≠ 0) :
    ∃ k < 32, r.n = UInt32.ofNat (2 ^ k) ∧ r.count.toNat < 2 ^ k := by
  have hfits := UInt32.le_iff_toNat_le.1 h.fits
  have hlt : r.count.toNat ≠ r.n.toNat := by
    intro he
    apply hs
    rw [space, UInt32.toNat.inj he]
    exact UInt32.sub_self _
  rcases h.pow with h0 | ⟨k, hk, hn⟩
  · rw [h0] at hfits hlt
    simp only [UInt32.toNat_zero] at hfits hlt
    omega
  · rw [toNat_n hn hk] at hfits hlt
    exact ⟨k, hk, hn, by omega⟩

theorem count_commit {r : PnetRing} (h : r.Ok) (hs : r.space ≠ 0) (f : Bytes) :
    (r.commit f).count.toNat = r.count.toNat + 1 := by
  obtain ⟨k, hk, -, hlt⟩ := h.room hs
  have hpow : 2 ^ k ≤ 2 ^ 31 := Nat.pow_le_pow_right (by decide) (by omega)
  have hcount : (r.commit f).count = r.count + 1 := by
    show r.head + 1 - r.tail = r.head - r.tail + 1
    rw [UInt32.sub_eq_add_neg, UInt32.sub_eq_add_neg, UInt32.add_assoc, UInt32.add_comm 1, UInt32.add_assoc]
  rw [hcount, UInt32.toNat_add, UInt32.toNat_one, Nat.mod_eq_of_lt (by omega)]

/-- A frame published goes to the end. -/
theorem commit_frames {r : PnetRing} (h : r.Ok) (hs : r.space ≠ 0) (f : Bytes) :
    (r.commit f).frames = r.frames ++ [f] := by
  obtain ⟨k, hk, hn, hlt⟩ := h.room hs
  have hpow : 2 ^ k ≤ 2 ^ 31 := Nat.pow_le_pow_right (by decide) (by omega)
  have hhead : r.head = r.tail + UInt32.ofNat r.count.toNat := by
    rw [UInt32.ofNat_toNat, count, UInt32.add_comm, UInt32.sub_add_cancel]
  have hslot : ∀ i, (r.commit f).slots ((r.commit f).slot (r.tail + UInt32.ofNat i)) =
      if r.slot (r.tail + UInt32.ofNat i) = r.slot r.head then f else r.slots (r.slot (r.tail + UInt32.ofNat i)) := by
    intro i
    show Function.update r.slots (r.slot r.head) f (r.slot (r.tail + UInt32.ofNat i)) = _
    rw [Function.update_apply]
  rw [frames, count_commit h hs, List.range_succ, List.map_append, List.map_singleton]
  congr 1
  · apply List.map_congr_left
    intro i hi
    have hi : i < r.count.toNat := List.mem_range.1 hi
    rw [show (r.commit f).tail = r.tail from rfl, hslot, if_neg]
    rw [hhead]
    exact slot_ne hn hk r.tail hi (by omega) (by omega)
  · rw [show (r.commit f).tail = r.tail from rfl, hslot, if_pos (by rw [← hhead])]

theorem commit_ok {r : PnetRing} (h : r.Ok) (hs : r.space ≠ 0) (f : Bytes) : (r.commit f).Ok := by
  obtain ⟨k, hk, hn, hlt⟩ := h.room hs
  refine ⟨h.pow, UInt32.le_iff_toNat_le.2 ?_⟩
  rw [count_commit h hs, show (r.commit f).n = r.n from rfl, toNat_n hn hk]
  exact hlt

/-- Frames released leave the front. -/
theorem drop_frames {r : PnetRing} (k : UInt32) : (r.drop k).frames = r.frames.drop k.toNat := by
  obtain ⟨d, hd, hdrop⟩ : ∃ d : UInt32, d ≤ r.count ∧ r.drop k = { r with tail := r.tail + d } ∧
      r.frames.drop k.toNat = r.frames.drop d.toNat := by
    by_cases hk : k > r.count
    · refine ⟨r.count, UInt32.le_refl _, by rw [drop, if_pos hk], ?_⟩
      rw [List.drop_eq_nil_of_le, List.drop_eq_nil_of_le]
      · rw [length_frames]
      · rw [length_frames]
        exact Nat.le_of_lt (UInt32.lt_iff_toNat_lt.1 hk)
    · exact ⟨k, UInt32.not_lt.1 hk, by rw [drop, if_neg hk], rfl⟩
  have hd' := UInt32.le_iff_toNat_le.1 hd
  have hcount : (r.drop k).count.toNat = r.count.toNat - d.toNat := by
    rw [hdrop.1, count]
    show (r.head - (r.tail + d)).toNat = _
    have hsub : r.head - (r.tail + d) = r.count - d := by
      rw [count, UInt32.sub_eq_add_neg, UInt32.sub_eq_add_neg, UInt32.sub_eq_add_neg, UInt32.neg_add, UInt32.sub_eq_add_neg,
        UInt32.add_assoc]
    rw [hsub, UInt32.toNat_sub_of_le _ _ hd]
  rw [hdrop.2]
  apply List.ext_getElem
  · rw [length_frames, hcount, List.length_drop, length_frames]
  · intro i hi hi'
    rw [List.getElem_drop]
    simp only [frames, List.getElem_map, List.getElem_range]
    rw [hdrop.1]
    show r.slots (r.slot (r.tail + d + UInt32.ofNat i)) = _
    rw [UInt32.ofNat_add, UInt32.ofNat_toNat, UInt32.add_assoc]

theorem drop_ok {r : PnetRing} (h : r.Ok) (k : UInt32) : (r.drop k).Ok := by
  refine ⟨h.pow, UInt32.le_iff_toNat_le.2 ?_⟩
  have hlen := congrArg List.length (drop_frames (r := r) k)
  rw [length_frames, List.length_drop, length_frames] at hlen
  have hfits := UInt32.le_iff_toNat_le.1 h.fits
  rw [hlen]
  exact Nat.le_trans (Nat.sub_le _ _) hfits

/-- What a push that is not refused does. -/
theorem push_frames {r : PnetRing} (h : r.Ok) (f : Bytes) :
    (r.push f).2.Ok ∧ (r.push f).2.frames = r.frames ++ if (r.push f).1 then [f] else [] := by
  have hrefuse : r.refuse.Ok ∧ r.refuse.frames = r.frames := ⟨⟨h.pow, h.fits⟩, rfl⟩
  unfold push
  split
  · exact ⟨hrefuse.1, by simpa using hrefuse.2⟩
  · split
    · exact ⟨hrefuse.1, by simpa using hrefuse.2⟩
    · next hs => exact ⟨commit_ok h hs f, commit_frames h hs f⟩

end PnetRing

end WebAdf.Firmware
