import WebAdf.Adffs.Rebuild

/-!
# Chains under linking and unlinking

Linking puts an entry at the head of its bucket, unlinking takes it out of its chain
by one word of its predecessor; every other chain stays as it is.
-/

namespace WebAdf.Adffs

open Lib

variable {adf out mid : Adf} {boot : BootInfo} {page : Nat} {name : Units} {intl : Bool}

-- ---------------------------------------------------------------------------
-- Linking
-- ---------------------------------------------------------------------------

section Link

variable {p e : Nat}

theorem slotOf_eq (name : Units) (intl : Bool) : slotOf name intl = 24 + nameHash name intl * 4 := rfl

theorem link_linkIntoDirectory (hne : e ≠ p) (hp : p < mid.blockCount) (hx : x ≠ e) :
    ((linkIntoDirectory mid p e name intl).block x).be32 496 = (mid.block x).be32 496 := by
  obtain ⟨hlo, hhi⟩ := slotOf_bounds name intl
  by_cases hxp : x = p
  · rw [hxp, block_linkIntoDirectory_dir hne hp, Block.be32_reword_other (by omega) (by omega)]
  · rw [block_linkIntoDirectory_other hxp hx]

theorem slot_linkIntoDirectory_other (hne : e ≠ p) (he : e < mid.blockCount) (hp : p < mid.blockCount)
    (hs : s < hashTableSize) (h : ¬ (d = p ∧ s = nameHash name intl)) :
    (linkIntoDirectory mid p e name intl).slot d s = mid.slot d s := by
  rw [hashTableSize] at hs
  rw [Adf.slot, Adf.slot]
  by_cases hdp : d = p
  · have hsne : s ≠ nameHash name intl := fun heq => h ⟨hdp, heq⟩
    rw [hdp, block_linkIntoDirectory_dir hne hp, Block.be32_reword_other (by rw [slotOf_eq]; omega) (by omega)]
  · by_cases hde : d = e
    · rw [hde, block_linkIntoDirectory_entry hne he hp, Block.be32_reword_other (by omega) (by omega)]
    · rw [block_linkIntoDirectory_other hdp hde]

/-- The new entry heads its bucket, every other chain is as it was. -/
theorem Chain.link (h : Chain mid (mid.slot d s) l) (hmem : e ∉ l) (hne : e ≠ p) (hzero : e ≠ 0) (he : e < mid.blockCount)
    (hp : p < mid.blockCount) (hs : s < hashTableSize) :
    Chain (linkIntoDirectory mid p e name intl) ((linkIntoDirectory mid p e name intl).slot d s)
      (if d = p ∧ s = nameHash name intl then e :: l else l) := by
  have hsame : Chain (linkIntoDirectory mid p e name intl) (mid.slot d s) l :=
    h.same rfl fun x hx => link_linkIntoDirectory hne hp fun hxe => hmem (hxe ▸ hx)
  by_cases hhead : d = p ∧ s = nameHash name intl
  · obtain ⟨rfl, rfl⟩ := hhead
    rw [if_pos ⟨rfl, rfl⟩]
    refine ⟨slot_linkIntoDirectory hne he hp, hzero, he, ?_⟩
    rw [block_linkIntoDirectory_entry hne he hp, Block.be32_reword (.inr (by decide)),
      Nat.mod_eq_of_lt (Block.be32_lt _ _)]
    exact hsame
  · rw [if_neg hhead, slot_linkIntoDirectory_other hne he hp hs hhead]
    exact hsame

end Link

-- ---------------------------------------------------------------------------
-- The predecessor
-- ---------------------------------------------------------------------------

/-- The block and the word that point at an entry. -/
def Pred.block (dir : Nat) : Pred → Nat
  | .slot _ => dir
  | .entry block => block

def Pred.word : Pred → Nat
  | .slot offset => offset
  | .entry _ => 496

theorem unlink_eq (adf : Adf) (dir : Nat) (pred : Pred) (next : Nat) :
    unlink adf dir pred next = (adf.putBe32 (pred.block dir) pred.word next).recheck (pred.block dir) := by
  cases pred <;> rfl

theorem block_unlink_other {pred : Pred} (h : n ≠ pred.block dir) : (unlink adf dir pred next).block n = adf.block n := by
  rw [unlink_eq, Adf.recheck, Adf.putBe32, Adf.block_modify_other h, Adf.block_modify_other h]

theorem block_unlink_self (pred : Pred) (next : Nat) (h : pred.block dir < adf.blockCount) :
    (unlink adf dir pred next).block (pred.block dir) = (adf.block (pred.block dir)).reword pred.word next := by
  rw [unlink_eq, Adf.recheck, Adf.block_modify_self, Adf.putBe32, Adf.block_modify_self h]
  · rfl
  · exact h

@[simp] theorem density_unlink (adf : Adf) (dir : Nat) (pred : Pred) (next : Nat) :
    (unlink adf dir pred next).density = adf.density := by
  rw [unlink_eq]
  rfl

/-- What points at the entry behind `before` in the chain of a slot. -/
def predOf (name : Units) (intl : Bool) (before : List Nat) : Pred :=
  match before.getLast? with
  | none => .slot (slotOf name intl)
  | some b => .entry b

theorem predecessorFrom_chain (h : Chain adf ptr (b :: before ++ e :: after)) (hseen : ∀ x ∈ b :: before, x ∉ seen)
    (hfuel : (b :: before).length ≤ fuel) :
    predecessorFrom adf e fuel ptr seen = some (.entry ((b :: before).getLast (List.cons_ne_nil b before))) := by
  induction before generalizing ptr b seen fuel with
  | nil =>
    obtain ⟨rfl, hne, hlt, hnext, -⟩ := h
    cases fuel with
    | zero => cases hfuel
    | succ fuel =>
      have hgo : ¬ (ptr = 0 ∨ ptr ∈ seen) := not_or.2 ⟨hne, hseen ptr (List.mem_cons_self ..)⟩
      rw [predecessorFrom, if_neg hgo, Adf.raw_of_lt hlt, if_pos hnext]
      rfl
  | cons c before ih =>
    have hnodup := h.nodup
    obtain ⟨rfl, hne, hlt, hrest⟩ := h
    cases fuel with
    | zero => cases hfuel
    | succ fuel =>
      have hgo : ¬ (ptr = 0 ∨ ptr ∈ seen) := not_or.2 ⟨hne, hseen ptr (List.mem_cons_self ..)⟩
      have hnext : (adf.block ptr).be32 496 ≠ e := by
        rw [hrest.1]
        rintro rfl
        have htail := (List.nodup_cons.1 hnodup).2
        exact (List.nodup_cons.1 htail).1 (by simp)
      rw [predecessorFrom, if_neg hgo, Adf.raw_of_lt hlt, if_neg hnext, ih hrest]
      · rfl
      · intro x hx hmem
        rcases List.mem_append.1 hmem with hmem | hmem
        · exact hseen x (List.mem_cons_of_mem _ hx) hmem
        · rw [List.mem_singleton.1 hmem] at hx
          exact (List.nodup_cons.1 hnodup).1 (List.mem_append_left _ hx)
      · simpa using hfuel

/-- The search finds what points at the entry, in the bucket of its name. -/
theorem predecessorOf_chain (h : Chain adf (adf.slot dir (nameHash name intl)) (before ++ e :: after)) (hdir : dir < adf.blockCount) :
    predecessorOf adf dir e name intl = some (predOf name intl before) := by
  have hraw : (adf.raw dir).be32 (slotOf name intl) = adf.slot dir (nameHash name intl) := by
    rw [Adf.raw_of_lt hdir]
    rfl
  have hlen := h.length_le
  rw [predecessorOf, hraw]
  cases before with
  | nil =>
    obtain ⟨hhead, -⟩ := h
    rw [if_pos hhead]
    rfl
  | cons b before =>
    have hnodup := h.nodup
    have hne : adf.slot dir (nameHash name intl) ≠ e := by
      rw [h.1]
      rintro rfl
      exact (List.nodup_cons.1 hnodup).1 (by simp)
    have hfuel : (b :: before).length ≤ adf.blockCount + 2 := by
      rw [List.length_append] at hlen
      omega
    rw [if_neg hne, predecessorFrom_chain h (fun _ _ => List.not_mem_nil) hfuel, predOf, List.getLast?_eq_some_getLast (List.cons_ne_nil b before)]

-- ---------------------------------------------------------------------------
-- Unlinking
-- ---------------------------------------------------------------------------

/-- A chain whose entry `b` points past the one behind it. -/
theorem Chain.bypass (h : Chain adf ptr (before ++ b :: e :: after)) (hc : out.blockCount = adf.blockCount)
    (hsame : ∀ x ∈ before ++ after, (out.block x).be32 496 = (adf.block x).be32 496)
    (hb : (out.block b).be32 496 = (adf.block e).be32 496) : Chain out ptr (before ++ b :: after) := by
  induction before generalizing ptr with
  | nil =>
    obtain ⟨rfl, hne, hlt, -, -, -, hrest⟩ := h
    refine ⟨rfl, hne, hc ▸ hlt, ?_⟩
    rw [hb]
    exact hrest.same hc hsame
  | cons x before ih =>
    obtain ⟨rfl, hne, hlt, hrest⟩ := h
    refine ⟨rfl, hne, hc ▸ hlt, ?_⟩
    rw [hsame ptr (by simp)]
    exact ih hrest fun y hy => hsame y (List.mem_cons_of_mem _ hy)

section Unlink

variable {p e : Nat} {before after : List Nat}

/-- Where the predecessor's word stands. -/
theorem predOf_cases (name : Units) (intl : Bool) (before : List Nat) :
    before = [] ∧ predOf name intl before = .slot (slotOf name intl) ∨
      ∃ init b, before = init ++ [b] ∧ predOf name intl before = .entry b := by
  rcases List.eq_nil_or_concat before with rfl | ⟨init, b, rfl⟩
  · exact .inl ⟨rfl, rfl⟩
  · refine .inr ⟨init, b, List.concat_eq_append .., ?_⟩
    rw [predOf, List.concat_eq_append, List.getLast?_concat]

/-- The word that is changed is a link or the slot of the name. -/
theorem predOf_block (h : Chain adf (adf.slot p (nameHash name intl)) (before ++ e :: after)) (hp : p < adf.blockCount) :
    (predOf name intl before).block p < adf.blockCount ∧
      ((predOf name intl before).block p = p ∧ (predOf name intl before).word = slotOf name intl ∨
        (predOf name intl before).block p ∈ before ∧ (predOf name intl before).word = 496) := by
  rcases predOf_cases name intl before with ⟨rfl, hpred⟩ | ⟨init, b, rfl, hpred⟩
  · rw [hpred]
    exact ⟨hp, .inl ⟨rfl, rfl⟩⟩
  · rw [hpred]
    have hb : b ∈ init ++ [b] := by simp
    exact ⟨(h.ne_zero (List.mem_append_left _ hb)).2, .inr ⟨hb, rfl⟩⟩

/-- A link that is not the predecessor's stays. -/
theorem link_unlink (h : Chain adf (adf.slot p (nameHash name intl)) (before ++ e :: after)) (hp : p < adf.blockCount)
    (hx : x ∉ before) : ((unlink adf p (predOf name intl before) next).block x).be32 496 = (adf.block x).be32 496 := by
  obtain ⟨hlt, hcases⟩ := predOf_block h hp
  obtain ⟨hlo, hhi⟩ := slotOf_bounds name intl
  by_cases hxq : x = (predOf name intl before).block p
  · rcases hcases with ⟨-, hw⟩ | ⟨hmem, -⟩
    · rw [hxq, block_unlink_self _ _ hlt, hw, Block.be32_reword_other (by omega) (by omega)]
    · exact absurd (hxq ▸ hmem) hx
  · rw [block_unlink_other hxq]

theorem slot_unlink_other (h : Chain adf (adf.slot p (nameHash name intl)) (before ++ e :: after)) (hp : p < adf.blockCount)
    (hs : s < hashTableSize) (hother : ¬ (d = p ∧ s = nameHash name intl)) :
    (unlink adf p (predOf name intl before) next).slot d s = adf.slot d s := by
  obtain ⟨hlt, hcases⟩ := predOf_block h hp
  rw [hashTableSize] at hs
  rw [Adf.slot, Adf.slot]
  by_cases hdq : d = (predOf name intl before).block p
  · rw [hdq, block_unlink_self _ _ hlt]
    rcases hcases with ⟨hblock, hw⟩ | ⟨-, hw⟩
    · have hsne : s ≠ nameHash name intl := fun heq => hother ⟨hdq.trans hblock, heq⟩
      rw [hw, Block.be32_reword_other (by rw [slotOf_eq]; omega) (by omega)]
    · rw [hw, Block.be32_reword_other (by omega) (by omega)]
  · rw [block_unlink_other hdq]

/-- Every other chain is as it was. -/
theorem Chain.unlink_other (hl : Chain adf (adf.slot d s) l)
    (h : Chain adf (adf.slot p (nameHash name intl)) (before ++ e :: after)) (hp : p < adf.blockCount)
    (hs : s < hashTableSize) (hother : ¬ (d = p ∧ s = nameHash name intl)) (hdisj : ∀ x ∈ l, x ∉ before) :
    Chain (unlink adf p (predOf name intl before) next) ((unlink adf p (predOf name intl before) next).slot d s) l := by
  rw [slot_unlink_other h hp hs hother]
  refine hl.same ?_ fun x hx => link_unlink h hp (hdisj x hx)
  rw [Adf.blockCount, density_unlink, Adf.blockCount]

/-- The entry is out of its chain, the rest of it stays. -/
theorem Chain.unlink_self (h : Chain adf (adf.slot p (nameHash name intl)) (before ++ e :: after)) (hp : p < adf.blockCount) :
    Chain (unlink adf p (predOf name intl before) ((adf.block e).be32 496))
      ((unlink adf p (predOf name intl before) ((adf.block e).be32 496)).slot p (nameHash name intl)) (before ++ after) := by
  have hnodup := h.nodup
  obtain ⟨out, hout⟩ : ∃ out, out = unlink adf p (predOf name intl before) ((adf.block e).be32 496) := ⟨_, rfl⟩
  have hcount : out.blockCount = adf.blockCount := by rw [hout, Adf.blockCount, density_unlink, Adf.blockCount]
  have hlink {x : Nat} (hx : x ∉ before) : (out.block x).be32 496 = (adf.block x).be32 496 := hout ▸ link_unlink h hp hx
  have hnext : (adf.block e).be32 496 % 2 ^ 32 = (adf.block e).be32 496 := Nat.mod_eq_of_lt (Block.be32_lt _ _)
  obtain ⟨hlo, -⟩ := slotOf_bounds name intl
  rw [← hout]
  rcases predOf_cases name intl before with ⟨rfl, hpred⟩ | ⟨init, b, rfl, hpred⟩
  · obtain ⟨-, -, -, hrest⟩ := h
    have hslot : out.slot p (nameHash name intl) = (adf.block e).be32 496 := by
      have hself := block_unlink_self (.slot (slotOf name intl)) ((adf.block e).be32 496) hp
      rw [hpred] at hout
      rw [Adf.slot, hout]
      refine (congrArg (Block.be32 · _) hself).trans ?_
      rw [← slotOf_eq]
      exact (Block.be32_reword (.inr hlo)).trans hnext
    rw [hslot]
    exact hrest.same hcount fun x _ => hlink List.not_mem_nil
  · have hb : b < adf.blockCount := (h.ne_zero (List.mem_append_left _ (List.mem_append_right _ (List.mem_singleton_self b)))).2
    rw [hpred] at hout
    have hother {x : Nat} (hx : x ≠ b) : out.block x = adf.block x := by
      rw [hout]
      exact block_unlink_other hx
    have hself : out.block b = (adf.block b).reword 496 ((adf.block e).be32 496) := by
      rw [hout]
      exact block_unlink_self (.entry b) _ hb
    have hslot : out.slot p (nameHash name intl) = adf.slot p (nameHash name intl) := by
      rw [Adf.slot, Adf.slot, ← slotOf_eq]
      by_cases hpb : p = b
      · obtain ⟨-, hhi⟩ := slotOf_bounds name intl
        rw [hpb, hself, Block.be32_reword_other (by omega) (by omega)]
      · rw [hother hpb]
    rw [List.append_assoc, List.singleton_append] at h hnodup ⊢
    rw [hslot]
    refine h.bypass hcount (fun x hx => ?_) ?_
    · rw [hother]
      rintro rfl
      rw [List.nodup_append] at hnodup
      obtain ⟨-, htail, hdisj⟩ := hnodup
      rcases List.mem_append.1 hx with hx | hx
      · exact hdisj x hx x (List.mem_cons_self ..) rfl
      · exact (List.nodup_cons.1 htail).1 (List.mem_cons_of_mem _ hx)
    · rw [hself, Block.be32_reword (.inr (by decide)), hnext]

end Unlink

end WebAdf.Adffs
