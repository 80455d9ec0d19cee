import Mathlib.Data.List.Pairwise

/-!
# Stop and wait over channels that lose and repeat

One direction of a link: a sender with one item out until its number comes back,
and a receiver that takes an item when its number is another than the last taken.
Either channel keeps its order, and may lose what it carries or carry it twice. The
numbers here count without end; a wrapping counter tells neighbours apart, and no
two numbers that meet are further apart.
-/

namespace WebAdf.Lib

-- ---------------------------------------------------------------------------
-- Channels
-- ---------------------------------------------------------------------------

/-- What a channel does to what it carries: an item lost, or carried twice. -/
inductive Faulty : List α → List α → Prop
  | lose (as : List α) (x : α) (bs : List α) : Faulty (as ++ x :: bs) (as ++ bs)
  | repeats (as : List α) (x : α) (bs : List α) : Faulty (as ++ x :: bs) (as ++ x :: x :: bs)

theorem Faulty.map (f : α → β) (h : Faulty xs ys) : Faulty (xs.map f) (ys.map f) := by
  cases h with
  | lose as x bs =>
    rw [List.map_append, List.map_append, List.map_cons]
    exact .lose _ _ _
  | repeats as x bs =>
    rw [List.map_append, List.map_append, List.map_cons, List.map_cons, List.map_cons]
    exact .repeats _ _ _

theorem Faulty.mem (h : Faulty xs ys) (hy : y ∈ ys) : y ∈ xs := by
  cases h with
  | lose as x bs =>
    rcases List.mem_append.1 hy with hy | hy
    · exact List.mem_append_left _ hy
    · exact List.mem_append_right _ (List.mem_cons_of_mem _ hy)
  | repeats as x bs =>
    rcases List.mem_append.1 hy with hy | hy
    · exact List.mem_append_left _ hy
    · rcases List.mem_cons.1 hy with rfl | hy
      · exact List.mem_append_right _ (List.mem_cons_self ..)
      · exact List.mem_append_right _ hy

/-- Numbers in order stay in order. -/
theorem Faulty.sorted {xs ys : List Nat} (h : Faulty xs ys) (hx : xs.Pairwise (· ≤ ·)) : ys.Pairwise (· ≤ ·) := by
  cases h with
  | lose as x bs =>
    exact hx.sublist (List.Sublist.append (List.Sublist.refl as) (List.sublist_cons_self x bs))
  | repeats as x bs =>
    rw [List.pairwise_append, List.pairwise_cons] at hx ⊢
    obtain ⟨has, ⟨hxb, hbs⟩, hab⟩ := hx
    refine ⟨has, ⟨fun y hy => ?_, List.pairwise_cons.2 ⟨hxb, hbs⟩⟩, fun a ha y hy => ?_⟩
    · rcases List.mem_cons.1 hy with rfl | hy
      · exact Nat.le_refl _
      · exact hxb y hy
    · rcases List.mem_cons.1 hy with rfl | hy
      · exact hab a ha _ (List.mem_cons_self ..)
      · exact hab a ha y hy

-- ---------------------------------------------------------------------------
-- One direction
-- ---------------------------------------------------------------------------

/-- `started` items went out, the last unacknowledged where `out`; `taken` is the last
taken. `data` and `acks` are the numbers on their way, the oldest first. -/
structure Flow (started : Nat) (out : Bool) (taken : Nat) (data acks : List Nat) : Prop where
  first : out = true → 0 < started
  ahead : taken ≤ started
  behind : started ≤ taken + if out then 1 else 0
  dataOrder : data.Pairwise (· ≤ ·)
  dataRange : ∀ k ∈ data, taken ≤ k ∧ k ≤ started
  acksOrder : acks.Pairwise (· ≤ ·)
  acksRange : ∀ e ∈ acks, e ≤ taken ∧ started ≤ e + if out then 1 else 0

namespace Flow

theorem boot : Flow 0 false 0 [] [] :=
  ⟨nofun, Nat.le_refl _, Nat.le_refl _, .nil, by simp, .nil, by simp⟩

theorem start (h : Flow s false t d a) : Flow (s + 1) true t d a := by
  have hbehind := h.behind
  refine ⟨fun _ => Nat.succ_pos _, Nat.le_succ_of_le h.ahead, ?_, h.dataOrder, fun k hk => ?_, h.acksOrder,
    fun e he => ?_⟩
  · simpa using hbehind
  · exact ⟨(h.dataRange k hk).1, Nat.le_succ_of_le (h.dataRange k hk).2⟩
  · exact ⟨(h.acksRange e he).1, by simpa using (h.acksRange e he).2⟩

theorem sendData (h : Flow s out t d a) : Flow s out t (d ++ [s]) a := by
  refine ⟨h.first, h.ahead, h.behind, ?_, fun k hk => ?_, h.acksOrder, h.acksRange⟩
  · rw [List.pairwise_append]
    exact ⟨h.dataOrder, List.pairwise_singleton _ _, fun k hk s' hs => List.mem_singleton.1 hs ▸ (h.dataRange k hk).2⟩
  · rcases List.mem_append.1 hk with hk | hk
    · exact h.dataRange k hk
    · rw [List.mem_singleton.1 hk]
      exact ⟨h.ahead, Nat.le_refl _⟩

theorem sendAck (h : Flow s out t d a) : Flow s out t d (a ++ [t]) := by
  refine ⟨h.first, h.ahead, h.behind, h.dataOrder, h.dataRange, ?_, fun e he => ?_⟩
  · rw [List.pairwise_append]
    exact ⟨h.acksOrder, List.pairwise_singleton _ _, fun e he t' ht => List.mem_singleton.1 ht ▸ (h.acksRange e he).1⟩
  · rcases List.mem_append.1 he with he | he
    · exact h.acksRange e he
    · rw [List.mem_singleton.1 he]
      exact ⟨Nat.le_refl _, h.behind⟩

theorem faultyData (h : Flow s out t d a) (hf : Faulty d d') : Flow s out t d' a :=
  ⟨h.first, h.ahead, h.behind, hf.sorted h.dataOrder, fun k hk => h.dataRange k (hf.mem hk), h.acksOrder, h.acksRange⟩

theorem faultyAcks (h : Flow s out t d a) (hf : Faulty a a') : Flow s out t d a' :=
  ⟨h.first, h.ahead, h.behind, h.dataOrder, h.dataRange, hf.sorted h.acksOrder, fun e he => h.acksRange e (hf.mem he)⟩

theorem dropData (h : Flow s out t (k :: d) a) : Flow s out t d a := h.faultyData (.lose [] k d)

theorem dropAck (h : Flow s out t d (e :: a)) : Flow s out t d a := h.faultyAcks (.lose [] e a)

/-- What arrives is the last taken again, or the one out. -/
theorem arrives (h : Flow s out t (k :: d) a) : k = t ∨ k = t + 1 ∧ k = s ∧ out = true := by
  obtain ⟨hle, hs⟩ := h.dataRange k (List.mem_cons_self ..)
  have hbehind := h.behind
  cases out with
  | true =>
    simp only [if_pos] at hbehind
    by_cases hk : k = t
    · exact .inl hk
    · exact .inr ⟨by omega, by omega, rfl⟩
  | false =>
    simp only [Bool.false_eq_true, if_false, Nat.add_zero] at hbehind
    exact .inl (by omega)

theorem take (h : Flow s out t (k :: d) a) : Flow s out k d a := by
  obtain ⟨hle, hs⟩ := h.dataRange k (List.mem_cons_self ..)
  have hsorted := List.pairwise_cons.1 h.dataOrder
  refine ⟨h.first, hs, Nat.le_trans h.behind (Nat.add_le_add_right hle _), hsorted.2, fun j hj => ?_, h.acksOrder,
    fun e he => ?_⟩
  · exact ⟨hsorted.1 j hj, (h.dataRange j (List.mem_cons_of_mem _ hj)).2⟩
  · exact ⟨Nat.le_trans (h.acksRange e he).1 hle, (h.acksRange e he).2⟩

/-- While one is out, what comes back is its number or the one before. -/
theorem echoes (h : Flow s true t d (e :: a)) : e = s ∧ t = s ∨ e + 1 = s := by
  obtain ⟨het, hse⟩ := h.acksRange e (List.mem_cons_self ..)
  have hahead := h.ahead
  simp only [if_pos] at hse
  omega

/-- Its number came back: it is no longer out. -/
theorem acked (h : Flow s true t d (s :: a)) : Flow s false t d a := by
  obtain ⟨hst, -⟩ := h.acksRange s (List.mem_cons_self ..)
  have hsorted := List.pairwise_cons.1 h.acksOrder
  refine ⟨nofun, h.ahead, by simpa using hst, h.dataOrder, h.dataRange, hsorted.2, fun e he => ?_⟩
  exact ⟨(h.acksRange e (List.mem_cons_of_mem _ he)).1, by simpa using hsorted.1 e he⟩

end Flow

-- ---------------------------------------------------------------------------
-- Wrapping counters
-- ---------------------------------------------------------------------------

/-- The counter that started at `base`, after `k` steps. -/
def counter (base : UInt8) (k : Nat) : UInt8 := base + UInt8.ofNat k

theorem counter_succ (base : UInt8) (k : Nat) : counter base (k + 1) = counter base k + 1 := by
  apply UInt8.toNat.inj
  simp only [counter, UInt8.toNat_add, UInt8.toNat_ofNat', UInt8.toNat_one]
  omega

/-- Neighbours have different counters. -/
theorem counter_next (base : UInt8) (k : Nat) : counter base (k + 1) ≠ counter base k := by
  intro h
  have := congrArg UInt8.toNat h
  simp only [counter, UInt8.toNat_add, UInt8.toNat_ofNat'] at this
  omega

end WebAdf.Lib
