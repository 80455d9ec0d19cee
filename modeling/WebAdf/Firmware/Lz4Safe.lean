import Mathlib
import WebAdf.Firmware.Lz4Memory

/-!
# The LZ4 decoder stays in its regions

`Safe` is what every access keeps, on any bytes. Where the source does not
overlap the output and no length passes `size_t`, each pointer step is one of
`readSequence`, so the format's results hold of the memory.
-/

namespace WebAdf.Firmware.Lz4

open Lib

/-- The caller's regions. -/
structure Regions where
  src : Nat
  n : Nat
  dst : Nat
  dstEnd : Nat
  window : Nat

def Access.Within (r : Regions) : Access → Prop
  | .source a => r.src ≤ a ∧ a < r.src + r.n
  | .back a op => r.window ≤ a ∧ a < op ∧ op < r.dstEnd
  | .store a => r.dst ≤ a ∧ a < r.dstEnd

/-- The pointers are in the regions, every access was, and nothing outside
`[dst, dst_end)` has changed. -/
structure Safe (r : Regions) (mem : Memory) (d : Decoder) : Prop where
  low : r.src ≤ d.ip
  source : d.ip + d.left = r.src + r.n
  start : r.dst ≤ d.op
  stop : d.op ≤ r.dstEnd
  log : ∀ a ∈ d.log, a.Within r
  frame : ∀ a, ¬(r.dst ≤ a ∧ a < r.dstEnd) → d.mem a = mem a

namespace Safe

theorem next (h : Safe r mem d) (hleft : 0 < d.left) : Safe r mem d.next where
  low := Nat.le_succ_of_le h.low
  source := by
    have := h.source
    simp only [Decoder.next_ip, Decoder.next_left]
    omega
  start := h.start
  stop := h.stop
  log := by
    have := h.source
    have := h.low
    intro a ha
    rcases List.mem_cons.mp ha with rfl | ha
    · exact ⟨by omega, by omega⟩
    · exact h.log a ha
  frame := h.frame

theorem store (h : Safe r mem d) (hop : d.op < r.dstEnd) (b : UInt8) : Safe r mem (d.store b) where
  low := h.low
  source := h.source
  start := Nat.le_succ_of_le h.start
  stop := hop
  log := by
    intro a ha
    rcases List.mem_cons.mp ha with rfl | ha
    · exact ⟨h.start, hop⟩
    · exact h.log a ha
  frame := by
    intro a ha
    have hne : a ≠ d.op := by
      rintro rfl
      exact ha ⟨h.start, hop⟩
    rw [Decoder.store_mem, Function.update_of_ne hne]
    exact h.frame a ha

theorem readRun (h : Safe r mem d) (w len : Nat) : Safe r mem (d.readRun w len).2 := by
  fun_induction Decoder.readRun w d len with
  | case1 d len hleft => exact h
  | case2 d len hleft len' hb ih => exact ih (h.next (Nat.pos_of_ne_zero hleft))
  | case3 d len hleft len' hb => exact h.next (Nat.pos_of_ne_zero hleft)

theorem readLength (h : Safe r mem d) (w nib len : Nat) : Safe r mem (d.readLength w nib len).2 := by
  rw [Decoder.readLength]
  split
  · exact h.readRun w len
  · exact h

theorem literals (h : Safe r mem d) (hleft : lit ≤ d.left) (hroom : d.op + lit ≤ r.dstEnd) :
    Safe r mem (d.literals lit) := by
  induction lit generalizing d with
  | zero => exact h
  | succ lit ih =>
    rw [Decoder.literals]
    refine ih ((h.next (by omega)).store (by simp; omega) d.byte) ?_ ?_
    · simp only [Decoder.store_left, Decoder.next_left]
      omega
    · simp only [Decoder.store_op, Decoder.next_op]
      omega

/-- A match is read before the output's end, which moves on ahead of it. -/
theorem copyBack (h : Safe r mem d) (hm : r.window ≤ m ∧ m < d.op) (hroom : d.op + ml ≤ r.dstEnd) :
    Safe r mem (d.copyBack m ml) := by
  induction ml generalizing d m with
  | zero => exact h
  | succ ml ih =>
    have hback : Safe r mem { d with log := .back m d.op :: d.log } := by
      refine { h with log := ?_ }
      intro a ha
      rcases List.mem_cons.mp ha with rfl | ha
      · exact ⟨hm.1, hm.2, by omega⟩
      · exact h.log a ha
    rw [Decoder.copyBack]
    refine ih (hback.store (by simp only; omega) _) ⟨by omega, ?_⟩ ?_
    · simp only [Decoder.store_op]
      omega
    · simp only [Decoder.store_op]
      omega

end Safe

/-- A turn that goes on has source left for the next token. -/
def Decoder.Turn.Safe (r : Regions) (mem : Memory) : Decoder.Turn → Prop
  | .fail d => Lz4.Safe r mem d
  | .done d => Lz4.Safe r mem d
  | .next d => Lz4.Safe r mem d ∧ 0 < d.left

theorem Decoder.readRun_keeps (w : Nat) (d : Decoder) (len : Nat) :
    (d.readRun w len).2.op = d.op ∧ (d.readRun w len).2.mem = d.mem := by
  fun_induction Decoder.readRun w d len with
  | case1 d len hleft => exact ⟨rfl, rfl⟩
  | case2 d len hleft len' hb ih => exact ih
  | case3 d len hleft len' hb => exact ⟨rfl, rfl⟩

theorem Decoder.readLength_keeps (w nib len : Nat) (d : Decoder) :
    (d.readLength w nib len).2.op = d.op ∧ (d.readLength w nib len).2.mem = d.mem := by
  rw [Decoder.readLength]
  split
  · exact d.readRun_keeps w len
  · exact ⟨rfl, rfl⟩

theorem Safe.turn (h : Safe r mem d) (hleft : 0 < d.left) (w : Nat) :
    (d.turn w r.dstEnd r.window).Safe r mem := by
  have h1 := (h.next hleft).readLength w (d.byte.toNat >>> 4) (d.byte.toNat >>> 4)
  rw [Decoder.turn]
  dsimp only
  rcases hlen : d.next.readLength w (d.byte.toNat >>> 4) (d.byte.toNat >>> 4) with ⟨_ | lit, d1⟩
  · rw [hlen] at h1
    exact h1
  · rw [hlen] at h1
    dsimp only at h1 ⊢
    by_cases hlit : lit > d1.left ∨ lit > r.dstEnd - d1.op
    · rw [if_pos hlit]
      exact h1
    · rw [if_neg hlit]
      have hstop := h1.stop
      have h2 := h1.literals (show lit ≤ d1.left by omega) (by omega)
      by_cases hzero : (d1.literals lit).left = 0
      · rw [if_pos hzero]
        exact h2
      · rw [if_neg hzero]
        by_cases htwo : (d1.literals lit).left < 2
        · rw [if_pos htwo]
          exact h2
        · rw [if_neg htwo]
          have h3 := (h2.next (by omega)).next (by rw [Decoder.next_left]; omega)
          generalize (d1.literals lit).byte.toNat |||
            (d1.literals lit).next.byte.toNat <<< 8 = off
          generalize (d1.literals lit).next.next = d3 at h3 ⊢
          by_cases hoff : off = 0 ∨ off > d3.op - r.window
          · rw [if_pos hoff]
            exact h3
          · rw [if_neg hoff]
            have h4 := h3.readLength w (d.byte.toNat &&& 15) ((d.byte.toNat &&& 15) + 4)
            have hop := (Decoder.readLength_keeps w (d.byte.toNat &&& 15)
              ((d.byte.toNat &&& 15) + 4) d3).1
            rcases hml : d3.readLength w (d.byte.toNat &&& 15) ((d.byte.toNat &&& 15) + 4)
              with ⟨_ | ml, d4⟩
            · rw [hml] at h4
              exact h4
            · rw [hml] at h4 hop
              dsimp only at h4 hop ⊢
              by_cases hroom : ml > r.dstEnd - d4.op
              · rw [if_pos hroom]
                exact h4
              · rw [if_neg hroom]
                have hstop := h4.stop
                have h5 : Safe r mem (d4.copyBack (d4.op - off) ml) :=
                  h4.copyBack ⟨by omega, by omega⟩ (by omega)
                by_cases hend : (d4.copyBack (d4.op - off) ml).left = 0
                · rw [if_pos hend]
                  exact h5
                · rw [if_neg hend]
                  exact ⟨h5, Nat.pos_of_ne_zero hend⟩

theorem Safe.loop (h : Safe r mem d) (hleft : 0 < d.left) (w : Nat) :
    Safe r mem (d.loop w r.dstEnd r.window).2 := by
  generalize hE : r.dstEnd = dstEnd
  generalize hW : r.window = window
  fun_induction Decoder.loop w dstEnd window d with
  | case1 d d' ht =>
    have := h.turn hleft w
    rw [hE, hW, ht] at this
    exact this
  | case2 d d' ht =>
    have := h.turn hleft w
    rw [hE, hW, ht] at this
    exact this
  | case3 d d' ht ih =>
    have := h.turn hleft w
    rw [hE, hW, ht] at this
    exact ih this.1 this.2

/-- On any memory, every access of a call is in its regions, and nothing outside
the output is changed. -/
theorem pnetLz4DecodeAt_safe (w : Nat) (mem : Memory) (r : Regions) :
    let d := (pnetLz4DecodeAt w mem r.src r.n r.dst r.dstEnd r.window).2
    (∀ a ∈ d.log, a.Within r) ∧ ∀ a, ¬(r.dst ≤ a ∧ a < r.dstEnd) → d.mem a = mem a := by
  rw [pnetLz4DecodeAt]
  dsimp only
  by_cases hbad : r.n = 0 ∨ r.dstEnd < r.dst ∨ r.window > r.dst
  · rw [if_pos hbad]
    exact ⟨nofun, fun _ _ => rfl⟩
  · rw [if_neg hbad]
    have hstart : Safe r mem ⟨mem, r.src, r.n, r.dst, []⟩ :=
      ⟨Nat.le_refl _, rfl, Nat.le_refl _, by simp only; omega, nofun, fun _ _ => rfl⟩
    have h := hstart.loop (Nat.pos_of_ne_zero fun h0 => hbad (Or.inl h0)) w
    exact ⟨h.log, h.frame⟩

-- ---------------------------------------------------------------------------
-- The memory's bytes
-- ---------------------------------------------------------------------------

def bytesAt (mem : Memory) (a n : Nat) : Bytes := (List.range n).map fun i => mem (a + i)

@[simp] theorem length_bytesAt (mem : Memory) (a n : Nat) : (bytesAt mem a n).length = n := by
  simp [bytesAt]

theorem bytesAt_congr (h : ∀ i < n, mem (a + i) = mem' (a + i)) :
    bytesAt mem a n = bytesAt mem' a n := by
  apply List.map_congr_left
  intro i hi
  exact h i (List.mem_range.mp hi)

theorem bytesAt_cons (mem : Memory) (a n : Nat) :
    bytesAt mem a (n + 1) = mem a :: bytesAt mem (a + 1) n := by
  rw [bytesAt, List.range_succ_eq_map, List.map_cons, List.map_map, Nat.add_zero]
  congr 1
  apply List.map_congr_left
  intro i _
  simp only [Function.comp_apply, Nat.add_assoc, Nat.add_comm 1 i]

theorem bytesAt_snoc (mem : Memory) (a n : Nat) :
    bytesAt mem a (n + 1) = bytesAt mem a n ++ [mem (a + n)] := by
  rw [bytesAt, List.range_succ, List.map_append]
  rfl

theorem bytesAt_add (mem : Memory) (a n k : Nat) :
    bytesAt mem a (n + k) = bytesAt mem a n ++ bytesAt mem (a + n) k := by
  induction k with
  | zero => simp [bytesAt]
  | succ k ih => rw [← Nat.add_assoc, bytesAt_snoc, ih, bytesAt_snoc, List.append_assoc, Nat.add_assoc]

theorem getD_bytesAt (h : i < n) : (bytesAt mem a n).getD i 0 = mem (a + i) := by
  rw [List.getD_eq_getElem _ _ (by simpa using h)]
  simp [bytesAt]

-- ---------------------------------------------------------------------------
-- The pointers follow the decoder
-- ---------------------------------------------------------------------------

/-- The memory holds `inp` from `ip` on and `out` from the window's start to `op`,
and no byte still to be written is one still to be read. -/
structure Reads (window dstEnd : Nat) (d : Decoder) (inp out : Bytes) : Prop where
  source : bytesAt d.mem d.ip d.left = inp
  output : d.op = window + out.length
  held : bytesAt d.mem window out.length = out
  apart : ∀ a, d.op ≤ a → a < dstEnd → ¬(d.ip ≤ a ∧ a < d.ip + d.left)

namespace Reads

theorem left (h : Reads window dstEnd d inp out) : d.left = inp.length := by
  rw [← h.source, length_bytesAt]

theorem head (h : Reads window dstEnd d (b :: inp) out) : d.byte = b := by
  have hs := h.source
  rw [h.left, List.length_cons, bytesAt_cons, List.cons.injEq] at hs
  exact hs.1

theorem next (h : Reads window dstEnd d (b :: inp) out) : Reads window dstEnd d.next inp out where
  source := by
    have hs := h.source
    rw [h.left, List.length_cons, bytesAt_cons, List.cons.injEq] at hs
    rw [Decoder.next_mem, Decoder.next_ip, Decoder.next_left, h.left]
    exact hs.2
  output := h.output
  held := h.held
  apart := by
    intro a ha hend hin
    rw [Decoder.next_ip, Decoder.next_left] at hin
    have hleft := h.left
    rw [List.length_cons] at hleft
    exact h.apart a ha hend ⟨by omega, by omega⟩

theorem store (h : Reads window dstEnd d inp out) (hop : d.op < dstEnd) (b : UInt8) :
    Reads window dstEnd (d.store b) inp (out ++ [b]) where
  source := by
    rw [← h.source]
    apply bytesAt_congr
    intro i hi
    rw [Decoder.store_left] at hi
    rw [Decoder.store_ip, Decoder.store_mem, Function.update_of_ne]
    intro he
    exact h.apart d.op (Nat.le_refl _) hop ⟨by omega, by omega⟩
  output := by
    rw [Decoder.store_op, h.output, List.length_append, List.length_singleton, Nat.add_assoc]
  held := by
    rw [List.length_append, List.length_singleton, bytesAt_snoc, Decoder.store_mem, ← h.output,
      Function.update_self]
    congr 1
    refine Eq.trans (bytesAt_congr ?_) h.held
    intro i hi
    rw [Function.update_of_ne]
    have := h.output
    omega
  apart := by
    intro a ha
    exact h.apart a (Nat.le_of_succ_le ha)

theorem readRun (h : Reads window dstEnd d inp out) (hw : len + 255 * d.left < 2 ^ w) :
    (d.readRun w len).1 = (Firmware.readRun len inp).map Prod.fst ∧
      ∀ n rest, Firmware.readRun len inp = some (n, rest) →
        Reads window dstEnd (d.readRun w len).2 rest out := by
  fun_induction Decoder.readRun w d len generalizing inp
  case case1 d len hleft =>
    obtain rfl : inp = [] := List.eq_nil_of_length_eq_zero (by rw [← h.left, hleft])
    exact ⟨rfl, fun _ _ hs => by cases hs⟩
  case case2 d len hleft len' hb ih =>
    cases inp with
    | nil => exact absurd h.left hleft
    | cons b inp =>
      have hlen : len' = len + 255 := by
        have : d.byte.toNat = 255 := congrArg UInt8.toNat hb
        rw [show len' = (len + d.byte.toNat) % 2 ^ w from rfl, this, Nat.mod_eq_of_lt (by omega)]
      rw [Firmware.readRun, if_pos (by rw [← h.head, hb])]
      rw [hlen] at ih ⊢
      exact ih h.next (by rw [Decoder.next_left]; omega)
  case case3 d len hleft len' hb =>
    cases inp with
    | nil => exact absurd h.left hleft
    | cons b inp =>
      have hlt := d.byte.toNat_lt
      have hlen : len' = len + b.toNat := by
        rw [show len' = (len + d.byte.toNat) % 2 ^ w from rfl, Nat.mod_eq_of_lt (by omega), h.head]
      rw [Firmware.readRun, if_neg (by rwa [← h.head]), hlen]
      refine ⟨rfl, ?_⟩
      intro n rest he
      simp only [Option.some.injEq, Prod.mk.injEq] at he
      obtain ⟨-, rfl⟩ := he
      exact h.next

theorem readLength (h : Reads window dstEnd d inp out) (nib base w : Nat)
    (hw : nib + base + 255 * d.left < 2 ^ w) :
    (d.readLength w nib (nib + base)).1 = (Firmware.readLength nib base inp).map Prod.fst ∧
      ∀ n rest, Firmware.readLength nib base inp = some (n, rest) →
        Reads window dstEnd (d.readLength w nib (nib + base)).2 rest out := by
  rw [Decoder.readLength, Firmware.readLength]
  by_cases hnib : nib = 15
  · rw [if_pos hnib, if_pos hnib]
    exact h.readRun hw
  · rw [if_neg hnib, if_neg hnib]
    refine ⟨rfl, ?_⟩
    intro n rest he
    simp only [Option.some.injEq, Prod.mk.injEq] at he
    obtain ⟨-, rfl⟩ := he
    exact h

theorem literals (h : Reads window dstEnd d inp out) (lit : Nat) (hlit : lit ≤ inp.length)
    (hroom : lit ≤ dstEnd - d.op) :
    Reads window dstEnd (d.literals lit) (inp.drop lit) (out ++ inp.take lit) := by
  induction lit generalizing d inp out with
  | zero =>
    rw [Decoder.literals]
    simpa using h
  | succ lit ih =>
    cases inp with
    | nil => simp at hlit
    | cons b inp =>
      rw [Decoder.literals, h.head, List.drop_succ_cons, List.take_succ_cons, List.append_cons]
      refine ih (h.next.store (by simp; omega) b) (by simpa using hlit) ?_
      rw [Decoder.store_op, Decoder.next_op]
      omega

theorem copyBack (h : Reads window dstEnd d inp out) (off ml : Nat) (hoff : 0 < off ∧ off ≤ out.length)
    (hroom : ml ≤ dstEnd - d.op) :
    Reads window dstEnd (d.copyBack (d.op - off) ml) inp (copyMatch out off ml) := by
  induction ml generalizing d out with
  | zero => exact h
  | succ ml ih =>
    have hbyte : d.mem (d.op - off) = out.getD (out.length - off) default := by
      have hout := h.output
      rw [← h.held, length_bytesAt, show (default : UInt8) = 0 from rfl, getD_bytesAt (by omega)]
      congr 1
      omega
    have hlog : Reads window dstEnd { d with log := .back (d.op - off) d.op :: d.log } inp out :=
      ⟨h.source, h.output, h.held, h.apart⟩
    have hnext := hlog.store (by simp only; omega) (d.mem (d.op - off))
    rw [Decoder.copyBack, copyMatch, show d.op - off + 1 = d.op + 1 - off by have := h.output; omega,
      ← hbyte]
    refine ih hnext ⟨hoff.1, by simp; omega⟩ ?_
    simp only [Decoder.store_op]
    omega

end Reads

/-- The pointers' turn is the decoder's. -/
def Decoder.Turn.Follows (window dstEnd : Nat) : Decoder.Turn → Step → Prop
  | .fail _, .bad _ => True
  | .done d, .done out => Reads window dstEnd d [] out
  | .next d, .next out rest => Reads window dstEnd d rest out
  | _, _ => False

theorem Reads.turn (h : Reads window dstEnd d inp out) (hinp : inp ≠ [])
    (hw : 19 + 255 * d.left < 2 ^ w) :
    (d.turn w dstEnd window).Follows window dstEnd (readSequence (dstEnd - window) out inp) := by
  obtain ⟨token, inp, rfl⟩ := List.exists_cons_of_ne_nil hinp
  have htoken := token.toNat_lt
  have hhigh := token_high token
  have hlow := token_low token
  rw [Decoder.turn, readSequence, h.head]
  dsimp only
  obtain ⟨hlen, hreads⟩ := h.next.readLength (token.toNat >>> 4) 0 w
    (by rw [Decoder.next_left]; omega)
  rw [Nat.add_zero] at hlen hreads
  have hleft1 := Decoder.readLength_left w (token.toNat >>> 4) (token.toNat >>> 4) d.next
  rw [Decoder.next_left] at hleft1
  rcases hd : d.next.readLength w (token.toNat >>> 4) (token.toNat >>> 4) with ⟨len, d1⟩
  rw [hd] at hlen hreads hleft1
  dsimp only at hlen hreads hleft1 ⊢
  rcases hr : Firmware.readLength (token.toNat >>> 4) 0 inp with _ | ⟨lit, inp1⟩
  · rw [hr] at hlen
    subst hlen
    trivial
  · rw [hr] at hlen
    subst hlen
    have h1 := hreads lit inp1 hr
    have hroom : dstEnd - d1.op = dstEnd - window - out.length := by
      rw [h1.output, Nat.sub_sub]
    dsimp only [Option.map_some]
    rw [h1.left, hroom]
    by_cases hlit : lit > inp1.length ∨ lit > dstEnd - window - out.length
    · rw [if_pos hlit, if_pos hlit]
      trivial
    · rw [if_neg hlit, if_neg hlit]
      have h2 := h1.literals lit (by omega) (by omega)
      rw [h2.left]
      rcases hdrop : inp1.drop lit with _ | ⟨lo, _ | ⟨hi, inp2⟩⟩
      · rw [hdrop] at h2
        rw [if_pos List.length_nil]
        exact h2
      · rw [if_neg (by simp), if_pos (by simp)]
        trivial
      · rw [hdrop] at h2
        rw [if_neg (by simp), if_neg (by simp), h2.head, h2.next.head]
        have h3 := h2.next.next
        have hleft3 : (d1.literals lit).next.next.left ≤ d.left := by
          simp only [Decoder.next_left, Decoder.literals_left]
          omega
        generalize (d1.literals lit).next.next = d3 at h3 hleft3 ⊢
        have hback : d3.op - window = (out ++ inp1.take lit).length := by
          rw [h3.output, Nat.add_sub_cancel_left]
        rw [hback]
        dsimp only
        by_cases hoff : lo.toNat ||| hi.toNat <<< 8 = 0 ∨
            lo.toNat ||| hi.toNat <<< 8 > (out ++ inp1.take lit).length
        · rw [if_pos hoff, if_pos hoff]
          trivial
        · rw [if_neg hoff, if_neg hoff]
          obtain ⟨hlen, hreads⟩ := h3.readLength (token.toNat &&& 15) 4 w
            (by omega)
          rcases hd4 : d3.readLength w (token.toNat &&& 15) ((token.toNat &&& 15) + 4)
            with ⟨len, d4⟩
          rw [hd4] at hlen hreads
          dsimp only at hlen hreads ⊢
          rcases hr4 : Firmware.readLength (token.toNat &&& 15) 4 inp2 with _ | ⟨ml, inp3⟩
          · rw [hr4] at hlen
            subst hlen
            trivial
          · rw [hr4] at hlen
            subst hlen
            have h4 := hreads ml inp3 hr4
            have hroom4 : dstEnd - d4.op = dstEnd - window - (out ++ inp1.take lit).length := by
              rw [h4.output, Nat.sub_sub]
            dsimp only [Option.map_some]
            rw [hroom4]
            by_cases hml : ml > dstEnd - window - (out ++ inp1.take lit).length
            · rw [if_pos hml, if_pos hml]
              trivial
            · rw [if_neg hml, if_neg hml]
              have h5 := h4.copyBack (lo.toNat ||| hi.toNat <<< 8) ml
                ⟨by omega, by omega⟩ (by omega)
              rw [h5.left]
              by_cases hend : inp3 = []
              · rw [if_pos (by rw [hend]; rfl), if_pos hend]
                trivial
              · rw [if_neg (by rwa [List.length_eq_zero_iff]), if_neg hend]
                exact h5

theorem Reads.loop (h : Reads window dstEnd d inp out) (hinp : inp ≠ [])
    (hw : 19 + 255 * d.left < 2 ^ w) :
    (d.loop w dstEnd window).1 = (decodeLoop (dstEnd - window) out inp).1 ∧
      ((decodeLoop (dstEnd - window) out inp).1 = true →
        Reads window dstEnd (d.loop w dstEnd window).2 []
          (decodeLoop (dstEnd - window) out inp).2) := by
  fun_induction Decoder.loop w dstEnd window d generalizing inp out
  case case1 d d' ht =>
    have hturn := h.turn hinp hw
    rw [ht] at hturn
    rcases hr : readSequence (dstEnd - window) out inp with o | o | ⟨o, rest⟩
    · rw [decodeLoop_bad hr]
      exact ⟨rfl, nofun⟩
    · rw [hr] at hturn
      cases hturn
    · rw [hr] at hturn
      cases hturn
  case case2 d d' ht =>
    have hturn := h.turn hinp hw
    rw [ht] at hturn
    rcases hr : readSequence (dstEnd - window) out inp with o | o | ⟨o, rest⟩
    · rw [hr] at hturn
      cases hturn
    · rw [decodeLoop_done hr]
      rw [hr] at hturn
      exact ⟨rfl, fun _ => hturn⟩
    · rw [hr] at hturn
      cases hturn
  case case3 d d' ht ih =>
    have hturn := h.turn hinp hw
    rw [ht] at hturn
    rcases hr : readSequence (dstEnd - window) out inp with o | o | ⟨o, rest⟩
    · rw [hr] at hturn
      cases hturn
    · rw [hr] at hturn
      cases hturn
    · rw [hr] at hturn
      rw [decodeLoop_next hr]
      obtain ⟨s, -, hrest⟩ := readSequence_next_spelled hr
      have hless := Decoder.turn_next_left ht
      exact ih hturn hrest (by omega)

-- ---------------------------------------------------------------------------
-- The call
-- ---------------------------------------------------------------------------

/-- What the header asks of the caller, and lengths that a `size_t` holds. -/
structure Regions.Sound (r : Regions) (w : Nat) : Prop where
  window : r.window ≤ r.dst
  room : r.dst ≤ r.dstEnd
  apart : r.src + r.n ≤ r.window ∨ r.dstEnd ≤ r.src
  counts : 19 + 255 * r.n < 2 ^ w

theorem pnetLz4DecodeAt_eq (mem : Memory) (h : Regions.Sound r w) :
    let res := pnetLz4DecodeAt w mem r.src r.n r.dst r.dstEnd r.window
    let dec := pnetLz4Decode (bytesAt mem r.src r.n) (bytesAt mem r.window (r.dst - r.window))
      (r.dstEnd - r.dst)
    res.1 = dec.1 ∧ ∀ size, dec.1 = some size → bytesAt res.2.mem r.dst size = dec.2 := by
  have hwindow := h.window
  have hroom := h.room
  rw [pnetLz4DecodeAt, pnetLz4Decode]
  by_cases hn : r.n = 0
  · rw [if_pos (Or.inl hn), if_pos (by rw [hn]; rfl)]
    exact ⟨rfl, fun _ hs => by cases hs⟩
  · have hne : bytesAt mem r.src r.n ≠ [] := by
      intro he
      exact hn (by rw [← length_bytesAt mem r.src r.n, he, List.length_nil])
    have hstart : Reads r.window r.dstEnd ⟨mem, r.src, r.n, r.dst, []⟩ (bytesAt mem r.src r.n)
        (bytesAt mem r.window (r.dst - r.window)) := by
      refine ⟨rfl, ?_, ?_, ?_⟩
      · rw [length_bytesAt]
        exact (Nat.add_sub_cancel' hwindow).symm
      · rw [length_bytesAt]
      · intro a ha hend hin
        have hapart := h.apart
        simp only at ha hin
        omega
    obtain ⟨hok, hreads⟩ := hstart.loop hne h.counts
    rw [if_neg (by omega), if_neg hne, length_bytesAt,
      show r.dst - r.window + (r.dstEnd - r.dst) = r.dstEnd - r.window by omega]
    dsimp only
    rw [hok]
    cases hdec : (decodeLoop (r.dstEnd - r.window) (bytesAt mem r.window (r.dst - r.window))
        (bytesAt mem r.src r.n)).1 with
    | false =>
      exact ⟨rfl, fun _ hs => by cases hs⟩
    | true =>
      have hout := hreads hdec
      generalize hd : (Decoder.loop w r.dstEnd r.window ⟨mem, r.src, r.n, r.dst, []⟩).2 = d at hout ⊢
      generalize hv : (decodeLoop (r.dstEnd - r.window) (bytesAt mem r.window (r.dst - r.window))
        (bytesAt mem r.src r.n)).2 = out at hout ⊢
      have hop := hout.output
      have hheld := hout.held
      have hsize : d.op - r.dst = (out.drop (r.dst - r.window)).length := by
        rw [List.length_drop]
        omega
      rw [if_pos rfl, if_pos rfl, hsize]
      refine ⟨rfl, ?_⟩
      intro size hs
      obtain rfl := Option.some.inj hs
      rw [← hheld, List.length_drop, length_bytesAt]
      by_cases hlen : r.dst - r.window ≤ out.length
      · obtain ⟨k, hk⟩ := Nat.exists_eq_add_of_le hlen
        rw [hk, bytesAt_add, List.drop_left' (length_bytesAt _ _ _),
          Nat.add_sub_cancel_left, Nat.add_sub_cancel' hwindow]
      · rw [List.drop_of_length_le (by simp; omega), Nat.sub_eq_zero_of_le (by omega)]
        rfl

/-- What a call does on every memory: its accesses, and its answer for what is no
block, a block that does not fit, one that does, and one cut short. -/
theorem pnetLz4DecodeAt_exact (w : Nat) (mem : Memory) (r : Regions) :
    let res := pnetLz4DecodeAt w mem r.src r.n r.dst r.dstEnd r.window
    let source := bytesAt mem r.src r.n
    let window := bytesAt mem r.window (r.dst - r.window)
    let limit := r.dstEnd - r.window
    (∀ a ∈ res.2.log, a.Within r) ∧
      (∀ a, ¬(r.dst ≤ a ∧ a < r.dstEnd) → res.2.mem a = mem a) ∧
      (r.n = 0 ∨ r.dstEnd < r.dst ∨ r.window > r.dst → res.1 = none) ∧
      (r.Sound w →
        ((∀ b : Block, source ≠ b.bytes) → res.1 = none) ∧
        ∀ b : Block,
          (source = b.bytes → ¬b.Fits limit window → res.1 = none) ∧
          (source = b.bytes → b.Fits limit window →
            res.1 = some ((b.output window).length - window.length) ∧
            bytesAt res.2.mem r.dst ((b.output window).length - window.length) =
              (b.output window).drop window.length) ∧
          ∀ k < b.bytes.length, source = b.bytes.take k → b.Fits limit window →
            (res.1 ≠ none ↔ k ∈ pauses b.seqs) ∧
            ∀ size, res.1 = some size → size < (b.output window).length - window.length) := by
  obtain ⟨hlog, hframe⟩ := pnetLz4DecodeAt_safe w mem r
  refine ⟨hlog, hframe, ?_, ?_⟩
  · intro hbad
    rw [pnetLz4DecodeAt]
    dsimp only
    rw [if_pos hbad]
  · intro hsound
    obtain ⟨hres, hbytes⟩ := pnetLz4DecodeAt_eq mem hsound
    have hlimit : (bytesAt mem r.window (r.dst - r.window)).length + (r.dstEnd - r.dst) =
        r.dstEnd - r.window := by
      have := hsound.window
      have := hsound.room
      rw [length_bytesAt]
      omega
    rw [hres]
    generalize (pnetLz4DecodeAt w mem r.src r.n r.dst r.dstEnd r.window).2 = d at hbytes ⊢
    generalize bytesAt mem r.window (r.dst - r.window) = window at hlimit hbytes ⊢
    generalize bytesAt mem r.src r.n = source at hbytes ⊢
    rw [← hlimit]
    refine ⟨?_, ?_⟩
    · intro hnot
      by_contra hsome
      obtain ⟨b, hb⟩ := pnetLz4Decode_spelled hsome
      exact hnot b hb
    · intro b
      refine ⟨?_, ?_, ?_⟩
      · rintro rfl hunfit
        exact pnetLz4Decode_unfit b hunfit
      · rintro rfl hfit
        rw [pnetLz4Decode_fits b hfit] at hbytes ⊢
        exact ⟨rfl, hbytes _ rfl⟩
      · rintro k hk rfl hfit
        exact pnetLz4Decode_cut b hfit hk

/-- A whole block of six bytes, and its first sequence up to the match alone,
which decodes to one byte. -/
theorem cut_block_decodes :
    let b : Block := ⟨[⟨[97], 1, 0, by decide⟩], [98], 0, by decide⟩
    let mem : Memory := fun a => (b.bytes).getD a 0
    b.Fits 16 [] ∧ b.bytes.length = 6 ∧ bytesAt mem 0 2 = b.bytes.take 2 ∧
      (pnetLz4DecodeAt 32 mem 0 6 8 24 8).1 = some 6 ∧ (pnetLz4DecodeAt 32 mem 0 2 8 24 8).1 = some 1 := by
  intro b mem
  have hfit : b.Fits 16 [] := ⟨⟨⟨by decide, by decide, by decide⟩, trivial⟩, by decide⟩
  have hbytes : b.bytes = [16, 97, 1, 0, 16, 98] := by decide
  have hlen : b.bytes.length = 6 := by rw [hbytes]; rfl
  have hwhole : bytesAt mem 0 6 = b.bytes := by
    rw [show mem = fun a => b.bytes.getD a 0 from rfl, hbytes]
    decide
  have hcut : bytesAt mem 0 2 = b.bytes.take 2 := by
    rw [show mem = fun a => b.bytes.getD a 0 from rfl, hbytes]
    decide
  have hsound : ∀ n ≤ 6, Regions.Sound ⟨0, n, 8, 24, 8⟩ 32 := by
    intro n hn
    exact ⟨Nat.le_refl _, by simp only; omega, Or.inl (by simp only; omega), by simp only; omega⟩
  refine ⟨hfit, hlen, hcut, ?_, ?_⟩
  · rw [(pnetLz4DecodeAt_eq mem (hsound 6 (by decide))).1]
    dsimp only
    rw [hwhole, show bytesAt mem 8 (8 - 8) = [] from rfl, pnetLz4Decode_fits b hfit]
    decide
  · rw [(pnetLz4DecodeAt_eq mem (hsound 2 (by decide))).1]
    dsimp only
    have hdone : decodeLoop 16 [] [16, 97] = (true, [97]) := decodeLoop_done rfl
    rw [hcut, hbytes, show bytesAt mem 8 (8 - 8) = [] from rfl, pnetLz4Decode, if_neg (by decide)]
    simp [hdone]

end WebAdf.Firmware.Lz4
