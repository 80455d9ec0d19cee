import WebAdf.Receive.Disk

/-!
# However the stream is cut

A pass over bytes of a file is a pass over the first of them and then one over
the rest, as long as no mark lies between; lines are taken a byte at a time.
-/

namespace WebAdf.Receive

open Lib

variable {φ : Type}

/-- A write in two parts is the same write. -/
def Fs.WritesOn (fs : Fs φ) : Prop :=
  ∀ (x y : Bytes) (d : φ), fs.write (x ++ y) d =
    match fs.write x d with
    | (true, d) => fs.write y d
    | (false, d) => (false, d)

namespace Session

/-- Bytes are left while a file is received, and the marks behind are told. -/
structure Marked (s : Session φ) : Prop where
  left : s.inData = true → 0 < s.cur.left ∧ s.cur.left ≤ s.cur.size
  mark : s.inData = true → s.cur.off = true ∨
    (s.cur.size - s.cur.left) / progressStep ≤ s.cur.mark

theorem Marked.idle {s : Session φ} (h : s.inData = false) : s.Marked :=
  ⟨fun hd => absurd (hd.symm.trans h) (by simp), fun hd => absurd (hd.symm.trans h) (by simp)⟩

variable {fs : Fs φ}

-- ---------------------------------------------------------------------------
-- One pass
-- ---------------------------------------------------------------------------

/-- Nothing more to stop: writing is on, or the file is none of the switch's. -/
def Settled (s : Session φ) : Prop :=
  (!s.inData || s.cur.mode == .none || s.cur.off || s.cur.dup || s.writeOn) = true

theorem switchChanged_settled {s : Session φ} (h : s.Settled) : s.switchChanged fs = s := if_pos h

theorem settled_switchChanged (s : Session φ) : (s.switchChanged fs).Settled := by
  unfold switchChanged
  split
  · assumption
  · simp [Settled]

/-- What a pass leaves as it is. -/
structure Passed (s s' : Session φ) : Prop where
  inData : s'.inData = s.inData
  size : s'.cur.size = s.cur.size
  left : s'.cur.left = s.cur.left
  mark : s'.cur.mark = s.cur.mark
  off : s.cur.off = true → s'.cur.off = true

theorem switchChanged_passed (s : Session φ) : Passed s (s.switchChanged fs) := by
  unfold switchChanged dropTmp
  dsimp only
  split
  · exact ⟨rfl, rfl, rfl, rfl, id⟩
  · split <;> exact ⟨rfl, rfl, rfl, rfl, fun _ => rfl⟩

theorem writeData_cases (s : Session φ) (data : Bytes) :
    (s.writeData fs data = s ∧ (s.cur.off || s.cur.dup || s.cur.writeFailed) = true) ∨
      (s.cur.off || s.cur.dup || s.cur.writeFailed) = false ∧
        ((∃ d, fs.write data s.disk = (true, d) ∧ s.writeData fs data = { s with disk := d }) ∨
          ∃ d, fs.write data s.disk = (false, d) ∧ s.writeData fs data =
            { s with disk := (fs.err d).2, cur := { s.cur with writeFailed := true, err := (fs.err d).1 } }) := by
  unfold writeData
  cases hskip : (s.cur.off || s.cur.dup || s.cur.writeFailed) with
  | true => exact .inl ⟨rfl, rfl⟩
  | false =>
    refine .inr ⟨rfl, ?_⟩
    rcases hw : fs.write data s.disk with ⟨ok, d⟩
    cases ok with
    | true => exact .inl ⟨d, rfl, by simp [hook, hw]⟩
    | false => exact .inr ⟨d, rfl, by simp [hook, hw, ferr]⟩

theorem writeData_passed (s : Session φ) (data : Bytes) : Passed s (s.writeData fs data) := by
  rcases @writeData_cases φ fs s data with ⟨h, -⟩ | ⟨-, ⟨d, -, h⟩ | ⟨d, -, h⟩⟩ <;> rw [h] <;>
    exact ⟨rfl, rfl, rfl, rfl, id⟩

theorem settled_writeData {s : Session φ} (h : s.Settled) (data : Bytes) :
    (s.writeData fs data).Settled := by
  rcases @writeData_cases φ fs s data with ⟨heq, -⟩ | ⟨-, ⟨d, -, heq⟩ | ⟨d, -, heq⟩⟩ <;>
    rw [heq] <;> exact h

/-- A write in two parts. -/
theorem writeData_append (hw : fs.WritesOn) (s : Session φ) (x y : Bytes) :
    s.writeData fs (x ++ y) = (s.writeData fs x).writeData fs y := by
  have hxy := hw x y s.disk
  rcases @writeData_cases φ fs s x with ⟨heq, hskip⟩ | ⟨hgo, ⟨d, hx, heq⟩ | ⟨d, hx, heq⟩⟩
  · rw [heq]
    unfold writeData
    rw [if_pos hskip, if_pos hskip]
  · rw [hx] at hxy
    rw [heq]
    unfold writeData
    rw [if_neg (by simp [hgo]), if_neg (by simp [hgo])]
    simp only [hook, hxy]
  · rw [hx] at hxy
    rw [heq]
    unfold writeData
    rw [if_neg (by simp [hgo]), if_pos (by simp)]
    simp [hook, hxy, ferr]

/-- Counting bytes and writing others do not touch. -/
theorem writeData_countData (s : Session φ) (x y : Bytes) :
    (s.countData x).writeData fs y = (s.writeData fs y).countData x := by
  rcases @writeData_cases φ fs s y with ⟨heq, hskip⟩ | ⟨hgo, ⟨d, hy, heq⟩ | ⟨d, hy, heq⟩⟩ <;>
    rw [heq] <;> unfold writeData
  · exact if_pos hskip
  all_goals
    rw [if_neg (by simpa [countData] using hgo)]
    simp [hook, hy, countData, ferr]

theorem countData_append (s : Session φ) (x y : Bytes) :
    s.countData (x ++ y) = (s.countData x).countData y := by
  simp [countData, crc32Update_append, Nat.sub_sub]

theorem markData_below {s : Session φ}
    (h : s.cur.off = true ∨ (s.cur.size - s.cur.left) / progressStep ≤ s.cur.mark) :
    s.markData = s := by
  unfold markData
  refine if_neg fun hmark => ?_
  obtain ⟨-, hoff, hpast⟩ := hmark
  rcases h with h | h
  · simp [h] at hoff
  · omega

/-- A part of a pass, short of its mark: it is counted and no more. -/
theorem eat_part {s : Session φ} (hm : s.Marked) (hd : s.inData = true) {n : Nat}
    (hlen : x.length < s.passLen n) :
    s.eat fs x = ((s.switchChanged fs).writeData fs x).countData x ∧
      Passed s ((s.switchChanged fs).writeData fs x) := by
  obtain ⟨hpos, hle⟩ := hm.left hd
  have hpass := @switchChanged_passed φ fs s
  have hwrite := @writeData_passed φ fs (s.switchChanged fs) x
  have hall : Passed s ((s.switchChanged fs).writeData fs x) :=
    ⟨hwrite.inData.trans hpass.inData, hwrite.size.trans hpass.size, hwrite.left.trans hpass.left,
      hwrite.mark.trans hpass.mark, fun h => hwrite.off (hpass.off h)⟩
  have hbound : x.length < s.cur.left ∧
      (s.cur.size - s.cur.left) % progressStep + x.length < progressStep := by
    unfold passLen at hlen
    omega
  refine ⟨?_, hall⟩
  unfold eat
  have hmark : ((((s.switchChanged fs).writeData fs x).countData x).cur.off = true) ∨
      ((((s.switchChanged fs).writeData fs x).countData x).cur.size -
        (((s.switchChanged fs).writeData fs x).countData x).cur.left) / progressStep ≤
          (((s.switchChanged fs).writeData fs x).countData x).cur.mark := by
    rcases hm.mark hd with hoff | hdone
    · exact .inl (hall.off hoff)
    · refine .inr ?_
      simp only [countData, hall.size, hall.left, hall.mark]
      have hsplit : s.cur.size - (s.cur.left - x.length) = s.cur.size - s.cur.left + x.length := by
        omega
      rw [hsplit]
      have hdiv := Nat.div_add_mod (s.cur.size - s.cur.left) progressStep
      have hq : (s.cur.size - s.cur.left + x.length) / progressStep =
          (s.cur.size - s.cur.left) / progressStep := by
        rw [show s.cur.size - s.cur.left + x.length =
          (s.cur.size - s.cur.left) % progressStep + x.length +
            progressStep * ((s.cur.size - s.cur.left) / progressStep) by omega,
          Nat.add_mul_div_left _ _ (by decide), Nat.div_eq_of_lt hbound.2, Nat.zero_add]
      omega
  rw [markData_below hmark, if_neg]
  simp only [countData, hall.left]
  omega

/-- A pass is a pass over the first bytes and then one over the rest. -/
theorem eat_append (hw : fs.WritesOn) {s : Session φ} (hm : s.Marked) (hd : s.inData = true) {n : Nat}
    (hlen : x.length < s.passLen n) (y : Bytes) :
    s.eat fs (x ++ y) = (s.eat fs x).eat fs y := by
  obtain ⟨hpart, -⟩ := @eat_part φ fs _ _ hm hd _ hlen
  rw [hpart]
  have hsettled : (((s.switchChanged fs).writeData fs x).countData x).Settled :=
    settled_writeData (settled_switchChanged s) x
  unfold eat
  rw [switchChanged_settled hsettled, writeData_append hw, countData_append, writeData_countData]

-- ---------------------------------------------------------------------------
-- The marks behind are told
-- ---------------------------------------------------------------------------

theorem Marked.aside {s s' : Session φ} (hm : s.Marked) (h : Aside fs w s s') : s'.Marked := by
  refine ⟨fun hd => ?_, fun hd => ?_⟩ <;> rw [h.inData] at hd <;> rw [h.cur]
  · exact hm.left hd
  · exact hm.mark hd

theorem Passed.marked {s s' : Session φ} (hm : s.Marked) (h : Passed s s') : s'.Marked := by
  refine ⟨fun hd => ?_, fun hd => ?_⟩ <;> rw [h.inData] at hd <;> rw [h.size, h.left]
  · exact hm.left hd
  · rw [h.mark]
    exact (hm.mark hd).imp_left h.off

theorem eat_marked {s : Session φ} (hm : s.Marked) (hd : s.inData = true) (data : Bytes) :
    (s.eat fs data).Marked := by
  obtain ⟨-, hle⟩ := hm.left hd
  have hpass := @switchChanged_passed φ fs s
  have hwrite := @writeData_passed φ fs (s.switchChanged fs) data
  have hsize : ((s.switchChanged fs).writeData fs data).cur.size = s.cur.size :=
    hwrite.size.trans hpass.size
  have hleft : ((s.switchChanged fs).writeData fs data).cur.left = s.cur.left :=
    hwrite.left.trans hpass.left
  unfold eat
  generalize (s.switchChanged fs).writeData fs data = w at hsize hleft
  dsimp only
  split
  · exact .idle (finishFile_inData ..)
  · rename_i hmore
    unfold markData at hmore ⊢
    dsimp only at hmore ⊢
    split at hmore
    · rename_i hmark
      rw [if_pos hmark]
      refine ⟨fun _ => ⟨?_, ?_⟩, fun _ => .inr (Nat.le_refl _)⟩ <;>
        simp only [emitFile, emit, countData, hsize, hleft] at hmore ⊢ <;> omega
    · rename_i hmark
      rw [if_neg hmark]
      refine ⟨fun _ => ⟨?_, ?_⟩, fun _ => ?_⟩
      · exact Nat.pos_of_ne_zero hmore
      · simp only [countData, hsize, hleft]
        omega
      · cases hoff : (w.countData data).cur.off with
        | true => exact .inl rfl
        | false =>
          refine .inr (Nat.le_of_not_lt fun hlt => hmark ⟨hmore, ?_, hlt⟩)
          simp [hoff]

theorem go_marked (s : Session φ) (f : FileLine) (dup : Bool) : (s.go fs f dup).Marked := by
  unfold go
  dsimp only
  split
  · exact .idle (finishFile_inData ..)
  · rename_i hsize
    refine Marked.aside ?_ ((@puts_aside φ fs true ..).trans (emit_aside _ _ (by simp)))
    exact ⟨fun _ => ⟨Nat.pos_of_ne_zero hsize, Nat.le_refl _⟩, fun _ => by simp⟩

theorem Checked.inData {s : Session φ} {r : Bool × Session φ} (h : Checked fs s r) :
    r.2.inData = s.inData := by
  cases h with
  | refused hl => exact hl.inData
  | unopened hl hopen hend => exact hend.inData.trans hl.inData
  | opened hl hopen => exact hl.inData

theorem startFile_marked {s : Session φ} (hd : s.inData = false) (f : FileLine) :
    (s.startFile fs f).Marked := by
  have h := @startFile_started φ fs s f
  generalize s.startFile fs f = t at h
  cases h with
  | repeated h => exact go_marked ..
  | refused h => exact .idle (h.inData.trans hd)
  | began h => exact go_marked ..

theorem endLine_marked {s : Session φ} (hd : s.inData = false) : (s.endLine fs).Marked := by
  rcases @endLine_cases φ fs true s with haside | ⟨f, c, -, -, -, heq⟩
  · exact .idle (haside.inData.trans hd)
  · rw [heq]
    exact startFile_marked (s := { s with line := [] }) hd f

theorem Marked.live {s s' : Session φ} (hm : s.Marked) (h : Live fs s s') : s'.Marked := by
  cases h with
  | char c hd => exact .idle hd
  | line hd => exact endLine_marked hd
  | bytes data hd hlen => exact eat_marked hm hd data
  | takeOutput cap => exact hm.aside (@takeOutput_aside φ fs true s cap nofun)
  | upCancel tag => exact hm.aside (@upCancel_aside φ fs true s tag)
  | trustNow => exact hm.aside (@trustNow_aside φ fs true s)
  | switchChanged => exact (switchChanged_passed s).marked hm
  | front q q' hq hdone => exact ⟨hm.left, hm.mark⟩

theorem Marked.step {s s' : Session φ} (hm : s.Marked) (h : Step fs s s') : s'.Marked := by
  cases h with
  | live h => exact hm.live h
  | disconnected => exact .idle (disconnected_inData s)
  | connect hd => exact .idle rfl

theorem Reached.marked {s : Session φ} (h : Reached fs s) : s.Marked :=
  h.keeps (fun _ _ => .idle rfl) fun _ _ hm hstep => hm.step hstep

-- ---------------------------------------------------------------------------
-- The cut
-- ---------------------------------------------------------------------------

theorem feed_nil (s : Session φ) : s.feed fs [] = (true, s) := by
  rw [feed]

theorem feed_bytes {s : Session φ} (hd : s.inData = true) {data : Bytes} (hne : data ≠ []) :
    s.feed fs data = (s.eat fs (data.take (s.passLen data.length))).feed fs
      (data.drop (s.passLen data.length)) := by
  cases data with
  | nil => exact absurd rfl hne
  | cons c rest =>
    rw [feed, if_pos hd]
    rfl

theorem feed_char {s : Session φ} (hd : s.inData = false) (c : UInt8) (rest : Bytes) :
    s.feed fs (c :: rest) =
      if c = newline then
        if (s.endLine fs).protoErr then (false, s.endLine fs) else (s.endLine fs).feed fs rest
      else if s.line.length ≥ lineMax then (false, s)
      else { s with line := s.line ++ [c] }.feed fs rest := by
  rw [feed, if_neg (by simp [hd])]

/-- A whole line that fits behind what the line holds is acted on. -/
theorem feed_line {s : Session φ} (hd : s.inData = false) {l : Bytes} (hl : newline ∉ l)
    (hlen : s.line.length + l.length ≤ lineMax) (rest : Bytes) :
    s.feed fs (l ++ newline :: rest) =
      if ({ s with line := s.line ++ l }.endLine fs).protoErr then
        (false, { s with line := s.line ++ l }.endLine fs)
      else ({ s with line := s.line ++ l }.endLine fs).feed fs rest := by
  induction l generalizing s with
  | nil =>
    rw [List.append_nil, List.nil_append, feed_char hd, if_pos rfl]
  | cons c l ih =>
    rw [List.mem_cons, not_or] at hl
    rw [List.length_cons] at hlen
    have hnext := ih (s := { s with line := s.line ++ [c] }) hd hl.2 (by
      rw [List.length_append, List.length_singleton]
      omega)
    rw [List.cons_append, feed_char hd, if_neg (Ne.symm hl.1), if_neg (by omega), hnext,
      List.append_assoc, List.singleton_append]

/-- `feed` after `feed`: a connection that was closed takes no more. -/
def feedOn (fs : Fs φ) (r : Bool × Session φ) (data : Bytes) : Bool × Session φ :=
  match r with
  | (true, s) => s.feed fs data
  | (false, s) => (false, s)

/-- Where the pass stands after a part of it. -/
theorem eat_passLen {s : Session φ} (hm : s.Marked) (hd : s.inData = true) {a : Bytes} {n : Nat}
    (hlen : a.length < s.passLen (a.length + n)) :
    (s.eat fs a).inData = true ∧ a.length + (s.eat fs a).passLen n = s.passLen (a.length + n) := by
  obtain ⟨hpart, hpass⟩ := @eat_part φ fs _ _ hm hd _ hlen
  obtain ⟨hpos, hle⟩ := hm.left hd
  rw [hpart]
  refine ⟨hpass.inData.trans hd, ?_⟩
  unfold passLen at hlen ⊢
  simp only [countData, hpass.left, hpass.size]
  have hsplit : s.cur.size - (s.cur.left - a.length) =
      s.cur.size - s.cur.left + a.length := by omega
  have hmod : (s.cur.size - s.cur.left + a.length) % progressStep =
      (s.cur.size - s.cur.left) % progressStep + a.length := by
    rw [Nat.add_mod, Nat.mod_eq_of_lt (a := a.length) (by omega)]
    exact Nat.mod_eq_of_lt (by omega)
  rw [hsplit, hmod]
  omega

/-- A cut inside one pass. -/
theorem feed_append_part (hw : fs.WritesOn) {s : Session φ} (hm : s.Marked) (hd : s.inData = true)
    {a b : Bytes} (ha : a ≠ []) (hb : b ≠ []) (hlen : a.length < s.passLen (a.length + b.length)) :
    s.feed fs (a ++ b) = (s.eat fs a).feed fs b := by
  obtain ⟨hd', hrest⟩ := @eat_passLen φ fs s hm hd a b.length hlen
  rw [feed_bytes hd (by simp [ha]), feed_bytes hd' hb, List.length_append, ← hrest, List.take_append,
    List.drop_append, List.take_of_length_le (by omega), List.drop_of_length_le (by omega),
    Nat.add_sub_cancel_left, List.nil_append, eat_append hw hm hd hlen]

theorem passLen_short {s : Session φ} {m n : Nat} (h : m < s.passLen (m + n)) : s.passLen m = m := by
  unfold passLen at h ⊢
  omega

theorem passLen_long {s : Session φ} {m n : Nat} (h : s.passLen (m + n) ≤ m) :
    s.passLen (m + n) = s.passLen m := by
  unfold passLen at h ⊢
  omega

theorem feed_append_marked (hw : fs.WritesOn) (a b : Bytes) (s : Session φ) (hm : s.Marked) :
    s.feed fs (a ++ b) = feedOn fs (s.feed fs a) b := by
  generalize hn : a.length = n
  induction n using Nat.strongRecOn generalizing a s with
  | ind n ih =>
    cases a with
    | nil => rw [feed_nil, List.nil_append]; rfl
    | cons c rest =>
      subst hn
      cases hd : s.inData with
      | true =>
        by_cases hb : b = []
        · subst hb
          rw [List.append_nil]
          rcases s.feed fs (c :: rest) with ⟨ok, s'⟩
          cases ok with
          | true => exact (feed_nil s').symm
          | false => rfl
        · have hne : c :: rest ≠ [] := by simp
          by_cases hlen : (c :: rest).length < s.passLen ((c :: rest).length + b.length)
          · rw [feed_append_part hw hm hd hne hb hlen, feed_bytes hd hne, passLen_short hlen,
              List.take_length, List.drop_length, feed_nil]
            rfl
          · have hle := passLen_long (Nat.le_of_not_lt hlen)
            have hpos := s.passLen_pos (n := (c :: rest).length) (by simp) (hm.left hd).1
            have hk := s.passLen_le (c :: rest).length
            rw [feed_bytes hd (by simp), feed_bytes hd hne, List.length_append, hle,
              List.take_append_of_le_length hk, List.drop_append_of_le_length hk]
            refine ih _ ?_ _ _ (eat_marked hm hd _) rfl
            rw [List.length_drop]
            omega
      | false =>
        rw [List.cons_append, feed_char hd, feed_char hd]
        split
        · split
          · rfl
          · exact ih _ (Nat.lt_succ_self _) rest _ (endLine_marked hd) rfl
        · split
          · rfl
          · exact ih _ (Nat.lt_succ_self _) rest _ (.idle hd) rfl

/-- The stream's cut changes nothing: bytes fed in two parts leave what they leave
fed at once. -/
theorem feed_append (hw : fs.WritesOn) {s : Session φ} (h : Reached fs s) (a b : Bytes) :
    s.feed fs (a ++ b) = feedOn fs (s.feed fs a) b :=
  feed_append_marked hw a b s h.marked

theorem ram_writesOn : Ram.fs.WritesOn := by
  intro x y d
  cases h : d.opened with
  | none => simp [Ram.fs, h]
  | some f => simp [Ram.fs, h]

/-- A line cut in its first word. -/
theorem feed_append_ram :
    (start ({} : Ram) {}).feed Ram.fs (ascii "PI" ++ ascii "NG\n") =
      feedOn Ram.fs ((start ({} : Ram) {}).feed Ram.fs (ascii "PI")) (ascii "NG\n") :=
  feed_append ram_writesOn ⟨{}, {}, .refl⟩ _ _

end Session

end WebAdf.Receive
