import WebAdf.DiskHistory.StoreInv
import WebAdf.Lib.Run

/-!
# The version store loses and corrupts nothing

From any disk that was never written, through any interleaving of any number
of writers: versions are numbered from the first snapshot without a gap, each
delta was built against the image before it, no chain is deeper than
`maxChainDepth`, and every version comes back as the image it was committed
with, now and after every later step.
-/

namespace WebAdf.DiskHistory

open Lib

variable {ι σ : Type} {sha256Of : Bytes → σ} {s t : State ι σ}

-- ---------------------------------------------------------------------------
-- One more version
-- ---------------------------------------------------------------------------

/-- The state with one more version recorded. -/
def State.append (s : State ι σ) (row : Row σ) (c : Committed) : State ι σ :=
  { s with rows := s.rows ++ [row], log := s.log ++ [c], head := row.imageSha256 }

theorem Grows.append (s : State ι σ) (row : Row σ) (c : Committed) : Grows s (s.append row c) :=
  ⟨fun _ _ h => h, List.prefix_append _ _, List.prefix_append _ _⟩

theorem Inv.append (h : Inv sha256Of s) (hseq : row.seq = s.rows.length)
    (hstored : Stored sha256Of (s.append row c) s.rows.length row c)
    (hbase : ∀ prev, s.log.getLast? = some prev → c.base = some prev.image)
    (hdepth : row.kind = .delta → deltasSinceSnapshot s.entries < maxChainDepth) :
    Inv sha256Of (s.append row c) := by
  have hg := Grows.append s row c
  have hentries : (s.append row c).entries = s.entries ++ [row.toVersionEntry] := by
    simp [State.entries, State.append]
  have hlen : s.entries.length = s.rows.length := List.length_map _
  refine ⟨h.addressed, ?_, ?_, ?_, ?_, ?_, ?_, fun i => (h.writers i).mono hg h.logged⟩
  · rw [hentries]
    exact h.numbered.of_concat (by rw [hlen]; exact hseq)
  · simp [State.append, h.logged]
  · intro k r c' hr hc
    simp only [State.append, List.getElem?_append, h.logged] at hr hc
    by_cases hk : k < s.rows.length
    · rw [if_pos hk] at hr hc
      exact (h.stored k r c' hr hc).mono hg
    · rw [if_neg hk] at hr hc
      obtain ⟨hk0, rfl⟩ : k - s.rows.length = 0 ∧ row = r := by
        cases hd : k - s.rows.length <;> simp_all
      rw [hk0] at hc
      obtain rfl : c = c' := by simpa using hc
      obtain rfl : k = s.rows.length := by omega
      exact hstored
  · intro k prev c' hp hc
    simp only [State.append, List.getElem?_append] at hp hc
    by_cases hk : k + 1 < s.log.length
    · rw [if_pos hk] at hc
      rw [if_pos (by omega)] at hp
      exact h.based k prev c' hp hc
    · rw [if_neg hk] at hc
      obtain ⟨hk0, rfl⟩ : k + 1 - s.log.length = 0 ∧ c = c' := by
        cases hd : k + 1 - s.log.length <;> simp_all
      by_cases hlast : k < s.log.length
      · rw [if_pos hlast] at hp
        apply hbase
        rw [List.getLast?_eq_getElem?, show s.log.length - 1 = k by omega, hp]
      · omega
  · intro n
    rw [hentries]
    by_cases hn : n ≤ s.entries.length
    · rw [List.take_append_of_le_length hn]
      exact h.depth n
    · rw [List.take_of_length_le (by simp; omega), deltasSinceSnapshot_concat]
      split
      · exact Nat.zero_le _
      next hk =>
        have hkind : row.kind = .delta := by
          cases hr : row.kind
          · exact absurd hr hk
          · rfl
        exact hdepth hkind
  · intro c' hc
    simp only [State.append, List.getLast?_append, List.getLast?_singleton] at hc ⊢
    obtain rfl : c = c' := by simpa using hc
    exact hstored.digest

theorem insertRow_some (h : insertRow rows row = some rows') :
    rows' = rows ++ [row] ∧ ∀ r ∈ rows, r.seq ≠ (row : Row σ).seq := by
  unfold insertRow at h
  split at h
  · cases h
  next hn =>
    cases h
    exact ⟨rfl, by simpa using hn⟩

theorem Inv.free (h : Inv sha256Of s) (hle : n ≤ s.rows.length)
    (hfree : ∀ r ∈ s.rows, r.seq ≠ n) : n = s.rows.length := by
  by_contra hne
  have hlt : n < s.rows.length := by omega
  have hseq : s.rows[n].seq = n := by
    have hk : s.entries[n]? = some s.rows[n].toVersionEntry := by
      simp [State.entries, hlt]
    exact h.numbered.seq hk
  exact hfree _ (List.getElem_mem hlt) hseq

-- ---------------------------------------------------------------------------
-- The batch
-- ---------------------------------------------------------------------------

/-- The row a pending version is recorded as. -/
def Pending.row (p : Pending σ) : Row σ :=
  ⟨⟨p.seq, p.plan.kind, p.blobSha256, p.sha256, p.source⟩, p.plan.sectorCount⟩

/-- The planned version on top of the version it was planned on. -/
theorem Inv.append_pending (h : Inv sha256Of s) (hp : PendingOk sha256Of s p)
    (hputs : p.puts = []) (hseq : p.seq = s.rows.length)
    (hlast : ∃ prev, s.log.getLast? = some prev ∧ prev.image = p.head)
    (hfirst : p.first = true → deltasSinceSnapshot s.entries < maxChainDepth) :
    Inv sha256Of (s.append p.row ⟨some p.head, p.next⟩) := by
  obtain ⟨prev, hprev, hhead⟩ := hlast
  obtain ⟨d, blob, hd, hkind, hput⟩ := hp.blob
  have hstore : s.blobs p.blobSha256 = some blob := by simpa [hputs] using hput
  obtain ⟨hh, hlen, -⟩ := buildDelta_ok.mp hd
  have himg : isHistoryImage p.next = true := by rwa [isHistoryImage, hlen]
  have hpos : s.log[s.log.length - 1]? = some prev := by
    rwa [← List.getLast?_eq_getElem?]
  refine h.append hseq ⟨himg, hp.digest, ?_⟩ ?_ ?_
  · rcases hkind with ⟨hk, rfl⟩ | ⟨hk, he, -⟩
    · exact .inl ⟨hk, hstore⟩
    · have hlt := (List.getElem?_eq_some_iff.mp hpos).1
      have hcount := h.logged
      refine .inr ⟨hk, s.log.length - 1, prev, d, blob, by omega, ?_, hhead ▸ hd, he, hstore⟩
      exact prefix_getElem? (Grows.append s _ _).log hpos
  · intro prev' hprev'
    obtain rfl : prev = prev' := by simpa [hprev] using hprev'
    exact congrArg some hhead.symm
  · intro hk
    rcases hkind with ⟨hk', -⟩ | ⟨-, -, hdepth⟩
    · exact absurd (hk.symm.trans hk') (by decide)
    · cases hf : p.first with
      | true => exact hfirst hf
      | false =>
        have hall : s.entries.take p.seq = s.entries := by
          apply List.take_of_length_le
          simp [State.entries, hseq]
        exact hall ▸ hdepth hf

theorem commit_inv (h : Inv sha256Of s) (hp : PendingOk sha256Of s p)
    (hputs : p.puts = []) (hins : insertVersion s.rows p = some rows) :
    ∃ t : State ι σ, Inv sha256Of t ∧ Grows s t ∧
      { s with rows, head := p.sha256, log := s.log ++ p.committed } = t := by
  unfold insertVersion at hins
  rcases hp.base with ⟨hf, hseq⟩ | ⟨hf, j, prev, hseq, hprev, hhead⟩
  · rw [if_pos hf] at hins
    obtain ⟨mid, hmid, hrow⟩ := Option.bind_eq_some_iff.mp hins
    obtain ⟨rfl, hfree⟩ := insertRow_some hmid
    obtain ⟨rfl, -⟩ := insertRow_some hrow
    have hlen : 0 = s.rows.length := h.free (Nat.zero_le _) hfree
    have hnil : s.rows = [] := List.length_eq_zero_iff.mp hlen.symm
    have hlog : s.log = [] := List.length_eq_zero_iff.mp (h.logged.trans hlen.symm)
    have hdig := h.addressed _ _ hp.held
    have himg : isHistoryImage p.head = true := by
      obtain ⟨d, -, hd, -⟩ := hp.blob
      exact (buildDelta_ok.mp hd).1
    -- version 0: the head the writer held
    have h0 : Inv sha256Of (s.append ⟨originalEntry p.headSha, 0⟩ ⟨none, p.head⟩) := by
      refine h.append hlen ⟨himg, hdig.symm, .inl ⟨rfl, hp.held⟩⟩ ?_ ?_
      · simp [hlog]
      · intro hk
        cases hk
    have hg0 := Grows.append s ⟨originalEntry p.headSha, 0⟩ ⟨none, p.head⟩
    refine ⟨_, h0.append_pending (hp.mono hg0 h.logged) hputs ?_ ⟨⟨none, p.head⟩, ?_, rfl⟩ ?_,
      hg0.trans (Grows.append _ _ _), ?_⟩
    · simp [State.append, hnil, hseq]
    · simp [State.append, hlog]
    · intro _
      simp [State.entries, State.append, hnil, originalEntry, deltasSinceSnapshot]
      decide
    · simp [State.append, Pending.row, Pending.committed, hf]
  · rw [if_neg (by simp [hf])] at hins
    obtain ⟨rfl, hfree⟩ := insertRow_some hins
    have hlt := (List.getElem?_eq_some_iff.mp hprev).1
    have hcount := h.logged
    have hlen : p.seq = s.rows.length := h.free (by omega) hfree
    refine ⟨_, h.append_pending hp hputs hlen ⟨prev, ?_, hhead⟩ (by simp [hf]),
      Grows.append _ _ _, ?_⟩
    · rw [List.getLast?_eq_getElem?, show s.log.length - 1 = j by omega, hprev]
    · simp [State.append, Pending.row, Pending.committed, hf]

-- ---------------------------------------------------------------------------
-- Steps and runs
-- ---------------------------------------------------------------------------

section
variable [DecidableEq σ]

theorem putBlob_grows (blobs : σ → Option Bytes) (sha256 : σ) (bytes : Bytes) :
    (∀ k b, blobs k = some b → putBlob blobs sha256 bytes k = some b) := by
  intro k b hb
  unfold putBlob
  split
  · exact hb
  next hn =>
    by_cases hk : k = sha256
    · subst hk
      simp [hb] at hn
    · rwa [Function.update_of_ne hk]

theorem putBlob_some {blobs : σ → Option Bytes} (h : putBlob blobs sha256 bytes k = some b) :
    blobs k = some b ∨ k = sha256 ∧ b = bytes := by
  unfold putBlob at h
  split at h
  · exact .inl h
  · by_cases hk : k = sha256
    · subst hk
      rw [Function.update_self] at h
      exact .inr ⟨rfl, (Option.some.inj h).symm⟩
    · rw [Function.update_of_ne hk] at h
      exact .inl h

theorem putBlob_self (hsha : ∀ k b, blobs k = some b → sha256Of b = k)
    (hinj : Function.Injective sha256Of) (hq : sha256Of bytes = sha256) :
    putBlob blobs sha256 bytes sha256 = some bytes := by
  unfold putBlob
  split
  next hs =>
    obtain ⟨b, hb⟩ := Option.isSome_iff_exists.mp hs
    rw [hb, hinj ((hsha _ _ hb).trans hq.symm)]
  next => exact Function.update_self ..

variable [DecidableEq ι]

theorem put_inv (h : Inv sha256Of s) (hinj : Function.Injective sha256Of)
    (hp : PendingOk sha256Of s p) (hn : p.puts[n]? = some (sha256, bytes)) :
    Inv sha256Of ({ s with blobs := putBlob s.blobs sha256 bytes }.setWriter i
      (.pending { p with puts := p.puts.eraseIdx n })) := by
  have hmem : (sha256, bytes) ∈ p.puts := List.mem_of_getElem? hn
  have hq : sha256Of bytes = sha256 := hp.puts _ hmem
  have hg : Grows s { s with blobs := putBlob s.blobs sha256 bytes } :=
    ⟨putBlob_grows _ _ _, List.prefix_refl _, List.prefix_refl _⟩
  have hinv : Inv sha256Of { s with blobs := putBlob s.blobs sha256 bytes } := by
    refine ⟨fun k b hb => ?_, h.numbered, h.logged,
      fun k r c hr hc => (h.stored k r c hr hc).mono hg, h.based, h.depth, h.head,
      fun j => (h.writers j).mono hg h.logged⟩
    rcases putBlob_some hb with hb | ⟨rfl, rfl⟩
    · exact h.addressed _ _ hb
    · exact hq
  have hp' := hp.mono hg h.logged
  refine hinv.setWriter ⟨hp'.held, hp'.digest, ?_, hp'.base, ?_⟩
  · intro q hq
    exact hp.puts q (List.mem_of_mem_eraseIdx hq)
  · obtain ⟨d, blob, hd, hkind, hput⟩ := hp'.blob
    refine ⟨d, blob, hd, hkind, ?_⟩
    rcases hput with hput | hput
    · by_cases he : (p.blobSha256, blob) = (sha256, bytes)
      · cases he
        exact .inr (putBlob_self h.addressed hinj hq)
      · refine .inl ?_
        obtain ⟨m, hm⟩ := List.mem_iff_getElem?.mp hput
        refine List.mem_eraseIdx_iff_getElem?.mpr ⟨m, ?_, hm⟩
        rintro rfl
        rw [hn] at hm
        exact he (Option.some.inj hm).symm
    · exact .inr hput

/-- Every step of every writer keeps the invariant, and only adds to the
store. -/
theorem step_inv (hinj : Function.Injective sha256Of) (hst : step sha256Of s a = some t)
    (h : Inv sha256Of s) : Inv sha256Of t ∧ Grows s t := by
  have hset (i : ι) (w : Writer σ) (hw : WriterOk sha256Of s w) :
      Inv sha256Of (s.setWriter i w) ∧ Grows s (s.setWriter i w) :=
    ⟨h.setWriter hw, Grows.setWriter s i w⟩
  cases a with
  | read i =>
    simp only [step] at hst
    split at hst
    next hb =>
      cases hst
      exact hset i _ hb
    next => cases hst
  | prepare i next source =>
    simp only [step] at hst
    split at hst
    next headSha head hi =>
      have hheld : s.blobs headSha = some head := by
        have hw := h.writers i
        rwa [hi] at hw
      split at hst
      · cases hst
        exact hset i _ trivial
      · cases hst
        exact hset i _ trivial
      · cases hst
        exact hset i _ trivial
      next hp =>
        cases hst
        exact hset i _ (prepare_ready h hinj hheld hp)
    next => cases hst
  | put i n =>
    simp only [step] at hst
    split at hst
    next p hi =>
      have hp : PendingOk sha256Of s p := by
        have hw := h.writers i
        rwa [hi] at hw
      split at hst
      next hn =>
        cases hst
        exact ⟨put_inv h hinj hp hn, putBlob_grows _ _ _, List.prefix_refl _, List.prefix_refl _⟩
      next => cases hst
    next => cases hst
  | commit i =>
    simp only [step] at hst
    split at hst
    next p hi =>
      have hp : PendingOk sha256Of s p := by
        have hw := h.writers i
        rwa [hi] at hw
      split at hst
      · cases hst
      next hputs =>
        split at hst
        · cases hst
          exact hset i _ trivial
        next hins =>
          cases hst
          obtain ⟨t, ht, hg, rfl⟩ := commit_inv h hp (not_not.mp hputs) hins
          exact ⟨ht.setWriter trivial, hg.trans (Grows.setWriter _ _ _)⟩
    next => cases hst
  | stop i =>
    cases hst
    exact hset i _ trivial

end

theorem Fresh.inv (h : Fresh sha256Of s) : Inv sha256Of s := by
  refine ⟨h.addressed, ?_, ?_, ?_, ?_, ?_, ?_, fun i => ?_⟩
  · simp [Numbered, State.entries, h.rows]
  · simp [h.rows, h.log]
  · simp [h.rows]
  · simp [h.log]
  · simp [State.entries, h.rows, deltasSinceSnapshot]
  · simp [h.log]
  · rw [h.idle i]
    trivial

section
variable [DecidableEq σ] [DecidableEq ι]

theorem reaches_inv (hinj : Function.Injective sha256Of) (h : Reaches sha256Of s t)
    (hs : Inv sha256Of s) : Inv sha256Of t :=
  invariant_run (fun _ _ ⟨_, ha⟩ hi => (step_inv hinj ha hi).1) h hs

theorem reaches_grows (hinj : Function.Injective sha256Of) (h : Reaches sha256Of s t)
    (hs : Inv sha256Of s) : Grows s t :=
  related_run Grows.refl (fun _ _ _ => Grows.trans)
    (fun _ _ ⟨_, ha⟩ hi => (step_inv hinj ha hi).1)
    (fun _ _ ⟨_, ha⟩ hi => (step_inv hinj ha hi).2) h hs

end

-- ---------------------------------------------------------------------------
-- Every version comes back
-- ---------------------------------------------------------------------------

variable [ToString σ]

theorem Inv.imageAt (h : Inv sha256Of s) (hc : s.log[k]? = some c) :
    s.imageAt k = .ok c.image := by
  rw [State.imageAt, loadEntries_numbered h.numbered]
  induction k generalizing c with
  | zero =>
    obtain ⟨row, hrow⟩ : ∃ row, s.rows[0]? = some row := by
      refine ⟨_, List.getElem?_eq_getElem ?_⟩
      rw [← h.logged]
      exact (List.getElem?_eq_some_iff.mp hc).1
    have hst := h.stored 0 row c hrow hc
    have he : s.entries[0]? = some row.toVersionEntry := by simp [State.entries, hrow]
    rcases hst.blob with ⟨hk, hb⟩ | ⟨-, j, -, -, -, hj, -⟩
    · exact materialise_snapshot h.numbered he hk (by simp [readBlob, hb]) hst.image
    · cases hj
  | succ k ih =>
    obtain ⟨row, hrow⟩ : ∃ row, s.rows[k + 1]? = some row := by
      refine ⟨_, List.getElem?_eq_getElem ?_⟩
      rw [← h.logged]
      exact (List.getElem?_eq_some_iff.mp hc).1
    have hst := h.stored _ row c hrow hc
    have he : s.entries[k + 1]? = some row.toVersionEntry := by simp [State.entries, hrow]
    rcases hst.blob with ⟨hk, hb⟩ | ⟨hk, j, prev, d, src, hj, hprev, hd, henc, hb⟩
    · exact materialise_snapshot h.numbered he hk (by simp [readBlob, hb]) hst.image
    · obtain rfl : k = j := Nat.succ.inj hj
      rw [materialise_delta h.numbered he hk (ih hprev)]
      exact replayDelta_build hd henc (by simp [readBlob, hb])

/-- A history nothing was lost from: `log` says what each version was
committed with. -/
structure Intact (sha256Of : Bytes → σ) (s : State ι σ) : Prop where
  contiguous : s.rows.map (·.seq) = List.range s.rows.length
  rooted : ∀ row, s.rows[0]? = some row → row.kind = .snapshot
  logged : s.log.length = s.rows.length
  based : ∀ k prev c, s.log[k]? = some prev → s.log[k + 1]? = some c → c.base = some prev.image
  built : ∀ k row, s.rows[k]? = some row → row.kind = .delta →
    ∃ j prev c d src, k = j + 1 ∧ s.log[j]? = some prev ∧ s.log[k]? = some c ∧
      buildDelta prev.image c.image = .ok d ∧ encodeDelta d = .ok src ∧
      s.blobs row.blobSha256 = some src
  depth : ∀ n, deltasSinceSnapshot ((loadEntries s.rows).take n) ≤ maxChainDepth
  head : ∀ c, s.log.getLast? = some c → s.head = sha256Of c.image
  images : ∀ k c, s.log[k]? = some c → s.imageAt k = .ok c.image

theorem Inv.intact (h : Inv sha256Of s) : Intact sha256Of s := by
  refine ⟨?_, ?_, h.logged, h.based, ?_, ?_, h.head, fun k c hc => h.imageAt hc⟩
  · simpa [Numbered, State.entries, Function.comp_def] using h.numbered
  · intro row hrow
    have hlt : 0 < s.log.length := h.logged ▸ (List.getElem?_eq_some_iff.mp hrow).1
    rcases (h.stored 0 row _ hrow (List.getElem?_eq_getElem hlt)).blob with
      ⟨hk, -⟩ | ⟨-, j, -, -, -, hj, -⟩
    · exact hk
    · cases hj
  · intro k row hrow hdelta
    have hlt : k < s.log.length := h.logged ▸ (List.getElem?_eq_some_iff.mp hrow).1
    have hc := List.getElem?_eq_getElem hlt
    rcases (h.stored k row _ hrow hc).blob with ⟨hk, -⟩ | ⟨-, j, prev, d, src, hj, hp, hd, he, hb⟩
    · exact absurd (hdelta.symm.trans hk) (by decide)
    · exact ⟨j, prev, _, d, src, hj, hp, hc, hd, he, hb⟩
  · rw [loadEntries_numbered h.numbered]
    exact h.depth

section
variable [DecidableEq σ] [DecidableEq ι]

/-- No interleaving of writers loses, skips, reorders or corrupts a version:
the history is intact in every state reached, and in every state after it each
version is still there and still gives the same image. -/
theorem history_intact (hinj : Function.Injective sha256Of) (hfresh : Fresh sha256Of s₀)
    (hs : Reaches sha256Of s₀ s) :
    Intact sha256Of s ∧ ∀ t, Reaches sha256Of s t →
      s.rows <+: t.rows ∧ s.log <+: t.log ∧
        ∀ k c, s.log[k]? = some c → t.imageAt k = .ok c.image := by
  have hi := reaches_inv hinj hs hfresh.inv
  refine ⟨hi.intact, fun t ht => ?_⟩
  have hg := reaches_grows hinj ht hi
  exact ⟨hg.rows, hg.log, fun k c hc =>
    (reaches_inv hinj ht hi).imageAt (prefix_getElem? hg.log hc)⟩

-- ---------------------------------------------------------------------------
-- A writer alone is never refused
-- ---------------------------------------------------------------------------

omit [ToString σ] in
/-- The PUTs of a pending version all land. -/
theorem reaches_puts (sha256Of : Bytes → σ) (n : Nat) (s : State ι σ) (i : ι) (p : Pending σ)
    (hn : p.puts.length = n) (hi : s.writers i = .pending p) :
    ∃ t, Reaches sha256Of s t ∧ t.writers i = .pending { p with puts := [] } ∧
      t.rows = s.rows ∧ t.log = s.log := by
  induction n generalizing s p with
  | zero =>
    have hnil : p.puts = [] := List.length_eq_zero_iff.mp hn
    refine ⟨s, .refl, ?_, rfl, rfl⟩
    rw [hi, ← hnil]
  | succ n ih =>
    obtain ⟨q, rest, hq⟩ := List.exists_cons_of_length_eq_add_one hn
    have hone : step sha256Of s (.put i 0) =
        some ({ s with blobs := putBlob s.blobs q.1 q.2 }.setWriter i
          (.pending { p with puts := rest })) := by
      simp [step, hi, hq]
    obtain ⟨t, ht, hw, hrows, hlog⟩ := ih
      ({ s with blobs := putBlob s.blobs q.1 q.2 }.setWriter i (.pending { p with puts := rest }))
      { p with puts := rest } (by simpa [hq] using hn) (by simp [State.setWriter])
    exact ⟨t, .head ⟨_, hone⟩ ht, hw, hrows, hlog⟩

omit [DecidableEq ι] [DecidableEq σ] [ToString σ] in
theorem planNextVersion_some (hi : isHistoryImage head = true) (hlen : next.length = head.length)
    (hne : next ≠ head) (entries : List (VersionEntry σ)) :
    ∃ plan, planNextVersion entries head next = .ok (some plan) := by
  have hd := buildDelta_ok.mpr ⟨hi, hlen, rfl⟩
  obtain ⟨hsize, -⟩ := isHistoryImage_sectors hi
  have hw := changedRuns_whole head (hlen.trans hsize)
  generalize changedRuns head next (head.length / sectorBytes) = runs at hd hw
  have hruns : ¬ (Delta.ofEntries runs).sectors.length = 0 := by
    intro hnil
    obtain rfl : runs = [] := by simpa [Delta.ofEntries] using hnil
    have ha := apply_build hd
    rw [applyDelta_ofEntries hi (by simp [Lib.Blocks])] at ha
    exact hne (Except.ok.inj ha).symm
  simp only [planNextVersion, hd, bind_ok]
  cases hk : nextKind (Delta.ofEntries runs).sectors.length (deltasSinceSnapshot entries)
      next.length with
  | snapshot => exact ⟨_, _, rfl, by rw [if_neg hruns, hk]; rfl⟩
  | delta =>
    refine ⟨⟨.delta, (Delta.ofEntries runs).sectors.length,
      some (deltaHeader runs.length ++ entryBytes runs)⟩, _, rfl, ?_⟩
    rw [if_neg hruns, hk]
    simp only [encodeDelta_ofEntries hw]
    rfl

omit [ToString σ] in
/-- On a disk that was never written, a writer no other comes between records
the original image and its own. -/
theorem lone_commit (sha256Of : Bytes → σ) (next : Bytes) (hrows : s.rows = []) (hi : s.writers i = .idle)
    (hhead : s.blobs s.head = some head) (himg : isHistoryImage head = true)
    (hlen : next.length = head.length) (hne : next ≠ head) :
    ∃ t, Reaches sha256Of s t ∧ t.log = s.log ++ [⟨none, head⟩, ⟨some head, next⟩] := by
  obtain ⟨plan, hplan⟩ := planNextVersion_some himg hlen hne [originalEntry s.head]
  have hprep : ∃ p, prepare sha256Of [] s.head head next "browser" = .ready p ∧
      p.first = true ∧ p.head = head ∧ p.next = next ∧ p.seq = 1 := by
    simp only [prepare, loadEntries, List.mergeSort_nil, List.map_nil, List.getLast?_nil,
      List.isEmpty_nil, if_true, hplan]
    exact ⟨_, rfl, rfl, rfl, rfl, rfl⟩
  obtain ⟨p, hp, hfirst, rfl, rfl, hseq⟩ := hprep
  have hread : step sha256Of s (.read i) = some (s.setWriter i (.holding s.head p.head)) := by
    simp [step, hi, hhead]
  have hload : step sha256Of (s.setWriter i (.holding s.head p.head)) (.prepare i p.next "browser") =
      some ((s.setWriter i (.holding s.head p.head)).setWriter i (.pending p)) := by
    simp [step, State.setWriter, hrows, hp]
  obtain ⟨t, ht, hw, hrows', hlog⟩ := reaches_puts sha256Of p.puts.length
    ((s.setWriter i (.holding s.head p.head)).setWriter i (.pending p)) i p rfl
    (by simp [State.setWriter])
  have hnil : t.rows = [] := hrows'.trans hrows
  obtain ⟨rows, hins⟩ : ∃ rows, insertVersion t.rows { p with puts := [] } = some rows := by
    simp [insertVersion, insertRow, hnil, hfirst, hseq, originalEntry]
  have hcommit : ∃ u, step sha256Of t (.commit i) = some u ∧ u.log = t.log ++ p.committed := by
    simp [step, hw, hins, State.setWriter, Pending.committed]
  obtain ⟨u, hu, hulog⟩ := hcommit
  refine ⟨u, .head ⟨_, hread⟩ (.head ⟨_, hload⟩ (ht.tail ⟨_, hu⟩)), ?_⟩
  rw [hulog, hlog]
  simp [Pending.committed, hfirst, State.setWriter]

end

theorem history_intact_two_versions :
    ∃ s : State Unit Bytes, s.log.length = 2 ∧ Intact id s := by
  obtain ⟨n, hn, hpos⟩ : ∃ n, n = adfBytes ∧ n ≠ 0 := ⟨_, rfl, by decide⟩
  let s₀ : State Unit Bytes :=
    { blobs := Function.update (fun _ => none) (List.replicate n 0) (some (List.replicate n 0))
      rows := [], head := List.replicate n 0, writers := fun _ => .idle, log := [] }
  have hfresh : Fresh id s₀ := by
    refine ⟨fun k b hb => ?_, rfl, rfl, fun _ => rfl⟩
    by_cases hk : k = List.replicate n 0
    · subst hk
      simpa [s₀, eq_comm] using hb
    · simp [s₀, hk] at hb
  have himg : isHistoryImage (List.replicate n 0) = true := by
    rw [isHistoryImage, List.length_replicate, hn]
    rfl
  have hne : List.replicate n (1 : UInt8) ≠ List.replicate n 0 := fun h =>
    absurd (List.replicate_right_injective hpos h) (by decide)
  obtain ⟨s, hs, hlog⟩ := lone_commit id (List.replicate n 1) (s := s₀) (i := ()) rfl rfl
    (by simp [s₀]) himg (by simp) hne
  exact ⟨s, by simp [hlog, s₀], (history_intact Function.injective_id hfresh hs).1⟩

end WebAdf.DiskHistory
