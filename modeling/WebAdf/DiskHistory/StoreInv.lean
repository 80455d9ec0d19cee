import WebAdf.DiskHistory.Chain
import WebAdf.DiskHistory.Store

/-!
# What every writer's step keeps

`Inv` is the invariant of the store: versions are numbered without a gap, each
row's blob gives its image back from the version before it, and a writer
between planning and its batch holds a plan that is still right if its number
is still free. `step_inv` is the step lemma, one case for each kind of step.
-/

namespace WebAdf.DiskHistory

variable {ι σ : Type} {sha256Of : Bytes → σ} {s t : State ι σ}

def State.entries (s : State ι σ) : List (VersionEntry σ) := s.rows.map Row.toVersionEntry

/-- Row `k` stores the image of version `k`. -/
structure Stored (sha256Of : Bytes → σ) (s : State ι σ) (k : Nat) (row : Row σ) (c : Committed) :
    Prop where
  image : isHistoryImage c.image = true
  digest : row.imageSha256 = sha256Of c.image
  blob : (row.kind = .snapshot ∧ s.blobs row.blobSha256 = some c.image) ∨
    row.kind = .delta ∧ ∃ j prev d src, k = j + 1 ∧ s.log[j]? = some prev ∧
      buildDelta prev.image c.image = .ok d ∧ encodeDelta d = .ok src ∧
      s.blobs row.blobSha256 = some src

/-- A planned version, as long as nobody takes its number. -/
structure PendingOk (sha256Of : Bytes → σ) (s : State ι σ) (p : Pending σ) : Prop where
  held : s.blobs p.headSha = some p.head
  digest : p.sha256 = sha256Of p.next
  puts : ∀ q ∈ p.puts, sha256Of q.2 = q.1
  base : (p.first = true ∧ p.seq = 1) ∨
    p.first = false ∧ ∃ j prev, p.seq = j + 1 ∧ s.log[j]? = some prev ∧ prev.image = p.head
  blob : ∃ d blob, buildDelta p.head p.next = .ok d ∧
    ((p.plan.kind = .snapshot ∧ blob = p.next) ∨
      p.plan.kind = .delta ∧ encodeDelta d = .ok blob ∧
        (p.first = false → deltasSinceSnapshot (s.entries.take p.seq) < maxChainDepth)) ∧
    ((p.blobSha256, blob) ∈ p.puts ∨ s.blobs p.blobSha256 = some blob)

def WriterOk (sha256Of : Bytes → σ) (s : State ι σ) : Writer σ → Prop
  | .holding headSha head => s.blobs headSha = some head
  | .pending p => PendingOk sha256Of s p
  | .idle | .stale => True

structure Inv (sha256Of : Bytes → σ) (s : State ι σ) : Prop where
  addressed : ∀ sha256 bytes, s.blobs sha256 = some bytes → sha256Of bytes = sha256
  numbered : Numbered s.entries
  logged : s.log.length = s.rows.length
  stored : ∀ k row c, s.rows[k]? = some row → s.log[k]? = some c → Stored sha256Of s k row c
  based : ∀ k prev c, s.log[k]? = some prev → s.log[k + 1]? = some c → c.base = some prev.image
  depth : ∀ n, deltasSinceSnapshot (s.entries.take n) ≤ maxChainDepth
  head : ∀ c, s.log.getLast? = some c → s.head = sha256Of c.image
  writers : ∀ i, WriterOk sha256Of s (s.writers i)

/-- Blobs and versions are only ever added. -/
structure Grows (s t : State ι σ) : Prop where
  blobs : ∀ sha256 bytes, s.blobs sha256 = some bytes → t.blobs sha256 = some bytes
  rows : s.rows <+: t.rows
  log : s.log <+: t.log

theorem Grows.refl (s : State ι σ) : Grows s s :=
  ⟨fun _ _ h => h, List.prefix_refl _, List.prefix_refl _⟩

theorem Grows.trans {u : State ι σ} (h : Grows s t) (h' : Grows t u) : Grows s u :=
  ⟨fun k b hb => h'.blobs k b (h.blobs k b hb), h.rows.trans h'.rows, h.log.trans h'.log⟩

theorem prefix_getElem? {xs ys : List α} {k : Nat} (h : xs <+: ys) (hk : xs[k]? = some x) :
    ys[k]? = some x := by
  obtain ⟨zs, rfl⟩ := h
  rw [List.getElem?_append_left (List.getElem?_eq_some_iff.mp hk).1, hk]

theorem prefix_take {xs ys : List α} (h : xs <+: ys) (hn : n ≤ xs.length) :
    ys.take n = xs.take n := by
  obtain ⟨zs, rfl⟩ := h
  rw [List.take_append_of_le_length hn]

theorem Stored.mono (hg : Grows s t) (h : Stored sha256Of s k row c) :
    Stored sha256Of t k row c := by
  refine ⟨h.image, h.digest, ?_⟩
  rcases h.blob with ⟨hk, hb⟩ | ⟨hk, j, prev, d, src, hj, hp, hd, he, hb⟩
  · exact .inl ⟨hk, hg.blobs _ _ hb⟩
  · exact .inr ⟨hk, j, prev, d, src, hj, prefix_getElem? hg.log hp, hd, he, hg.blobs _ _ hb⟩

theorem PendingOk.mono (hg : Grows s t) (hl : s.log.length = s.rows.length)
    (h : PendingOk sha256Of s p) : PendingOk sha256Of t p := by
  refine ⟨hg.blobs _ _ h.held, h.digest, h.puts, ?_, ?_⟩
  · rcases h.base with hf | ⟨hf, j, prev, hs, hp, hi⟩
    · exact .inl hf
    · exact .inr ⟨hf, j, prev, hs, prefix_getElem? hg.log hp, hi⟩
  · obtain ⟨d, blob, hd, hkind, hput⟩ := h.blob
    refine ⟨d, blob, hd, ?_, hput.imp id (hg.blobs _ _)⟩
    rcases hkind with hk | ⟨hk, he, hdepth⟩
    · exact .inl hk
    refine .inr ⟨hk, he, fun hf => ?_⟩
    rcases h.base with ⟨hf', -⟩ | ⟨-, j, prev, hs, hp, -⟩
    · rw [hf] at hf'
      cases hf'
    · have hle : p.seq ≤ s.entries.length := by
        have := (List.getElem?_eq_some_iff.mp hp).1
        simp only [State.entries, List.length_map]
        omega
      rw [State.entries, prefix_take (hg.rows.map Row.toVersionEntry) hle]
      exact hdepth hf

theorem WriterOk.mono (hg : Grows s t) (hl : s.log.length = s.rows.length) {w : Writer σ}
    (h : WriterOk sha256Of s w) : WriterOk sha256Of t w := by
  cases w with
  | holding headSha head => exact hg.blobs _ _ h
  | pending p => exact PendingOk.mono hg hl h
  | idle => trivial
  | stale => trivial

section
variable [DecidableEq ι]

theorem Grows.setWriter (s : State ι σ) (i : ι) (w : Writer σ) : Grows s (s.setWriter i w) :=
  ⟨fun _ _ h => h, List.prefix_refl _, List.prefix_refl _⟩

/-- A step that only moves writer `i` keeps the invariant if `i` is sound. -/
theorem Inv.setWriter (h : Inv sha256Of s) (hw : WriterOk sha256Of s w) :
    Inv sha256Of (s.setWriter i w) := by
  have hg := Grows.setWriter s i w
  refine ⟨h.addressed, h.numbered, h.logged, fun k row c hr hc => (h.stored k row c hr hc).mono hg,
    h.based, h.depth, h.head, fun j => ?_⟩
  by_cases hj : j = i
  · subst hj
    simpa [State.setWriter] using hw.mono hg h.logged
  · simpa [State.setWriter, hj] using (h.writers j).mono hg h.logged

end

-- ---------------------------------------------------------------------------
-- Loading and planning
-- ---------------------------------------------------------------------------

theorem loadEntries_numbered (h : Numbered s.entries) : loadEntries s.rows = s.entries := by
  have hp : s.rows.Pairwise (fun a b => a.seq ≤ b.seq) := by
    have := List.pairwise_map.mp h.ascending
    exact this.imp Nat.le_of_lt
  rw [loadEntries, List.mergeSort_of_pairwise (by simpa using hp), State.entries]

theorem Inv.last (h : Inv sha256Of s) (hl : s.entries.getLast? = some e) :
    ∃ j prev, s.rows.length = j + 1 ∧ e.seq = j ∧ s.log[j]? = some prev ∧
      e.imageSha256 = sha256Of prev.image := by
  rw [List.getLast?_eq_getElem?] at hl
  have hlt := (List.getElem?_eq_some_iff.mp hl).1
  have hlen : s.entries.length = s.rows.length := List.length_map _
  have hj : s.entries.length - 1 < s.log.length := by
    rw [h.logged]
    omega
  obtain ⟨row, hrow, rfl⟩ : ∃ row, s.rows[s.entries.length - 1]? = some row ∧
      row.toVersionEntry = e := by
    simpa [State.entries] using hl
  have hc := List.getElem?_eq_getElem hj
  exact ⟨_, _, by omega, h.numbered.seq hl, hc, (h.stored _ _ _ hrow hc).digest⟩

theorem prepare_ready [DecidableEq σ] (h : Inv sha256Of s) (hinj : Function.Injective sha256Of)
    (hheld : s.blobs headSha = some head)
    (hp : prepare sha256Of s.rows headSha head next source = .ready p) :
    PendingOk sha256Of s p := by
  simp only [prepare, loadEntries_numbered h.numbered] at hp
  split at hp
  · cases hp
  next hfresh =>
    split at hp
    · cases hp
    · cases hp
    next plan hplan =>
      obtain ⟨d, hd, hkind⟩ := planNextVersion_ok hplan
      cases hp
      cases hlast : s.entries.getLast? with
      | none =>
        have hnil : s.entries = [] := List.getLast?_eq_none_iff.mp hlast
        refine ⟨hheld, rfl, ?_, .inl ⟨by simp [hnil], by simp [hnil, originalEntry]⟩, ?_⟩
        · cases plan.deltaBlob <;> simp
        rcases hkind with ⟨hk, hb⟩ | ⟨hk, -, src, hsrc, hb⟩
        · exact ⟨d, next, hd, .inl ⟨hk, rfl⟩, .inl (by simp [hb])⟩
        · exact ⟨d, src, hd, .inr ⟨hk, hsrc, by simp [hnil]⟩, .inl (by simp [hb])⟩
      | some e =>
        obtain ⟨j, prev, hlen, hseq, hprev, hdig⟩ := h.last hlast
        have hne : s.entries.isEmpty = false := by
          cases hs : s.entries with
          | nil => simp [hs] at hlast
          | cons => rfl
        have himg : e.imageSha256 = headSha := by
          simpa [hlast] using hfresh
        have hhead : prev.image = head := by
          apply hinj
          rw [← hdig, himg, h.addressed _ _ hheld]
        refine ⟨hheld, rfl, ?_, .inr ⟨hne, j, prev, ?_, hprev, hhead⟩, ?_⟩
        · cases plan.deltaBlob <;> simp
        · simp [hne, hlast, hseq]
        rcases hkind with ⟨hk, hb⟩ | ⟨hk, hdepth, src, hsrc, hb⟩
        · exact ⟨d, next, hd, .inl ⟨hk, rfl⟩, .inl (by simp [hb])⟩
        · refine ⟨d, src, hd, .inr ⟨hk, hsrc, fun _ => ?_⟩, .inl (by simp [hb])⟩
          have hall : s.entries.take (j + 1) = s.entries := by
            apply List.take_of_length_le
            simp [State.entries, hlen]
          simpa [hne, hlast, hseq, hall] using hdepth

end WebAdf.DiskHistory
