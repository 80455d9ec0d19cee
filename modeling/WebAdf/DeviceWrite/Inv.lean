import WebAdf.DeviceWrite.System

/-!
# What timely steps keep

Of the tables: each session's row holds the tracks staged for it above what
closes have taken, and its `lastSeq` is the highest of them. Of the board: a
clean track's last upload was staged. Of a close: when it was sent, every
track's last upload was staged, and what it has read of the session since is
what was staged up to its `seq`, or the board has gone on.
-/

namespace WebAdf.DeviceWrite

open Lib DiskHistory

section
variable {σ : Type} {s t : Tables σ} {row : Session σ} {current : Option BoardSession}
  {e : BoardSession} {q : Upload}

/-- A table of tracks holds each track as the session last uploaded it. -/
structure Holds (table : Nat → Option Bytes) (us : List Upload) (e : BoardSession) (floor : Nat) :
    Prop where
  highest : ∀ u, Highest us e floor u → table u.track = some u.data
  none : ∀ t, (∀ u ∈ us, Mine e floor u → u.track ≠ t) → table t = none

/-- Only the session's own uploads matter. -/
theorem Holds.congr (h : Holds table us e floor)
    (heq : ∀ u, u.session = e → (u ∈ vs ↔ u ∈ us)) : Holds table vs e floor := by
  refine ⟨?_, ?_⟩
  · rintro u ⟨hu, hm, hmax⟩
    exact h.highest u ⟨(heq u hm.1).mp hu, hm, fun v hv hvm => hmax v ((heq v hvm.1).mpr hv) hvm⟩
  · intro t ht
    exact h.none t fun u hu hm => ht u ((heq u hm.1).mpr hu) hm

structure RowOk (s : Tables σ) (mount : Nat) (row : Session σ) : Prop where
  place : row.opener.mount = mount
  token : row.token = row.opener.token
  top : ∀ u ∈ s.committed, u.session = row.opener → u.seq ≤ max row.lastSeq (s.taken row.opener)
  last : row.lastSeq = 0 ∨ ∃ u ∈ s.committed, u.session = row.opener ∧ u.seq = row.lastSeq
  tracks : Holds (s.tracks mount) s.committed row.opener (s.taken row.opener)

structure TablesOk (current : Option BoardSession) (s : Tables σ) : Prop where
  rows : ∀ mount row, s.sessions mount = some row → RowOk s mount row
  noRow : ∀ mount, s.sessions mount = none → ∀ t, s.tracks mount t = none
  /-- What the board's session has staged is in its row, or a close took it. -/
  kept : ∀ e, current = some e → (∃ row, s.sessions e.mount = some row ∧ row.opener = e) ∨
    ∀ u ∈ s.committed, u.session = e → u.seq ≤ s.taken e

-- ---------------------------------------------------------------------------
-- The tables' statements
-- ---------------------------------------------------------------------------

/-- The device's row and the disks' are free to change. -/
theorem TablesOk.elsewhere (h : TablesOk current s) (device : Device)
    (disks : String → Option (Disk σ)) :
    TablesOk current { s with device := device, disks := disks } := by
  refine ⟨fun mount row hr => ?_, h.noRow, h.kept⟩
  obtain ⟨hplace, htoken, htop, hlast, htracks⟩ := h.rows mount row hr
  exact ⟨hplace, htoken, htop, hlast, htracks⟩

theorem TablesOk.discardOthers (h : TablesOk current s) (hcur : current = some e) :
    TablesOk current (s.discardOthers e) := by
  have hrow {mount : Nat} {row : Session σ} (hr : (s.discardOthers e).sessions mount = some row) :
      s.sessions mount = some row ∧ (s.discardOthers e).tracks mount = s.tracks mount := by
    simp only [Tables.discardOthers] at hr ⊢
    split at hr
    · cases hr
    · rename_i hkeep
      exact ⟨hr, if_neg hkeep⟩
  refine ⟨?_, ?_, ?_⟩
  · intro mount row hr
    obtain ⟨hs, ht⟩ := hrow hr
    obtain ⟨hmount, htoken, htop, hlast, htracks⟩ := h.rows mount row hs
    exact ⟨hmount, htoken, htop, hlast, ht ▸ htracks⟩
  · intro mount hn t
    simp only [Tables.discardOthers] at hn ⊢
    split
    · rfl
    · rename_i hkeep
      rw [if_neg hkeep] at hn
      exact h.noRow mount hn t
  · intro e' he
    obtain rfl : e = e' := Option.some.inj (hcur.symm.trans he)
    rcases h.kept e he with ⟨row, hs, ho⟩ | hall
    · refine .inl ⟨row, ?_, ho⟩
      have htoken := (h.rows _ row hs).token
      rw [ho] at htoken
      simp [Tables.discardOthers, hs, htoken]
    · exact .inr hall

theorem TablesOk.insertSession (h : TablesOk current s) (hcur : current = some e) (sha : σ) :
    TablesOk current (s.insertSession e sha) := by
  rw [Tables.insertSession]
  split
  · exact h
  · rename_i hnone
    have hall : ∀ u ∈ s.committed, u.session = e → u.seq ≤ s.taken e := by
      rcases h.kept e hcur with ⟨row, hs, -⟩ | hall
      · rw [hnone] at hs
        cases hs
      · exact hall
    refine ⟨?_, ?_, ?_⟩
    · intro mount row hr
      by_cases hm : mount = e.mount
      · subst hm
        obtain rfl : _ = row := by simpa using hr
        refine ⟨rfl, rfl, fun u hu he => ?_, .inl rfl, ?_, ?_⟩
        · exact Nat.le_trans (hall u hu he) (Nat.le_max_right _ _)
        · rintro u ⟨hu, ⟨he, hseq⟩, -⟩
          exact absurd (hall u hu he) (Nat.not_le.mpr hseq)
        · exact fun t _ => h.noRow _ hnone t
      · have hs : s.sessions mount = some row := by simpa [hm] using hr
        obtain ⟨hmount, htoken, htop, hlast, htracks⟩ := h.rows mount row hs
        exact ⟨hmount, htoken, htop, hlast, htracks⟩
    · intro mount hn t
      by_cases hm : mount = e.mount
      · subst hm
        simp at hn
      · exact h.noRow mount (by simpa [hm] using hn) t
    · intro e' he
      obtain rfl : e = e' := Option.some.inj (hcur.symm.trans he)
      exact .inl ⟨_, Function.update_self .., rfl⟩

/-- A track staged above all the session had staged is the one its table holds. -/
theorem Holds.commit (h : Holds table us q.session floor) (hfloor : floor < q.seq)
    (htop : ∀ u ∈ us, u.session = q.session → u.seq < q.seq) :
    Holds (Function.update table q.track (some q.data)) (us ++ [q]) q.session floor := by
  have hq : q ∈ us ++ [q] := by simp
  refine ⟨?_, ?_⟩
  · rintro u ⟨hu, hm, hmax⟩
    rcases List.mem_append.mp hu with hu | hu
    · have hne : u.track ≠ q.track := by
        intro ht
        have hle := hmax q hq ⟨rfl, hfloor⟩ ht.symm
        exact absurd (htop u hu hm.1) (Nat.not_lt.mpr hle)
      rw [Function.update_of_ne hne]
      exact h.highest u ⟨hu, hm, fun v hv => hmax v (List.mem_append_left _ hv)⟩
    · obtain rfl := List.mem_singleton.mp hu
      exact Function.update_self ..
  · intro t ht
    rw [Function.update_of_ne (Ne.symm (ht q hq ⟨rfl, hfloor⟩))]
    exact h.none t fun u hu => ht u (List.mem_append_left _ hu)

theorem Holds.commit_other (h : Holds table us e floor) (hne : q.session ≠ e) :
    Holds table (us ++ [q]) e floor :=
  h.congr fun u hu => by
    have : u ≠ q := fun he => hne (he ▸ hu)
    simp [this]

theorem TablesOk.commitTrack (h : TablesOk current s) (hs : s.sessions q.session.mount = some row)
    (hown : row.opener = q.session) (hlast : row.lastSeq < q.seq)
    (htaken : s.taken q.session < q.seq) (ht : s.commitTrack q = some t) :
    TablesOk current t ∧ t.committed = s.committed ++ [q] ∧ t.taken = s.taken ∧
      ∀ u ∈ s.committed, u.session = q.session → u.seq < q.seq := by
  obtain ⟨hmount, htoken, htop, -, htracks⟩ := h.rows _ row hs
  rw [hown] at htop htracks htoken
  have hbelow : ∀ u ∈ s.committed, u.session = q.session → u.seq < q.seq := by
    intro u hu he
    have := htop u hu he
    omega
  simp only [Tables.commitTrack, hs, if_pos htoken, Option.some.injEq] at ht
  subst ht
  refine ⟨⟨?_, ?_, ?_⟩, rfl, rfl, hbelow⟩
  · intro mount row' hr
    by_cases hm : mount = q.session.mount
    · subst hm
      obtain rfl : _ = row' := by simpa using hr
      refine ⟨hmount, by rw [htoken, hown], ?_, ?_, ?_⟩
      · intro u hu he
        rcases List.mem_append.mp hu with hu | hu
        · rw [hown] at he
          exact Nat.le_trans (Nat.le_of_lt (hbelow u hu he)) (Nat.le_max_left _ _)
        · obtain rfl := List.mem_singleton.mp hu
          exact Nat.le_max_left _ _
      · exact .inr ⟨q, by simp, hown.symm, rfl⟩
      · dsimp only
        rw [Function.update_self, hown]
        exact htracks.commit htaken hbelow
    · have hs' : s.sessions mount = some row' := by simpa [hm] using hr
      obtain ⟨hmount', htoken', htop', hlast', htracks'⟩ := h.rows mount row' hs'
      have hne : q.session ≠ row'.opener := by
        rintro he
        exact hm (by rw [← hmount', ← he])
      refine ⟨hmount', htoken', ?_, ?_, ?_⟩
      · intro u hu he
        rcases List.mem_append.mp hu with hu | hu
        · exact htop' u hu he
        · obtain rfl := List.mem_singleton.mp hu
          exact absurd he hne
      · exact hlast'.imp id fun ⟨u, hu, hux⟩ => ⟨u, List.mem_append_left _ hu, hux⟩
      · dsimp only
        rw [Function.update_of_ne hm]
        exact htracks'.commit_other hne
  · intro mount hn t
    by_cases hm : mount = q.session.mount
    · subst hm
      simp at hn
    · dsimp only
      rw [Function.update_of_ne hm]
      exact h.noRow mount (by simpa [hm] using hn) t
  · intro e he
    by_cases hq : e = q.session
    · subst hq
      exact .inl ⟨_, Function.update_self .., hown⟩
    · rcases h.kept e he with ⟨row', hs', ho⟩ | hall
      · by_cases hm : e.mount = q.session.mount
        · rw [hm, hs] at hs'
          cases hs'
          exact absurd (ho.symm.trans hown) hq
        · exact .inl ⟨row', by simpa [hm] using hs', ho⟩
      · refine .inr fun u hu hue => ?_
        rcases List.mem_append.mp hu with hu | hu
        · exact hall u hu hue
        · obtain rfl := List.mem_singleton.mp hu
          exact absurd hue.symm hq

/-- A deletion as the close read the row: what the row held is taken. -/
theorem TablesOk.deleteSession (h : TablesOk current s)
    (hown : ∀ row, TokenRow s e row → row.opener = e) :
    TablesOk current (s.deleteSession e) ∧ (s.deleteSession e).committed = s.committed ∧
      ∀ e', (s.deleteSession e).taken e' = s.taken e' ∨
        ∀ u ∈ s.committed, u.session = e' → u.seq ≤ (s.deleteSession e).taken e' := by
  rw [Tables.deleteSession]
  split
  · exact ⟨h, rfl, fun _ => .inl rfl⟩
  · rename_i row hs
    split
    · rename_i htoken
      have ho := hown row ⟨hs, htoken⟩
      have htop := (h.rows _ row hs).top
      rw [ho] at htop ⊢
      have hall : ∀ u ∈ s.committed, u.session = e →
          u.seq ≤ Function.update s.taken e (max (s.taken e) row.lastSeq) e := by
        intro u hu he
        rw [Function.update_self, Nat.max_comm]
        exact htop u hu he
      refine ⟨⟨?_, ?_, ?_⟩, rfl, fun e' => ?_⟩
      · intro mount row' hr
        have hm : mount ≠ e.mount := by
          rintro rfl
          simp at hr
        obtain ⟨hmount', htoken', htop', hlast', htracks'⟩ :=
          h.rows mount row' (by simpa [hm] using hr)
        have hne : row'.opener ≠ e := fun he => hm (by rw [← hmount', he])
        refine ⟨hmount', htoken', ?_, hlast', ?_⟩
        · simpa [hne] using htop'
        · simpa [hne, hm] using htracks'
      · intro mount hn t
        by_cases hm : mount = e.mount
        · subst hm
          simp
        · dsimp only
          rw [Function.update_of_ne hm]
          exact h.noRow mount (by simpa [hm] using hn) t
      · intro e' he
        by_cases hq : e' = e
        · exact .inr (hq ▸ hall)
        · rcases h.kept e' he with ⟨row', hs', ho'⟩ | hall'
          · by_cases hm : e'.mount = e.mount
            · rw [hm, hs] at hs'
              cases hs'
              exact absurd (ho'.symm.trans ho) hq
            · exact .inl ⟨row', by simpa [hm] using hs', ho'⟩
          · exact .inr (by simpa [hq] using hall')
      · by_cases hq : e' = e
        · exact .inr (hq ▸ hall)
        · exact .inl (Function.update_of_ne hq ..)
    · exact ⟨h, rfl, fun _ => .inl rfl⟩

end

end WebAdf.DeviceWrite
