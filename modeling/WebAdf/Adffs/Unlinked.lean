import WebAdf.Adffs.Added

/-!
# An entry taken out of its chain

Renaming, moving and deleting take an entry out first. The rest of the tree holds
without it, and its own block is as it was.
-/

namespace WebAdf.Adffs

open Lib

variable {adf mid out : Adf} {boot : BootInfo} {page : Nat}

-- ---------------------------------------------------------------------------
-- Where the entry stands
-- ---------------------------------------------------------------------------

/-- An entry in the chain of its name, between what stands before and behind it. -/
structure Stands (adf : Adf) (boot : BootInfo) (dir e : Nat) (before after : List Nat) : Prop where
  directory : Directory adf dir
  chain : Chain adf (adf.slot dir (nameHash (adf.block e).entryName boot.intl)) (before ++ e :: after)

namespace WellFormed

theorem stands (hw : WellFormed adf boot page) (he : Entry adf dir e) : ∃ before after, Stands adf boot dir e before after := by
  obtain ⟨slot, hd, hs, l, hl, hmem⟩ := he.placed
  obtain ⟨before, after, rfl, -⟩ := hl.from hmem
  obtain rfl := hw.bucket hd hs hl hmem
  exact ⟨before, after, hd, hl⟩

/-- An entry is found by its own name. -/
theorem predecessorOf_eq (hw : WellFormed adf boot page) (h : Stands adf boot dir e before after) :
    predecessorOf adf dir e ((adf.block e).bcplString 432 nameMax) boot.intl =
      some (predOf (adf.block e).entryName boot.intl before) := by
  obtain ⟨-, -, hlt, -⟩ := hw.directory_used h.directory
  exact predecessorOf_chain h.chain hlt

theorem ne_dir (hw : WellFormed adf boot page) (he : Entry adf dir e) : e ≠ dir := by
  rintro rfl
  exact hw.not_below he .self

end WellFormed

theorem Stands.entry (h : Stands adf boot dir e before after) (hx : x ∈ before ++ e :: after) : Entry adf dir x :=
  ⟨h.directory, _, _, nameHash_lt _ _, h.chain, hx⟩

theorem Stands.self (h : Stands adf boot dir e before after) : Entry adf dir e := h.entry (by simp)

/-- The image with the entry out of its chain. -/
def unlinked (adf : Adf) (boot : BootInfo) (dir e : Nat) (before : List Nat) : Adf :=
  unlink adf dir (predOf (adf.block e).entryName boot.intl before) ((adf.block e).be32 496)

/-- The tree without the entry. -/
def Shape.without (S : Shape) (e : Nat) : Shape where
  dirs := S.dirs
  chain d s := (S.chain d s).filter (· ≠ e)

theorem Shape.at_without {S : Shape} : (S.without e).At d s x ↔ S.At d s x ∧ x ≠ e := by
  simp only [Shape.At, Shape.without, List.mem_filter, decide_eq_true_eq, and_assoc]

section Unlinked

variable {dir e : Nat} {before after : List Nat}

theorem density_unlinked : (unlinked adf boot dir e before).density = adf.density := density_unlink ..

/-- One block has changed by a word: the directory's slot or an entry's link. -/
theorem block_unlinked (hw : WellFormed adf boot page) (h : Stands adf boot dir e before after) (n : Nat) :
    (unlinked adf boot dir e before).block n = adf.block n ∨
      (n = dir ∨ n ∈ before) ∧ (adf.block n).Alike ((unlinked adf boot dir e before).block n) ∧
        (∀ off, 312 ≤ off → off + 4 ≤ 496 →
          ((unlinked adf boot dir e before).block n).be32 off = (adf.block n).be32 off) := by
  obtain ⟨-, -, hlt, -⟩ := hw.directory_used h.directory
  obtain ⟨hqlt, hcases⟩ := predOf_block h.chain hlt
  obtain ⟨hlo, hhi⟩ := slotOf_bounds (adf.block e).entryName boot.intl
  by_cases hn : n = (predOf (adf.block e).entryName boot.intl before).block dir
  · have hself := block_unlink_self _ ((adf.block e).be32 496) hqlt
    rw [← hn] at hself hcases
    rw [unlinked, hself]
    refine .inr ?_
    rcases hcases with ⟨hdir, hword⟩ | ⟨hmem, hword⟩
    · rw [hword]
      refine ⟨.inl hdir, Block.alike_reword (.inr ⟨hlo, hhi, ?_⟩) _, fun off hoff _ => ?_⟩
      · rw [hdir]
        exact hw.dir_kind h.directory
      · exact Block.be32_reword_other (by omega) (by omega)
    · rw [hword]
      refine ⟨.inr hmem, Block.alike_reword (.inl rfl) _, fun off _ hoff => ?_⟩
      exact Block.be32_reword_other (by omega) (by omega)
  · exact .inl (block_unlink_other hn)

/-- A block that is neither directory nor entry is untouched. -/
theorem block_unlinked_body (hw : WellFormed adf boot page) (h : Stands adf boot dir e before after) (hd : ¬ Directory adf n)
    (he : ∀ d, ¬ Entry adf d n) : (unlinked adf boot dir e before).block n = adf.block n := by
  rcases block_unlinked hw h n with hsame | ⟨rfl | hmem, -, -⟩
  · exact hsame
  · exact absurd h.directory hd
  · exact absurd (h.entry (List.mem_append_left _ hmem)) (he dir)

theorem block_unlinked_self (hw : WellFormed adf boot page) (h : Stands adf boot dir e before after) :
    (unlinked adf boot dir e before).block e = adf.block e := by
  rcases block_unlinked hw h e with hsame | ⟨heq | hmem, -, -⟩
  · exact hsame
  · exact absurd heq (hw.ne_dir h.self)
  · have hnodup := h.chain.nodup
    rw [List.nodup_append] at hnodup
    exact absurd rfl (hnodup.2.2 e hmem e (List.mem_cons_self ..))

theorem block_unlinked_page (hw : WellFormed adf boot page) (h : Stands adf boot dir e before after) :
    (unlinked adf boot dir e before).block page = adf.block page :=
  block_unlinked_body hw h (fun hd => (hw.directory_used hd).2.1 rfl) fun _ he =>
    (Adf.isReserved_iff.1 (hw.entry_held he).1).2.1 rfl

theorem isFreeAt_unlinked (hw : WellFormed adf boot page) (h : Stands adf boot dir e before after) (n : Nat) :
    (unlinked adf boot dir e before).isFreeAt page n = adf.isFreeAt page n :=
  isFreeAt_same density_unlinked (block_unlinked_page hw h) n

theorem alike_unlinked (hw : WellFormed adf boot page) (h : Stands adf boot dir e before after) (n : Nat) :
    (adf.block n).Alike ((unlinked adf boot dir e before).block n) := by
  rcases block_unlinked hw h n with hsame | ⟨-, halike, -⟩
  · rw [hsame]
    exact .refl _
  · exact halike

theorem kept_unlinked (hw : WellFormed adf boot page) (h : Stands adf boot dir e before after) (hx : Entry adf d x) :
    Kept adf (unlinked adf boot dir e before) page x where
  alike := alike_unlinked hw h x
  rest n hn hne := by
    obtain ⟨-, -, hdir, hsole⟩ := hw.body_apart hx hn hne
    exact block_unlinked_body hw h hdir fun d' he => hne (hsole d' n he (WellFormed.mem_owned_self adf n))
  used n hn := (isFreeAt_unlinked hw h n).trans (hw.held hx hn).2

theorem base_unlinked (hw : WellFormed adf boot page) (h : Stands adf boot dir e before after) :
    Base (unlinked adf boot dir e before) boot page := by
  have hzero : (unlinked adf boot dir e before).block 0 = adf.block 0 := by
    refine block_unlinked_body hw h (fun hd => ?_) fun _ he => ?_
    · exact absurd (hw.directory_used hd).2.2.2 (by decide)
    · exact absurd (Adf.isReserved_iff.1 (hw.entry_held he).1).2.2.1 (by decide)
  have hword {off : Nat} (hlo : 312 ≤ off) (hhi : off + 4 ≤ 496) :
      ((unlinked adf boot dir e before).block adf.rootBlock).be32 off = (adf.block adf.rootBlock).be32 off := by
    rcases block_unlinked hw h adf.rootBlock with hsame | ⟨-, -, hword⟩
    · rw [hsame]
    · exact hword off hlo hhi
  exact hw.base.after density_unlinked hzero (alike_unlinked hw h _) (hword (by omega) (by omega))
    (hword (by omega) (by omega)) (isFreeAt_unlinked hw h)

/-- The tree without the entry holds. -/
theorem holds_unlinked (hw : WellFormed adf boot page) (h : Stands adf boot dir e before after) :
    ((treeShape adf).without e).Holds (unlinked adf boot dir e before) where
  root := by
    rw [Adf.rootBlock, density_unlinked]
    exact .root
  closed hx hdir := by
    obtain ⟨hat, -⟩ := Shape.at_without.1 hx
    exact hw.holds_treeShape.closed hat ((alike_unlinked hw h _).kind.symm.trans hdir)
  chain {d s} hd hs := by
    obtain ⟨-, -, hlt, -⟩ := hw.directory_used h.directory
    have hl := hw.holds_treeShape.chain hd hs
    change Chain _ _ (((treeShape adf).chain d s).filter (· ≠ e))
    by_cases hmain : d = dir ∧ s = nameHash (adf.block e).entryName boot.intl
    · obtain ⟨rfl, rfl⟩ := hmain
      rw [hl.unique h.chain]
      have hnodup := h.chain.nodup
      rw [List.nodup_append] at hnodup
      obtain ⟨-, htail, hdisj⟩ := hnodup
      have hbefore : before.filter (· ≠ e) = before :=
        List.filter_eq_self.2 fun x hx => decide_eq_true (hdisj x hx e (List.mem_cons_self ..))
      have hafter : after.filter (· ≠ e) = after := List.filter_eq_self.2 fun x hx => decide_eq_true fun heq =>
        (List.nodup_cons.1 htail).1 (heq ▸ hx)
      have hsplit : (before ++ e :: after).filter (· ≠ e) = before ++ after := by
        rw [List.filter_append, List.filter_cons_of_neg (by simp), hbefore, hafter]
      rw [hsplit]
      exact h.chain.unlink_self hlt
    · -- no entry of another chain is in this one
      have hout {x : Nat} (hx : x ∈ (treeShape adf).chain d s) (hx' : x ∈ before ++ e :: after) : False := by
        have hplaced := hw.at_treeShape.1 ⟨hd, hs, hx⟩
        have hdir := hw.parent_unique hplaced.entry (h.entry hx')
        have hbucket := hw.bucket h.directory (nameHash_lt _ _) h.chain hx'
        have hbucket' := (hw.sound hplaced).bucket
        exact hmain ⟨hdir, hbucket'.symm.trans hbucket⟩
      have hfilter : ((treeShape adf).chain d s).filter (· ≠ e) = (treeShape adf).chain d s :=
        List.filter_eq_self.2 fun x hx => decide_eq_true fun heq => hout hx (by simp [heq])
      rw [hfilter]
      exact hl.unlink_other h.chain hlt hs hmain fun x hx hx' => hout hx (List.mem_append_left _ hx')

end Unlinked

end WebAdf.Adffs
