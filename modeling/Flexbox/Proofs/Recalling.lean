import Flexbox.Proofs.Cleaning

namespace Flexbox

namespace Tree

variable {α γ : Type} {t s : Tree α} {root id : NodeId} {n m : Node α}
  {change : γ → Node α → Node α} {down : γ → Node α → γ}

theorem sweep_journal (fuel : Nat) (x : γ) (id : NodeId) :
    (t.sweep change down fuel x id).journal = t.journal :=
  sweep_induct (S := Set.univ) (P := fun s => s.journal = t.journal)
    (fun _ _ _ _ _ _ => trivial) (fun _ _ _ _ hs => hs) fuel x trivial rfl

theorem find?_clean_again (hclean : ∀ y, t.Reaches root y → ¬ t.Dirty y) (spare : Nat)
    (y : NodeId) : (t.clean root spare).find? y = t.find? y := by
  refine sweep_spares (by intros; rfl) (fun hy k hk _ => ?_) _ _
  have hmark : k.isDirty = false := by
    have hnot := hclean y hy
    rw [Dirty, markOf, hk] at hnot
    simpa using hnot
  rw [← hmark]

end Tree

namespace Edit

open Tree

variable {α : Type} [Scalar α] {t : Tree α} {root : NodeId} {n : Node α}

theorem calculateLayout_uncompared (ht : t.Sound) (hg : t.Grounded root)
    (hn : t.find? root = some n) (hdiff : n.config.diffLegacyStretch = false) (v : Viewport α) :
    ∃ s told, (∀ limits, (calculateLayout root v limits).apply t =
        (.ok ((t.primed root).runPass root v (rootRequest n.resolveSize v) .initial).stats, s)) ∧
      s.Sound ∧
      (∀ x, s.find? x = ((t.primed root).laidOut root v (rootRequest n.resolveSize v)).find? x) ∧
      s.journal =
        told ++ ((t.primed root).laidOut root v (rootRequest n.resolveSize v)).journal ∧
      ∀ e ∈ told, e.IsLog := by
  obtain ⟨s, -, hlogged, hs, -, hrun⟩ := calculateLayout_cases ht hg hn v
  have huncompared : t.compares root n v = false := by rw [compares, hdiff]; rfl
  simp only [huncompared] at hrun
  obtain ⟨told, hjournal, hlogs⟩ := hlogged.journal
  exact ⟨s, told, hrun, hs, hlogged.find?, hjournal, hlogs⟩

end Edit

namespace Pass

variable {α : Type} [Scalar α] {p : Pass α} {id : NodeId} {n : Node α} {r : Request α}

theorem visit_recalled_quietly (hn : p.tree.find? id = some n) {size : Size (Extent α)}
    (hr : (n.refreshed p.generation r.ownerDirection).recalled? r = some size)
    (hp : r.performLayout = true) (fuel : Nat) :
    (visit (fuel + 1) id r p).2.stats =
        { p.stats with cachedLayouts := p.stats.cachedLayouts + 1 } ∧
      (visit (fuel + 1) id r p).2.tree.journal = p.tree.journal := by
  have hfresh : (p.refresh id r.ownerDirection).stats = p.stats ∧
      (p.refresh id r.ownerDirection).tree.journal = p.tree.journal := by
    unfold refresh
    split <;> exact ⟨rfl, rfl⟩
  obtain ⟨entry, he, -⟩ := Option.map_eq_some_iff.mp hr
  obtain ⟨source, hsource, -⟩ := Option.bind_eq_some_iff.mp he
  rw [visit_of_remembered hn hsource]
  generalize p.refresh id _ = q at hfresh ⊢
  simp only [restore, finish, hp, if_true, updateGeometry, Pass.update, Pass.count, Pass.record]
  exact ⟨by rw [hfresh.1], hfresh.2⟩

end Pass

namespace Tree

variable {α : Type} [Scalar α] {t s : Tree α} {root : NodeId} {n m : Node α} {v : Viewport α}
  {r : Request α}

theorem laidOut_recalled_clean (hn : t.find? root = some n) {size : Size (Extent α)}
    (hr : (n.refreshed t.generation r.ownerDirection).recalled? r = some size)
    (hp : r.performLayout = true) (hclean : ∀ y, t.Reaches root y → ¬ t.Dirty y) :
    (t.runPass root v r .initial).stats = { cachedLayouts := 1 } ∧
      (t.laidOut root v r).journal = t.journal ∧
      ∀ x, x ≠ root → (t.laidOut root v r).find? x = t.find? x := by
  obtain ⟨hfound, hfind⟩ := Pass.visit_recalled (p := Pass.start t .initial) hn hr hp t.slots.size
  obtain ⟨hstats, hjournal⟩ :=
    Pass.visit_recalled_quietly (p := Pass.start t .initial) hn hr hp t.slots.size
  rw [← runPass_recalled hfound] at hfind hstats hjournal
  -- The root has the children it had, and is as clean as it was.
  have hkept : ∀ {β : Type} (f : Node α → β),
      f ((n.refreshed t.generation r.ownerDirection).recalling size t.generation) = f n →
      ∀ x, ((t.runPass root v r .initial).tree.find? x).map f = (t.find? x).map f := by
    intro β f hf x
    rw [hfind x]
    split
    · rename_i hx
      rw [hx]
      exact (congrArg some hf).trans (congrArg (Option.map f) hn).symm
    · rfl
  have hsame : ∀ k, k = n.refreshed t.generation r.ownerDirection →
      k.children = n.children ∧ k.isDirty = n.isDirty := by
    rintro k rfl
    unfold Node.refreshed
    split <;> exact ⟨rfl, rfl⟩
  have hreach : (t.runPass root v r .initial).tree.Reaches = t.Reaches := by
    unfold Reaches
    rw [show (t.runPass root v r .initial).tree.childrenOf = t.childrenOf from
      funext fun x => congrArg (Option.getD · []) (hkept Node.children (hsame _ rfl).1 x)]
  have hmarks : ∀ y, (t.runPass root v r .initial).tree.Reaches root y →
      ¬ (t.runPass root v r .initial).tree.Dirty y := by
    intro y hy
    rw [hreach] at hy
    rw [Dirty, markOf, hkept Node.isDirty (hsame _ rfl).2 y]
    exact hclean y hy
  refine ⟨hstats, (sweep_journal _ _ _).trans hjournal, fun x hx => ?_⟩
  rw [laidOut, find?_clean_again hmarks, hfind x, if_neg hx]
  rfl

/-- An unchanged tree is served from memory: where the sizes that a root without a measure function
is asked for are finite or undefined, and nothing is compared, the same layout a second time counts
one recalled layout and nothing else, tells the host at most log lines, and leaves every node but
the root exactly as it was. -/
theorem unchanged_layout_is_recalled {t : Tree Float32} {root : NodeId} {n : Node Float32}
    {v : Viewport Float32} (ht : t.Sound) (hg : t.Grounded root) (hn : t.find? root = some n)
    (hmeasure : n.measure = none) (hdiff : n.config.diffLegacyStretch = false)
    (hw : Binary32.Bounded (rootRequest n.resolveSize v).width.size)
    (hh : Binary32.Bounded (rootRequest n.resolveSize v).height.size) :
    ∃ stats s u told,
      (∀ limits, (Edit.calculateLayout root v limits).apply t = (.ok stats, s)) ∧
      (∀ limits, (Edit.calculateLayout root v limits).apply s =
        (.ok { cachedLayouts := 1 }, u)) ∧
      u.journal = told ++ s.journal ∧ (∀ e ∈ told, e.IsLog) ∧
      ∀ x, x ≠ root → u.find? x = s.find? x := by
  have hself : (rootRequest n.resolveSize v).IsLikeItself := ⟨hw.near_self, hh.near_self⟩
  obtain ⟨s, -, hrun, hs, hfind, -, -⟩ := Edit.calculateLayout_uncompared ht hg hn hdiff v
  have hsettled : Settled ((t.primed root).laidOut root v (rootRequest n.resolveSize v)) s root :=
    Or.inl hfind
  obtain ⟨m, hm, hrested⟩ := hsettled.rested ht hn rfl
  have hground : s.Grounded root := hsettled.grounded ht hg
  -- The first layout left everything below the root clean.
  have hreach : s.Reaches =
      ((t.primed root).laidOut root v (rootRequest n.resolveSize v)).Reaches := by
    unfold Reaches childrenOf
    simp only [hfind]
  have hclean : ∀ y, s.Reaches root y → ¬ s.Dirty y := by
    intro y hy
    rw [hreach] at hy
    rw [Dirty, markOf, hfind y]
    exact laidOut_clean (ht.primed root) (primed_grounded.mpr hg) hy
  -- Only a measured leaf could fail to recall the answer.
  obtain ⟨size, hsize⟩ : ∃ size, m.recalled? (rootRequest n.resolveSize v) = some size := by
    cases hr : m.recalled? (rootRequest n.resolveSize v) with
    | some size => exact ⟨size, rfl⟩
    | none =>
      obtain ⟨-, measure, hsome⟩ := hrested.measured rfl hself hr
      rw [hmeasure] at hsome
      cases hsome
  have hrecalled : (m.resolveSize.refreshed (s.primed root).generation v.direction).recalled?
      (rootRequest m.resolveSize v) = some size := by
    rw [hrested.kin.rootRequest v]
    exact (hrested.stable _).trans hsize
  have hprimed : ∀ y, (s.primed root).Reaches root y → ¬ (s.primed root).Dirty y := by
    intro y hy
    rw [(primed_shape s root).reaches] at hy
    rw [Dirty, show (s.primed root).markOf = s.markOf from markOf_update (by intros; rfl)]
    exact hclean y hy
  obtain ⟨hstats, hjournal, hother⟩ := laidOut_recalled_clean (v := v)
    (r := rootRequest m.resolveSize v) (find?_primed_root hm) hrecalled rfl hprimed
  have hdiff' : m.config.diffLegacyStretch = false := by rw [hrested.kin]; exact hdiff
  obtain ⟨u, told, hagain, -, hfind', hjournal', hlogs⟩ :=
    Edit.calculateLayout_uncompared hs hground hm hdiff' v
  refine ⟨_, s, u, told, hrun, fun limits => ?_, ?_, hlogs, fun x hx => ?_⟩
  · rw [hagain limits, hstats]
  · rw [hjournal', hjournal]
    rfl
  · rw [hfind' x, hother x hx]
    exact find?_update_other _ _ hx

theorem specimen_isSome : (specimen.find? ⟨4, 1⟩).isSome :=
  Option.isSome_iff_exists.mpr specimen_grounded.live

/-- The children of this root belong to another one, so that the first layout copies them. -/
theorem unchanged_layout_is_recalled_specimen :
    specimen.Sound ∧ specimen.Grounded ⟨4, 1⟩ ∧ ∃ stats s u told,
      (∀ limits, (Edit.calculateLayout ⟨4, 1⟩ ⟨.known 100, .known 100, .ltr⟩ limits).apply
        specimen = (.ok stats, s)) ∧
      (∀ limits, (Edit.calculateLayout ⟨4, 1⟩ ⟨.known 100, .known 100, .ltr⟩ limits).apply s =
        (.ok { cachedLayouts := 1 }, u)) ∧
      u.journal = told ++ s.journal ∧ (∀ e ∈ told, e.IsLog) ∧
      ∀ x, x ≠ ⟨4, 1⟩ → u.find? x = s.find? x := by
  have hn : specimen.find? ⟨4, 1⟩ = some ((specimen.find? ⟨4, 1⟩).get specimen_isSome) := by simp
  have hmeasure : ((specimen.find? ⟨4, 1⟩).get specimen_isSome).measure.isNone := by
    decide +kernel
  exact ⟨specimen_reachable.sound, specimen_grounded,
    unchanged_layout_is_recalled specimen_reachable.sound specimen_grounded hn
      (Option.isNone_iff_eq_none.mp hmeasure) (by decide +kernel) (by decide +kernel)
      (by decide +kernel)⟩

end Tree

end Flexbox
