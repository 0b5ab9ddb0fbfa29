import Flexbox.Proofs.Courses
import Flexbox.Proofs.Territory

namespace Flexbox

variable {α : Type}

theorem Event.IsLog.quiet {α : Type} {e : Event α} (h : e.IsLog) : e.Quiet := by
  cases e with
  | log => rfl
  | _ => exact h.elim

namespace Tree

variable {before : List (Event α)} {t s : Tree α}

/-- Since the journal was `before`, the host was told of no dirty mark. -/
def UndirtiedSince (before : List (Event α)) (t : Tree α) : Prop :=
  ∃ told, t.journal = told ++ before ∧ ∀ e ∈ told, e.Quiet

theorem undirtiedSince_self (t : Tree α) : t.UndirtiedSince t.journal := ⟨[], rfl, by simp⟩

theorem UndirtiedSince.congr (h : t.UndirtiedSince before) (hj : s.journal = t.journal) :
    s.UndirtiedSince before := by
  obtain ⟨told, he, hq⟩ := h
  exact ⟨told, hj.trans he, hq⟩

theorem UndirtiedSince.tell (h : t.UndirtiedSince before) {e : Event α} (hq : e.Quiet) :
    (t.tell e).UndirtiedSince before := by
  obtain ⟨told, he, hall⟩ := h
  refine ⟨e :: told, congrArg (e :: ·) he, ?_⟩
  simpa using ⟨hq, hall⟩

theorem undirtiedSince_elementary (before : List (Event α)) :
    Elementary (UndirtiedSince before) where
  update h _ _ := h.congr rfl
  insert h n := by
    unfold Tree.insert
    split <;> exact h.congr rfl
  erase h id := by
    unfold Tree.erase
    split
    · exact h.congr rfl
    · exact h
  tell h _ hq := h.tell hq

end Tree

namespace Pass

variable [Scalar α]

def Quietly (p q : Pass α) : Prop :=
  ∀ before, p.tree.UndirtiedSince before → q.tree.UndirtiedSince before

theorem quietly_course : Course (Quietly (α := α)) where
  refl _ := fun _ h => h
  trans h h' := fun before hp => h' before (h before hp)
  update _ _ _ _ := fun _ h => h.congr rfl
  own _ id := fun before h => Edit.keeps_ownChildren (Tree.undirtiedSince_elementary before) id h
  tell _ _ hq := fun _ h => h.tell hq
  count _ _ := fun _ h => h

omit [Scalar α] in
theorem finish_journal (id : NodeId) (r : Request α) (p : Pass α) :
    (p.finish id r).tree.journal = p.tree.journal := by
  unfold finish
  dsimp only
  split <;> rfl

theorem visit_quietly (fuel : Nat) (id : NodeId) (r : Request α) (p : Pass α) :
    Quietly p (visit fuel id r p).2 := by
  induction fuel generalizing id r p with
  | zero => exact quietly_course.refl p
  | succ fuel ih =>
    intro before h
    have hforget : (p.refresh id r.ownerDirection).tree.UndirtiedSince before := by
      unfold refresh
      split <;> exact h.congr rfl
    rw [visit_succ]
    generalize p.refresh id _ = q at hforget ⊢
    dsimp only
    split
    · exact hforget.congr (finish_journal _ _ _)
    · have hlaid : Quietly (q.record ⟨id, r, .computed⟩) (layNode _ id r _) :=
        quietly_course.layNode (fun id r p => ih id r p) r
      have hquiet := hlaid before hforget
      refine .congr ?_ (finish_journal id r _)
      unfold compute
      generalize (q.record _).layNode _ id r = u at hquiet ⊢
      exact hquiet

end Pass

namespace Tree

variable [Scalar α] {before : List (Event α)} {t : Tree α}

theorem UndirtiedSince.laidOut (h : t.UndirtiedSince before) (root : NodeId) (v : Viewport α)
    (r : Request α) : (t.laidOut root v r).UndirtiedSince before := by
  refine (undirtiedSince_elementary before).sweepAll _ root 0 ?_
  have hvisit := Pass.visit_quietly (Pass.start t .initial).depth root r (Pass.start t .initial)
    before h
  unfold Tree.runPass
  dsimp only
  generalize Pass.visit _ root r _ = answer at hvisit ⊢
  split
  · unfold snap
    split
    · exact hvisit.congr rfl
    · exact (undirtiedSince_elementary before).sweep _ _ _ _ _ (hvisit.congr rfl)
  · exact hvisit

/-- A layout reports a node as dirtied only where it is compared, whatever the tree. -/
theorem uncompared_layout_undirtied (t : Tree α) (root : NodeId) (v : Viewport α)
    (hno : ∀ n, t.find? root = some n → t.compares root n v = false) :
    ((Edit.calculateLayout root v).apply t).2.UndirtiedSince t.journal := by
  cases hn : t.find? root with
  | none =>
    rw [Edit.calculateLayout, Edit.apply_bind, Edit.apply_change_none hn]
    exact undirtiedSince_self t
  | some n =>
    have hfind : (t.update root Node.resolveSize).find? root = some n.resolveSize := by
      rw [find?_update_self, hn]
      rfl
    have hcompares := hno n hn
    have hw := ((undirtiedSince_self t).congr (s := t.primed root) rfl).laidOut root v
      (rootRequest n.resolveSize v)
    -- What the comparison is decided by is still there once the layout has been logged.
    let P : Tree α → Prop := fun s => s.UndirtiedSince t.journal ∧
      ∀ x, s.find? x = ((t.primed root).laidOut root v (rootRequest n.resolveSize v)).find? x
    suffices hP : P ((Edit.calculateLayout root v).apply t).2 from hP.1
    refine Edit.final_bind (Edit.apply_change hn _) (Edit.final_bind (Edit.apply_node hfind)
      (Edit.final_bind Edit.apply_get (Edit.final_bind (Edit.apply_set _) ?_)))
    refine Edit.final_seq (Edit.keeps_logTree (fun hs _ he => ⟨hs.1.tell he.quiet, hs.2⟩) _
      root _ ⟨hw, fun _ => rfl⟩) fun _ s hs => ?_
    refine Edit.final_node hs fun m hm => ?_
    rw [compares, ← hs.2, hm] at hcompares
    have hnot : (n.resolveSize.config.diffLegacyStretch && m.geometry.usedLegacyStretch) = false :=
      hcompares
    rw [hnot]
    exact hs

/-- A row that was laid out, with callbacks on all of its nodes, and a clone that shares its
children. -/
def clonedRow : Tree Float32 :=
  (Tree.empty { gridless with legacyStretch := true, diffLegacyStretch := true }).after
    [.newNode none, .newNode none, .newNode none, .addChild ⟨1, 1⟩ ⟨2, 1⟩,
      .addChild ⟨1, 1⟩ ⟨3, 1⟩, .updateStyle ⟨1, 1⟩ fun s => { s with flexDirection := .row },
      .updateStyle ⟨2, 1⟩ fun s => { s with flexGrow := .known 1 },
      .setDirtied ⟨1, 1⟩ (some "row"), .setDirtied ⟨2, 1⟩ (some "first"),
      .setDirtied ⟨3, 1⟩ (some "second"),
      .calculateLayout ⟨1, 1⟩ ⟨.known 100, .known 50, .ltr⟩, .cloneNode ⟨1, 1⟩]

/-- The clone is laid out at another size, which copies the children. -/
theorem uncompared_layout_undirtied_clone :
    (∀ x ∈ clonedRow.ids, clonedRow.markOf x = some false ∧
      (clonedRow.find? x).any (·.dirtied.isSome) = true) ∧
    clonedRow.sharers ⟨2, 1⟩ = {⟨4, 1⟩} ∧
    ((Edit.calculateLayout ⟨4, 1⟩ ⟨.known 200, .known 50, .ltr⟩).apply clonedRow).2.UndirtiedSince
      clonedRow.journal := by
  have hno : (clonedRow.find? ⟨4, 1⟩).all
      (!clonedRow.compares ⟨4, 1⟩ · ⟨.known 200, .known 50, .ltr⟩) = true := by
    decide +kernel
  refine ⟨by decide +kernel, by decide +kernel,
    uncompared_layout_undirtied clonedRow ⟨4, 1⟩ _ fun n hn => ?_⟩
  simpa [hn] using hno

/-- A root that stretches its only child as the settings ask, and compares what comes of it. -/
def stretching : Tree Float32 :=
  (Tree.empty { gridless with legacyStretch := true, diffLegacyStretch := true }).after
    [.newNode none, .newNode none, .addChild ⟨1, 1⟩ ⟨2, 1⟩,
      .updateStyle ⟨1, 1⟩ fun s => { s with size := ⟨.points 100, .auto⟩ },
      .updateStyle ⟨2, 1⟩ fun s => { s with flexGrow := .known 1 },
      .setDirtied ⟨1, 1⟩ (some "root")]

/-- The root has no mark to report, and is reported all the same: its layout is compared. -/
theorem dirtied_reported_stretching :
    stretching.journal.any Event.isDirtied = false ∧
    ((Edit.calculateLayout ⟨1, 1⟩ ⟨.known 100, .undefined, .ltr⟩).apply stretching).2.journal.any
      Event.isDirtied = true := by
  decide +kernel

end Tree

end Flexbox
