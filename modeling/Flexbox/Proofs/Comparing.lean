import Flexbox.Proofs.Reports

namespace Flexbox

namespace Tree

variable {α : Type} [Scalar α] {t s u : Tree α} {root copy a b x y : NodeId} {h fuel : Nat}
  {n : Node α} {v : Viewport α} {r : Request α} {R : NodeId → NodeId → Prop}

/-- The steps that lead to `x` from `a` lead to `y` from `b`. -/
inductive Opposite (t : Tree α) : NodeId → NodeId → NodeId → NodeId → Prop
  | here (a b : NodeId) : Opposite t a b a b
  | down {a b c d x y : NodeId} (hcd : (c, d) ∈ (t.childrenOf a).zip (t.childrenOf b))
      (h : Opposite t c d x y) : Opposite t a b x y

/-- Two nodes in the same place below `a` and `b` have different boxes. -/
def Differs (t : Tree α) (a b : NodeId) : Prop :=
  ∃ x y m n, t.Opposite a b x y ∧ t.find? x = some m ∧ t.find? y = some n ∧
    m.geometry.sameBox n.geometry = false

/-- Nodes that `R` relates are there, and list nodes that `R` relates. -/
def Lockstep (t : Tree α) (R : NodeId → NodeId → Prop) : Prop :=
  ∀ x y, R x y → t.Live x ∧ t.Live y ∧ List.Forall₂ R (t.childrenOf x) (t.childrenOf y)

theorem Lockstep.sameBoxes_eq_false (hR : t.Lockstep R) (hab : R a b)
    (hu : (t.unfold h a).isSome) (hf : h ≤ fuel) :
    t.sameBoxes fuel a b = false ↔ t.Differs a b := by
  induction h generalizing a b fuel with
  | zero => cases hu
  | succ h ih =>
    obtain ⟨fuel, rfl⟩ := exists_pred hf
    obtain ⟨-, hall⟩ := unfold_isSome.mp hu
    obtain ⟨⟨m, hm⟩, ⟨n, hn⟩, hlists⟩ := hR a b hab
    have hdown : ∀ pair ∈ (t.childrenOf a).zip (t.childrenOf b),
        t.sameBoxes fuel pair.1 pair.2 = false ↔ t.Differs pair.1 pair.2 := fun pair hp =>
      ih (List.forall₂_zip hlists hp) (hall _ (List.of_mem_zip hp).1) (by omega)
    have hlength := hlists.length_eq
    rw [childrenOf_eq hm, childrenOf_eq hn] at hdown hlength
    simp only [sameBoxes, hm, hn, hlength, beq_self_eq_true, Bool.and_true,
      Bool.and_eq_false_iff, List.all_eq_false, Bool.not_eq_true]
    constructor
    · rintro (hbox | ⟨pair, hp, hboxes⟩)
      · exact ⟨a, b, m, n, .here a b, hm, hn, hbox⟩
      · obtain ⟨x, y, k, l, hxy, hbox⟩ := (hdown pair hp).mp hboxes
        rw [← childrenOf_eq hm, ← childrenOf_eq hn] at hp
        exact ⟨x, y, k, l, .down hp hxy, hbox⟩
    · rintro ⟨x, y, k, l, hxy, hk, hl, hbox⟩
      cases hxy with
      | here =>
        rw [hm] at hk
        rw [hn] at hl
        cases hk
        cases hl
        exact Or.inl hbox
      | down hcd hxy =>
        rw [childrenOf_eq hm, childrenOf_eq hn] at hcd
        exact Or.inr ⟨_, hcd, (hdown _ hcd).mpr ⟨x, y, k, l, hxy, hk, hl, hbox⟩⟩

omit [Scalar α] in
theorem Lockstep.opposite (hR : t.Lockstep R) (hab : R a b) (hy : t.Reaches b y) :
    ∃ x, t.Opposite a b x y := by
  induction hy using Relation.ReflTransGen.head_induction_on generalizing a with
  | refl => exact ⟨a, .here a y⟩
  | @head b d hd _ ih =>
    obtain ⟨-, -, hlists⟩ := hR a b hab
    obtain ⟨i, hi, rfl⟩ := List.mem_iff_getElem.mp hd
    have hi' : i < (t.childrenOf a).length := hlists.length_eq ▸ hi
    have hcd : ((t.childrenOf a)[i], (t.childrenOf b)[i]) ∈
        (t.childrenOf a).zip (t.childrenOf b) :=
      List.mem_iff_getElem.mpr ⟨i, by simp [hi, hi'], List.getElem_zip⟩
    obtain ⟨x, hx⟩ := ih (List.forall₂_zip hlists hcd)
    exact ⟨x, .down hcd hx⟩

theorem Beside.plain_laidOut_shape (h : t.Beside s copy) :
    s.SameShape ((s.plain copy).laidOut copy v r) := by
  have hplain : s.SameShape (s.plain copy) :=
    ((sweep_shape (by intros; rfl) _ _ _).trans (sweep_shape (by intros; rfl) _ _ _)).trans
      (primed_shape _ copy)
  obtain ⟨q, hq, hmoves⟩ := laidOut_moves h.plain.ready v r
  rw [← hq]
  exact hplain.trans (hmoves.inside h.plain.sound h.plain.secluded).shape

/-- The copy and the tree that it is compared with are walked in lockstep. -/
theorem layOutPlainCopy_lockstep (ht : t.Sound) (hg : t.Grounded root) {limits : Limits α}
    (hrun : (Edit.layOutPlainCopy root v r limits).apply t = (.ok copy, u)) :
    u.Grounded copy ∧ (∀ x, t.Live x → u.find? x = t.find? x) ∧
      ∃ R, u.Lockstep R ∧ R copy root := by
  obtain ⟨copy', s, R, hcloned, htraced, hcopy, hs, -, hrun'⟩ := Edit.layOutPlainCopy_run ht hg v r
  have hu := hs.plain.laidOut (v := v) (r := r)
  have hshape := hs.plain_laidOut_shape (v := v) (r := r)
  generalize (s.plain copy').laidOut copy' v r = u' at hrun' hu hshape
  have hsame := (hrun' limits).symm.trans hrun
  obtain rfl : copy' = copy := Except.ok.inj (congrArg Prod.fst hsame)
  obtain rfl : u' = u := congrArg Prod.snd hsame
  refine ⟨hu.grounded, hu.old, fun x y => R y x, fun x y hxy => ?_, hcopy⟩
  obtain ⟨m, o, ds, hm, hx, hds⟩ := htraced.copy hxy
  refine ⟨(hshape.live x).mpr ⟨_, hx⟩, Live.congr ⟨m, hm⟩ (hu.old y ⟨m, hm⟩), ?_⟩
  rw [hshape.children, childrenOf_eq hx, hcloned.childrenOf ⟨m, hm⟩, childrenOf_eq hm]
  exact hds.flip

/-- A layout that is compared ends as its own pass left the tree, with the figures of that pass:
the same nodes are there, and no field of theirs differs but a note on the root. The note says
whether somewhere the node of the copy and the node in its place got different boxes. -/
theorem comparison_leaves_note (ht : t.Arena) (hh : t.Hookless) (ha : t.Acyclic)
    (hn : t.find? root = some n) (hcompares : t.compares root n v = true) :
    let w := (t.primed root).laidOut root v (rootRequest n.resolveSize v)
    ∃ w' copy u s m differs,
      (∀ spare, (Edit.logTree n.config root spare).apply w = (.ok ⟨⟩, w')) ∧
      (∀ limits, (Edit.layOutPlainCopy root v (rootRequest n.resolveSize v) limits).apply w' =
        (.ok copy, u)) ∧
      (∀ limits, (Edit.calculateLayout root v limits).apply t =
        (.ok ((t.primed root).runPass root v (rootRequest n.resolveSize v) .initial).stats, s)) ∧
      (∀ x, s.Live x ↔ w.Live x) ∧ (∀ x, x ≠ root → s.find? x = w.find? x) ∧
      w.find? root = some m ∧ s.find? root =
        some { m with geometry := { m.geometry with legacyStretchMatters := differs } } ∧
      (∀ x, w.Live x → u.find? x = w.find? x) ∧
      (∀ y, w.Reaches root y → ∃ x, u.Opposite copy root x y) ∧
      (differs = true ↔ u.Differs copy root) := by
  have hs : t.Sound := ⟨ht, hh⟩
  obtain ⟨w', hlog, hlogged, hw', hgw', hrun⟩ :=
    Edit.calculateLayout_cases hs (ha.grounded ht ⟨n, hn⟩) hn v
  generalize (t.primed root).laidOut root v (rootRequest n.resolveSize v) = w at hlog hlogged ⊢
  obtain ⟨copy, u, s, hcopy, hcompare, -, hnoted⟩ :=
    Edit.compareLegacyStretch_run hw' hgw' v (rootRequest n.resolveSize v)
  obtain ⟨hgu, hold, R, hR, hroot⟩ := layOutPlainCopy_lockstep hw' hgw' (hcopy .initial)
  have hdiffers := hR.sameBoxes_eq_false hroot hgu.unfold_slots (Nat.le_succ _)
  obtain ⟨m, hm⟩ := hgw'.live
  have hlive : ∀ x, w.Live x ↔ w'.Live x := fun x => (hlogged.shape.live x).symm
  refine ⟨w', copy, u, s, m, !u.sameBoxes (u.slots.size + 1) copy root, hlog, hcopy,
    fun limits => ?_, fun x => ?_, fun x hx => ?_, ?_, ?_, fun x hx => ?_, fun y hy => ?_, ?_⟩
  · rw [hrun, hcompares, if_pos rfl, hcompare]
  · rw [hlive, Live, hnoted]
    exact live_update
  · rw [hnoted, noted, find?_update_other _ _ hx, hlogged.find?]
  · rw [← hlogged.find?, hm]
  · rw [hnoted, noted, find?_update_self, hm]
    rfl
  · rw [hold x ((hlive x).mp hx), hlogged.find?]
  · refine hR.opposite hroot ((reaches_agree (P := w'.Live) (fun x hx => ?_)
      (fun _ _ _ hc => hw'.arena.accounted.live hc) hgw'.live).mpr ?_)
    · rw [childrenOf, hold x hx, childrenOf]
    · rwa [hlogged.shape.reaches]
  · rw [← hdiffers, Bool.not_eq_true']

/-- The root of `stretching` with an upper bound, up to which its child grows. -/
def bounded : Tree Float32 :=
  stretching.after [.updateStyle ⟨1, 1⟩ fun s => { s with maxSize := ⟨.undefined, .points 200⟩ }]

theorem bounded_sound : bounded.Sound :=
  Reachable.sound (Reachable.after (Reachable.after (.empty rfl)
    (by simp [Call.Hookless, Call.Returns])) (by simp [Call.Hookless, Call.Returns]))

/-- Without the stretching the child of this root does not grow. -/
theorem comparison_leaves_note_bounded :
    let v : Viewport Float32 := ⟨.known 100, .undefined, .ltr⟩
    bounded.Arena ∧ bounded.Hookless ∧ bounded.Acyclic ∧
    ∃ n w copy u, bounded.find? ⟨1, 1⟩ = some n ∧ bounded.compares ⟨1, 1⟩ n v = true ∧
      (Edit.logTree n.config ⟨1, 1⟩ 0).apply ((bounded.primed ⟨1, 1⟩).laidOut ⟨1, 1⟩ v
        (rootRequest n.resolveSize v)) = (.ok ⟨⟩, w) ∧
      (Edit.layOutPlainCopy ⟨1, 1⟩ v (rootRequest n.resolveSize v) .initial).apply w =
        (.ok copy, u) ∧ u.Differs copy ⟨1, 1⟩ := by
  intro v
  have hs := bounded_sound
  have hacyclic : bounded.Acyclic := acyclic_of_unfold (h := 2) (by decide +kernel)
  have hcompares : (bounded.find? ⟨1, 1⟩).all (bounded.compares ⟨1, 1⟩ · v) = true := by
    decide +kernel
  have hnote : (((Edit.calculateLayout ⟨1, 1⟩ v).apply bounded).2.find? ⟨1, 1⟩).map
      (·.geometry.legacyStretchMatters) = some true := by
    decide +kernel
  obtain ⟨n, hn⟩ : bounded.Live ⟨1, 1⟩ := Option.isSome_iff_exists.mp (by decide +kernel)
  rw [hn] at hcompares
  obtain ⟨w, copy, u, s, m, differs, hlog, hcopy, hrun, -, -, -, hroot, -, -, hdiffers⟩ :=
    comparison_leaves_note hs.arena hs.hookless hacyclic hn hcompares
  rw [hrun, hroot] at hnote
  exact ⟨hs.arena, hs.hookless, hacyclic, n, w, copy, u, hn, hcompares, hlog 0,
    hcopy .initial, hdiffers.mp (Option.some.inj hnote)⟩

end Tree

end Flexbox
