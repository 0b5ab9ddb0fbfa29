import Flexbox.Proofs.Generations
import Flexbox.Proofs.Limits

namespace Flexbox

variable {α : Type} [Scalar α]

/-- A line in the log: the host is told something and asked for nothing. -/
def Event.IsLog {α : Type} : Event α → Prop
  | .log _ _ _ => True
  | _ => False

namespace Tree

variable {S : Set NodeId} {t s u : Tree α} {root id a b : NodeId} {h : Nat}
  {v : Viewport α} {r : Request α} {f : Node α → Node α} {p : Pass α}

omit [Scalar α] in
theorem nextGeneration_sound (ht : t.Sound) : t.nextGeneration.Sound :=
  ht.congr ⟨ht.arena.tidy.empty, ht.arena.tidy.nodup⟩ (fun _ => rfl) rfl

omit [Scalar α] in
theorem nextGeneration_grounded : t.nextGeneration.Grounded id ↔ t.Grounded id :=
  SameShape.grounded ⟨fun _ => Iff.rfl, rfl⟩

def primed (t : Tree α) (root : NodeId) : Tree α :=
  (t.update root Node.resolveSize).nextGeneration

theorem Sound.primed (ht : t.Sound) (root : NodeId) : (t.primed root).Sound :=
  nextGeneration_sound (ht.update root)

theorem primed_shape (t : Tree α) (root : NodeId) : t.SameShape (t.primed root) :=
  SameShape.trans (SameShape.update t root (f := Node.resolveSize) fun _ => rfl)
    ⟨fun _ => Iff.rfl, rfl⟩

theorem primed_grounded : (t.primed root).Grounded id ↔ t.Grounded id :=
  (primed_shape t root).grounded

theorem snap_spare (hg : t.Grounded root) (scale : α) (spare : Nat) :
    t.snap scale root spare = t.snap scale root 0 := by
  unfold snap
  split
  · rfl
  · have hle : ∀ k, t.slots.size ≤ t.slots.size + 1 + k := fun k => by omega
    exact sweep_fuel (by intros; rfl) hg.unfold_slots (hle spare) (hle 0) _

omit [Scalar α] in
theorem clean_spare (hg : t.Grounded root) (spare : Nat) : t.clean root spare = t.clean root 0 :=
  sweepAll_spare (by intros; rfl) hg spare

theorem sameBoxes_fuel (hu : (t.unfold h a).isSome) {fuel fuel' : Nat} (hf : h ≤ fuel)
    (hf' : h ≤ fuel') (b : NodeId) : t.sameBoxes fuel a b = t.sameBoxes fuel' a b := by
  induction h generalizing a b fuel fuel' with
  | zero => cases hu
  | succ h ih =>
    obtain ⟨fuel, rfl⟩ := exists_pred hf
    obtain ⟨fuel', rfl⟩ := exists_pred hf'
    obtain ⟨⟨n, hn⟩, hall⟩ := unfold_isSome.mp hu
    rw [childrenOf_eq hn] at hall
    simp only [sameBoxes, hn]
    cases t.find? b with
    | none => rfl
    | some m =>
      dsimp only
      congr 1
      rw [Bool.eq_iff_iff, List.all_eq_true, List.all_eq_true]
      refine forall_congr' fun pair => forall_congr' fun hp => ?_
      rw [ih (hall pair.1 (List.of_mem_zip hp).1) (show h ≤ fuel by omega)
        (show h ≤ fuel' by omega)]

theorem lines_run (options : DumpOptions) (hu : (t.unfold h id).isSome) (level : Nat) :
    ∃ text, ∀ fuel, h ≤ fuel → Dump.lines t options fuel level id = .ok text := by
  induction h generalizing id level with
  | zero => cases hu
  | succ h ih =>
    obtain ⟨⟨n, hn⟩, hall⟩ := unfold_isSome.mp hu
    rw [childrenOf_eq hn] at hall
    have hchildren : ∃ texts, ∀ fuel, h ≤ fuel → (n.children.mapM fun child => do
        return "\n" ++ (← Dump.lines t options fuel (level + 1) child) :
        Except Fault (List String)) = .ok texts := by
      generalize n.children = cs at hall
      induction cs with
      | nil => exact ⟨[], fun _ _ => rfl⟩
      | cons c cs ihc =>
        obtain ⟨text, htext⟩ := ih (hall c (by simp)) (level + 1)
        obtain ⟨texts, htexts⟩ := ihc fun d hd => hall d (by simp [hd])
        refine ⟨("\n" ++ text) :: texts, fun fuel hf => ?_⟩
        rw [List.mapM_cons, htext fuel hf]
        simp only [bind, Except.bind, pure, Except.pure] at htexts ⊢
        rw [htexts fuel hf]
    obtain ⟨texts, htexts⟩ := hchildren
    let inner := if options.children then texts else []
    refine ⟨Dump.indent level ++ Dump.opening options n ++ String.join inner ++
      (if inner.isEmpty then "" else "\n" ++ Dump.indent level) ++ "</div>", fun fuel hf => ?_⟩
    obtain ⟨fuel, rfl⟩ := exists_pred hf
    have htexts := htexts fuel (by omega)
    simp only [bind, Except.bind, pure, Except.pure] at htexts
    simp only [Dump.lines, hn, bind, Except.bind, pure, Except.pure, inner]
    split
    · rw [htexts]
    · rfl

theorem dump_run (options : DumpOptions) (hg : t.Grounded id) :
    ∃ text, ∀ spare, t.dump id options spare = .ok text := by
  obtain ⟨text, htext⟩ := lines_run options hg.unfold_slots 0
  exact ⟨text, fun spare => htext _ (by omega)⟩

theorem snap_moves (h : Pass.Ready S p root) (scale : α) (spare : Nat) :
    Pass.Moves S p { p with tree := p.tree.snap scale root spare } := by
  unfold snap
  split
  · exact Pass.Moves.refl p
  · exact Pass.sweep_moves (by intros; rfl) h _ _

theorem runPass_moves {limits : Limits α} (h : Pass.Ready S (Pass.start t limits) root) :
    Pass.Moves S (Pass.start t limits) (t.runPass root v r limits) := by
  unfold runPass
  dsimp only
  have hvisit := Pass.visit_moves (Pass.start t limits).depth r h.admitted
  generalize Pass.visit (Pass.start t limits).depth root r (Pass.start t limits) = answer
    at hvisit ⊢
  obtain ⟨computed, p⟩ := answer
  refine Pass.ite_moves (hvisit.trans ?_) hvisit
  have hplace := Pass.redraw_moves (p := p) h.mem fun n =>
    n.placed n.geometry.direction v.width v.height v.width
  exact hplace.trans (snap_moves (hplace.ready (hvisit.ready h)) _ _)

theorem runPass_within (h : Pass.Ready S (Pass.start t .initial) root) (hg : t.Grounded root)
    (limits : Limits α) :
    t.runPass root v r limits = (t.runPass root v r .initial).within limits := by
  have hfit : Pass.Fit t.slots.size (Pass.start t .initial) root :=
    ⟨h.sound, h.live, hg.unfold_slots⟩
  have hsame := Pass.visit_within (l := limits) hfit
    (Pass.slots_le_depth (Pass.start t .initial))
    (Pass.slots_le_depth ((Pass.start t .initial).within limits)) r
  have hvisit := Pass.visit_moves (Pass.start t .initial).depth r h.admitted
  unfold runPass
  dsimp only
  have hstart : Pass.start t limits = (Pass.start t .initial).within limits := rfl
  rw [hstart, hsame]
  generalize Pass.visit _ root r _ = answer at hvisit ⊢
  obtain ⟨computed, p⟩ := answer
  dsimp only [Pass.within₂] at hvisit ⊢
  rw [Pass.node_within (hvisit.live h.sound h.live)]
  have hplace := hvisit.trans (Pass.redraw_moves h.mem fun n =>
    n.placed n.geometry.direction v.width v.height v.width)
  refine Pass.ite_within ?_ rfl
  rw [Pass.redraw_within, Pass.within_tree, snap_spare ⟨_, (hplace.fit hfit).deep⟩]
  rfl

/-- The visit to `root` that a pass starts with. -/
abbrev rootVisit (t : Tree α) (root : NodeId) (r : Request α) : Bool × Pass α :=
  Pass.visit (t.slots.size + 1) root r (Pass.start t .initial)

def laidOut (t : Tree α) (root : NodeId) (v : Viewport α) (r : Request α) : Tree α :=
  (t.runPass root v r .initial).tree.clean root 0

theorem laidOut_moves (h : Pass.Ready S (Pass.start t .initial) root) (v : Viewport α)
    (r : Request α) :
    ∃ q : Pass α, q.tree = t.laidOut root v r ∧ Pass.Moves S (Pass.start t .initial) q :=
  ⟨{ t.runPass root v r .initial with tree := t.laidOut root v r }, rfl,
    (runPass_moves h).trans (Pass.sweep_moves (by intros; rfl) ((runPass_moves h).ready h) _ _)⟩

theorem laidOut_eq (h : Pass.Ready S (Pass.start t .initial) root) (hg : t.Grounded root)
    (limits : Limits α) :
    (t.runPass root v r limits).tree.clean root limits.spare = t.laidOut root v r := by
  have hfit : Pass.Fit t.slots.size (Pass.start t .initial) root :=
    ⟨h.sound, h.live, hg.unfold_slots⟩
  rw [runPass_within h hg, Pass.within_tree]
  exact clean_spare ⟨_, ((runPass_moves h).fit hfit).deep⟩ _

omit [Scalar α] in
theorem Sound.ready_univ (ht : t.Sound) (hl : t.Live root) (limits : Limits α) :
    Pass.Ready Set.univ (Pass.start t limits) root :=
  .univ ht hl

theorem laidOut_sound (ht : t.Sound) (hl : t.Live root) : (t.laidOut root v r).Sound := by
  obtain ⟨q, hq, hmoves⟩ := laidOut_moves (ht.ready_univ hl .initial) v r
  rw [← hq]
  exact hmoves.sound ht

theorem laidOut_grounded (ht : t.Sound) (hg : t.Grounded root) :
    (t.laidOut root v r).Grounded root := by
  obtain ⟨q, hq, hmoves⟩ := laidOut_moves (ht.ready_univ hg.live .initial) v r
  rw [← hq]
  exact hmoves.grounded ht hg

theorem laidOut_generation (h : Pass.Ready S (Pass.start t .initial) root) (v : Viewport α)
    (r : Request α) : (t.laidOut root v r).generation = t.generation := by
  obtain ⟨q, hq, hmoves⟩ := laidOut_moves h v r
  rw [← hq]
  exact hmoves.generation.2

/-- `s` is `t` with a detached tree below `copy` beside it, and with nothing else. -/
structure Beside (t s : Tree α) (copy : NodeId) : Prop where
  sound : s.Sound
  secluded : s.Secluded {x | ¬ t.Live x}
  fresh : ¬ t.Live copy
  live : s.Live copy
  detached : s.Detached copy
  grounded : s.Grounded copy
  old : ∀ x, t.Live x → s.find? x = t.find? x
  whole : ∀ x, s.Live x → t.Live x ∨ s.Reaches copy x

section

omit [Scalar α]

theorem Cloned.beside (h : t.Cloned s a) (ht : t.Sound) (hg : s.Grounded a) : t.Beside s a :=
  ⟨h.sound ht, h.secluded ht.ordered, h.fresh, h.live, h.detached ht.ordered, hg, h.old,
    h.reached⟩

theorem Beside.inside (h : t.Beside s a) (hi : Inside {x | ¬ t.Live x} s u) : t.Beside u a :=
  ⟨hi.sound, hi.secluded, h.fresh, (hi.shape.live a).mpr h.live,
    ⟨by rw [hi.owners, h.detached.1], fun q => by rw [hi.shape.children]; exact h.detached.2 q⟩,
    hi.shape.grounded.mpr h.grounded, fun x hx => by rw [hi.outside x (by simpa), h.old x hx],
    fun x hx => by rw [hi.shape.reaches]; exact h.whole x ((hi.shape.live x).mp hx)⟩

theorem Beside.sweepAll (h : t.Beside s a)
    (hf : ∀ n, SameLinks n (f n) := by exact fun _ => ⟨rfl, rfl, rfl, Or.inl, fun hk => hk⟩) :
    t.Beside (s.sweepAll f a 0) a :=
  h.inside (Inside.sweep h.sound h.secluded h.fresh (fun _ => hf) _ ())

theorem Beside.next (h : t.Beside s a) : t.Beside s.nextGeneration a :=
  ⟨nextGeneration_sound h.sound, h.secluded.congr (fun _ => Iff.rfl) rfl rfl, h.fresh, h.live,
    h.detached, nextGeneration_grounded.mpr h.grounded, h.old, h.whole⟩

end

theorem Beside.ready (h : t.Beside s a) :
    Pass.Ready {x | ¬ t.Live x} (Pass.start s .initial) a :=
  ⟨h.sound, ⟨h.secluded.closed, h.secluded.unused⟩, h.fresh, h.live⟩

theorem Beside.laidOut (h : t.Beside s a) : t.Beside (s.laidOut a v r) a := by
  obtain ⟨q, hq, hmoves⟩ := laidOut_moves h.ready v r
  rw [← hq]
  exact h.inside (hmoves.inside h.sound h.secluded)

/-- A deep copy as its pass finds it: without legacy stretching, and dirty all through. -/
def plain (t : Tree α) (copy : NodeId) : Tree α :=
  ((t.withoutLegacyStretch copy 0).sweepAll Node.soiled copy 0).primed copy

theorem Beside.plain (h : t.Beside s a) : t.Beside (s.plain a) a := by
  have hplain : t.Beside (s.withoutLegacyStretch a 0) a := h.sweepAll
  have hsoiled : t.Beside ((s.withoutLegacyStretch a 0).sweepAll Node.soiled a 0) a :=
    hplain.sweepAll
  exact (hsoiled.inside (Inside.update hsoiled.sound hsoiled.secluded hsoiled.fresh
    (f := Node.resolveSize) fun _ => ⟨rfl, rfl, rfl, Or.inl, fun hk => hk⟩)).next

theorem plain_generation (t : Tree α) (copy : NodeId) :
    (t.plain copy).generation = t.generation + 1 := by
  have hkeep := (generation_elementary (α := α) (· = t.generation)).toElementary
  exact congrArg (· + 1) (hkeep.sweepAll _ copy 0 (hkeep.sweepAll _ copy 0 rfl))

/-- The root with a note on whether legacy stretching mattered. -/
def noted (t : Tree α) (root : NodeId) (differs : Bool) : Tree α :=
  t.update root fun n => { n with geometry := { n.geometry with legacyStretchMatters := differs } }

omit [Scalar α] in
/-- `s` is `t` with at most a line in the log more. -/
def Logged (t s : Tree α) : Prop :=
  s = t ∨ ∃ e : Event α, e.IsLog ∧ s = t.tell e

section

omit [Scalar α]

theorem Logged.find? (h : t.Logged s) (x : NodeId) : s.find? x = t.find? x := by
  obtain rfl | ⟨e, -, rfl⟩ := h <;> rfl

theorem Logged.generation (h : t.Logged s) : s.generation = t.generation := by
  obtain rfl | ⟨e, -, rfl⟩ := h <;> rfl

theorem Logged.journal (h : t.Logged s) :
    ∃ told, s.journal = told ++ t.journal ∧ ∀ e ∈ told, e.IsLog := by
  obtain rfl | ⟨e, he, rfl⟩ := h
  · exact ⟨[], rfl, by simp⟩
  · exact ⟨[e], rfl, by simpa using he⟩

theorem Logged.sound (h : t.Logged s) (ht : t.Sound) : s.Sound := by
  obtain rfl | ⟨e, -, rfl⟩ := h
  · exact ht
  · exact ht.tell e

theorem Logged.shape (h : t.Logged s) : t.SameShape s := SameShape.of_find? h.find?

end

/-- A layout of `root` goes on to compare itself with one without legacy stretching. -/
def compares (t : Tree α) (root : NodeId) (n : Node α) (v : Viewport α) : Bool :=
  n.config.diffLegacyStretch &&
    (((t.primed root).laidOut root v (rootRequest n.resolveSize v)).find? root).any
      (·.geometry.usedLegacyStretch)

/-- What is left of a layout once its pass is over: what the pass left behind, with at most a note
on the root. -/
def Settled (w s : Tree α) (root : NodeId) : Prop :=
  (∀ x, s.find? x = w.find? x) ∨ ∃ differs, ∀ x, s.find? x = (w.noted root differs).find? x

end Tree

namespace Edit

open Tree

variable {t : Tree α} {root : NodeId} {n : Node α}

omit [Scalar α] in
theorem propagateDirtyDown_run {copy : NodeId} (hg : t.Grounded copy) (spare : Nat) :
    (propagateDirtyDown copy spare).apply t = (.ok ⟨⟩, t.sweepAll Node.soiled copy 0) := by
  rw [propagateDirtyDown, apply_bind, apply_get]
  change (soilSubtree (t.slots.size + 1 + spare) copy).apply t = _
  rw [soilSubtree_run hg.unfold_slots (by omega)]
  exact congrArg _ (sweepAll_spare (by intros; rfl) hg spare)

section

variable (ht : t.Sound) (hg : t.Grounded root)

include ht hg

theorem layOutPlainCopy_run (v : Viewport α) (r : Request α) :
    ∃ copy s R, t.Cloned s copy ∧ Traced t t s [root] R ∧ R root copy ∧ t.Beside s copy ∧
      s.generation = t.generation ∧ ∀ limits, (layOutPlainCopy root v r limits).apply t =
        (.ok copy, (s.plain copy).laidOut copy v r) := by
  obtain ⟨copy, s, R, hclone, hcloned, htraced, hcopy⟩ := deepClone_run ht.ordered hg
  have hs := hcloned.beside ht ⟨t.slots.size, by rw [htraced.unfold hcopy]; exact hg.unfold_slots⟩
  have hgeneration : s.generation = t.generation := by
    rw [← deepClone_generation t root 0, hclone]
  refine ⟨copy, s, R, hcloned, htraced, hcopy, hs, hgeneration, fun limits => ?_⟩
  have hplain : ∀ spare, s.withoutLegacyStretch copy spare = s.withoutLegacyStretch copy 0 :=
    sweepAll_spare (by intros; rfl) hs.grounded
  have hu : t.Beside (s.withoutLegacyStretch copy 0) copy := hs.sweepAll
  have hsoil := propagateDirtyDown_run hu.grounded
  obtain ⟨n, hn⟩ : ((s.withoutLegacyStretch copy 0).sweepAll Node.soiled copy 0).Live copy :=
    (hu.sweepAll (f := Node.soiled)).live
  rw [← laidOut_eq hs.plain.ready hs.plain.grounded limits]
  simp only [layOutPlainCopy, apply_bind, hclone, apply_modify, hplain, hsoil, apply_change hn,
    apply_pure]
  rfl

theorem compareLegacyStretch_run (v : Viewport α) (r : Request α) :
    ∃ copy u s, (∀ limits, (layOutPlainCopy root v r limits).apply t = (.ok copy, u)) ∧
      (∀ limits, (compareLegacyStretch root v r limits).apply t = (.ok ⟨⟩, s)) ∧ s.Sound ∧
      ∀ x, s.find? x =
        (t.noted root !u.sameBoxes (u.slots.size + 1) copy root).find? x := by
  obtain ⟨copy, s, R, -, -, -, hs, -, hcopy⟩ := layOutPlainCopy_run ht hg v r
  have hu := hs.plain.laidOut (v := v) (r := r)
  generalize (s.plain copy).laidOut copy v r = u at hcopy hu
  refine ⟨copy, u, ?_⟩
  have hboxes : ∀ spare, u.sameBoxes (u.slots.size + 1 + spare) copy root =
      u.sameBoxes (u.slots.size + 1) copy root := fun spare =>
    sameBoxes_fuel hu.grounded.unfold_slots (by omega) (by omega) root
  generalize u.sameBoxes (u.slots.size + 1) copy root = same at hboxes ⊢
  obtain ⟨n, hn⟩ : u.Live root := by
    obtain ⟨n, hn⟩ := hg.live
    exact ⟨n, by rw [hu.old root ⟨n, hn⟩, hn]⟩
  have hshape : u.SameShape (u.noted root !same) := SameShape.update u root fun _ => rfl
  have howner : (u.noted root !same).ownerOf = u.ownerOf := ownerOf_update (by intros; rfl)
  have hnoted : (u.noted root !same).Sound := hu.sound.update root
  obtain ⟨s, hfree, hout, hgone⟩ := freeRecursive_run
    ((hu.secluded.congr hshape.live hshape.children howner).neat hnoted.arena) hu.fresh
    ⟨by rw [howner]; exact hu.detached.1, fun q => by rw [hshape.children]; exact hu.detached.2 q⟩
    (hshape.grounded.mpr hu.grounded)
  have hs : s.Sound := by
    have hkept := freeRecursiveWith_sound hnoted (fun _ => []) copy 0
    rwa [← freeRecursive, hfree 0] at hkept
  refine ⟨s, hcopy, fun limits => ?_, hs, fun x => ?_⟩
  · simp only [compareLegacyStretch, apply_bind, hcopy, apply_get, hboxes, apply_change hn]
    exact hfree limits.spare
  · by_cases hx : t.Live x
    · rw [hout x (by simpa), noted, find?_update, noted, find?_update, hu.old x hx]
    · have hnone : ¬ s.Live x := fun hl => by
        obtain ⟨hl, hfar⟩ := hgone x hl
        rw [hshape.reaches] at hfar
        exact (hu.whole x ((hshape.live x).mp hl)).elim hx hfar
      have hnoted : ¬ (t.noted root !same).Live x := fun hl => hx (live_update.mp hl)
      rw [not_live.mp hnone, not_live.mp hnoted]

omit ht in
theorem logTree_run (config : Config α) :
    ∃ s, t.Logged s ∧ ∀ spare, (logTree config root spare).apply t = (.ok ⟨⟩, s) := by
  unfold logTree
  split
  · obtain ⟨text, htext⟩ := dump_run {} hg
    refine ⟨t.log config .debug true text, ?_, fun spare => ?_⟩
    · unfold Tree.log
      split
      · exact Or.inr ⟨.log _ _ _, trivial, rfl⟩
      · exact Or.inl rfl
    · simp only [apply_bind, apply_get, htext, apply_modify]
  · exact ⟨t, Or.inl rfl, fun _ => rfl⟩

theorem apply_calculateLayout (hn : t.find? root = some n) (v : Viewport α) (limits : Limits α) :
    (calculateLayout root v limits).apply t = (do
      set ((t.primed root).laidOut root v (rootRequest n.resolveSize v))
      logTree n.config root limits.spare
      if n.config.diffLegacyStretch && (← node root).geometry.usedLegacyStretch then
        compareLegacyStretch root v (rootRequest n.resolveSize v) limits
      return ((t.primed root).runPass root v (rootRequest n.resolveSize v) .initial).stats :
      Edit α Stats).apply t := by
  have hn₀ : (t.update root Node.resolveSize).find? root = some n.resolveSize := by
    rw [find?_update_self, hn]
    rfl
  have hg₀ : (t.primed root).Grounded root := primed_grounded.mpr hg
  have hready := (ht.primed root).ready_univ hg₀.live .initial
  have hstats : ((t.primed root).runPass root v (rootRequest n.resolveSize v) limits).stats =
      ((t.primed root).runPass root v (rootRequest n.resolveSize v) .initial).stats := by
    rw [runPass_within hready hg₀ limits]
    rfl
  rw [← laidOut_eq hready hg₀ limits, ← hstats]
  simp only [calculateLayout, apply_bind, apply_change hn, apply_node hn₀, apply_get]
  rfl

/-- Once its pass is over, a layout logs the tree and may compare it. -/
theorem calculateLayout_cases (hn : t.find? root = some n) (v : Viewport α) :
    ∃ w, (∀ spare, (logTree n.config root spare).apply
        ((t.primed root).laidOut root v (rootRequest n.resolveSize v)) = (.ok ⟨⟩, w)) ∧
      ((t.primed root).laidOut root v (rootRequest n.resolveSize v)).Logged w ∧ w.Sound ∧
      w.Grounded root ∧ ∀ limits, (calculateLayout root v limits).apply t =
        (.ok ((t.primed root).runPass root v (rootRequest n.resolveSize v) .initial).stats,
          if t.compares root n v then
            ((compareLegacyStretch root v (rootRequest n.resolveSize v) limits).apply w).2
          else w) := by
  have hrun := apply_calculateLayout ht hg hn v
  have hg₀ : (t.primed root).Grounded root := primed_grounded.mpr hg
  have hgw := laidOut_grounded (v := v) (r := rootRequest n.resolveSize v) (ht.primed root) hg₀
  have hw := laidOut_sound (v := v) (r := rootRequest n.resolveSize v) (ht.primed root) hg₀.live
  unfold compares
  generalize (t.primed root).laidOut root v (rootRequest n.resolveSize v) = w at hrun hgw hw ⊢
  obtain ⟨w', hlogged, hlog⟩ := logTree_run hgw n.config
  have hgw' : w'.Grounded root := hlogged.shape.grounded.mpr hgw
  refine ⟨w', hlog, hlogged, hlogged.sound hw, hgw', fun limits => ?_⟩
  obtain ⟨m, hm⟩ := hgw'.live
  obtain ⟨-, -, s, -, hcompare, -⟩ :=
    compareLegacyStretch_run (hlogged.sound hw) hgw' v (rootRequest n.resolveSize v)
  rw [hrun, ← hlogged.find?, hm]
  simp only [apply_bind, apply_set, hlog, apply_node hm, Option.any_some]
  split
  · simp only [apply_bind, hcompare, apply_pure]
  · rfl

theorem calculateLayout_run (hn : t.find? root = some n) (v : Viewport α) :
    ∃ s, (∀ limits, (calculateLayout root v limits).apply t =
        (.ok ((t.primed root).runPass root v (rootRequest n.resolveSize v) .initial).stats, s)) ∧
      s.Sound ∧ Settled ((t.primed root).laidOut root v (rootRequest n.resolveSize v)) s root := by
  obtain ⟨w, -, hlogged, hw, hgw, hrun⟩ := calculateLayout_cases ht hg hn v
  cases hcompares : t.compares root n v with
  | false =>
    simp only [hcompares] at hrun
    exact ⟨w, hrun, hw, Or.inl hlogged.find?⟩
  | true =>
    obtain ⟨copy, u, s, -, hcompare, hs, hnoted⟩ :=
      compareLegacyStretch_run hw hgw v (rootRequest n.resolveSize v)
    refine ⟨s, fun limits => ?_, hs,
      Or.inr ⟨!u.sameBoxes (u.slots.size + 1) copy root, fun x => ?_⟩⟩
    · rw [hrun, hcompares, if_pos rfl, hcompare]
    · rw [hnoted x, noted, find?_update, noted, find?_update, hlogged.find?]

end

theorem keeps_logTree {P : Tree α → Prop} (hP : ∀ {t}, P t → ∀ e : Event α, e.IsLog → P (t.tell e))
    (config : Config α) (root : NodeId) (spare : Nat) (ht : P t) :
    P ((logTree config root spare).apply t).2 := by
  unfold logTree
  split
  · refine final_bind apply_get ?_
    split
    · rw [apply_modify]
      unfold Tree.log
      split
      · exact hP ht _ trivial
      · exact ht
    · exact ht
  · exact ht

theorem compareLegacyStretch_generation (ht : t.Sound) (hg : t.Grounded root) (v : Viewport α)
    (r : Request α) (limits : Limits α) :
    ((compareLegacyStretch root v r limits).apply t).2.generation = t.generation + 1 := by
  obtain ⟨copy, s, R, -, -, -, hs, hgeneration, hrun⟩ := layOutPlainCopy_run ht hg v r
  have hlaid : ((s.plain copy).laidOut copy v r).generation = t.generation + 1 := by
    rw [laidOut_generation hs.plain.ready, plain_generation, hgeneration]
  generalize (s.plain copy).laidOut copy v r = w at hrun hlaid
  let P : Tree α → Prop := fun s => s.generation = t.generation + 1
  have hkeep : Thorough P := generation_elementary (· = t.generation + 1)
  change P _
  refine final_bind (hrun limits) (final_bind apply_get ?_)
  exact final_seq (keeps_change hkeep.toElementary root _ hlaid) fun _ u hu =>
    final_bind apply_get ((thorough_outlasts hkeep).freeSubtree _ _ copy hu)

theorem calculateLayout_generation (ht : t.Sound) (hg : t.Grounded root)
    (hn : t.find? root = some n) (v : Viewport α) (limits : Limits α) :
    ((calculateLayout root v limits).apply t).2.generation = t.generation + 1 ∨
      ((calculateLayout root v limits).apply t).2.generation = t.generation + 1 + 1 := by
  have hg₀ : (t.primed root).Grounded root := primed_grounded.mpr hg
  have hgen : ((t.primed root).laidOut root v (rootRequest n.resolveSize v)).generation =
      t.generation + 1 := laidOut_generation ((ht.primed root).ready_univ hg₀.live .initial) v _
  obtain ⟨w, -, hlogged, hw, hgw, hrun⟩ := calculateLayout_cases ht hg hn v
  have hgen' : w.generation = t.generation + 1 := hlogged.generation.trans hgen
  rw [hrun]
  split
  · exact Or.inr ((compareLegacyStretch_generation hw hgw v _ limits).trans (by rw [hgen']))
  · exact Or.inl hgen'

end Edit

end Flexbox
