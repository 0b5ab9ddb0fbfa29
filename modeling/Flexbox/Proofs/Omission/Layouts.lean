import Flexbox.Proofs.Omission.Visits
import Flexbox.Proofs.Sizing.Fixtures

namespace Flexbox

variable {α : Type} [Scalar α]

namespace Pass

variable {b p q : Pass α} {S H : Set NodeId} {h x : NodeId}

section Sweeps

variable {γ : Type} {change : γ → Node α → Node α} {down : γ → Node α → γ}

def swept (p : Pass α) (change : γ → Node α → Node α) (down : γ → Node α → γ) (fuel : Nat) (a : γ)
    (x : NodeId) : Pass α :=
  { p with tree := p.tree.sweep change down fuel a x }

omit [Scalar α] in
theorem swept_succ (hx : p.tree.Live x) (fuel : Nat) (a : γ) :
    p.swept change down (fuel + 1) a x = (p.children x).foldl
      (fun q c => q.swept change down fuel (down a (p.node x)) c) (p.update x (change a)) := by
  have hfold : ∀ (l : List NodeId) (q : Pass α),
      { q with
        tree := l.foldl (fun t c => t.sweep change down fuel (down a (p.node x)) c) q.tree } =
        l.foldl (fun q c => q.swept change down fuel (down a (p.node x)) c) q := by
    intro l
    induction l with
    | nil => exact fun _ => rfl
    | cons c l ih => exact fun q => ih (q.swept change down fuel (down a (p.node x)) c)
  rw [swept, Tree.sweep, node_eq hx]
  exact hfold (p.children x) (p.update x (change a))

/-- A sweep that neither changes nor hands down anything on account of `h`. -/
structure Indifferent (h : NodeId) (change : γ → Node α → Node α) (down : γ → Node α → γ) :
    Prop where
  core : ∀ a n, Node.SameCore n (change a n)
  line : ∀ a n, (change a n).line = n.line
  changed : ∀ a n, change a (Node.without h n) = (change a n).without h
  handed : ∀ a n, down a (Node.without h n) = down a n

section

variable (hi : Indifferent h change down)

include hi

theorem swept_related (fuel : Nat) (a : γ)
    (hclear : ∀ {p q fuel a}, Lists b S h → Omits b S H h p q →
      Omits b S H h (p.swept change down fuel a h) q)
    (hm : Omits b S H h p q) (hx : x ∈ S) :
    Omits b S H h (p.swept change down fuel a x) (q.swept change down fuel a x) := by
  induction fuel generalizing x a p q with
  | zero => exact hm
  | succ fuel ih =>
    have hhanded : down a (q.node x) = down a (p.node x) := by rw [hm.node x hx, hi.handed]
    rw [swept_succ (hm.live x (Or.inl hx)), swept_succ (hm.live' x hx), hhanded,
      hm.children (Or.inl hx), hm.children' hx]
    exact walk_skipping (hm.write hx (hi.core a) (hi.changed a) (hi.line a))
      (fun r r' y hy hne hr => ih _ hr (hm.gap.closed x hx y hy hne))
      fun hh r r' hr => hclear ⟨x, hx, hh⟩ hr

theorem swept_detour (fuel : Nat) (a : γ) (hl : Lists b S h) (hm : Omits b S H h p q) :
    Omits b S H h (p.swept change down fuel a h) q := by
  have hno := hm.gap.unlisted hl
  refine hm.detour hl (fun hself => ?_) fun R hready => sweep_moves hi.core hready fuel a
  exact swept_related hi fuel a (fun hl' => absurd hl' hno) hself (hm.gap.inside hl)

theorem swept_omits (fuel : Nat) (a : γ) (hm : Omits b S H h p q) (hx : x ∈ S) :
    Omits b S H h (p.swept change down fuel a x) (q.swept change down fuel a x) :=
  swept_related hi fuel a (fun hl hm => swept_detour hi _ _ hl hm) hm hx

end

end Sweeps

theorem Omits.slots (hm : Omits b S H h p q) : q.tree.slots.size = p.tree.slots.size := by
  rw [hm.left.size, hm.right.size]

theorem snap_omits (scale : α) (hm : Omits b S H h p q) (hx : x ∈ S) :
    Omits b S H h { p with tree := p.tree.snap scale x 0 }
      { q with tree := q.tree.snap scale x 0 } := by
  unfold Tree.snap
  rw [hm.slots]
  split
  · exact hm
  · refine swept_omits ?_ _ _ hm hx
    exact ⟨fun _ _ => rfl, fun _ _ => rfl, fun _ _ => rfl, fun _ _ => rfl⟩

theorem clean_omits (hm : Omits b S H h p q) (hx : x ∈ S) :
    Omits b S H h { p with tree := p.tree.clean x 0 } { q with tree := q.tree.clean x 0 } := by
  unfold Tree.clean Tree.sweepAll
  rw [hm.slots]
  refine swept_omits ?_ _ _ hm hx
  exact ⟨fun _ _ => rfl, fun _ _ => rfl, fun _ _ => rfl, fun _ _ => rfl⟩

theorem laidOut_omits {t t' : Tree α} (v : Viewport α) (r : Request α)
    (hm : Omits b S H h (start t .initial) (start t' .initial)) (hx : x ∈ S) :
    ∃ p q, Omits b S H h p q ∧ p.tree = t.laidOut x v r ∧ q.tree = t'.laidOut x v r := by
  have hrun : Omits b S H h (t.runPass x v r .initial) (t'.runPass x v r .initial) := by
    obtain ⟨hflag, hend⟩ := visit_omits (r := r) (start t .initial).depth
      (fun hl hm => visit_detour _ hm hl) (fun hl hm => zeroOut_detour _ hm hl) hm hx
    unfold Tree.runPass
    dsimp only
    rw [hm.depth, hflag]
    split
    · rw [hend.same hx Node.config fun _ => rfl]
      exact snap_omits _ (hend.redraw hx fun _ => rfl) hx
    · exact hend
  exact ⟨_, _, clean_omits hrun hx, rfl, rfl⟩

end Pass

namespace Tree

variable {t : Tree α} {root owner h x : NodeId} {n : Node α}

theorem apply_removeChild (ht : t.Sound) (hn : t.find? owner = some n) (hd : n.isDirty = true)
    (hh : h ∈ n.children) (hne : owner ≠ h) (howned : ∀ c ∈ n.children, t.ownerOf c = some owner) :
    (Edit.removeChild owner h).apply t = (.ok ⟨⟩, t.cut owner h) := by
  cases hcs : n.children with
  | nil => simp [hcs] at hh
  | cons first rest =>
    obtain ⟨m, hm⟩ := ht.arena.live hn (c := first) (by simp [hcs])
    have hfirst : m.isOwnedBy owner = true := by
      have howner := howned first (by simp [hcs])
      rw [ownerOf_eq hm] at howner
      simp [Node.isOwnedBy, howner]
    have hn' : (t.cut owner h).find? owner = some { n with children := n.children.erase h } := by
      rw [cut, find?_update_other _ _ hne, find?_update_self, hn]
      rfl
    rw [Edit.removeOwned_run hn hcs hm hfirst hh (ht.arena.live hn hh), soilUpwards_dirty hn' hd]

def look (t : Tree α) (x : NodeId) : Node α := (t.find? x).getD default

/-- The hidden child `h` of `owner` is noticed by nobody: its owner ignores it, and overlooks it
where it is below a child of a row that is aligned to a baseline. -/
structure Unnoticed (t : Tree α) (root owner h : NodeId) : Prop where
  reached : t.Reaches root owner
  listed : h ∈ t.childrenOf owner
  ignored : (t.look owner).Ignores t.look h
  overlooked : ∀ x, t.Reaches root x → (t.look x).Levels t.look (t.childrenOf x) →
    ∀ c ∈ t.childrenOf x, t.Reaches c owner → (t.look owner).Overlooks t.look h

/-- A tree in which `root` reaches a hidden child `h` that nobody notices and nobody shares. The
owner is marked and the child is on no line, as they are before the first layout. -/
structure HasHiddenChild (t : Tree α) (root owner h : NodeId) : Prop extends
    t.Unnoticed root owner h where
  sound : t.Sound
  grounded : t.Grounded root
  unshared : ∀ x c, t.Reaches root x → c ∈ t.childrenOf x → t.ownerOf c = some x
  marked : (t.look owner).isDirty = true
  line : (t.look h).line = 0

omit [Scalar α] in
theorem Grounded.reached (hg : t.Grounded root) (hx : t.Reaches root x) : t.Grounded x := by
  induction hx with
  | refl => exact hg
  | tail _ hc ih => exact ih.child hc

def Remainder (t : Tree α) (root h : NodeId) : Set NodeId :=
  {x | t.Reaches root x ∧ ¬ t.Reaches h x}

/-- The pass that nodes are compared with: over the tree as it is, at the time of the layout. -/
def outset (t : Tree α) : Pass α := { Pass.start t .initial with generation := t.generation + 1 }

theorem children_outset (t : Tree α) : t.outset.children = t.childrenOf := children_start t

section Concealed

variable (hc : t.HasHiddenChild root owner h)

include hc

theorem HasHiddenChild.live (hx : t.Reaches root x) : t.find? x = some (t.look x) := by
  obtain ⟨n, hn⟩ := reached_live hc.sound hc.grounded.live hx
  rw [look, hn]
  rfl

theorem HasHiddenChild.reaches : t.Reaches root h := hc.reached.tail hc.listed

theorem HasHiddenChild.children (hx : t.Reaches root x) : t.childrenOf x = (t.look x).children :=
  childrenOf_eq (hc.live hx)

theorem HasHiddenChild.owner_eq (hx : t.Reaches root x) (hh : h ∈ t.childrenOf x) : x = owner := by
  have howner := hc.unshared x h hx hh
  rw [hc.unshared owner h hc.reached hc.listed] at howner
  exact (Option.some.inj howner).symm

theorem HasHiddenChild.not_reaches (ho : t.Reaches x owner) : ¬ t.Reaches h x := by
  have hg : t.Grounded owner := hc.grounded.reached hc.reached
  exact fun hh => hg.not_reached hc.listed (hh.trans ho)

theorem HasHiddenChild.root_remains : root ∈ t.Remainder root h :=
  ⟨.refl, hc.not_reaches hc.reached⟩

theorem HasHiddenChild.owner_remains : owner ∈ t.Remainder root h :=
  ⟨hc.reached, hc.not_reaches .refl⟩

theorem HasHiddenChild.ne_owner : owner ≠ h := by
  rintro rfl
  exact hc.owner_remains.2 .refl

theorem HasHiddenChild.child_remains {c : NodeId} (hx : x ∈ t.Remainder root h)
    (hcx : c ∈ t.childrenOf x) (hne : c ≠ h) : c ∈ t.Remainder root h := by
  refine ⟨hx.1.tail hcx, fun hhc => ?_⟩
  rcases Relation.ReflTransGen.cases_tail hhc with he | ⟨w, hw, hcw⟩
  · exact hne he
  · have howner := hc.unshared x c hx.1 hcx
    rw [hc.unshared w c (hc.reaches.trans hw) hcw] at howner
    exact hx.2 (Option.some.inj howner ▸ hw)

theorem HasHiddenChild.gap : Pass.Gap t.outset (t.Remainder root h) {x | t.Reaches h x} h := by
  refine ⟨?_, ?_, ?_, fun x hx => hx.2, fun _ => .refl, ?_, ?_⟩
  all_goals rw [children_outset]
  · exact fun x hx c hcx hne => hc.child_remains hx hcx hne
  · exact fun x hx c hcx => Relation.ReflTransGen.tail hx hcx
  · intro x hx c hcx
    have hx : t.Reaches root x := hx.elim And.left fun hh => hc.reaches.trans hh
    rw [← hc.unshared x c hx hcx, ownerOf_eq (hc.live (hx.tail hcx))]
    rfl
  · intro x hx hh
    obtain rfl := hc.owner_eq hx.1 hh
    exact hc.ignored
  · intro x hx hlevel c hcx _ y hy hl hh
    rw [children_outset] at hh
    obtain rfl := hc.owner_eq hy.1 hh
    rw [Pass.Leads, children_outset] at hl
    exact hc.overlooked x hx.1 hlevel c hcx hl

theorem HasHiddenChild.find?_cut (hx : x ∈ t.Remainder root h) :
    (t.cut owner h).find? x = some ((t.look x).without h) := by
  have hne : x ≠ h := by
    rintro rfl
    exact hx.2 .refl
  have hfind := hc.live hx.1
  rw [cut, find?_update_other _ _ hne]
  by_cases he : x = owner
  · subst he
    rw [find?_update_self, hfind, Option.map_some, Node.without,
      (hc.sound.arena.nodup hfind).erase_eq_filter]
  · rw [find?_update_other _ _ he, hfind, Node.without_of_not_mem]
    rw [← hc.children hx.1]
    exact fun hh => he (hc.owner_eq hx.1 hh)

theorem HasHiddenChild.apply_removeChild :
    (Edit.removeChild owner h).apply t = (.ok ⟨⟩, t.cut owner h) := by
  have hlist := hc.children hc.reached
  refine Tree.apply_removeChild hc.sound (hc.live hc.reached) hc.marked (hlist ▸ hc.listed)
    hc.ne_owner fun c hcx => ?_
  exact hc.unshared owner c hc.reached (hlist ▸ hcx)

theorem HasHiddenChild.cut_sound : (t.cut owner h).Sound := by
  have hsound := (Edit.removeChild_ends hc.sound owner h).sound hc.sound
  rwa [hc.apply_removeChild] at hsound

theorem HasHiddenChild.cut_children (hx : x ∈ t.Remainder root h) :
    (t.cut owner h).childrenOf x = (t.childrenOf x).filter (· != h) := by
  rw [childrenOf_eq (hc.find?_cut hx), hc.children hx.1]
  rfl

theorem HasHiddenChild.cut_grounded : (t.cut owner h).Grounded root := by
  have hall : ∀ depth, ∀ x ∈ t.Remainder root h, (t.unfold depth x).isSome →
      ((t.cut owner h).unfold depth x).isSome := by
    intro depth
    induction depth with
    | zero => exact fun _ _ hx => hx
    | succ depth ih =>
      intro x hx hd
      obtain ⟨-, hbelow⟩ := unfold_isSome.mp hd
      refine unfold_isSome.mpr ⟨⟨_, hc.find?_cut hx⟩, fun c hcx => ?_⟩
      rw [hc.cut_children hx] at hcx
      obtain ⟨hcx, hne⟩ := List.mem_filter.mp hcx
      exact ih c (hc.child_remains hx hcx (bne_iff_ne.mp hne)) (hbelow c hcx)
  obtain ⟨depth, hd⟩ := hc.grounded
  exact ⟨depth, hall depth root hc.root_remains hd⟩

theorem HasHiddenChild.omits : Pass.Omits t.outset (t.Remainder root h) {x | t.Reaches h x} h
    (Pass.start (t.primed root) .initial)
    (Pass.start ((t.cut owner h).primed root) .initial) := by
  have hreached : ∀ x ∈ t.Remainder root h ∪ {x | t.Reaches h x}, t.Reaches root x :=
    fun x hx => hx.elim And.left fun hh => hc.reaches.trans hh
  have hcore : ∀ x, t.Reaches root x → Node.SameCore (t.look x)
      ((Pass.start (t.primed root) .initial).node x) := by
    intro x hx
    obtain ⟨size, hnode⟩ := node_primed (hc.live hx) root
    rw [hnode]
    rfl
  refine ⟨hc.gap, ⟨hc.sound.primed root, Array.size_modify .., rfl, rfl⟩,
    ⟨hc.cut_sound.primed root, ?_, rfl, rfl⟩, fun x hx => ?_, fun x hx => ?_,
    fun x hx => hcore x (hreached x hx), fun x hx => ?_, ?_⟩
  · exact (Array.size_modify ..).trans ((Array.size_modify ..).trans (Array.size_modify ..))
  · exact ((primed_shape t root).live x).mpr ⟨_, hc.live (hreached x hx)⟩
  · exact ((primed_shape _ root).live x).mpr ⟨_, hc.find?_cut hx⟩
  · have hnew := hc.find?_cut hx
    simp only [Pass.node, Pass.start]
    by_cases he : x = root
    · subst he
      rw [find?_primed_root (hc.live hx.1), find?_primed_root hnew]
      rfl
    · rw [find?_primed_other he, find?_primed_other he, hc.live hx.1, hnew]
      rfl
  · obtain ⟨size, hnode⟩ := node_primed (hc.live hc.reaches) root
    rw [hnode]
    exact hc.line

end Concealed

omit [Scalar α] in
theorem Settled.find?_noted {w s : Tree α} {k : Node α} (hs : Settled w s root)
    (hk : w.find? x = some k) : ∃ matters, s.find? x = some
      { k with geometry := { k.geometry with legacyStretchMatters := matters } } := by
  by_cases hroot : x = root
  · subst hroot
    exact hs.find?_root hk
  · exact ⟨k.geometry.legacyStretchMatters, (hs.find?_other hroot).trans hk⟩

/-- A hidden child that nobody notices leaves no trace: once it is taken off the list of its owner,
a layout gives all that is not below it the places, sizes and overflow that it gave with it. -/
theorem hidden_child_leaves_no_trace (hc : t.HasHiddenChild root owner h) (v : Viewport α) :
    ∃ t' stats s stats' s', (Edit.removeChild owner h).apply t = (.ok ⟨⟩, t') ∧
      t'.childrenOf owner = (t.childrenOf owner).filter (· != h) ∧
      (∀ limits, (Edit.calculateLayout root v limits).apply t = (.ok stats, s)) ∧
      (∀ limits, (Edit.calculateLayout root v limits).apply t' = (.ok stats', s')) ∧
      ∀ x ∈ t.Remainder root h, ∃ n n', s.find? x = some n ∧ s'.find? x = some n' ∧
        n'.geometry.position = n.geometry.position ∧ n'.geometry.size = n.geometry.size ∧
        n'.geometry.hadOverflow = n.geometry.hadOverflow := by
  have hroot := hc.live (x := root) .refl
  have hroot' := hc.find?_cut hc.root_remains
  obtain ⟨s, hrun, -, hs⟩ := Edit.calculateLayout_run hc.sound hc.grounded hroot v
  obtain ⟨s', hrun', -, hs'⟩ := Edit.calculateLayout_run hc.cut_sound hc.cut_grounded
    hroot' v
  obtain ⟨p, q, hm, hp, hq⟩ := Pass.laidOut_omits v (rootRequest (t.look root).resolveSize v)
    hc.omits hc.root_remains
  have hrequest : rootRequest ((t.look root).without h).resolveSize v =
      rootRequest (t.look root).resolveSize v := rfl
  rw [← hp] at hs
  rw [hrequest, ← hq] at hs'
  refine ⟨_, _, s, _, s', hc.apply_removeChild, hc.cut_children hc.owner_remains, hrun, hrun',
    fun x hx => ?_⟩
  obtain ⟨matters, hx₁⟩ := hs.find?_noted (Pass.node_eq (hm.live x (Or.inl hx)))
  obtain ⟨matters', hx₂⟩ := hs'.find?_noted (Pass.node_eq (hm.live' x hx))
  rw [hm.node x hx] at hx₂
  exact ⟨_, _, hx₁, hx₂, rfl, rfl, rfl⟩

/-- A row aligned to a baseline. Its first child has a visible child and behind it a hidden one that
would grow. -/
def hiddenPair : Tree Float32 :=
  (Tree.empty gridless).after [.newNode none, .newNode none, .newNode none, .newNode none,
    .newNode none, .addChild ⟨1, 1⟩ ⟨2, 1⟩, .addChild ⟨1, 1⟩ ⟨3, 1⟩, .addChild ⟨2, 1⟩ ⟨4, 1⟩,
    .addChild ⟨2, 1⟩ ⟨5, 1⟩,
    .updateStyle ⟨1, 1⟩ fun s => { s with flexDirection := .row, alignItems := .baseline },
    .updateStyle ⟨3, 1⟩ fun s => { s with size := ⟨.points 10, .points 30⟩ },
    .updateStyle ⟨4, 1⟩ fun s => { s with size := ⟨.points 20, .points 10⟩ },
    .updateStyle ⟨5, 1⟩ fun s => { s with display := .none, flexGrow := .known 1 }]

theorem hiddenPair_reachable : hiddenPair.Reachable :=
  Reachable.after (.empty rfl) (by simp [Call.Hookless, Call.Returns])

theorem hiddenPair_lists : hiddenPair.childrenOf ⟨1, 1⟩ = [⟨2, 1⟩, ⟨3, 1⟩] ∧
    hiddenPair.childrenOf ⟨2, 1⟩ = [⟨4, 1⟩, ⟨5, 1⟩] := by
  decide +kernel

theorem hiddenPair_hasHiddenChild : hiddenPair.HasHiddenChild ⟨1, 1⟩ ⟨2, 1⟩ ⟨5, 1⟩ := by
  have hsound := hiddenPair_reachable.sound
  have hgrounded : hiddenPair.Grounded ⟨1, 1⟩ := ⟨3, by decide +kernel⟩
  have howned : ∀ x ∈ hiddenPair.ids, ∀ c ∈ hiddenPair.childrenOf x,
      hiddenPair.ownerOf c = some x := by
    decide +kernel
  obtain ⟨hroot, hlist⟩ := hiddenPair_lists
  have hreached : hiddenPair.Reaches ⟨1, 1⟩ ⟨2, 1⟩ := .single (by simp [hroot])
  refine ⟨⟨hreached, by simp [hlist], ⟨by decide +kernel, Or.inr (by decide +kernel),
    Or.inr fun d => ?_, fun hlevel => ?_, by decide +kernel⟩, fun _ _ _ _ _ _ => ?_⟩, hsound,
    hgrounded, fun x c hx hc => ?_, by decide +kernel, by decide +kernel⟩
  · cases d <;> decide +kernel
  · exact absurd hlevel.1 (by decide +kernel)
  · exact Or.inr (Or.inr (by decide +kernel))
  · exact howned x (mem_ids.mpr (reached_live hsound hgrounded.live hx)) c hc

/-- Taking the hidden child away changes nothing for its sibling, on whose baseline the row is
aligned, nor for the other nodes. -/
theorem hidden_child_leaves_no_trace_pair :
    hiddenPair.HasHiddenChild ⟨1, 1⟩ ⟨2, 1⟩ ⟨5, 1⟩ ∧
    ∃ t' stats s stats' s' n n', (Edit.removeChild ⟨2, 1⟩ ⟨5, 1⟩).apply hiddenPair = (.ok ⟨⟩, t') ∧
      (∀ limits, (Edit.calculateLayout ⟨1, 1⟩ ⟨.known 100, .known 100, .ltr⟩ limits).apply
          hiddenPair = (.ok stats, s)) ∧
      (∀ limits, (Edit.calculateLayout ⟨1, 1⟩ ⟨.known 100, .known 100, .ltr⟩ limits).apply t' =
        (.ok stats', s')) ∧
      s.find? ⟨2, 1⟩ = some n ∧ s'.find? ⟨2, 1⟩ = some n' ∧
      n'.geometry.position = n.geometry.position ∧ n'.geometry.size = n.geometry.size ∧
      n'.geometry.hadOverflow = n.geometry.hadOverflow := by
  obtain ⟨t', stats, s, stats', s', hremove, -, hrun, hrun', hsame⟩ :=
    hidden_child_leaves_no_trace hiddenPair_hasHiddenChild ⟨.known 100, .known 100, .ltr⟩
  obtain ⟨n, n', hn, hn', hbox⟩ := hsame ⟨2, 1⟩ hiddenPair_hasHiddenChild.owner_remains
  exact ⟨hiddenPair_hasHiddenChild, t', stats, s, stats', s', n, n', hremove, hrun, hrun', hn,
    hn', hbox⟩

/-- A row with a child that takes half of the space left, and a hidden one that would grow. -/
def crowded : Tree Float32 :=
  (Tree.empty gridless).after [.newNode none, .newNode none, .newNode none,
    .addChild ⟨1, 1⟩ ⟨2, 1⟩, .addChild ⟨1, 1⟩ ⟨3, 1⟩,
    .updateStyle ⟨1, 1⟩ fun s =>
      { s with flexDirection := .row, size := ⟨.points 100, .points 100⟩ },
    .updateStyle ⟨2, 1⟩ fun s =>
      { s with size := ⟨.points 50, .undefined⟩, flexGrow := .known 0.5, flexShrink := .known 1 },
    .updateStyle ⟨3, 1⟩ fun s => { s with display := .none, flexGrow := .known 1 }]

theorem crowded_reachable : crowded.Reachable :=
  Reachable.after (.empty rfl) (by simp [Call.Hookless, Call.Returns])

/-- A hidden child counts when the lone flexible child is looked for. Without it the other child
starts from nothing and gets half of the row; with it the child starts from its own size. -/
theorem hidden_sibling_widens_crowded :
    crowded.Reachable ∧ crowded.Grounded ⟨1, 1⟩ ∧ (crowded.look ⟨3, 1⟩).isHidden = true ∧
    ((crowded.after [.calculateLayout ⟨1, 1⟩ ⟨.known 100, .known 100, .ltr⟩]).find? ⟨2, 1⟩).map
      (·.geometry.size.width) = some (.known 75) ∧
    ((crowded.after [.removeChild ⟨1, 1⟩ ⟨3, 1⟩,
      .calculateLayout ⟨1, 1⟩ ⟨.known 100, .known 100, .ltr⟩]).find? ⟨2, 1⟩).map
      (·.geometry.size.width) = some (.known 50) :=
  ⟨crowded_reachable, ⟨2, by decide +kernel⟩, by decide +kernel, by decide +kernel,
    by decide +kernel⟩

end Tree

end Flexbox
