import Flexbox.Proofs.Mirror.Nodes
import Flexbox.Proofs.Mirror.Names
import Flexbox.Proofs.Relayout

namespace Flexbox

variable {α : Type}

theorem Side.mirror_mirror (s : Side) : s.mirror.mirror = s := by
  cases s <;> rfl

namespace Node

variable {n m : Node α}

/-- The node stands as far from a side as its image from the mirrored one. -/
def Leads (n m : Node α) (s : Side) : Prop :=
  m.geometry.position.get s.mirror = n.geometry.position.get s

/-- Changed in what was measured, and neither placed nor laid out anew. -/
structure Retouched (n m : Node α) : Prop where
  core : SameCore n m
  position : m.geometry.position = n.geometry.position
  direction : m.geometry.direction = n.geometry.direction
  lastLayout : m.geometry.lastLayout = n.geometry.lastLayout

end Node

namespace Pass

variable [Scalar α] {S : Set NodeId} {h : Nat} {p p' q q' u u' : Pass α}
  {x y z c : NodeId}

/-- Where the children of a node start on the row axis, left to right. -/
def side (p : Pass α) (y : NodeId) : Side := (p.node y).style.flexDirection.rowSide .ltr

/-- The node stands in both passes at the same distance from where its owner starts. -/
def Headed (p p' : Pass α) (x : NodeId) : Prop :=
  ∀ z, (p.node x).owner = some z → (p.node x).Leads (p'.node x) (p.side z)

/-- A child stands in both passes at the same distance from where `y` starts, and so does whoever
owns the child. -/
structure Fits (p p' : Pass α) (y c : NodeId) : Prop where
  leads : (p.node c).Leads (p'.node c) (p.side y)
  owner : ∃ z, (p.node c).owner = some z ∧ p.side z = p.side y

/-- All that stands below a node is placed in one pass as in the other. -/
def Imaged (p p' : Pass α) (x : NodeId) : Prop :=
  ∀ y, p.tree.Reaches x y → ∀ c ∈ p.tree.childrenOf y, Fits p p' y c

/-- On the nodes of `S` the second pass holds the images of what the first one does. A node that
remembers a full layout has its children placed alike. -/
structure Mirrored (S : Set NodeId) (p p' : Pass α) : Prop where
  sound : p.tree.Sound
  sound' : p'.tree.Sound
  region : p.tree.Region S
  names : p.tree.SameNames p'.tree
  limits : p'.limits = p.limits
  generation : p'.generation = p.generation
  stats : p'.stats = p.stats
  node : ∀ x ∈ S, p.tree.Live x → (p.node x).Reflects (p'.node x)
  undirected : ∀ x ∈ S, p.tree.Live x → (p.node x).style.Undirected
  memory : ∀ x ∈ S, p.tree.Live x → (p.node x).geometry.lastLayout ≠ .blank → Imaged p p' x

/-- Both passes moved on and are images still. What was placed alike is placed alike, and nodes
deeper than `h` keep their direction. -/
structure Onward (S : Set NodeId) (h : Nat) (p p' q q' : Pass α) : Prop where
  start : Mirrored S p p'
  moves : Moves S p q
  mirrored : Mirrored S q q'
  headed : ∀ x ∈ S, p.tree.Live x → Headed p p' x → Headed q q' x
  imaged : ∀ x ∈ S, p.tree.Live x → Imaged p p' x → Imaged q q' x
  still : ∀ x ∈ S, p.tree.Live x → ¬ (p.tree.unfold h x).isSome →
    (q.node x).geometry.direction = (p.node x).geometry.direction

section

variable (hm : Moves S p q) (hs : p.tree.Sound) (hx : p.tree.Live x)

include hm hs hx

theorem Moves.side : q.side x = p.side x := by
  rw [Pass.side, hm.style hs hx, Pass.side]

end

omit [Scalar α] in
theorem owner_live (hs : p.tree.Sound) (hx : p.tree.Live x) (ho : (p.node x).owner = some z) :
    p.tree.Live z :=
  hs.arena.owner_live (by rw [Tree.ownerOf_eq (node_eq hx), ho])

theorem Fits.moves (hf : Fits p p' y c) (hm : Moves S p q) (hs : p.tree.Sound)
    (hy : p.tree.Live y) (hc : p.tree.Live c) (hhead : Headed p p' c → Headed q q' c) :
    Fits q q' y c := by
  obtain ⟨z, howner, hside⟩ := hf.owner
  have hz := owner_live hs hc howner
  have howner' : (q.node c).owner = some z := by rw [hm.owner hs hc, howner]
  have hside' : q.side z = q.side y := by rw [hm.side hs hz, hm.side hs hy, hside]
  refine ⟨hside' ▸ hhead (fun z' hz' => ?_) z howner', z, howner', hside'⟩
  obtain rfl : z = z' := Option.some.inj (howner.symm.trans hz')
  exact hside ▸ hf.leads

theorem Onward.refl (hm : Mirrored S p p') : Onward S h p p' p p' :=
  ⟨hm, Moves.refl p, hm, fun _ _ _ hh => hh, fun _ _ _ hi => hi, fun _ _ _ _ => rfl⟩

theorem Onward.trans (ho : Onward S h p p' q q') (ho' : Onward S h q q' u u') :
    Onward S h p p' u u' := by
  have hs := ho.start.sound
  have hlive := fun x (hx : p.tree.Live x) => ho.moves.live hs hx
  refine ⟨ho.start, ho.moves.trans ho'.moves, ho'.mirrored,
    fun x hx hl hh => ho'.headed x hx (hlive x hl) (ho.headed x hx hl hh),
    fun x hx hl hi => ho'.imaged x hx (hlive x hl) (ho.imaged x hx hl hi), fun x hx hl hd => ?_⟩
  rw [ho'.still x hx (hlive x hl) (by rwa [ho.moves.unfold hs hl]), ho.still x hx hl hd]

theorem Onward.mono {k : Nat} (ho : Onward S h p p' q q') (hk : h ≤ k) :
    Onward S k p p' q q' :=
  ⟨ho.start, ho.moves, ho.mirrored, ho.headed, ho.imaged, fun x hx hl hd =>
    ho.still x hx hl fun hu => hd (Tree.unfold_isSome_mono hu hk)⟩

omit [Scalar α] in
theorem imaged_of_children
    (hc : ∀ c ∈ p.tree.childrenOf x, Fits p p' x c ∧ Imaged p p' c) : Imaged p p' x := by
  intro y hy c hcy
  rcases Relation.ReflTransGen.cases_head hy with rfl | ⟨d, hd, hrest⟩
  · exact (hc c hcy).1
  · exact (hc d hd).2 y hrest c hcy

omit [Scalar α] in
theorem imaged_of_childless (hx : p.tree.Live x) (hnone : (p.node x).children = []) :
    Imaged p p' x := by
  refine imaged_of_children fun c hc => ?_
  rw [← children_eq hx, Pass.children, hnone] at hc
  cases hc

section

variable (hm : Mirrored S p p') {f : Node α → Node α}

include hm

theorem Mirrored.live' (hx : p.tree.Live x) : p'.tree.Live x :=
  hm.names.live.mpr hx

section

variable (hx : x ∈ S) (hl : p.tree.Live x)

include hx hl

theorem Mirrored.reached (hy : p.tree.Reaches x y) : y ∈ S ∧ p.tree.Live y := by
  induction hy with
  | refl => exact ⟨hx, hl⟩
  | tail _ hc ih => exact ⟨hm.region.closed _ ih.1 _ hc, hm.sound.arena.accounted.live hc⟩

theorem Mirrored.update {f' : Node α → Node α} (hf : ∀ n, Node.SameCore n (f n))
    (hf' : ∀ n, Node.SameCore n (f' n)) (hnode : (f (p.node x)).Reflects (f' (p'.node x)))
    (hlead : ∀ z, (p.node x).owner = some z → (p.node x).Leads (p'.node x) (p.side z) →
      (f (p.node x)).Leads (f' (p'.node x)) (p.side z))
    (hmem : (f (p.node x)).geometry.lastLayout ≠ .blank → Imaged p p' x)
    (hstill : (p.tree.unfold h x).isSome ∨
      (f (p.node x)).geometry.direction = (p.node x).geometry.direction) :
    Onward S h p p' (p.update x f) (p'.update x f') := by
  have hread := node_update hl f
  have hread' := node_update (hm.live' hl) f'
  have hmoves : Moves S p (p.update x f) := update_moves hx hf
  have hshape := Tree.SameShape.update p.tree x fun n => (hf n).links.children
  have hsame : ∀ y, (p.update x f).tree.Live y ↔ p.tree.Live y := fun y => Tree.live_update
  have hheaded : ∀ y ∈ S, p.tree.Live y → Headed p p' y →
      Headed (p.update x f) (p'.update x f') y := by
    intro y _ hly hh z hz
    rw [hmoves.owner hm.sound hly] at hz
    rw [hmoves.side hm.sound (owner_live hm.sound hly hz), hread, hread']
    split
    · rename_i he
      subst he
      exact hlead z hz (hh z hz)
    · exact hh z hz
  have himaged : ∀ y ∈ S, p.tree.Live y → Imaged p p' y →
      Imaged (p.update x f) (p'.update x f') y := by
    intro y hy hly hi d hd c hc
    have hd : p.tree.Reaches y d := hshape.reaches ▸ hd
    have hc : c ∈ p.tree.childrenOf d := hshape.children ▸ hc
    obtain ⟨hdS, hdl⟩ := hm.reached hy hly hd
    have hcl := hm.sound.arena.accounted.live hc
    exact (hi d hd c hc).moves hmoves hm.sound hdl hcl (hheaded c (hm.region.closed d hdS c hc) hcl)
  refine ⟨hm, hmoves, ⟨hmoves.sound hm.sound, hm.sound'.update x fun n _ => (hf' n).links,
    (Step.update p hx hf).region hm.sound hm.region, hm.names.update x f f', hm.limits,
    hm.generation, hm.stats, fun y hy hly => ?_, fun y hy hly => ?_, fun y hy hly hne => ?_⟩,
    hheaded, himaged, fun y _ _ hd => ?_⟩
  · rw [hread, hread']
    split
    · exact hnode
    · exact hm.node y hy ((hsame y).mp hly)
  · rw [hmoves.style hm.sound ((hsame y).mp hly)]
    exact hm.undirected y hy ((hsame y).mp hly)
  · rw [hread] at hne
    refine himaged y hy ((hsame y).mp hly) ?_
    split at hne
    · rename_i he
      exact he ▸ hmem hne
    · exact hm.memory y hy ((hsame y).mp hly) hne
  · rw [hread]
    split
    · rename_i he
      subst he
      exact hstill.resolve_left hd
    · rfl

theorem Mirrored.write (hf : ∀ n, Node.Retouched n (f n) := by exact fun _ => ⟨rfl, rfl, rfl, rfl⟩)
    (hr : ∀ n left right count, f (Node.reflect n left right count) =
      (f n).reflect left right count := by exact fun _ _ _ _ => rfl) :
    Onward S h p p' (p.update x f) (p'.update x f) := by
  refine hm.update hx hl (fun n => (hf n).core) (fun n => (hf n).core) ?_ (fun z _ hlead => ?_)
    (fun hne => ?_) (Or.inr (hf _).direction)
  · obtain ⟨left, right, count, he⟩ := hm.node x hx hl
    exact ⟨left, right, count, by rw [he, hr]⟩
  · unfold Node.Leads at hlead ⊢
    rw [(hf _).position, (hf _).position, hlead]
  · rw [(hf _).lastLayout] at hne
    exact hm.memory x hx hl hne

end

theorem Mirrored.aside (hmoves : Moves S p q) (hs' : q'.tree.Sound)
    (hnames : q.tree.SameNames q'.tree) (hfind : q.tree.find? = p.tree.find?)
    (hfind' : q'.tree.find? = p'.tree.find?) (hlimits : q.limits = p.limits)
    (hlimits' : q'.limits = p'.limits) (hgeneration : q'.generation = q.generation)
    (hstats : q'.stats = q.stats) : Onward S h p p' q q' := by
  have hnode : q.node = p.node := by
    funext x
    simp only [Pass.node, hfind, hlimits]
  have hnode' : q'.node = p'.node := by
    funext x
    simp only [Pass.node, hfind', hlimits']
  have hlist : q.tree.childrenOf = p.tree.childrenOf := by
    funext x
    simp only [Tree.childrenOf, hfind]
  have hlive : ∀ {x}, q.tree.Live x ↔ p.tree.Live x := by
    simp only [Tree.Live, hfind, implies_true]
  have hside : q.side = p.side := by
    funext x
    simp only [Pass.side, hnode]
  have hfits : ∀ {y c}, Fits p p' y c → Fits q q' y c := by
    rintro y c ⟨hleads, howner⟩
    exact ⟨by rwa [hnode, hnode', hside], by rwa [hnode, hside]⟩
  have himaged : ∀ {x}, Imaged p p' x → Imaged q q' x := by
    intro x hi y hy c hc
    unfold Tree.Reaches at hy
    rw [hlist] at hy hc
    exact hfits (hi y hy c hc)
  refine ⟨hm, hmoves, ⟨hmoves.sound hm.sound, hs', ⟨?_, fun x hx => hm.region.unused x ?_⟩, hnames,
    ?_, hgeneration, hstats, fun x hx hl => ?_, fun x hx hl => ?_, fun x hx hl hne => himaged ?_⟩,
    fun x _ _ hh => ?_, fun _ _ _ => himaged, fun x _ _ _ => ?_⟩
  · rw [hlist]
    exact hm.region.closed
  · rwa [← hlive]
  · rw [hlimits', hlimits, hm.limits]
  · rw [hnode, hnode']
    exact hm.node x hx (hlive.mp hl)
  · rw [hnode]
    exact hm.undirected x hx (hlive.mp hl)
  · exact hm.memory x hx (hlive.mp hl) (by rwa [hnode] at hne)
  · unfold Headed
    rwa [hnode, hnode', hside]
  · rw [hnode]

theorem Mirrored.count {f : Stats → Stats} (hf : ∀ s, s.maxMeasureCache ≤ (f s).maxMeasureCache) :
    Onward S h p p' (p.count f) (p'.count f) :=
  hm.aside (count_moves hf) hm.sound' hm.names rfl rfl rfl rfl hm.generation
    (congrArg f hm.stats)

theorem Mirrored.record {v : Visit α} (hv : v.node ∈ S) (v' : Visit α) :
    Onward S h p p' (p.record v) (p'.record v') :=
  hm.aside (Step.record p hv).moves hm.sound' hm.names rfl rfl rfl rfl hm.generation hm.stats

theorem Mirrored.tell (e e' : Event α) : Onward S h p p' (p.tell e) (p'.tell e') :=
  hm.aside (Step.tell p e).moves (hm.sound'.tell e') ⟨hm.names.free, hm.names.occupancy⟩ rfl rfl
    rfl rfl hm.generation hm.stats

end

/-- Both stores have copies of what `w` listed for its own, under the same names. -/
structure Owning (p p' : Pass α) (w : NodeId) (s s' : Tree α) : Prop where
  sound : s.Sound
  sound' : s'.Sound
  left : p.tree.Privatized w s
  right : p'.tree.Privatized w s'
  names : s.SameNames s'
  children : s'.childrenOf w = s.childrenOf w
  copies : ∀ k ∈ s.childrenOf w, ∃ d ∈ p.tree.childrenOf w,
    p.tree.Copied w s d k ∧ p'.tree.Copied w s' d k

theorem Mirrored.owning (hm : Mirrored S p p') (hx : x ∈ S) (hl : p.tree.Live x) :
    ∃ s s', p.ownChildren x = { p with tree := s } ∧ p'.ownChildren x = { p' with tree := s' } ∧
      Owning p p' x s s' := by
  obtain ⟨s, he, hs, hpriv⟩ := ownChildren_run hm.sound hl
  obtain ⟨s', he', hs', hpriv'⟩ := ownChildren_run hm.sound' (hm.live' hl)
  have hlist : p'.tree.childrenOf x = p.tree.childrenOf x := by
    rw [← children_eq hl, ← children_eq (hm.live' hl), children, children,
      (hm.node x hx hl).children]
  have howns : ∀ c ∈ p.tree.childrenOf x, p'.tree.owns x c = p.tree.owns x c := by
    intro c hc
    have hcl := hm.sound.arena.accounted.live hc
    rw [Tree.owns_eq (node_eq hcl), Tree.owns_eq (node_eq (hm.live' hcl)), Node.isOwnedBy,
      Node.isOwnedBy, (hm.node c (hm.region.closed x hx c hc) hcl).owner]
  obtain ⟨hnames, hsame⟩ := Edit.ownChildren_names hm.names hm.sound hm.sound' hl hlist howns
  have htree : s = ((Edit.ownChildren x).apply p.tree).2 := (congrArg Pass.tree he).symm
  have htree' : s' = ((Edit.ownChildren x).apply p'.tree).2 := (congrArg Pass.tree he').symm
  rw [← htree, ← htree'] at hnames hsame
  refine ⟨s, s', he, he', hs, hs', hpriv, hpriv', hnames, hsame, fun k hk => ?_⟩
  obtain ⟨ks, j, hfind, hcopies⟩ := hpriv.self _ (node_eq hl)
  obtain ⟨ks', j', hfind', hcopies'⟩ := hpriv'.self _ (node_eq (hm.live' hl))
  rw [Tree.childrenOf_eq hfind, Tree.childrenOf_eq hfind'] at hsame
  obtain rfl : ks' = ks := hsame
  rw [(hm.node x hx hl).children] at hcopies'
  rw [Tree.childrenOf_eq hfind] at hk
  rw [Tree.childrenOf_eq (node_eq hl)]
  -- Both lists of copies run along the same list, so the same one gave rise to both.
  obtain ⟨i, hi, rfl⟩ := List.getElem_of_mem hk
  have hi' : i < (p.node x).children.length := by rw [hcopies.length_eq]; exact hi
  exact ⟨(p.node x).children[i], List.getElem_mem hi', hcopies.get hi' hi, hcopies'.get hi' hi⟩

def Copies (p p' : Pass α) (w : NodeId) (s s' : Tree α) (d k : NodeId) : Prop :=
  (d = k ∧ p.tree.Live d) ∨ (p.tree.Copied w s d k ∧ p'.tree.Copied w s' d k)

section Owning

variable {w d e k : NodeId} {s s' : Tree α}

omit [Scalar α] in
theorem node_copied (hc : p.tree.Copied w s d k) : p.tree.Live d ∧
    ∃ j, ({ p with tree := s } : Pass α).node k =
      { p.node d with owner := some w, sharedCount := j } := by
  obtain ⟨n, j, hn, hk⟩ := hc
  exact ⟨⟨n, hn⟩, j, by rw [node_of_find? hn]; exact node_of_find? hk⟩

variable (hm : Mirrored S p p') (ho : Owning p p' w s s')

include hm ho

theorem Owning.old (hx : x ∈ S) (hl : p.tree.Live x) :
    ∃ ks j j', ({ p with tree := s } : Pass α).node x =
        { p.node x with children := ks, sharedCount := j } ∧
      ({ p' with tree := s' } : Pass α).node x =
        { p'.node x with children := ks, sharedCount := j' } := by
  have hfind := node_eq hl
  have hfind' := node_eq (hm.live' hl)
  by_cases hxw : x = w
  · subst hxw
    obtain ⟨ks, j, hk, -⟩ := ho.left.self _ hfind
    obtain ⟨ks', j', hk', -⟩ := ho.right.self _ hfind'
    have hsame := ho.children
    rw [Tree.childrenOf_eq hk, Tree.childrenOf_eq hk'] at hsame
    obtain rfl : ks' = ks := hsame
    exact ⟨ks', j, j', node_of_find? hk, node_of_find? hk'⟩
  · obtain ⟨j, hj⟩ := ho.left.other x _ hxw hfind
    obtain ⟨j', hj'⟩ := ho.right.other x _ hxw hfind'
    refine ⟨(p.node x).children, j, j', node_of_find? hj, ?_⟩
    rw [← (hm.node x hx hl).children]
    exact node_of_find? hj'

theorem Copies.geometry (hx : x ∈ S) (hc : Copies p p' w s s' x k) :
    (({ p with tree := s } : Pass α).node k).geometry = (p.node x).geometry ∧
      (({ p' with tree := s' } : Pass α).node k).geometry = (p'.node x).geometry ∧
      (({ p with tree := s } : Pass α).node k).style = (p.node x).style := by
  rcases hc with ⟨rfl, hl⟩ | ⟨hleft, hright⟩
  · obtain ⟨ks, j, j', hnode, hnode'⟩ := ho.old hm hx hl
    rw [hnode, hnode']
    exact ⟨rfl, rfl, rfl⟩
  · obtain ⟨-, j, hnode⟩ := node_copied hleft
    obtain ⟨-, j', hnode'⟩ := node_copied hright
    rw [hnode, hnode']
    exact ⟨rfl, rfl, rfl⟩

theorem Copies.child (hmoves : Moves S p { p with tree := s }) (hx : x ∈ S)
    (hcopy : Copies p p' w s s' x k) (hc : c ∈ s.childrenOf k) :
    ∃ b ∈ p.tree.childrenOf x, Copies p p' w s s' b c ∧
      (Fits p p' x b → Fits { p with tree := s } { p' with tree := s' } k c) := by
  have hside : Pass.side { p with tree := s } k = p.side x := by
    rw [Pass.side, (hcopy.geometry hm ho hx).2.2, Pass.side]
  have hplaced : ∀ {b}, b ∈ p.tree.childrenOf x → Copies p p' w s s' b c → Fits p p' x b →
      (({ p with tree := s } : Pass α).node c).Leads (({ p' with tree := s' } : Pass α).node c)
        (Pass.side { p with tree := s } k) := by
    intro b hb hbc hfits
    obtain ⟨hgeometry, hgeometry', -⟩ := hbc.geometry hm ho (hm.region.closed x hx b hb)
    unfold Node.Leads
    rw [hgeometry, hgeometry', hside]
    exact hfits.leads
  -- A child that is listed as before keeps its owner, a copy has a new one.
  have hkept : c ∈ p.tree.childrenOf x → ∃ b ∈ p.tree.childrenOf x, Copies p p' w s s' b c ∧
      (Fits p p' x b → Fits { p with tree := s } { p' with tree := s' } k c) := by
    intro hcx
    have hcl := hm.sound.arena.accounted.live hcx
    refine ⟨c, hcx, Or.inl ⟨rfl, hcl⟩, fun hfits => ⟨hplaced hcx (Or.inl ⟨rfl, hcl⟩) hfits, ?_⟩⟩
    obtain ⟨z, howner, hz⟩ := hfits.owner
    refine ⟨z, by rw [hmoves.owner hm.sound hcl, howner], ?_⟩
    rw [hmoves.side hm.sound (owner_live hm.sound hcl howner), hz, hside]
  rcases hcopy with ⟨rfl, hl⟩ | ⟨hleft, hright⟩
  · by_cases hxw : x = w
    · subst hxw
      obtain ⟨b, hb, hboth⟩ := ho.copies c hc
      refine ⟨b, hb, Or.inr hboth, fun hfits => ⟨hplaced hb (Or.inr hboth) hfits, x, ?_, rfl⟩⟩
      obtain ⟨-, j, hnode⟩ := node_copied hboth.1
      rw [hnode]
    · rw [ho.left.childrenOf_other hl hxw] at hc
      exact hkept hc
  · obtain ⟨n, j, hn, hk⟩ := hleft
    rw [Tree.childrenOf_eq hk] at hc
    exact hkept (by rwa [Tree.childrenOf_eq hn])

theorem Copies.imaged (hmoves : Moves S p { p with tree := s }) (hx : x ∈ S)
    (hl : p.tree.Live x) (hcopy : Copies p p' w s s' x k) (hi : Imaged p p' x) :
    Imaged { p with tree := s } { p' with tree := s' } k := by
  intro y hy c hc
  -- What is reached from the copy stands for what was reached before.
  have hreached : ∃ e, p.tree.Reaches x e ∧ Copies p p' w s s' e y := by
    clear hc
    induction hy with
    | refl => exact ⟨x, .refl, hcopy⟩
    | tail _ hstep ih =>
      obtain ⟨e, hre, hce⟩ := ih
      obtain ⟨b, hb, hbc, -⟩ := hce.child hm ho hmoves (hm.reached hx hl hre).1 hstep
      exact ⟨b, hre.tail hb, hbc⟩
  obtain ⟨e, hre, hce⟩ := hreached
  obtain ⟨b, hb, -, hfits⟩ := hce.child hm ho hmoves (hm.reached hx hl hre).1 hc
  exact hfits (hi e hre b hb)

end Owning

theorem Mirrored.own (hm : Mirrored S p p') (hx : x ∈ S) (hl : p.tree.Live x) :
    Onward S h p p' (p.ownChildren x) (p'.ownChildren x) ∧
      ∀ c ∈ (p.ownChildren x).tree.childrenOf x,
        (p.ownChildren x).tree.ownerOf c = some x := by
  have hstep := Step.own p hx hl
  have hmoves := hstep.moves
  have hregion := hstep.region hm.sound hm.region
  obtain ⟨s, s', he, he', ho⟩ := hm.owning hx hl
  rw [he] at hmoves hregion ⊢
  rw [he']
  have himaged : ∀ y ∈ S, p.tree.Live y → Imaged p p' y →
      Imaged { p with tree := s } { p' with tree := s' } y := fun y hy hly hi =>
    Copies.imaged hm ho hmoves hy hly (Or.inl ⟨rfl, hly⟩) hi
  -- A node that was not there is a copy of one that was.
  have hnew : ∀ {y}, s.Live y → ¬ p.tree.Live y → ∃ d ∈ S, p.tree.Live d ∧
      p.tree.Copied x s d y ∧ p'.tree.Copied x s' d y := by
    intro y hly hno
    obtain ⟨d, hd, hboth⟩ := ho.copies y ((ho.left.new y hly).resolve_left hno)
    exact ⟨d, hm.region.closed x hx d hd, hm.sound.arena.accounted.live hd, hboth⟩
  refine ⟨⟨hm, hmoves, ⟨ho.sound, ho.sound', hregion, ho.names, hm.limits, hm.generation, hm.stats,
    fun y hy hly => ?_, fun y hy hly => ?_, fun y hy hly hne => ?_⟩, fun y hy hly hh z hz => ?_,
    himaged, fun y hy hly _ => ?_⟩, fun c hc => ?_⟩
  · by_cases hold : p.tree.Live y
    · obtain ⟨ks, j, j', hnode, hnode'⟩ := ho.old hm hy hold
      obtain ⟨left, right, _, he⟩ := hm.node y hy hold
      rw [hnode, hnode', he]
      exact ⟨left, right, j', rfl⟩
    · obtain ⟨d, hd, hdl, hleft, hright⟩ := hnew hly hold
      obtain ⟨-, j, hnode⟩ := node_copied hleft
      obtain ⟨-, j', hnode'⟩ := node_copied hright
      obtain ⟨left, right, _, he⟩ := hm.node d hd hdl
      rw [hnode, hnode', he]
      exact ⟨left, right, j', rfl⟩
  · by_cases hold : p.tree.Live y
    · rw [hmoves.style hm.sound hold]
      exact hm.undirected y hy hold
    · obtain ⟨d, hd, hdl, hboth⟩ := hnew hly hold
      rw [(Copies.geometry hm ho hd (Or.inr hboth)).2.2]
      exact hm.undirected d hd hdl
  · by_cases hold : p.tree.Live y
    · rw [(Copies.geometry hm ho hy (Or.inl ⟨rfl, hold⟩)).1] at hne
      exact himaged y hy hold (hm.memory y hy hold hne)
    · obtain ⟨d, hd, hdl, hboth⟩ := hnew hly hold
      rw [(Copies.geometry hm ho hd (Or.inr hboth)).1] at hne
      exact Copies.imaged hm ho hmoves hd hdl (Or.inr hboth) (hm.memory d hd hdl hne)
  · obtain ⟨hgeometry, hgeometry', -⟩ := Copies.geometry hm ho hy (Or.inl ⟨rfl, hly⟩)
    rw [hmoves.owner hm.sound hly] at hz
    unfold Node.Leads
    rw [hmoves.side hm.sound (owner_live hm.sound hly hz), hgeometry, hgeometry']
    exact hh z hz
  · rw [(Copies.geometry hm ho hy (Or.inl ⟨rfl, hly⟩)).1]
  · simpa [Tree.owns] using ho.left.owned c hc

end Pass

end Flexbox
