import Flexbox.Proofs.Denotation

namespace Flexbox

variable {α : Type}

namespace Unfolding

def restyle (f : Style α → Style α) : Unfolding α → Unfolding α
  | node traits children => node { traits with style := f traits.style } children

def restyleChild (index : Nat) (f : Style α → Style α) : Unfolding α → Unfolding α
  | node traits children => node traits (children.modify index (restyle f))

end Unfolding

namespace Tree

variable {t s : Tree α} {a c d p x y : NodeId} {i h : Nat} {n : Node α} {style : Style α}
  {f : Style α → Style α}

theorem mapM_inj {β γ : Type} {f g : β → Option γ} {xs : List β} (he : xs.mapM g = xs.mapM f)
    (hs : (xs.mapM f).isSome) : ∀ x ∈ xs, g x = f x := by
  induction xs with
  | nil => simp
  | cons x xs ih =>
    have hall := mapM_isSome.mp hs
    have hall' := mapM_isSome.mp (he ▸ hs)
    obtain ⟨y, hy⟩ := Option.isSome_iff_exists.mp (hall x (by simp))
    obtain ⟨z, hz⟩ := Option.isSome_iff_exists.mp (hall' x (by simp))
    have hxs : (xs.mapM f).isSome := mapM_isSome.mpr fun w hw => hall w (by simp [hw])
    obtain ⟨ys, hys⟩ := Option.isSome_iff_exists.mp hxs
    obtain ⟨zs, hzs⟩ := Option.isSome_iff_exists.mp
      (mapM_isSome.mpr fun w (hw : w ∈ xs) => hall' w (by simp [hw]))
    rw [List.mapM_cons, List.mapM_cons, hy, hz, hys, hzs] at he
    obtain ⟨rfl, rfl⟩ : z = y ∧ zs = ys := by simpa using he
    intro w hw
    rcases List.mem_cons.mp hw with rfl | hw
    · rw [hy, hz]
    · exact ih (by rw [hys, hzs]) hxs w hw

theorem mapM_modify {β γ : Type} {f g : β → Option γ} {φ : γ → γ} {xs : List β}
    (hg : ∀ j x, xs[j]? = some x → g x = if j = i then (f x).map φ else f x) :
    xs.mapM g = (xs.mapM f).map fun ys => ys.modify i φ := by
  induction xs generalizing i with
  | nil => simp
  | cons x xs ih =>
    have hx := hg 0 x (by simp)
    rw [List.mapM_cons, List.mapM_cons, hx]
    cases i with
    | zero =>
      have hxs : xs.mapM g = xs.mapM f :=
        mapM_congr (List.forall₂_same.mpr fun y hy => by
          obtain ⟨j, hj⟩ := List.mem_iff_getElem?.mp hy
          simpa using hg (j + 1) y (by simpa using hj))
      rw [hxs]
      cases f x <;> cases xs.mapM f <;> simp
    | succ i =>
      have hxs := ih (i := i) fun j y hj => by simpa using hg (j + 1) y (by simpa using hj)
      rw [hxs]
      cases f x <;> cases xs.mapM f <;> simp

/-- `s` is `t` but for the style of `d`, and for marks and what layout keeps on nodes. -/
structure Restyled (t : Tree α) (d : NodeId) (style : Style α) (s : Tree α) : Prop where
  self : ∀ n, t.find? d = some n →
    ∃ m, s.find? d = some m ∧ Node.SameCore { n with style := style } m
  other : ∀ x n, x ≠ d → t.find? x = some n → ∃ m, s.find? x = some m ∧ Node.SameCore n m
  live : ∀ x, s.Live x → t.Live x

theorem restyled_update (t : Tree α) (d : NodeId) (style : Style α) :
    t.Restyled d style (t.update d fun n => { n with style := style }) := by
  refine ⟨fun n hn => ⟨_, by simp [hn], Node.SameCore.refl _⟩, fun x n hx hn => ?_, fun x hx => ?_⟩
  · exact ⟨n, by rw [find?_update_other _ _ hx, hn], Node.SameCore.refl n⟩
  · exact live_update.mp hx

section

variable (hr : t.Restyled d style s)

include hr

theorem Restyled.update (id : NodeId) {g : Node α → Node α} (hg : ∀ n, Node.SameCore n (g n)) :
    t.Restyled d style (s.update id g) := by
  have hstep : ∀ {x n m}, s.find? x = some m → Node.SameCore n m →
      ∃ m', (s.update id g).find? x = some m' ∧ Node.SameCore n m' := by
    intro x n m hm hc
    rw [find?_update, hm]
    split
    · exact ⟨g m, rfl, hc.trans (hg m)⟩
    · exact ⟨m, rfl, hc⟩
  refine ⟨fun n hn => ?_, fun x n hx hn => ?_, fun x hx => hr.live x (live_update.mp hx)⟩
  · obtain ⟨m, hm, hc⟩ := hr.self n hn
    exact hstep hm hc
  · obtain ⟨m, hm, hc⟩ := hr.other x n hx hn
    exact hstep hm hc

theorem Restyled.soilUpwards (id : NodeId) : t.Restyled d style (s.soilUpwards id) :=
  soilChain_keeps (fun _ x hs => hs.update x fun _ => rfl)
    (fun _ _ hs => ⟨hs.self, hs.other, hs.live⟩) _ _ hr

theorem Restyled.find (hn : t.find? x = some n) : ∃ m, s.find? x = some m ∧ SameLinks n m := by
  by_cases hx : x = d
  · subst hx
    obtain ⟨m, hm, hc⟩ := hr.self n hn
    exact ⟨m, hm, ⟨hc.links.children, hc.links.owner, hc.links.count, hc.links.measure,
      hc.links.hook⟩⟩
  · obtain ⟨m, hm, hc⟩ := hr.other x n hx hn
    exact ⟨m, hm, hc.links⟩

theorem Restyled.childrenOf : s.childrenOf = t.childrenOf := by
  funext x
  cases hn : t.find? x with
  | none =>
    have hx : ¬ t.Live x := not_live.mpr hn
    rw [childrenOf_absent hx, childrenOf_absent fun hs => hx (hr.live x hs)]
  | some n =>
    obtain ⟨m, hm, hl⟩ := hr.find hn
    rw [childrenOf_eq hn, childrenOf_eq hm, hl.children]

theorem Restyled.ownerOf (hx : t.Live x) : s.ownerOf x = t.ownerOf x := by
  obtain ⟨n, hn⟩ := hx
  obtain ⟨m, hm, hl⟩ := hr.find hn
  rw [ownerOf_eq hn, ownerOf_eq hm, hl.owner]

theorem Restyled.unfold_other (hx : ¬ t.Reaches x d) : s.unfold h x = t.unfold h x := by
  induction h generalizing x with
  | zero => rfl
  | succ h ih =>
    cases hn : t.find? x with
    | none =>
      have hs : s.find? x = none := not_live.mp fun hs => not_live.mpr hn (hr.live x hs)
      simp [Tree.unfold, hn, hs]
    | some n =>
      have hxd : x ≠ d := fun he => hx (he ▸ .refl)
      obtain ⟨m, hm, hc⟩ := hr.other x n hxd hn
      rw [unfold_succ hn, unfold_succ hm, hc.traits, hc.links.children]
      congr 1
      refine mapM_congr (List.forall₂_same.mpr fun c hm => ih fun hc => hx ?_)
      exact hc.of_child (by rwa [childrenOf_eq hn])

end

theorem Restyled.unfold_self (hr : t.Restyled d (f n.style) s) (hn : t.find? d = some n)
    (hd : ∀ c ∈ t.childrenOf d, ¬ t.Reaches c d) :
    s.unfold h d = (t.unfold h d).map (.restyle f) := by
  cases h with
  | zero => rfl
  | succ h =>
    obtain ⟨m, hm, hc⟩ := hr.self n hn
    have hlist : n.children.mapM (s.unfold h) = n.children.mapM (t.unfold h) :=
      mapM_congr (List.forall₂_same.mpr fun c hm =>
        hr.unfold_other (hd c (by rwa [childrenOf_eq hn])))
    have htraits : m.traits = { n.traits with style := f n.style } := hc.traits
    have hchildren : m.children = n.children := hc.links.children
    rw [unfold_succ hn, unfold_succ hm, htraits, hchildren, hlist, Option.map_map]
    rfl

theorem Restyled.style_eq (hr : t.Restyled d style s) (hn : t.find? d = some n)
    (hx : t.Reaches x d) (hs : (t.unfold h x).isSome) (he : s.unfold h x = t.unfold h x) :
    style = n.style := by
  -- On the way down both stand for the same at every node.
  induction hx using Relation.ReflTransGen.head_induction_on generalizing h with
  | refl =>
    cases h with
    | zero => cases hs
    | succ h =>
      obtain ⟨m, hm, hc⟩ := hr.self n hn
      rw [unfold_succ hn] at hs he
      obtain ⟨cs, hcs⟩ := Option.isSome_iff_exists.mp (by simpa using hs)
      rw [unfold_succ hm, hcs] at he
      obtain ⟨ds, -, hds⟩ := Option.map_eq_some_iff.mp he
      have htraits : m.traits = n.traits := (Unfolding.node.inj hds).1
      rw [hc.traits] at htraits
      exact congrArg Traits.style htraits
  | @head x c hc _ ih =>
    cases h with
    | zero => cases hs
    | succ h =>
      obtain ⟨m, hm, hcm⟩ := mem_childrenOf.mp hc
      obtain ⟨m', hm', hl⟩ := hr.find hm
      rw [unfold_succ hm] at hs he
      rw [unfold_succ hm', hl.children] at he
      rw [Option.isSome_map] at hs
      obtain ⟨cs, hcs⟩ := Option.isSome_iff_exists.mp hs
      have hlist : m.children.mapM (s.unfold h) = m.children.mapM (t.unfold h) := by
        rw [hcs] at he ⊢
        obtain ⟨ds, hds, hd⟩ := Option.map_eq_some_iff.mp he
        rw [hds, (Unfolding.node.inj hd).2]
      exact ih (mapM_isSome.mp hs c hcm) (mapM_inj hlist hs c hcm)

theorem Restyled.unfold_eq_iff (hr : t.Restyled d style s) (hn : t.find? d = some n)
    (hg : t.Grounded a) :
    (∀ depth, s.unfold depth a = t.unfold depth a) ↔ ¬ t.Reaches a d ∨ style = n.style := by
  refine ⟨fun he => ?_, fun ho depth => ?_⟩
  · by_cases hx : t.Reaches a d
    · obtain ⟨depth, hs⟩ := hg
      exact Or.inr (hr.style_eq hn hx hs (he depth))
    · exact Or.inl hx
  · rcases ho with hx | rfl
    · exact hr.unfold_other hx
    · refine congrFun (unfold_congr (fun x => ?_) depth) a
      cases hm : t.find? x with
      | none => simp [not_live.mp fun hs => not_live.mpr hm (hr.live x hs)]
      | some m =>
        by_cases hx : x = d
        · subst hx
          obtain rfl : n = m := Option.some.inj (hn.symm.trans hm)
          obtain ⟨m', hm', hc⟩ := hr.self n hn
          simpa [hm'] using And.intro hc.traits hc.links.children
        · obtain ⟨m', hm', hc⟩ := hr.other x m hx hm
          simpa [hm'] using And.intro hc.traits hc.links.children

def styleOf (t : Tree α) (id : NodeId) : Option (Style α) := (t.find? id).map Node.style

theorem Restyled.styleOf (hr : t.Restyled d style s) (hd : t.Live d) (x : NodeId) :
    s.styleOf x = if x = d then some style else t.styleOf x := by
  unfold Tree.styleOf
  split
  · rename_i hx
    subst hx
    obtain ⟨n, hn⟩ := hd
    obtain ⟨m, hm, hc⟩ := hr.self n hn
    rw [hm, hc]
    rfl
  · rename_i hx
    cases hn : t.find? x with
    | none => simp [not_live.mp fun hs => not_live.mpr hn (hr.live x hs)]
    | some n =>
      obtain ⟨m, hm, hc⟩ := hr.other x n hx hn
      rw [hm, hc]
      rfl

theorem Restyled.styles_eq_iff (hr : t.Restyled d style s) (hn : t.find? d = some n) :
    (∀ x, t.Reaches a x → s.childrenOf x = t.childrenOf x ∧ s.styleOf x = t.styleOf x) ↔
      ¬ t.Reaches a d ∨ style = n.style := by
  have hold : t.styleOf d = some n.style := by simp [Tree.styleOf, hn]
  refine ⟨fun he => ?_, fun ho x hx => ⟨by rw [hr.childrenOf], ?_⟩⟩
  · by_cases hx : t.Reaches a d
    · have hd := (he d hx).2
      rw [hr.styleOf ⟨n, hn⟩, if_pos rfl, hold] at hd
      exact Or.inr (Option.some.inj hd)
    · exact Or.inl hx
  · rw [hr.styleOf ⟨n, hn⟩]
    split
    · rename_i hxd
      subst hxd
      rcases ho with ho | ho
      · exact absurd hx ho
      · rw [hold, ho]
    · rfl

end Tree

namespace Edit

variable [Scalar α] {t : Tree α} {d : NodeId} {n : Node α}

theorem updateStyle_run (hn : t.find? d = some n) (hs : n.isShared = false)
    (f : Style α → Style α) :
    ∃ s, (updateStyle d f).apply t = (.ok ⟨⟩, s) ∧ t.Restyled d (f n.style) s := by
  have hupdate := Tree.restyled_update t d (f n.style)
  refine ⟨_, apply_updateStyle hn hs f, ?_⟩
  split
  · exact hupdate.soilUpwards d
  · exact hupdate

end Edit

namespace Tree

variable {t s u : Tree α} {c d p x : NodeId} {i h : Nat} {n : Node α}

theorem Opened.reaches_owner (ho : t.Opened p i c s) (ht : t.Arena) (hx : t.Live x)
    (hr : s.Reaches x p) : t.Reaches x p := by
  -- Up to the owner the way leads through nodes whose lists are as they were.
  induction hr using Relation.ReflTransGen.head_induction_on with
  | refl => exact .refl
  | @head x b hc _ ih =>
    by_cases hxp : x = p
    · rw [hxp]
      exact .refl
    · rw [ho.childrenOf_other hx hxp] at hc
      exact (ih (ht.accounted.live hc)).of_child hc

theorem Opened.reaches_child (ho : t.Opened p i c s) (hx : x ≠ c) (hr : s.Reaches x c) :
    s.Reaches x p := by
  rcases Relation.ReflTransGen.cases_tail hr with he | ⟨q, hq, hc⟩
  · exact absurd he.symm hx
  · exact ho.lister hc ▸ hq

theorem Opened.unfold_owner (ho : t.Opened p i c s) (hg : s.Grounded p)
    (hn : s.find? c = some n) {f : Style α → Style α} (hr : s.Restyled c (f n.style) u) :
    u.unfold h p = (s.unfold h p).map (.restyleChild i f) := by
  cases h with
  | zero => rfl
  | succ h =>
    have hc : c ∈ s.childrenOf p := List.mem_of_getElem? ho.listed
    obtain ⟨m, hm, -⟩ := mem_childrenOf.mp hc
    have hlist := childrenOf_eq hm
    have hpc : p ≠ c := by
      rintro rfl
      exact hg.not_reached hc .refl
    obtain ⟨m', hm', hcore⟩ := hr.other p m hpc hm
    have hnodup := ho.sound.arena.nodup hm
    have hlisted := ho.listed
    rw [hlist] at hlisted
    have hmap : m.children.mapM (u.unfold h) =
        (m.children.mapM (s.unfold h)).map fun ys => ys.modify i (.restyle f) := by
      refine mapM_modify fun j x hj => ?_
      split
      · rename_i hji
        subst hji
        obtain rfl : x = c := Option.some.inj (hj.symm.trans hlisted)
        refine hr.unfold_self hn fun d hd hdr => ?_
        exact (hg.child hc).not_reached hd hdr
      · rename_i hji
        have hxp : x ∈ s.childrenOf p := by
          rw [hlist]
          exact List.mem_of_getElem? hj
        have hxc : x ≠ c := by
          rintro rfl
          have hlt := (List.getElem?_eq_some_iff.mp hj).1
          exact hji ((List.getElem?_inj hlt hnodup).mp (hj.trans hlisted.symm))
        exact hr.unfold_other fun hx => hg.not_reached hxp (ho.reaches_child hxc hx)
    rw [unfold_succ hm, unfold_succ hm', hcore.traits, hcore.links.children, hmap, Option.map_map,
      Option.map_map]
    rfl

variable [Scalar α]

/-- Without cycles, a style that is written through the owner of a child shows in that child of
that owner and in no other node from which the owner is not reached. -/
theorem updateChildStyle_writes_through (ht : t.Arena) (hh : t.Hookless) (ha : t.Acyclic)
    {owner : NodeId} {index : Nat} (hi : index < (t.childrenOf owner).length)
    (f : Style α → Style α) :
    ∃ c s, (Edit.updateChildStyle owner index f).apply t = (.ok c, s) ∧
      (s.childrenOf owner)[index]? = some c ∧ s.ownerOf c = some owner ∧
      (s.find? c).map Node.isShared = some false ∧
      t.Grounded owner ∧
      (∀ depth, s.unfold depth owner = (t.unfold depth owner).map (.restyleChild index f)) ∧
      ∀ x, t.Live x → ¬ t.Reaches x owner → x ≠ c →
        s.Live x ∧ t.Grounded x ∧ ∀ depth, s.unfold depth x = t.unfold depth x := by
  have hsound : t.Sound := ⟨ht, hh⟩
  obtain ⟨c₀, hc₀⟩ : ∃ c₀, c₀ ∈ t.childrenOf owner := ⟨_, List.getElem_mem hi⟩
  obtain ⟨n, hn, -⟩ := mem_childrenOf.mp hc₀
  rw [childrenOf_eq hn] at hi
  obtain ⟨c, u, hrun, ho⟩ := Edit.childForWrite_run hsound hn hi
  obtain ⟨m, hm, hs⟩ := ho.unshared
  obtain ⟨s, hwrite, hr⟩ := Edit.updateStyle_run hm hs f
  obtain ⟨m', hm', hl⟩ := hr.find hm
  have hground : t.Grounded owner := ha.grounded ht ⟨n, hn⟩
  have hsame := fun depth => ho.unfold ht ⟨n, hn⟩ depth
  have hg : u.Grounded owner := hground.imp fun depth hd => by rwa [hsame]
  refine ⟨c, s, ?_, ?_, ?_, ?_, hground, fun depth => ?_, fun x hx hxo hxc => ?_⟩
  · simp [Edit.updateChildStyle, Edit.apply_bind, hrun, hwrite, Except.map]
  · rw [hr.childrenOf, ho.listed]
  · rw [hr.ownerOf ⟨m, hm⟩, ho.owned]
  · rw [Node.isShared] at hs
    simp [hm', Node.isShared, hl.count, hs]
  · rw [ho.unfold_owner hg hm hr, hsame]
  · have hnot : ¬ u.Reaches x c := fun hxr =>
      hxo (ho.reaches_owner ht hx (ho.reaches_child hxc hxr))
    obtain ⟨k, hk⟩ := ho.live hx
    obtain ⟨k', hk', -⟩ := hr.find hk
    exact ⟨⟨k', hk'⟩, ha.grounded ht hx, fun depth => by
      rw [hr.unfold_other hnot, ho.unfold ht hx]⟩

theorem specimen_copy_unreached : ¬ specimen.Reaches ⟨1, 1⟩ ⟨4, 1⟩ := by
  intro hr
  obtain he | ⟨q, -, hq⟩ := Relation.ReflTransGen.cases_tail hr
  · cases he
  · have hnone : ∀ q ∈ specimen.ids, (⟨4, 1⟩ : NodeId) ∉ specimen.childrenOf q := by
      decide +kernel
    obtain ⟨n, hn, -⟩ := mem_childrenOf.mp hq
    exact hnone q (mem_ids.mpr ⟨n, hn⟩) hq

/-- The copy of a root gets a child of its own to write on, and the root stands for what it stood
for. -/
theorem updateChildStyle_writes_through_copy :
    specimen.Arena ∧ specimen.Hookless ∧ specimen.Acyclic ∧
    0 < (specimen.childrenOf ⟨4, 1⟩).length ∧ ¬ specimen.Reaches ⟨1, 1⟩ ⟨4, 1⟩ ∧
    ∃ s, (Edit.updateChildStyle ⟨4, 1⟩ 0 fun style => { style with display := .none }).apply
        specimen = (.ok ⟨5, 1⟩, s) ∧
      (∀ depth, s.unfold depth ⟨4, 1⟩ = (specimen.unfold depth ⟨4, 1⟩).map
        (.restyleChild 0 fun style => { style with display := .none })) ∧
      ∀ depth, s.unfold depth ⟨1, 1⟩ = specimen.unfold depth ⟨1, 1⟩ := by
  have hs := specimen_reachable.sound
  have hi : 0 < (specimen.childrenOf ⟨4, 1⟩).length := by decide +kernel
  have hroot : ⟨1, 1⟩ ∈ specimen.ids := by decide +kernel
  have hname : ((Edit.updateChildStyle ⟨4, 1⟩ 0 fun style => { style with display := .none }).apply
      specimen).1.toOption = some ⟨5, 1⟩ := by decide +kernel
  obtain ⟨c, s, hrun, -, -, -, -, howner, hother⟩ :=
    updateChildStyle_writes_through hs.arena hs.hookless specimen_acyclic hi
      fun style => { style with display := .none }
  obtain rfl : c = ⟨5, 1⟩ := by simpa [hrun, Except.toOption] using hname
  exact ⟨hs.arena, hs.hookless, specimen_acyclic, hi, specimen_copy_unreached, s, hrun, howner,
    (hother ⟨1, 1⟩ (mem_ids.mp hroot) specimen_copy_unreached (by simp)).2.2⟩

end Tree

/-- The ways to write a style on a node directly. -/
inductive StyleWrite (α : Type)
  | update (f : Style α → Style α)
  | set (style : Style α)
  | copy (src : NodeId)

namespace StyleWrite

/-- The style that comes in the place of the old one; none if it is to be read from a node that is
not there. -/
def style? (t : Tree α) (old : Style α) : StyleWrite α → Option (Style α)
  | update f => some (f old)
  | set style => some style
  | copy src => t.styleOf src

def edit [Scalar α] (d : NodeId) : StyleWrite α → Edit α Unit
  | update f => Edit.updateStyle d f
  | set style => Edit.setStyle d style
  | copy src => Edit.copyStyle d src

theorem apply_edit [Scalar α] {t : Tree α} {d : NodeId} {n : Node α} {style : Style α}
    (w : StyleWrite α) (hw : w.style? t n.style = some style) :
    ∃ f, f n.style = style ∧ (w.edit d).apply t = (Edit.updateStyle d f).apply t := by
  cases w with
  | update f => exact ⟨f, Option.some.inj hw, rfl⟩
  | set style' => exact ⟨fun _ => style', Option.some.inj hw, rfl⟩
  | copy src =>
    obtain ⟨m, hm, rfl⟩ := Option.map_eq_some_iff.mp hw
    refine ⟨fun _ => m.style, rfl, ?_⟩
    simp [edit, Edit.copyStyle, Edit.setStyle, Edit.apply_bind, Edit.apply_node hm]

end StyleWrite

namespace Tree

variable [Scalar α] {t : Tree α} {d : NodeId} {n : Node α} {style : Style α}

omit [Scalar α] in
theorem Arena.isShared_iff (ht : t.Arena) (hn : t.find? d = some n) :
    n.isShared = true ↔ ∃ p, d ∈ t.childrenOf p ∧ ¬ t.owns p d := by
  refine ⟨fun hs => ?_, fun ⟨p, hp, ho⟩ => ?_⟩
  · have hpos : 0 < (t.sharers d).card := by
      rw [← ht.count hn]
      exact Nat.pos_of_ne_zero (by simpa [Node.isShared] using hs)
    obtain ⟨p, hp⟩ := Finset.card_pos.mp hpos
    exact ⟨p, (Finset.mem_filter.mp hp).2⟩
  · have hpos := ht.sharedCount_pos hn hp ho
    simp [Node.isShared]
    omega

/-- A direct write is refused exactly for a node that some other than its owner lists. Any other
shows in all that reaches the node, copies of what is above it included, unless the style is the one
that was there. -/
theorem style_write_shows_where_reached (h : t.Reachable) (w : StyleWrite α)
    (hn : t.find? d = some n) (hw : w.style? t n.style = some style) :
    ((∃ p, d ∈ t.childrenOf p ∧ ¬ t.owns p d) →
      (w.edit d).apply t = (.error (.sharedNode d), t)) ∧
    ((∀ p, d ∈ t.childrenOf p → t.owns p d) →
      ∃ s, (w.edit d).apply t = (.ok ⟨⟩, s) ∧ ∀ a,
        ((∀ x, t.Reaches a x → s.childrenOf x = t.childrenOf x ∧ s.styleOf x = t.styleOf x) ↔
          ¬ t.Reaches a d ∨ style = n.style) ∧
        (t.Grounded a → ((∀ depth, s.unfold depth a = t.unfold depth a) ↔
          ¬ t.Reaches a d ∨ style = n.style))) := by
  obtain ⟨f, rfl, hedit⟩ := w.apply_edit (d := d) hw
  have hshared := h.sound.arena.isShared_iff hn
  rw [hedit]
  refine ⟨fun hp => ?_, fun hall => ?_⟩
  · simp [Edit.updateStyle, Edit.apply_bind, Edit.apply_node hn, hshared.mpr hp]
  have hs : n.isShared = false := by
    by_contra hs
    obtain ⟨p, hp, ho⟩ := hshared.mp (by simpa using hs)
    exact ho (hall p hp)
  obtain ⟨s, hrun, hr⟩ := Edit.updateStyle_run hn hs f
  exact ⟨s, hrun, fun a => ⟨hr.styles_eq_iff hn, fun hg => hr.unfold_eq_iff hn hg⟩⟩

/-- The grandchild of a root is reached from a copy of the root, and no list but its owner's has
it: what is written on it shows in the copy. -/
theorem style_write_shows_in_copy :
    specimen.Reachable ∧ specimen.Reaches ⟨4, 1⟩ ⟨3, 1⟩ ∧
    ∃ s, (Edit.updateStyle ⟨3, 1⟩ fun style => { style with display := .none }).apply specimen =
        (.ok ⟨⟩, s) ∧
      ¬ ∀ depth, s.unfold depth ⟨4, 1⟩ = specimen.unfold depth ⟨4, 1⟩ := by
  have hreach : specimen.Reaches ⟨4, 1⟩ ⟨3, 1⟩ :=
    .head (show ⟨2, 1⟩ ∈ specimen.childrenOf ⟨4, 1⟩ by decide +kernel)
      (.single (show ⟨3, 1⟩ ∈ specimen.childrenOf ⟨2, 1⟩ by decide +kernel))
  have hdisplay : (specimen.find? ⟨3, 1⟩).map (fun n => n.style.display) = some .flex := by
    decide +kernel
  obtain ⟨n, hn, hflex⟩ := Option.map_eq_some_iff.mp hdisplay
  have howned : ∀ p ∈ specimen.ids, ⟨3, 1⟩ ∈ specimen.childrenOf p → specimen.owns p ⟨3, 1⟩ := by
    decide +kernel
  obtain ⟨-, hwrite⟩ := style_write_shows_where_reached specimen_reachable
    (.update fun style => { style with display := .none }) hn rfl
  obtain ⟨s, hrun, hshows⟩ := hwrite fun p hp => by
    obtain ⟨m, hm, -⟩ := mem_childrenOf.mp hp
    exact howned p (mem_ids.mpr ⟨m, hm⟩) hp
  refine ⟨specimen_reachable, hreach, s, hrun, fun hsame => ?_⟩
  rcases ((hshows ⟨4, 1⟩).2 specimen_grounded).mp hsame with hno | hstyle
  · exact hno hreach
  · have hd := congrArg Style.display hstyle
    rw [hflex] at hd
    cases hd

end Tree

end Flexbox
