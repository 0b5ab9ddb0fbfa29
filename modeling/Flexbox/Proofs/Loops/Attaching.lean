import Flexbox.Proofs.Loops.Keeping

namespace Flexbox

namespace Tree

variable {α : Type} {t s : Tree α} {p x y : NodeId} {cs : List NodeId}

theorem Filed.ranked (h : t.Filed) (f : NodeId → NodeId) : t.Ranked (fun _ _ => True) f :=
  ⟨h, fun _ => trivial⟩

/-- Children, and as such the nodes that are to be attached. -/
def Joins (t : Tree α) (p : NodeId) (cs : List NodeId) (x y : NodeId) : Prop :=
  y ∈ t.childrenOf x ∨ x = p ∧ y ∈ cs

theorem below_joined (hxy : Relation.TransGen (t.Joins p cs) x y) :
    Relation.TransGen (fun p c => c ∈ t.childrenOf p) x y ∨
      t.Reaches x p ∧ ∃ c ∈ cs, t.Reaches c y := by
  induction hxy with
  | single hy =>
    rcases hy with hy | ⟨rfl, hy⟩
    · exact Or.inl (.single hy)
    · exact Or.inr ⟨.refl, _, hy, .refl⟩
  | tail _ hz ih =>
    rcases hz with hz | ⟨rfl, hz⟩
    · rcases ih with ih | ⟨hp, c, hc, hcy⟩
      · exact Or.inl (ih.tail hz)
      · exact Or.inr ⟨hp, c, hc, hcy.tail hz⟩
    · refine Or.inr ⟨?_, _, hz, .refl⟩
      rcases ih with ih | ⟨hp, -⟩
      · exact ih.to_reflTransGen
      · exact hp

/-- Ranks can be kept on the way from `t` to `s`, and lists other than that of `p` are. -/
def Keeps (p : NodeId) (t s : Tree α) : Prop := ∀ R f, t.Ranked R f → ∃ g, t.Follows {p} R f s g

/-- What an attempt to put some nodes on the list of `p` came to. If it succeeds they are there, and
ranks can be kept that put them below `p`; if it fails then nothing was attached. -/
def Attached (t : Tree α) (p : NodeId) (cs : List NodeId) : Except Fault Unit × Tree α → Prop
  | (.error _, s) => Keeps p t s
  | (.ok _, s) => (∀ c ∈ cs, c ∈ s.childrenOf p) ∧
      ∀ R f, t.Ranked R f → (∀ c ∈ cs, R (f p) (f c)) → ∃ g, t.Follows {p} R f s g

theorem Attached.filed {o : Except Fault Unit × Tree α} (h : t.Attached p cs o) (ht : t.Filed) :
    o.2.Filed := by
  obtain ⟨_ | _, s⟩ := o
  · obtain ⟨g, hg⟩ := h _ _ (ht.ranked id)
    exact hg.ranked.toFiled
  · obtain ⟨g, hg⟩ := h.2 _ _ (ht.ranked id) fun _ _ => trivial
    exact hg.ranked.toFiled

theorem Attached.acyclic_iff (h : t.Attached p cs (.ok ⟨⟩, s)) (ht : t.Filed) (ha : t.Acyclic) :
    s.Acyclic ↔ ∀ c ∈ cs, ¬ t.Reaches c p := by
  constructor
  · intro hs c hc hr
    obtain ⟨g, hg⟩ := h.2 _ _ (ht.ranked id) fun _ _ => trivial
    refine hs p (.head' (h.1 c hc) ?_)
    -- The way up to `p` goes through lists that are as they were.
    clear hc
    induction hr using Relation.ReflTransGen.head_induction_on with
    | refl => exact .refl
    | @head x _ hy _ ih =>
      by_cases hxp : x = p
      · rw [hxp]
      · obtain ⟨n, hn, -⟩ := mem_childrenOf.mp hy
        exact .head (by rwa [(hg.kept ⟨n, hn⟩ hxp).2]) ih
  · intro hno
    obtain ⟨g, hg⟩ := h.2 (Relation.TransGen (t.Joins p cs)) id ⟨ht, fun hc => .single (Or.inl hc)⟩
      fun c hc => .single (Or.inr ⟨rfl, hc⟩)
    refine hg.ranked.acyclic fun x hx => ?_
    rcases below_joined hx with hx | ⟨hxp, c, hc, hcx⟩
    · exact ha x hx
    · exact hno c hc (hcx.trans hxp)

end Tree

namespace Edit

open Tree

variable {α β : Type} {t s : Tree α} {p c : NodeId} {cs : List NodeId}

theorem apply_bind_eq_ok {β γ : Type} {e : Edit α β} {k : β → Edit α γ} {d : γ}
    (h : (e >>= k).apply t = (.ok d, s)) :
    ∃ b u, e.apply t = (.ok b, u) ∧ (k b).apply u = (.ok d, s) := by
  rw [apply_bind] at h
  rcases hr : e.apply t with ⟨_ | b, u⟩
  · simp [hr] at h
  · exact ⟨b, u, rfl, by simpa [hr] using h⟩

section Rules

variable (hs : Keeps p t s)

include hs

theorem attached_throw (x : Fault) {k : β → Edit α Unit} :
    t.Attached p cs (((throw x : Edit α β) >>= k).apply s) :=
  hs

theorem attached_node {id : NodeId} {k : Node α → Edit α Unit}
    (hk : ∀ n, s.find? id = some n → t.Attached p cs ((k n).apply s)) :
    t.Attached p cs ((node id >>= k).apply s) := by
  rw [apply_bind]
  cases hn : s.find? id with
  | none =>
    rw [apply_node_none hn]
    exact hs
  | some n =>
    rw [apply_node hn]
    exact hk n hn

theorem attached_bind {e : Edit α β} {k : β → Edit α Unit} (he : e.Tame {p})
    (hk : ∀ b u, e.apply s = (.ok b, u) → Keeps p t u → t.Attached p cs ((k b).apply u)) :
    t.Attached p cs ((e >>= k).apply s) := by
  have hu : Keeps p t (e.apply s).2 := fun R f h =>
    have ⟨_, hg⟩ := hs R f h
    he.after hg
  rw [apply_bind]
  rcases hrun : e.apply s with ⟨_ | b, u⟩
  · rwa [hrun] at hu
  · rw [hrun] at hu
    exact hk b u hrun hu

/-- The nodes are put on the list of `p`, and all that follows succeeds and leaves lists alone. -/
theorem attached_write (ht : t.Filed) (hp : t.Live p) (hcs : ∀ c ∈ cs, t.Live c)
    {w : Node α → Node α} {k : PUnit → Edit α Unit} (hw : ∀ m, s.find? p = some m →
      (∀ y ∈ (w m).children, y ∈ m.children ∨ y ∈ cs) ∧ ∀ c ∈ cs, c ∈ (w m).children)
    (htame : (k ⟨⟩).Tame ∅)
    (hruns : ∀ u : Tree α, u.Live p → (∀ c ∈ cs, u.Live c) → (k ⟨⟩).Runs u fun _ => True) :
    t.Attached p cs ((change p w >>= k).apply s) := by
  rw [apply_bind]
  cases hm : s.find? p with
  | none =>
    rw [apply_change_none hm]
    exact hs
  | some m =>
  obtain ⟨hback, hlisted⟩ := hw m hm
  have hself : (s.update p w).find? p = some (w m) := by rw [find?_update_self, hm]; rfl
  have hlive : ∀ c ∈ cs, (s.update p w).Live c := by
    intro c hc
    by_cases hcp : c = p
    · rw [hcp]
      exact ⟨_, hself⟩
    · obtain ⟨g, hg⟩ := hs _ _ (ht.ranked id)
      exact live_update.mpr (hg.kept (hcs c hc) hcp).1
  obtain ⟨_, v, hrun, -⟩ := hruns _ ⟨_, hself⟩ hlive
  have hall : ∀ R f, t.Ranked R f → (∀ c ∈ cs, R (f p) (f c)) → ∃ g j,
      t.Follows {p} R f (s.update p w) g ∧ (s.update p w).Follows ∅ R g v j := by
    intro R f h hR
    obtain ⟨g, hg⟩ := hs R f h
    have hwrite : t.Follows {p} R f (s.update p w) g := by
      refine hg.write p (Or.inl rfl) fun n hn c hc => ?_
      obtain rfl := Option.some.inj (hn.symm.trans hm)
      rcases hback c hc with hc | hc
      · exact beneath_children hg.ranked hm c hc
      · obtain ⟨hknown, hrank⟩ := hg.named (hcs c hc).known
        exact ⟨hknown, by rw [hrank, (hg.named hp.known).2]; exact hR c hc⟩
    obtain ⟨_, _, j, hrun', hj, -⟩ := htame hwrite.ranked
    obtain rfl : _ = v := (Prod.ext_iff.mp (hrun'.symm.trans hrun)).2
    exact ⟨g, j, hwrite, hj⟩
  rw [apply_change hm]
  dsimp only
  rw [hrun]
  refine ⟨fun c hc => ?_, fun R f h hR => ?_⟩
  · obtain ⟨g, j, -, hj⟩ := hall _ _ (ht.ranked id) fun _ _ => trivial
    rw [(hj.kept ⟨_, hself⟩ (Set.notMem_empty p)).2, childrenOf_eq hself]
    exact hlisted c hc
  · obtain ⟨g, j, hg, hj⟩ := hall R f h hR
    exact ⟨j, hg.trans (hj.mono (Set.empty_subset _))⟩

end Rules

theorem keeps_refl : Keeps p t t := fun _ f h => ⟨f, h.follows⟩

theorem runs_adopt (hp : t.Live p) (hc : t.Live c) :
    (do change c fun n => { n with owner := some p }; propagateDirty p : Edit α Unit).Runs t
      fun _ => True := by
  obtain ⟨n, hn⟩ := hc
  exact runs_bind (apply_change hn _) (runs_propagateDirty (live_update.mpr hp) trivial)

variable [Scalar α]

theorem forgetOwned_tame {X : Set NodeId} (p c : NodeId) :
    (forgetOwned p c : Edit α Unit).Tame X :=
  tame_modify fun h => h.follows.update c fun n => by split <;> rfl

theorem copyAll_length {choose : Option (NodeId → Nat → Option Replacement)} {ks : List NodeId}
    {i : Nat} (h : (copyAll p choose i cs).apply t = (.ok ks, s)) : ks.length = cs.length := by
  induction cs generalizing t s i ks with
  | nil =>
    cases h
    rfl
  | cons c cs ih =>
    obtain ⟨k, u, -, h⟩ := apply_bind_eq_ok h
    obtain ⟨rest, v, hrest, h⟩ := apply_bind_eq_ok (apply_bind_eq_ok h).choose_spec.choose_spec.2
    cases h
    rw [List.length_cons, List.length_cons, ih hrest]

theorem ownChildren_length {n m : Node α} {b : Unit} (hn : t.find? p = some n)
    (h : (ownChildren p).apply t = (.ok b, s)) (hm : s.find? p = some m) :
    m.children.length = n.children.length := by
  rw [ownChildren, apply_bind, apply_node hn] at h
  dsimp only at h
  split at h
  · cases h
    rw [Option.some.inj (hm.symm.trans hn)]
  · rename_i first _ _
    obtain ⟨d, u, hd, hrest⟩ := apply_bind_eq_ok h
    have hu := apply_node_snd (t := t) first
    rw [hd] at hu
    obtain rfl : u = t := hu
    split at hrest
    · cases hrest
      rw [Option.some.inj (hm.symm.trans hn)]
    · obtain ⟨ks, v, hks, hput⟩ := apply_bind_eq_ok hrest
      cases hv : v.find? p with
      | none => simp [apply_change_none hv] at hput
      | some k =>
        rw [apply_change hv] at hput
        cases hput
        rw [find?_update_self, hv] at hm
        cases hm
        exact copyAll_length hks

theorem insertChild_attached (ht : t.Filed) (p c : NodeId) (i : Nat) :
    t.Attached p [c] ((insertChild p c i).apply t) := by
  refine attached_node keeps_refl fun d hd => ?_
  dsimp only
  split
  · exact attached_throw keeps_refl _
  refine attached_node keeps_refl fun n hn => ?_
  split
  · exact attached_throw keeps_refl _
  split
  · exact attached_throw keeps_refl _
  rename_i hi
  refine attached_bind keeps_refl (ownChildren_tame p) fun _ s hrun hs => ?_
  refine attached_write hs ht ⟨n, hn⟩ (List.forall_mem_singleton.mpr ⟨d, hd⟩) (fun m hm => ?_)
    (Tame.bind (tame_change c fun _ => rfl) fun _ => tame_propagateDirty p) fun u hp hc => ?_
  · have hle : i ≤ m.children.length := by
      rw [ownChildren_length hn hrun hm]
      exact Nat.not_lt.mp hi
    simp only [List.mem_insertIdx hle, List.mem_singleton, forall_eq, true_or, and_true]
    exact fun y hy => hy.symm
  · exact runs_adopt hp (hc c (List.mem_singleton_self c))

theorem addChild_attached (ht : t.Filed) (p c : NodeId) :
    t.Attached p [c] ((addChild p c).apply t) :=
  attached_node keeps_refl fun n _ => insertChild_attached ht p c n.children.length

theorem replaceChild_attached (ht : t.Filed) (p old new : NodeId) :
    t.Attached p [new] ((replaceChild p old new).apply t) := by
  refine attached_node keeps_refl fun n hn => ?_
  split
  · rename_i i hi
    refine attached_node keeps_refl fun d hd => ?_
    dsimp only
    split
    on_goal 1 => split
    · exact attached_throw keeps_refl _
    -- Nobody owns the new child, or `p` does.
    all_goals
      refine attached_bind keeps_refl (ownChildren_tame p) fun _ s _ hs => ?_
      refine attached_node hs fun m hm => ?_
      split
      · rename_i c hc
        refine attached_write hs ht ⟨n, hn⟩ (List.forall_mem_singleton.mpr ⟨d, hd⟩)
          (fun k hk => ⟨?_, ?_⟩) ?_ fun u hp hnew => ?_
        · exact fun y hy => (List.mem_or_eq_of_mem_set hy).imp_right List.mem_singleton.mpr
        · obtain rfl := Option.some.inj (hk.symm.trans hm)
          exact List.forall_mem_singleton.mpr (List.mem_set (List.getElem?_eq_some_iff.mp hc).1 new)
        · exact Tame.bind (forgetOwned_tame p c) fun _ => Tame.bind (tame_unlist p c) fun _ =>
            Tame.bind (tame_change new fun _ => rfl) fun _ => tame_propagateDirty p
        · refine runs_bind rfl (runs_bind rfl (runs_adopt ?_ ?_))
          · exact live_update.mpr (live_update.mpr hp)
          · exact live_update.mpr (live_update.mpr (hnew new (List.mem_singleton_self new)))
      · exact hs
  · exact keeps_refl

theorem setChildren_attached (ht : t.Filed) (p : NodeId) (cs : List NodeId) :
    t.Attached p cs ((setChildren p cs).apply t) := by
  refine attached_node keeps_refl fun n hn => ?_
  dsimp only
  split
  · exact attached_throw keeps_refl _
  obtain ⟨hend, hok⟩ := checkChildren_run (t := t) (p := p) cs []
  rw [apply_bind]
  rcases hr : (checkChildren p [] cs).apply t with ⟨_ | _, s⟩
  · rw [hr] at hend
    obtain rfl : s = t := hend
    exact keeps_refl
  rw [hr] at hend hok
  obtain rfl : s = t := hend
  have hnew := (hok rfl).1
  refine attached_node keeps_refl fun m _ => ?_
  refine attached_bind keeps_refl (tame_drop (Set.mem_singleton p) fun _ => List.nil_subset _)
    fun _ u _ hu => ?_
  refine attached_bind hu (tame_forIn (fun c => ?_) _) fun _ v _ hv => ?_
  · have hlet : (do modify fun t => t.unlist p c; pure (ForInStep.yield PUnit.unit) :
        Edit α (ForInStep PUnit)).Tame {p} := (tame_unlist p c).bind fun _ => tame_pure _
    split
    · exact Tame.bind (forgetOwned_tame p c) fun _ => hlet
    · exact hlet
  split
  · rename_i hnone
    obtain rfl : cs = [] := by simp_all
    exact ⟨by simp, fun R f h _ => hv R f h⟩
  · refine attached_write hv ht ⟨n, hn⟩ (fun c hc => (hnew c hc).2.1)
      (fun _ _ => ⟨fun _ hy => Or.inr hy, fun _ hc => hc⟩) ?_ fun w hp hcs => ?_
    · refine Tame.bind (tame_forIn (fun c => ?_) cs) fun _ => tame_propagateDirty p
      exact Tame.bind (tame_change c fun _ => rfl) fun _ => tame_pure _
    · refine runs_forIn (I := fun rest s => s.Live p ∧ ∀ c ∈ rest, s.Live c) ?_ ⟨hp, hcs⟩
        fun s hs => runs_propagateDirty hs.1 trivial
      rintro c rest s ⟨hp, hcs⟩
      obtain ⟨⟨k, hk⟩, hrest⟩ := List.forall_mem_cons.mp hcs
      exact ⟨_, by rw [apply_bind, apply_change hk]; rfl, live_update.mpr hp,
        fun d hd => live_update.mpr (hrest d hd)⟩

end Edit

end Flexbox
