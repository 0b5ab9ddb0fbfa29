import Flexbox.Proofs.Unfolding
import Flexbox.Proofs.Lifecycle

namespace Flexbox

variable {α : Type}

namespace Tree

variable {t s u : Tree α} {id k : NodeId} {n : Node α} {x : NodeId}
  {R : NodeId → NodeId → Prop} {f : Node α → Node α} {P : NodeId → Prop} {ds cs : List NodeId}
  {root c y d : NodeId} {v : Tree α}

/-- Nodes list nodes that are there, and measured ones none. -/
structure Ordered (t : Tree α) : Prop where
  tidy : t.Tidy
  live : ∀ {x n c}, t.find? x = some n → c ∈ n.children → t.Live c
  leaf : ∀ {x n}, t.find? x = some n → n.measure.isSome → n.children = []

theorem Arena.ordered (h : t.Arena) : t.Ordered := ⟨h.tidy, h.live, h.leaf⟩

theorem Sound.ordered (h : t.Sound) : t.Ordered := h.arena.ordered

theorem Ordered.update (h : t.Ordered) (id : NodeId)
    (hf : ∀ n, t.find? id = some n → (∀ c ∈ (f n).children, t.Live c) ∧
      ((f n).measure.isSome → (f n).children = [])) :
    (t.update id f).Ordered := by
  have hback : ∀ {x n}, (t.update id f).find? x = some n → (∀ c ∈ n.children, t.Live c) ∧
      (n.measure.isSome → n.children = []) := by
    intro x n hn
    obtain ⟨m, rfl, hm, rfl⟩ | ⟨-, hn⟩ := find?_update_cases hn
    · exact hf m hm
    · exact ⟨fun c hc => h.live hn hc, h.leaf hn⟩
  exact ⟨h.tidy.update id f, fun hn hc => live_update.mpr ((hback hn).1 _ hc),
    fun hn => (hback hn).2⟩

theorem Ordered.insert (h : t.Ordered) (hc : n.children = []) : (t.insert n).2.Ordered := by
  have hfind := h.tidy.find?_insert n
  have hback : ∀ {x m}, (t.insert n).2.find? x = some m → t.find? x = some m ∨ m = n := by
    intro x m hm
    rw [hfind] at hm
    split at hm
    · exact Or.inr (Option.some.inj hm).symm
    · exact Or.inl hm
  refine ⟨h.tidy.insert n, ?_, ?_⟩
  · intro x m c hm hmc
    rcases hback hm with hm | rfl
    · obtain ⟨k, hk⟩ := h.live hm hmc
      unfold Live
      rw [hfind]
      split
      · exact ⟨_, rfl⟩
      · exact ⟨k, hk⟩
    · simp [hc] at hmc
  · intro x m hm hs
    rcases hback hm with hm | rfl
    · exact h.leaf hm hs
    · exact hc

theorem config_update {m : Node α} (hm : (t.update id f).find? x = some m)
    (hf : ∀ n, (f n).config = n.config) : ∃ n, t.find? x = some n ∧ n.config = m.config := by
  have he : ((t.update id f).find? x).map Node.config = (t.find? x).map Node.config :=
    map_find?_update (fun n _ => hf n) x
  rw [hm] at he
  exact Option.map_eq_some_iff.mp he.symm

/-- `s` has all of `t`, and what is new lists and owns new nodes alone. Every node is under the
config of one that was there. -/
structure Extends (t s : Tree α) : Prop where
  ordered : s.Ordered
  old : ∀ x, t.Live x → s.find? x = t.find? x
  config : s.config = t.config
  configs : ∀ {x n}, s.find? x = some n → ∃ y m, t.find? y = some m ∧ m.config = n.config
  new : ∀ {x n c}, ¬ t.Live x → s.find? x = some n → c ∈ n.children →
    ¬ t.Live c ∧ s.ownerOf c = some x

/-- A new tree in `s`, below `k`, whatever the lists of old nodes are meant to be. -/
structure Cloned (t s : Tree α) (k : NodeId) : Prop extends t.Extends s where
  fresh : ¬ t.Live k
  live : s.Live k
  root : s.ownerOf k = none
  reached : ∀ x, s.Live x → t.Live x ∨ s.Reaches k x
  books : ∀ {L L' : Roster}, (∀ x, t.Live x → L' x = L x) →
    (∀ x, ¬ t.Live x → L' x = s.childrenOf x) → t.Accounted L → s.Accounted L'

theorem Extends.live (h : t.Extends s) (hx : t.Live x) : s.Live x := by
  obtain ⟨n, hn⟩ := hx
  exact ⟨n, by rw [h.old x ⟨n, hn⟩, hn]⟩

theorem Extends.childrenOf (h : t.Extends s) (hx : t.Live x) : s.childrenOf x = t.childrenOf x := by
  rw [Tree.childrenOf, h.old x hx, Tree.childrenOf]

theorem Extends.ownerOf (h : t.Extends s) (hx : t.Live x) : s.ownerOf x = t.ownerOf x := by
  rw [Tree.ownerOf, h.old x hx, Tree.ownerOf]

theorem live_of_ownerOf {p : NodeId} (h : t.ownerOf c = some p) : t.Live c := by
  obtain ⟨n, hn, -⟩ := Option.bind_eq_some_iff.mp h
  exact ⟨n, hn⟩

theorem unfold_agree (he : ∀ x, P x → s.find? x = t.find? x)
    (hc : ∀ x n c, P x → t.find? x = some n → c ∈ n.children → P c) (hx : P x) (h : Nat) :
    s.unfold h x = t.unfold h x := by
  induction h generalizing x with
  | zero => rfl
  | succ h ih =>
    cases hn : t.find? x with
    | none => simp [unfold, he x hx, hn]
    | some n =>
      rw [unfold_succ hn, unfold_succ (by rw [he x hx, hn])]
      congr 1
      exact mapM_congr (List.forall₂_same.mpr fun c hm => ih (hc x n c hx hn hm))

theorem reaches_agree (he : ∀ x, P x → s.childrenOf x = t.childrenOf x)
    (hc : ∀ x c, P x → c ∈ t.childrenOf x → P c) (hx : P x) : s.Reaches x y ↔ t.Reaches x y := by
  constructor
  · intro hr
    induction hr using Relation.ReflTransGen.head_induction_on with
    | refl => exact .refl
    | @head x z hz _ ih =>
      rw [he x hx] at hz
      exact (ih (hc x z hx hz)).of_child hz
  · intro hr
    induction hr using Relation.ReflTransGen.head_induction_on with
    | refl => exact .refl
    | @head x z hz _ ih =>
      refine (ih (hc x z hx hz)).of_child ?_
      rwa [he x hx]

theorem Ordered.reached (h : t.Ordered) (hx : t.Live x) (hr : t.Reaches x y) : t.Live y := by
  induction hr with
  | refl => exact hx
  | tail _ hc _ =>
    obtain ⟨n, hn, hc⟩ := mem_childrenOf.mp hc
    exact h.live hn hc

theorem Cloned.arena (h : t.Cloned s k) (ht : t.Arena) : s.Arena := by
  refine Accounted.arena ?_ ?_ h.ordered.leaf
  · exact h.books (fun x hx => h.childrenOf hx) (fun _ _ => rfl) ht.accounted
  · intro p
    by_cases hp : t.Live p
    · refine (whole_congr (h.childrenOf hp) fun c hc => ?_).mpr (ht.whole p)
      obtain ⟨n, hn, hc⟩ := mem_childrenOf.mp hc
      rw [owns, owns, h.ownerOf (ht.live hn hc)]
    · left
      intro c hc
      obtain ⟨n, hn, hc⟩ := mem_childrenOf.mp hc
      simp [owns, (h.new hp hn hc).2]

theorem Cloned.sound (h : t.Cloned s k) (ht : t.Sound) : s.Sound := by
  refine ⟨h.arena ht.arena, by rw [h.config]; exact ht.hookless.1, fun hn => ?_⟩
  obtain ⟨y, m, hm, he⟩ := h.configs hn
  rw [← he]
  exact ht.hookless.2 hm

/-- The copy of a root while the copies `ds` of its children are made: `t` has the root already,
without children. -/
structure Gathering (t u : Tree α) (root : NodeId) (ds : List NodeId) : Prop
    extends t.Extends u where
  owned : ∀ d ∈ ds, ¬ t.Live d ∧ u.ownerOf d = some root
  reached : ∀ x, u.Live x → t.Live x ∨ ∃ d ∈ ds, u.Reaches d x
  books : ∀ {L L' : Roster}, L root = [] → (∀ x, t.Live x → x ≠ root → L' x = L x) →
    L' root = ds → (∀ x, ¬ t.Live x → L' x = u.childrenOf x) → t.Accounted L → u.Accounted L'

theorem Gathering.start (ht : t.Ordered) (root : NodeId) : t.Gathering t root [] := by
  refine ⟨⟨ht, fun _ _ => rfl, rfl, fun hn => ⟨_, _, hn, rfl⟩,
    fun hx hn _ => absurd ⟨_, hn⟩ hx⟩, by simp, fun x hx => Or.inl hx, ?_⟩
  intro L L' hroot hold hnil hnew hL
  have he : L' = L := by
    funext x
    by_cases hx : x = root
    · rw [hx, hnil, hroot]
    · by_cases hl : t.Live x
      · exact hold x hl hx
      · rw [hnew x hl, childrenOf_absent hl, hL.absent x hl]
  rwa [he]

theorem Gathering.add (h : t.Gathering u root ds) (hroot : t.Live root) (hc : u.Cloned s d) :
    t.Gathering (s.update d fun n => { n with owner := some root }) root (ds ++ [d]) := by
  have hdt : ¬ t.Live d := fun hl => hc.fresh (h.live hl)
  have hadopt := ownerOf_adopt (p := root) (f := fun n => { n with owner := some root }) hc.live
    fun _ => rfl
  have hch : (s.update d fun n => { n with owner := some root }).childrenOf = s.childrenOf :=
    childrenOf_update (by intros; rfl)
  have hord : (s.update d fun n => { n with owner := some root }).Ordered := by
    refine hc.ordered.update d fun n hn => ?_
    have hleaf := hc.ordered.leaf hn
    exact ⟨fun _ hm => hc.ordered.live hn hm, hleaf⟩
  refine ⟨⟨hord, ?_, ?_, fun hn => ?_, ?_⟩, ?_, fun x hx => ?_, ?_⟩
  · intro x hx
    have hxd : x ≠ d := fun he => hdt (he ▸ hx)
    rw [find?_update_other _ _ hxd, hc.old x (h.live hx), h.old x hx]
  · rw [update_config, hc.config, h.config]
  · obtain ⟨m, hm, he⟩ := config_update hn fun _ => rfl
    obtain ⟨y, k, hk, he'⟩ := hc.configs hm
    obtain ⟨z, l, hl, he''⟩ := h.configs hk
    exact ⟨z, l, hl, by rw [he'', he', he]⟩
  · intro x n c hx hn hm
    rw [← childrenOf_eq hn, hch] at hm
    obtain ⟨m, hm', hm⟩ := mem_childrenOf.mp hm
    rw [hadopt]
    by_cases hxu : u.Live x
    · have hxn : u.find? x = some m := by rw [← hc.old x hxu, hm']
      obtain ⟨hct, hco⟩ := h.new hx hxn hm
      have hcu := h.ordered.live hxn hm
      have hcd : c ≠ d := fun he => hc.fresh (he ▸ hcu)
      exact ⟨hct, by rw [if_neg hcd, hc.ownerOf hcu, hco]⟩
    · obtain ⟨hcu, hco⟩ := hc.new hxu hm' hm
      have hcd : c ≠ d := by
        rintro rfl
        rw [hc.root] at hco
        cases hco
      exact ⟨fun hct => hcu (h.live hct), by rw [if_neg hcd, hco]⟩
  · intro e he
    rw [hadopt]
    rcases List.mem_append.mp he with he | he
    · obtain ⟨het, heo⟩ := h.owned e he
      have heu := live_of_ownerOf heo
      have hed : e ≠ d := fun he => hc.fresh (he ▸ heu)
      exact ⟨het, by rw [if_neg hed, hc.ownerOf heu, heo]⟩
    · obtain rfl := List.mem_singleton.mp he
      exact ⟨hdt, by simp⟩
  · rw [Reaches, hch]
    rcases hc.reached x (live_update.mp hx) with hxu | hr
    · rcases h.reached x hxu with hxt | ⟨e, he, hr⟩
      · exact Or.inl hxt
      refine Or.inr ⟨e, by simp [he], (reaches_agree (fun y hy => hc.childrenOf hy)
        (fun y z _ hz => ?_) (live_of_ownerOf (h.owned e he).2)).mpr hr⟩
      obtain ⟨n, hn, hz⟩ := mem_childrenOf.mp hz
      exact h.ordered.live hn hz
    · exact Or.inr ⟨d, by simp, hr⟩
  · intro L L' hnil hold hroot' hnew hL
    have hds : ∀ e ∈ ds, u.Live e := fun e he => live_of_ownerOf (h.owned e he).2
    classical
    -- The lists meant before the copy of this child was made, and after.
    let L₁ : Roster := fun x => if x = root then ds else if t.Live x then L x else u.childrenOf x
    let L₂ : Roster := fun x => if u.Live x then L₁ x else s.childrenOf x
    have h₁ : u.Accounted L₁ := h.books hnil (fun x hx hne => by simp [L₁, hx, hne])
      (by simp [L₁]) (fun x hx => by
        have hne : x ≠ root := fun he => hx (he ▸ hroot)
        simp [L₁, hx, hne]) hL
    have h₂ : s.Accounted L₂ := hc.books (fun x hx => by simp [L₂, hx])
      (fun x hx => by simp [L₂, hx]) h₁
    have hroot₂ : L₂ root = ds := by simp [L₂, L₁, h.live hroot]
    obtain ⟨n, hn⟩ := hc.live
    have ho : n.owner = none := by rw [← ownerOf_eq hn, hc.root]
    have h₃ := h₂.adopt (l := ds ++ [d]) (f := fun n => { n with owner := some root })
      (hc.toExtends.live (h.live hroot)) hn ho
      (by rw [hroot₂]; exact fun hm => hc.fresh (hds d hm))
      (by rw [hroot₂]; exact List.perm_append_singleton d ds) (fun _ => rfl) fun _ => rfl
    have he : L' = Function.update L₂ root (ds ++ [d]) := by
      funext x
      by_cases hx : x = root
      · rw [hx, hroot', Function.update_self]
      rw [Function.update_of_ne hx]
      by_cases hxt : t.Live x
      · simp [L₂, L₁, h.live hxt, hxt, hx, hold x hxt hx]
      · rw [hnew x hxt, hch]
        by_cases hxu : u.Live x
        · simp [L₂, L₁, hxu, hxt, hx, hc.childrenOf hxu]
        · simp [L₂, hxu]
    rwa [he]

theorem Gathering.close (h : (t.insert n).2.Gathering u (t.insert n).1 ds) (ht : t.Ordered)
    (ho : n.owner = none) (hz : n.sharedCount = 0) (hm : n.measure.isSome → ds = [])
    (hroot : root = (t.insert n).1) (hnil : n.children = [])
    (hk : ∃ y m, t.find? y = some m ∧ m.config = n.config) :
    t.Cloned (u.update root fun n => { n with children := ds }) root := by
  have hfind := ht.tidy.find?_insert n
  have hfresh : ¬ t.Live root := by
    rw [hroot]
    exact not_live.mpr (ht.tidy.insert_fresh n)
  rw [← hroot] at h hfind
  have hlive : ∀ x, (t.insert n).2.Live x ↔ x = root ∨ t.Live x := by
    intro x
    unfold Live
    rw [hfind]
    split <;> simp_all
  have hrootn : u.find? root = some n := by
    rw [h.old root ((hlive root).mpr (Or.inl rfl)), hfind, if_pos rfl]
  have hwritten : (u.update root fun n => { n with children := ds }).find? root =
      some { n with children := ds } := by
    rw [find?_update_self, hrootn]
    rfl
  have hother : ∀ x, x ≠ root →
      (u.update root fun n => { n with children := ds }).find? x = u.find? x :=
    fun x hx => find?_update_other u _ hx
  have howner : (u.update root fun n => { n with children := ds }).ownerOf = u.ownerOf :=
    ownerOf_update (by intros; rfl)
  have hord : (u.update root fun n => { n with children := ds }).Ordered := by
    refine h.ordered.update root fun m hmn => ?_
    obtain rfl : n = m := Option.some.inj (hrootn.symm.trans hmn)
    exact ⟨fun c hc => live_of_ownerOf (h.owned c hc).2, hm⟩
  have hmore : ∀ x, u.childrenOf x ⊆
      (u.update root fun n => { n with children := ds }).childrenOf x := by
    intro x
    by_cases hx : x = root
    · simp [hx, childrenOf_eq hrootn, hnil]
    · rw [Tree.childrenOf, Tree.childrenOf, hother x hx]
      exact List.Subset.refl _
  refine ⟨⟨hord, ?_, ?_, fun hn => ?_, ?_⟩, hfresh, ⟨_, hwritten⟩, ?_, fun x hx => ?_, ?_⟩
  · intro x hx
    have hne : x ≠ root := fun he => hfresh (he ▸ hx)
    rw [hother x hne, h.old x ((hlive x).mpr (Or.inr hx)), hfind, if_neg hne]
  · rw [update_config, h.config, insert_config]
  · obtain ⟨m, hm, he⟩ := config_update hn fun _ => rfl
    obtain ⟨y, l, hl, he'⟩ := h.configs hm
    rw [hfind] at hl
    split at hl
    · obtain rfl := Option.some.inj hl
      obtain ⟨z, o, ho, he''⟩ := hk
      exact ⟨z, o, ho, by rw [he'', he', he]⟩
    · exact ⟨y, l, hl, he'.trans he⟩
  · intro x m c hx hxm hc
    rw [howner]
    by_cases hne : x = root
    · subst hne
      obtain rfl := Option.some.inj (hwritten.symm.trans hxm)
      obtain ⟨hcl, hco⟩ := h.owned c hc
      exact ⟨fun hct => hcl ((hlive c).mpr (Or.inr hct)), hco⟩
    · have hxl : ¬ (t.insert n).2.Live x := fun hl => ((hlive x).mp hl).elim hne hx
      rw [hother x hne] at hxm
      obtain ⟨hcl, hco⟩ := h.new hxl hxm hc
      exact ⟨fun hct => hcl ((hlive c).mpr (Or.inr hct)), hco⟩
  · rw [howner, ownerOf_eq hrootn, ho]
  · rcases h.reached x (live_update.mp hx) with hl | ⟨d, hd, hr⟩
    · rcases (hlive x).mp hl with rfl | hl
      · exact Or.inr .refl
      · exact Or.inl hl
    · refine Or.inr (.of_child (by rwa [childrenOf_eq hwritten]) ?_)
      exact Relation.ReflTransGen.mono (fun y z hz => hmore y hz) _ _ hr
  · intro L L' hold hnew hL
    have hin : ((t.insert n).2.share []).Accounted (Function.update L root []) := by
      rw [hroot]
      exact hL.enter ho hz List.nodup_nil (by simp)
    refine Accounted.update (h.books (by simp) ?_ ?_ ?_ hin) root (by intros; rfl) (by intros; rfl)
    · intro x hx hne
      rw [Function.update_of_ne hne, hold x (((hlive x).mp hx).resolve_left hne)]
    · rw [hnew root hfresh, childrenOf_eq hwritten]
    · intro x hx
      have hne : x ≠ root := fun he => hx ((hlive x).mpr (Or.inl he))
      rw [hnew x fun hl => hx ((hlive x).mpr (Or.inr hl)), Tree.childrenOf, hother x hne,
        Tree.childrenOf]

/-- `R` leads from nodes below `cs` in `t` to all that is in `s` and was not in `u`. What it leads
to is as the node that it was made of, but for the owner and the count, and lists what `R` leads to
from the list of that node. -/
structure Traced (t u s : Tree α) (cs : List NodeId) (R : NodeId → NodeId → Prop) : Prop where
  copy : ∀ {a b}, R a b → ∃ n o ds, t.find? a = some n ∧
    s.find? b = some { n with owner := o, sharedCount := 0, children := ds } ∧
      List.Forall₂ R n.children ds
  below : ∀ {a b}, R a b → ∃ c ∈ cs, t.Reaches c a
  fresh : ∀ {a b}, R a b → ¬ u.Live b
  whole : ∀ x, s.Live x → ¬ u.Live x → ∃ a, R a x

theorem Traced.unfold (h : Traced t u s cs R) {a b : NodeId} (hab : R a b) (depth : Nat) :
    s.unfold depth b = t.unfold depth a := by
  refine Bisim.unfold (fun x y hxy => ?_) hab depth
  obtain ⟨n, o, ds, hn, hy, hds⟩ := h.copy hxy
  exact ⟨n, _, hn, hy, rfl, hds⟩

theorem Traced.nil (t u : Tree α) : Traced t u u [] fun _ _ => False :=
  ⟨False.elim, False.elim, False.elim, fun _ hx hn => absurd hx hn⟩

theorem Traced.cons {o : Option NodeId} {R' : NodeId → NodeId → Prop} (ht : t.Ordered)
    (hc : t.Live c) (hu : ∀ x, t.Live x → u.find? x = t.find? x) (hs : ∀ x, u.Live x → s.Live x)
    (h : Traced u u s [c] R) (h' : Traced t (s.update d fun n => { n with owner := o }) v cs R')
    (hv : ∀ x, s.Live x → v.find? x = (s.update d fun n => { n with owner := o }).find? x) :
    Traced t u v (c :: cs) fun a b => R a b ∨ R' a b := by
  have hagree : ∀ {a}, u.Reaches c a → t.Reaches c a := fun hr =>
    (reaches_agree (fun x hx => by simp only [Tree.childrenOf, hu x hx])
      (fun x e _ he => by
        obtain ⟨n, hn, he⟩ := mem_childrenOf.mp he
        exact ht.live hn he) hc).mp hr
  have hreach : ∀ {a b}, R a b → t.Reaches c a := by
    intro a b hab
    obtain ⟨e, he, hr⟩ := h.below hab
    obtain rfl := List.mem_singleton.mp he
    exact hagree hr
  refine ⟨?_, ?_, ?_, ?_⟩
  · rintro a b (hab | hab)
    · obtain ⟨n, q, ds, hn, hb, hds⟩ := h.copy hab
      rw [hu a (ht.reached hc (hreach hab))] at hn
      refine ⟨n, if b = d then o else q, ds, hn, ?_, hds.imp fun _ _ => Or.inl⟩
      rw [hv b ⟨_, hb⟩, find?_update, hb]
      split <;> rfl
    · obtain ⟨n, q, ds, hn, hb, hds⟩ := h'.copy hab
      exact ⟨n, q, ds, hn, hb, hds.imp fun _ _ => Or.inr⟩
  · rintro a b (hab | hab)
    · exact ⟨c, by simp, hreach hab⟩
    · obtain ⟨e, he, hr⟩ := h'.below hab
      exact ⟨e, by simp [he], hr⟩
  · rintro a b (hab | hab)
    · exact h.fresh hab
    · exact fun hl => h'.fresh hab (live_update.mpr (hs b hl))
  · intro x hx hxu
    by_cases hxs : s.Live x
    · obtain ⟨a, ha⟩ := h.whole x hxs hxu
      exact ⟨a, Or.inl ha⟩
    · obtain ⟨a, ha⟩ := h'.whole x hx fun hl => hxs (live_update.mp hl)
      exact ⟨a, Or.inr ha⟩

theorem Traced.close {es : List NodeId} (ht : t.Ordered) (hn : t.find? id = some n)
    (hfresh : ¬ t.Live root) (hold : ∀ x, x ≠ root → u.find? x = t.find? x)
    (hroot : u.find? root = some { n with owner := none, sharedCount := 0, children := [] })
    (hkeep : ∀ x, u.Live x → v.find? x = u.find? x) (h : Traced u u v n.children R)
    (hes : List.Forall₂ R n.children es) :
    Traced t t (v.update root fun n => { n with children := es }) [id]
      fun a b => (a = id ∧ b = root) ∨ R a b := by
  have hne : ∀ {x}, t.Live x → x ≠ root := fun hx he => hfresh (he ▸ hx)
  have hul : ∀ {x}, x ≠ root → (u.Live x ↔ t.Live x) := fun hx => by simp only [Live, hold _ hx]
  have hbelow : ∀ {a b}, R a b → ∃ c ∈ n.children, t.Reaches c a := by
    intro a b hab
    obtain ⟨c, hc, hr⟩ := h.below hab
    refine ⟨c, hc, (reaches_agree (fun x hx => ?_) (fun x e _ he => ?_) (ht.live hn hc)).mp hr⟩
    · simp only [Tree.childrenOf, hold x (hne hx)]
    · obtain ⟨m, hm, he⟩ := mem_childrenOf.mp he
      exact ht.live hm he
  refine ⟨?_, ?_, ?_, ?_⟩
  · rintro a b (⟨rfl, rfl⟩ | hab)
    · refine ⟨n, none, es, hn, ?_, hes.imp fun _ _ => Or.inr⟩
      rw [find?_update_self, hkeep b ⟨_, hroot⟩, hroot]
      rfl
    · obtain ⟨c, hc, hr⟩ := hbelow hab
      obtain ⟨m, o, ds, hm, hb, hds⟩ := h.copy hab
      rw [hold a (hne (ht.reached (ht.live hn hc) hr))] at hm
      have hbr : b ≠ root := fun he => h.fresh hab (he ▸ ⟨_, hroot⟩)
      exact ⟨m, o, ds, hm, by rw [find?_update_other _ _ hbr, hb], hds.imp fun _ _ => Or.inr⟩
  · rintro a b (⟨rfl, -⟩ | hab)
    · exact ⟨a, by simp, .refl⟩
    · obtain ⟨c, hc, hr⟩ := hbelow hab
      exact ⟨id, by simp, hr.of_child (by rwa [childrenOf_eq hn])⟩
  · rintro a b (⟨-, rfl⟩ | hab)
    · exact hfresh
    · exact fun hl => h.fresh hab ((hul (hne hl)).mpr hl)
  · intro x hx hxt
    by_cases hxr : x = root
    · exact ⟨id, Or.inl ⟨rfl, hxr⟩⟩
    · obtain ⟨a, ha⟩ := h.whole x (live_update.mp hx) fun hl => hxt ((hul hxr).mp hl)
      exact ⟨a, Or.inr ha⟩

end Tree

namespace Edit

open Tree

variable {t u : Tree α} {id root : NodeId} {h : Nat}

/-- A copy of one node and all below it, given to the node that it is to be a child of. -/
def cloneChild (fuel : Nat) (root child : NodeId) : Edit α NodeId := do
  let c ← cloneSubtree fuel child
  change c fun n => { n with owner := some root }
  return c

theorem cloneSubtree_succ (fuel : Nat) (id : NodeId) :
    (cloneSubtree (fuel + 1) id : Edit α NodeId) = do
      let n ← node id
      let copy ← insert { n with owner := none, sharedCount := 0, children := [] }
      let children ← n.children.mapM (cloneChild fuel copy)
      change copy fun n => { n with children := children }
      return copy := (rfl)

/-- What making a deep copy of nodes of height `h` comes to, in a tree as it may be while another
copy is being made. More fuel than the height makes no difference. -/
def Clones (α : Type) (h : Nat) : Prop :=
  ∀ (t : Tree α) (id : NodeId), t.Ordered → (t.unfold h id).isSome →
    ∃ k s R, (∀ fuel, h ≤ fuel → (cloneSubtree fuel id).apply t = (.ok k, s)) ∧ t.Cloned s k ∧
      Traced t t s [id] R ∧ R id k

theorem cloneChildren_run (hclones : Clones α h) (hroot : t.Live root)
    (ht : t.Ordered) (cs : List NodeId) {ds : List NodeId} (hg : t.Gathering u root ds)
    (hcs : ∀ c ∈ cs, t.Live c ∧ (t.unfold h c).isSome) :
    ∃ es s R, (∀ fuel, h ≤ fuel → (cs.mapM (cloneChild fuel root)).apply u = (.ok es, s)) ∧
      t.Gathering s root (ds ++ es) ∧ (∀ x, u.Live x → s.find? x = u.find? x) ∧
      Traced t u s cs R ∧ List.Forall₂ R cs es := by
  induction cs generalizing u ds with
  | nil =>
    exact ⟨[], u, _, fun _ _ => rfl, by simpa using hg, fun _ _ => rfl, Traced.nil t u, .nil⟩
  | cons c cs ih =>
    obtain ⟨hcl, hcu⟩ := hcs c (List.mem_cons_self ..)
    have hold := unfold_agree hg.old (fun _ _ _ _ hn hc => ht.live hn hc) hcl h
    obtain ⟨d, s, R, hs, hcloned, htraced, hd⟩ := hclones u c hg.ordered (by rwa [hold])
    obtain ⟨m, hm⟩ := hcloned.live
    have hnext := hg.add hroot hcloned
    obtain ⟨es, s', R', hs', hg', hkeep, htraced', hes⟩ :=
      ih hnext fun c hc => hcs c (List.mem_cons_of_mem _ hc)
    have hother : ∀ x, u.Live x →
        (s.update d fun n => { n with owner := some root }).find? x = u.find? x := by
      intro x hx
      have hxd : x ≠ d := fun he => hcloned.fresh (he ▸ hx)
      rw [find?_update_other _ _ hxd, hcloned.old x hx]
    refine ⟨d :: es, s', _, ?_, by simpa using hg', fun x hx => ?_,
      htraced.cons ht hcl hg.old (fun x hx => hcloned.toExtends.live hx) htraced'
        fun x hx => hkeep x (live_update.mpr hx),
      .cons (Or.inl hd) (hes.imp fun _ _ => Or.inr)⟩
    · intro fuel hf
      rw [List.mapM_cons, apply_bind, cloneChild, apply_bind, hs fuel hf]
      simp only [apply_bind, apply_change hm, apply_pure, hs' fuel hf]
    · rw [hkeep x (live_update.mpr (hcloned.toExtends.live hx)), hother x hx]

theorem cloneSubtree_run (h : Nat) : Clones α h := by
  induction h with
  | zero =>
    intro t id _ hu
    cases hu
  | succ h ih =>
    intro t id ht hu
    obtain ⟨⟨n, hn⟩, hall⟩ := unfold_isSome.mp hu
    rw [childrenOf_eq hn] at hall
    let blank : Node α := { n with owner := none, sharedCount := 0, children := [] }
    have hord : (t.insert blank).2.Ordered := ht.insert rfl
    have hfind := ht.tidy.find?_insert blank
    have hfresh : ¬ t.Live (t.insert blank).1 := not_live.mpr (ht.tidy.insert_fresh blank)
    have hold : ∀ x, x ≠ (t.insert blank).1 → (t.insert blank).2.find? x = t.find? x := by
      intro x hx
      rw [hfind, if_neg hx]
    have hne : ∀ {x}, t.Live x → x ≠ (t.insert blank).1 := fun hx he => hfresh (he ▸ hx)
    have hsame : ∀ x, t.Live x → (t.insert blank).2.unfold h x = t.unfold h x := fun x hx =>
      unfold_agree (fun y hy => hold y (hne hy)) (fun _ _ _ _ hn hc => ht.live hn hc) hx h
    have hroot : (t.insert blank).2.find? (t.insert blank).1 = some blank := by
      rw [hfind, if_pos rfl]
    obtain ⟨es, u, R, hrun, hg, hkeep, htraced, hes⟩ := cloneChildren_run ih ⟨_, hroot⟩
      hord n.children (Gathering.start hord (t.insert blank).1) fun c hc => by
        have hcl := ht.live hn hc
        refine ⟨?_, by rw [hsame c hcl]; exact hall c hc⟩
        obtain ⟨m, hm⟩ := hcl
        exact ⟨m, by rw [hold c (hne ⟨m, hm⟩), hm]⟩
    rw [List.nil_append] at hg
    have hu : u.find? (t.insert blank).1 = some blank := by rw [hg.old _ ⟨_, hroot⟩, hroot]
    refine ⟨(t.insert blank).1, u.update (t.insert blank).1 fun n => { n with children := es }, _,
      ?_, hg.close ht rfl rfl ?_ rfl rfl ⟨id, n, hn, rfl⟩,
      htraced.close ht hn hfresh hold hroot hkeep hes, Or.inl ⟨rfl, rfl⟩⟩
    · intro fuel hf
      obtain ⟨fuel, rfl⟩ := exists_pred hf
      have hrun := hrun fuel (by omega)
      rw [cloneSubtree_succ, apply_bind, apply_node hn]
      simp only [apply_bind, apply_insert, blank] at hrun hu ⊢
      simp only [hrun, apply_change hu, apply_pure]
    · intro hm
      have hnil := ht.leaf hn hm
      rw [hnil] at hes
      cases hes
      rfl

theorem deepClone_run (ht : t.Ordered) (hg : t.Grounded id) :
    ∃ k s R, (∀ spare, (deepClone id spare).apply t = (.ok k, s)) ∧ t.Cloned s k ∧
      Traced t t s [id] R ∧ R id k := by
  obtain ⟨k, s, R, hs, hc, htraced, hk⟩ := cloneSubtree_run t.slots.size t id ht hg.unfold_slots
  refine ⟨k, s, R, fun spare => ?_, hc, htraced, hk⟩
  rw [deepClone, apply_bind, apply_get]
  exact hs _ (by omega)

end Edit

end Flexbox
