import Flexbox.Proofs.Moves
import Mathlib.Data.Fintype.Card
import Mathlib.Data.Fintype.EquivFin

namespace Flexbox

variable {α : Type}

theorem exists_pred {m n : Nat} (h : m < n) : ∃ k, n = k + 1 := ⟨n - 1, by omega⟩

/-- What the host gave a node: all of it but its place in the store and what layout computes. -/
structure Traits (α : Type) where
  style : Style α
  config : Config α
  context : Option String
  measure : Option (Measure α)
  baseline : Option (Baseline α)
  dirtied : Option String
  note : Option String
  nodeType : NodeType
  isReferenceBaseline : Bool

/-- A node with what its children stand for. -/
inductive Unfolding (α : Type)
  | node (traits : Traits α) (children : List (Unfolding α))

namespace Node

def traits (n : Node α) : Traits α :=
  ⟨n.style, n.config, n.context, n.measure, n.baseline, n.dirtied, n.note, n.nodeType,
    n.isReferenceBaseline⟩

theorem SameCore.traits {n m : Node α} (h : SameCore n m) : m.traits = n.traits := by
  rw [h]
  rfl

end Node

namespace Tree

variable {t s : Tree α} {id : NodeId} {h : Nat} {R : NodeId → NodeId → Prop}
  {p x c : NodeId}

/-- What a node stands for, if no path below it is longer than the given depth. -/
def unfold (t : Tree α) : Nat → NodeId → Option (Unfolding α)
  | 0, _ => none
  | depth + 1, id =>
    match t.find? id with
    | none => none
    | some n => (n.children.mapM (t.unfold depth)).map (.node n.traits)

/-- A node that stands for something finite. -/
def Grounded (t : Tree α) (id : NodeId) : Prop := ∃ depth, (t.unfold depth id).isSome

/-- Child lists lead from one node to the other, in any number of steps. -/
def Reaches (t : Tree α) : NodeId → NodeId → Prop :=
  Relation.ReflTransGen fun p c => c ∈ t.childrenOf p

theorem Reaches.of_child (hc : c ∈ t.childrenOf p) (h : t.Reaches c x) : t.Reaches p x :=
  .head hc h

/-- No node is below itself. -/
def Acyclic (t : Tree α) : Prop :=
  ∀ id, ¬ Relation.TransGen (fun p c => c ∈ t.childrenOf p) id id

theorem mapM_isSome {β γ : Type} {f : β → Option γ} {xs : List β} :
    (xs.mapM f).isSome ↔ ∀ x ∈ xs, (f x).isSome := by
  induction xs with
  | nil => simp
  | cons x xs ih =>
    rw [List.mapM_cons]
    cases hx : f x with
    | none => simp [hx]
    | some y =>
      cases hxs : xs.mapM f <;> simp_all

theorem mapM_congr {β γ δ : Type} {f : β → Option δ} {g : γ → Option δ} {xs : List β}
    {ys : List γ} (h : List.Forall₂ (fun x y => f x = g y) xs ys) : xs.mapM f = ys.mapM g := by
  induction h with
  | nil => rfl
  | cons hx _ ih => rw [List.mapM_cons, List.mapM_cons, hx, ih]

theorem unfold_succ {n : Node α} (hn : t.find? id = some n) :
    t.unfold (h + 1) id = (n.children.mapM (t.unfold h)).map (.node n.traits) := by
  rw [unfold, hn]

theorem unfold_isSome :
    (t.unfold (h + 1) id).isSome ↔ t.Live id ∧ ∀ c ∈ t.childrenOf id, (t.unfold h c).isSome := by
  cases hn : t.find? id with
  | none => simp [unfold, hn, Live]
  | some n =>
    rw [unfold_succ hn, Option.isSome_map, mapM_isSome, childrenOf_eq hn]
    simp [Live, hn]

theorem unfold_mono {u : Unfolding α} (hu : t.unfold h id = some u) (k : Nat) :
    t.unfold (h + k) id = some u := by
  induction h generalizing id u with
  | zero => cases hu
  | succ h ih =>
    cases hn : t.find? id with
    | none => simp [unfold, hn] at hu
    | some n =>
      rw [Nat.succ_add, unfold_succ hn]
      rw [unfold_succ hn] at hu
      have hall := mapM_isSome.mp (by
        rw [← Option.isSome_map (f := Unfolding.node n.traits), hu]
        rfl)
      rw [← hu]
      congr 1
      refine mapM_congr (List.forall₂_same.mpr fun c hc => ?_)
      obtain ⟨v, hv⟩ := Option.isSome_iff_exists.mp (hall c hc)
      rw [ih hv, hv]

theorem unfold_isSome_mono {k : Nat} (hu : (t.unfold h id).isSome) (hk : h ≤ k) :
    (t.unfold k id).isSome := by
  obtain ⟨u, hu⟩ := Option.isSome_iff_exists.mp hu
  obtain ⟨j, rfl⟩ := Nat.exists_eq_add_of_le hk
  rw [unfold_mono hu]
  rfl

theorem Grounded.live (hg : t.Grounded id) : t.Live id := by
  obtain ⟨depth, hd⟩ := hg
  cases depth with
  | zero => cases hd
  | succ depth => exact (unfold_isSome.mp hd).1

theorem Grounded.child (hg : t.Grounded id) (hc : c ∈ t.childrenOf id) : t.Grounded c := by
  obtain ⟨depth, hd⟩ := hg
  cases depth with
  | zero => cases hd
  | succ depth => exact ⟨depth, (unfold_isSome.mp hd).2 c hc⟩

theorem exists_height (hs : (t.unfold (h + 1) id).isSome) (hn : t.unfold h id = none) (k : Nat)
    (hk : k ≤ h) : ∃ x, (t.unfold (k + 1) x).isSome ∧ t.unfold k x = none := by
  induction h generalizing id with
  | zero =>
    obtain rfl : k = 0 := by omega
    exact ⟨id, hs, hn⟩
  | succ h ih =>
    by_cases he : k = h + 1
    · exact ⟨id, he ▸ hs, he ▸ hn⟩
    obtain ⟨hl, hall⟩ := unfold_isSome.mp hs
    -- Some child is as high as it can be, or the node itself would be lower.
    have hc : ∃ c ∈ t.childrenOf id, t.unfold h c = none := by
      by_contra hno
      have hsome : (t.unfold (h + 1) id).isSome := unfold_isSome.mpr ⟨hl, fun c hc =>
        Option.isSome_iff_ne_none.mpr fun hcn => hno ⟨c, hc, hcn⟩⟩
      rw [hn] at hsome
      cases hsome
    obtain ⟨c, hc, hcn⟩ := hc
    exact ih (hall c hc) hcn (by omega)

theorem Grounded.unfold_slots (hg : t.Grounded id) : (t.unfold t.slots.size id).isSome := by
  by_contra hno
  obtain ⟨depth, hd⟩ := hg
  -- The least depth that will do exceeds the number of slots.
  classical
  have hex : ∃ d, (t.unfold d id).isSome := ⟨depth, hd⟩
  have hmin := Nat.find_spec hex
  have hlt : t.slots.size < Nat.find hex := by
    by_contra hle
    exact hno (unfold_isSome_mono hmin (by omega))
  obtain ⟨h, hh⟩ : ∃ h, Nat.find hex = h + 1 := ⟨Nat.find hex - 1, by omega⟩
  have hnone : t.unfold h id = none := by
    have := Nat.find_min hex (m := h) (by omega)
    simpa using this
  rw [hh] at hmin
  have hall := fun k (hk : k ≤ h) => exists_height hmin hnone k hk
  choose f hf hfn using hall
  have hslot : ∀ k (hk : k ≤ h), (f k hk).slot < t.slots.size := fun k hk =>
    (unfold_isSome.mp (hf k hk)).1.slot_lt
  let g : Fin (h + 1) → Fin t.slots.size := fun k => ⟨(f k (by omega)).slot, hslot k (by omega)⟩
  have hinj : Function.Injective g := by
    intro a b hab
    have he : f a (by omega) = f b (by omega) := slot_inj
      (unfold_isSome.mp (hf a (by omega))).1 (unfold_isSome.mp (hf b (by omega))).1
      (Fin.mk.inj hab)
    have hle : ∀ x y : Fin (h + 1), f x (by omega) = f y (by omega) → ¬ (x : Nat) < y := by
      intro x y hxy hlt
      have hsome := unfold_isSome_mono (hf x (by omega)) (k := y) (by omega)
      rw [hxy, hfn y (by omega)] at hsome
      cases hsome
    exact Fin.ext (by have h1 := hle a b he; have h2 := hle b a he.symm; omega)
  have hcard := Fintype.card_le_of_injective g hinj
  simp only [Fintype.card_fin] at hcard
  omega

theorem Acyclic.grounded (ha : t.Acyclic) (ht : t.Arena) (hl : t.Live id) : t.Grounded id := by
  let Below : {x // t.Live x} → {x // t.Live x} → Prop := fun a b =>
    Relation.TransGen (fun p c => c ∈ t.childrenOf p) b.1 a.1
  have hfin : Finite {x // t.Live x} :=
    Finite.of_injective (fun x => (⟨x.1.slot, x.2.slot_lt⟩ : Fin t.slots.size)) fun a b hab =>
      Subtype.ext (slot_inj a.2 b.2 (Fin.mk.inj hab))
  have htrans : IsTrans _ Below := ⟨fun _ _ _ hab hbc => Relation.TransGen.trans hbc hab⟩
  have hirrefl : Std.Irrefl Below := ⟨fun a => ha a.1⟩
  have hwf := Finite.wellFounded_of_trans_of_irrefl Below
  suffices hall : ∀ x : {x // t.Live x}, t.Grounded x.1 from hall ⟨id, hl⟩
  intro x
  induction x using hwf.induction with
  | _ x ih =>
    refine ⟨t.slots.size + 1, unfold_isSome.mpr ⟨x.2, fun c hc => Grounded.unfold_slots ?_⟩⟩
    obtain ⟨n, hn, hcn⟩ := mem_childrenOf.mp hc
    exact ih ⟨c, ht.live hn hcn⟩ (Relation.TransGen.single hc)

/-- Related nodes have the same traits and related children. -/
def Bisim (t s : Tree α) (R : NodeId → NodeId → Prop) : Prop :=
  ∀ x y, R x y → ∃ n m, t.find? x = some n ∧ s.find? y = some m ∧ m.traits = n.traits ∧
    List.Forall₂ R n.children m.children

theorem Bisim.unfold (hb : Bisim t s R) {y : NodeId} (hxy : R x y) (h : Nat) :
    s.unfold h y = t.unfold h x := by
  induction h generalizing x y with
  | zero => rfl
  | succ h ih =>
    obtain ⟨n, m, hn, hm, htraits, hchildren⟩ := hb x y hxy
    rw [unfold_succ hn, unfold_succ hm, htraits]
    congr 1
    exact (mapM_congr (hchildren.imp fun a b hab => (ih hab).symm)).symm

theorem Bisim.symm (hb : Bisim t s R) : Bisim s t fun y x => R x y := by
  intro y x hxy
  obtain ⟨n, m, hn, hm, htraits, hchildren⟩ := hb x y hxy
  exact ⟨m, n, hm, hn, htraits.symm, hchildren.flip⟩

theorem Privatized.bisim (hp : t.Privatized p s) (ht : t.Arena) :
    Bisim t s fun a b => (a = b ∧ t.Live a) ∨ t.Copied p s a b := by
  have hself : ∀ {n : Node α} {y}, t.find? y = some n →
      List.Forall₂ (fun a b => (a = b ∧ t.Live a) ∨ t.Copied p s a b) n.children n.children :=
    fun hn => List.forall₂_same.mpr fun c hc => Or.inl ⟨rfl, ht.live hn hc⟩
  rintro a b (⟨rfl, n, hn⟩ | ⟨n, j, hn, hb⟩)
  · by_cases hap : a = p
    · subst hap
      obtain ⟨ks, j, hk, hcopies⟩ := hp.self n hn
      exact ⟨n, _, hn, hk, rfl, hcopies.imp fun _ _ hc => Or.inr hc⟩
    · obtain ⟨j, hj⟩ := hp.other a n hap hn
      exact ⟨n, _, hn, hj, rfl, hself hn⟩
  · exact ⟨n, _, hn, hb, rfl, hself hn⟩

theorem Privatized.unfold (hp : t.Privatized p s) (ht : t.Arena) (hx : t.Live x) (h : Nat) :
    s.unfold h x = t.unfold h x :=
  (hp.bisim ht).unfold (Or.inl ⟨rfl, hx⟩) h

theorem unfold_congr (he : ∀ x, (s.find? x).map (fun n => (n.traits, n.children)) =
    (t.find? x).map fun n => (n.traits, n.children)) (h : Nat) : s.unfold h = t.unfold h := by
  induction h with
  | zero => rfl
  | succ h ih =>
    funext x
    have hx := he x
    simp only [unfold, ih]
    cases hs : s.find? x <;> cases ht : t.find? x <;> simp_all

theorem unfold_update {f : Node α → Node α} (id : NodeId)
    (hf : ∀ n, t.find? id = some n → (f n).traits = n.traits ∧ (f n).children = n.children)
    (h : Nat) : (t.update id f).unfold h = t.unfold h :=
  unfold_congr (fun x => map_find?_update (fun n hn => by
    rw [(hf n hn).1, (hf n hn).2]) x) h

end Tree

namespace Pass

variable [Scalar α] {S : Set NodeId} {p q : Pass α} {id x : NodeId}

theorem Step.unfold (hstep : Step S p q) (hs : p.tree.Sound) (hx : p.tree.Live x) (h : Nat) :
    q.tree.unfold h x = p.tree.unfold h x := by
  cases hstep with
  | update _ hf =>
    rw [Pass.update, Tree.unfold_update _ fun n _ => ⟨(hf n).traits, (hf n).links.children⟩]
  | own _ hl =>
    obtain ⟨s, he, -, hp⟩ := ownChildren_run hs hl
    rw [he]
    exact hp.unfold hs.arena hx h
  | tell | record | count => exact congrFun (Tree.unfold_congr (fun _ => by rfl) h) x

theorem Moves.unfold (hm : Moves S p q) (hs : p.tree.Sound) (hx : p.tree.Live x) (h : Nat) :
    q.tree.unfold h x = p.tree.unfold h x := by
  induction hm with
  | refl => rfl
  | tail hm hstep ih =>
    rw [hstep.unfold (Moves.sound hm hs) (Moves.live hm hs hx), ih]

theorem Moves.grounded (hm : Moves S p q) (hs : p.tree.Sound) (hg : p.tree.Grounded x) :
    q.tree.Grounded x := by
  obtain ⟨depth, hd⟩ := hg
  exact ⟨depth, by rwa [hm.unfold hs (Tree.Grounded.live ⟨depth, hd⟩)]⟩

end Pass

end Flexbox
