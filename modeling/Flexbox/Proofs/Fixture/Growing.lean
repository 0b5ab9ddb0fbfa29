import Flexbox.Proofs.Running
import Flexbox.Tree.Attributes
import Flexbox.Tree.Lifecycle

namespace Flexbox

def NodeId.nth (k : Nat) : NodeId := ⟨k + 1, 1⟩

variable {α : Type}

namespace Node

/-- Marked dirty in case of a change, unless it is already. Nothing else of the node depends on
whether it was. -/
def marked (n : Node α) (change : Bool) : Node α :=
  { n with
    isDirty := n.isDirty || change
    geometry :=
      if change && !n.isDirty then { n.geometry with flexBasis := .undefined } else n.geometry }

theorem marked_false (n : Node α) : n.marked false = n := by
  simp [marked]

theorem marked_true (n : Node α) : n.marked true = if n.isDirty then n else n.soiled := by
  cases h : n.isDirty with
  | true =>
    simp only [marked, h, Bool.true_or, Bool.not_true, Bool.and_false, Bool.false_eq_true, if_false,
      if_true]
    rw [← h]
  | false => simp [marked, soiled, h]

/-- With the mark of a reference baseline set to `value`. -/
def referring (n : Node α) (value : Bool) : Node α :=
  marked { n with isReferenceBaseline := value } (n.isReferenceBaseline != value)

def restyled [Scalar α] (n : Node α) (style : Style α) : Node α :=
  marked { n with style := style } (style != n.style)

def adopting (n : Node α) (child : NodeId) : Node α :=
  marked { n with children := n.children ++ [child] } true

theorem foldl_adopting_keeps {β : Type} {g : Node α → β} (h : ∀ n c, g (adopting n c) = g n)
    (n : Node α) (cs : List NodeId) : g (cs.foldl adopting n) = g n := by
  induction cs generalizing n with
  | nil => rfl
  | cons c cs ih => rw [List.foldl_cons, ih, h]

theorem foldl_adopting_children (n : Node α) (cs : List NodeId) :
    (cs.foldl adopting n).children = n.children ++ cs := by
  induction cs generalizing n with
  | nil => simp
  | cons c cs ih => simp [ih, adopting, marked]

/-- A node that no other knows of and the host did not ask about. -/
structure Loose (n : Node α) : Prop where
  owner : n.owner = none
  shared : n.sharedCount = 0
  measure : n.measure = none
  dirtied : n.dirtied = none

variable {n : Node α}

theorem Loose.new [Scalar α] (config : Config α) : (Node.new config).Loose :=
  ⟨rfl, rfl, rfl, rfl⟩

end Node

namespace Tree

variable {config : Config α} {nodes before after : List (Node α)} {n : Node α}

def grown (config : Config α) (nodes : List (Node α)) : Tree α :=
  { Tree.empty config with slots := (⟨0, none⟩ :: nodes.map fun n => ⟨1, some n⟩).toArray }

theorem find?_grown (config : Config α) (nodes : List (Node α)) (k : Nat) :
    (grown config nodes).find? (.nth k) = nodes[k]? := by
  simp only [find?, grown, NodeId.nth, List.getElem?_toArray, List.getElem?_cons_succ,
    List.getElem?_map]
  cases nodes[k]? <;> rfl

theorem insert_grown (config : Config α) (nodes : List (Node α)) (n : Node α) :
    (grown config nodes).insert n = (.nth nodes.length, grown config (nodes ++ [n])) := by
  simp [insert, grown, Tree.empty, NodeId.nth]

theorem update_grown (config : Config α) (before after : List (Node α)) (n : Node α)
    (f : Node α → Node α) : (grown config (before ++ n :: after)).update (.nth before.length) f =
      grown config (before ++ f n :: after) := by
  simp only [update, grown, NodeId.nth]
  congr 1
  apply Array.ext_getElem?
  intro i
  rw [Array.getElem?_modify]
  cases i with
  | zero => simp
  | succ i =>
    simp only [List.getElem?_toArray, List.getElem?_cons_succ, List.getElem?_map,
      Nat.add_right_cancel_iff]
    rcases Nat.lt_trichotomy i before.length with hi | rfl | hi
    · rw [if_neg (by omega), List.getElem?_append_left hi, List.getElem?_append_left hi]
    · simp
    · rw [if_neg (by omega), List.getElem?_append_right hi.le, List.getElem?_append_right hi.le,
        List.getElem?_cons, List.getElem?_cons, if_neg (by omega), if_neg (by omega)]

theorem names_zipIdx (nodes : List (Node α)) (k : Nat) :
    ((nodes.map fun n => (⟨1, some n⟩ : Slot α)).zipIdx (k + 1)).filterMap
        (fun (s, i) => s.node.map fun _ => (⟨i, s.version⟩ : NodeId)) =
      (List.range' k nodes.length).map .nth := by
  induction nodes generalizing k with
  | nil => rfl
  | cons n nodes ih => simp [List.range'_succ, ih, NodeId.nth]

theorem ids_grown (config : Config α) (nodes : List (Node α)) :
    (grown config nodes).ids = (List.range nodes.length).map .nth := by
  simp [ids, grown, names_zipIdx, List.range_eq_range']

theorem soilUpwards_grown (ho : n.owner = none) (hd : n.dirtied = none) :
    (grown config (before ++ n :: after)).soilUpwards (.nth before.length) =
      grown config (before ++ n.marked true :: after) := by
  have hn : (grown config (before ++ n :: after)).find? (.nth before.length) = some n := by
    simp [find?_grown]
  simp only [soilUpwards, soilChain, hn, ho, Node.marked_true]
  split
  · rfl
  · cases (grown config (before ++ n :: after)).slots.size <;>
      simp [soilChain, soil, hd, update_grown]

end Tree

namespace Edit

open Tree

variable {config : Config α} {nodes before after : List (Node α)} {n : Node α}

theorem apply_node_grown : (node (.nth before.length)).apply (grown config (before ++ n :: after)) =
    (.ok n, grown config (before ++ n :: after)) :=
  apply_node (by simp [find?_grown])

theorem apply_change_grown (f : Node α → Node α) :
    (change (.nth before.length) f).apply (grown config (before ++ n :: after)) =
      (.ok ⟨⟩, grown config (before ++ f n :: after)) := by
  rw [apply_change (n := n) (by simp [find?_grown]), update_grown]

theorem apply_propagateDirty_grown (ho : n.owner = none) (hd : n.dirtied = none) :
    (propagateDirty (.nth before.length)).apply (grown config (before ++ n :: after)) =
      (.ok ⟨⟩, grown config (before ++ n.marked true :: after)) := by
  simp [propagateDirty, apply_bind, apply_node_grown, soilUpwards_grown ho hd]

theorem apply_setReferenceBaseline_grown (h : n.Loose) (value : Bool) :
    (setReferenceBaseline (.nth before.length) value).apply (grown config (before ++ n :: after)) =
      (.ok ⟨⟩, grown config (before ++ n.referring value :: after)) := by
  simp only [setReferenceBaseline, apply_bind, apply_node_grown, Node.referring]
  cases hv : n.isReferenceBaseline != value with
  | true =>
    simp only [if_true, apply_bind, apply_change_grown]
    exact apply_propagateDirty_grown h.owner h.dirtied
  | false =>
    obtain rfl : n.isReferenceBaseline = value := by simpa using hv
    rw [Node.marked_false]
    rfl

theorem apply_setMeasure_grown (h : n.children = []) (measure : Measure α) :
    (setMeasure (.nth before.length) measure).apply (grown config (before ++ n :: after)) =
      (.ok ⟨⟩, grown config
        (before ++ { n with measure := some measure, nodeType := .text } :: after)) := by
  simp [setMeasure, apply_bind, apply_node_grown, h, apply_change_grown]

variable [Scalar α]

theorem apply_newNode_grown : (newNode none).apply (grown config nodes) =
    (.ok (.nth nodes.length), grown config (nodes ++ [.new config])) := by
  simp only [newNode, apply_bind, apply_get, apply_insert, insert_grown, Option.getD_none]
  rfl

theorem apply_setStyle_grown (h : n.Loose) (style : Style α) :
    (setStyle (.nth before.length) style).apply (grown config (before ++ n :: after)) =
      (.ok ⟨⟩, grown config (before ++ n.restyled style :: after)) := by
  have hs : n.isShared = false := by simp [Node.isShared, h.shared]
  simp only [setStyle, updateStyle, apply_bind, apply_node_grown, hs, Bool.false_eq_true, if_false,
    apply_change_grown, Node.restyled]
  cases style != n.style with
  | true => exact apply_propagateDirty_grown h.owner h.dirtied
  | false =>
    rw [Node.marked_false]
    rfl

theorem apply_ownChildren_owned {t : Tree α} {id : NodeId} (hn : t.find? id = some n)
    (h : ∀ first ∈ n.children.head?, ∃ m, t.find? first = some m ∧ m.owner = some id) :
    (ownChildren id).apply t = (.ok ⟨⟩, t) := by
  simp only [ownChildren, apply_bind, apply_node hn]
  cases hc : n.children with
  | nil => rfl
  | cons first rest =>
    obtain ⟨m, hm, ho⟩ := h first (by simp [hc])
    simp [apply_bind, apply_node hm, Node.isOwnedBy, ho]

theorem apply_addChild_grown {mid : List (Node α)} {m : Node α} (hn : n.Loose)
    (hm : m.owner = none)
    (h : ∀ first ∈ n.children.head?, ∃ f,
      (grown config (before ++ n :: (mid ++ m :: after))).find? first = some f ∧
        f.owner = some (.nth before.length)) :
    (addChild (.nth before.length) (.nth (before ++ n :: mid).length)).apply
        (grown config (before ++ n :: (mid ++ m :: after))) =
      (.ok ⟨⟩, grown config (before ++ n.adopting (.nth (before ++ n :: mid).length) ::
        (mid ++ { m with owner := some (.nth before.length) } :: after))) := by
  have hread : (node (.nth (before ++ n :: mid).length)).apply
      (grown config (before ++ n :: (mid ++ m :: after))) =
        (.ok m, grown config (before ++ n :: (mid ++ m :: after))) :=
    apply_node (by rw [find?_grown]; simp)
  have hchange : ∀ (o : Node α) (f : Node α → Node α),
      (change (.nth (before ++ n :: mid).length) f).apply
        (grown config (before ++ o :: (mid ++ m :: after))) =
          (.ok ⟨⟩, grown config (before ++ o :: (mid ++ f m :: after))) := by
    intro o f
    simpa using @apply_change_grown α config (before ++ o :: mid) after m f
  have hown := apply_ownChildren_owned (n := n) (by simp [find?_grown]) h
  have hmeasure : n.measure.isSome = false := by simp [hn.measure]
  simp only [addChild, insertChild, apply_bind, apply_node_grown, hread, hm, hmeasure,
    Bool.false_eq_true, if_false, Nat.lt_irrefl, hown, apply_change_grown, hchange,
    List.insertIdx_length_self]
  exact apply_propagateDirty_grown hn.owner hn.dirtied

end Edit

end Flexbox
