import Flexbox.Proofs.Fixture.Building
import Flexbox.Proofs.Fixture.Parsing

namespace Flexbox.Fixture

open Tree (grown)
open Declaration (TextsAreLeaves preorders places nodes nodesOf nodes_eq)

theorem settle_eq_ok {β : Type} {es : List BuildError} {r s : β} :
    settle es r = .ok s ↔ es = [] ∧ r = s := by
  cases es <;> simp [settle]

theorem settle_eq_error {β : Type} {es : List BuildError} {r : β} {e : BuildError} :
    settle es r = .error e ↔ es.head? = some e := by
  cases es <;> simp [settle]

theorem build_settle {d : Declaration} (hleaf : TextsAreLeaves d.preorder)
    (config : Config Float32) : build d config = settle (complaints [] d.preorder)
      ⟨grown config (nodes config none 0 d), .nth 0, named 0 d.preorder⟩ := by
  have h : (Build.declaration d).run ⟨.empty config, []⟩ = settle (complaints [] d.preorder)
      (.nth 0, ⟨grown config (nodes config none 0 d), (named 0 d.preorder).reverse ++ []⟩) :=
    Build.declaration_settle d [] [] hleaf
  rw [build, h]
  cases complaints [] d.preorder <;> simp [settle]

theorem applyAll_eq {ps : List (Located Property)} (h : ∀ p ∈ ps, p.item.Accepted)
    (s : Style Float32) :
    applyAll s (ps.filter fun p => !p.item.isMark) = .ok (paintAll s ps) := by
  induction ps generalizing s with
  | nil => rfl
  | cons p ps ih =>
    rw [List.forall_mem_cons] at h
    rw [paintAll, List.foldl_cons, Property.paint]
    cases hm : p.item.isMark with
    | true =>
      rw [List.filter_cons_of_neg (by simp [hm])]
      exact ih h.2 s
    | false =>
      have hp : ∀ s, ∃ s', p.item.apply s = .ok s' := by simpa [Property.Accepted, hm] using h.1
      obtain ⟨s', hs⟩ := hp s
      rw [List.filter_cons_of_pos (by simp [hm]), applyAll, List.foldlM_cons, hs]
      exact ih h.2 s'

/-- The values given to the mark of a reference baseline. -/
def flags (ps : List (Located Property)) : List Bool :=
  (ps.filter fun p => p.item.isMark).filterMap fun p => p.item.flag.toOption

theorem markAll_isReferenceBaseline (n : Node Float32) (ps : List (Located Property)) :
    (markAll n ps).isReferenceBaseline = (flags ps).getLast?.getD n.isReferenceBaseline := by
  induction ps generalizing n with
  | nil => rfl
  | cons p ps ih =>
    rw [markAll, List.foldl_cons, ← markAll, ih, Property.mark]
    cases hm : p.item.isMark with
    | false => simp [flags, hm]
    | true =>
      cases hf : p.item.flag with
      | error e => simp [flags, hm, hf, Except.toOption]
      | ok value =>
        simp [flags, hm, hf, Except.toOption, Node.referring, Node.marked, List.getLast?_cons]

structure Shows (config : Config Float32) (d : Declaration) (n : Node Float32) : Prop where
  style : applyAll (.default config.webDefaults) (d.properties.filter fun p => !p.item.isMark) =
    .ok n.style
  reference : n.isReferenceBaseline = (flags d.properties).getLast?.getD false
  config : n.config = config
  content : (n.measure, n.nodeType) = match d.kind with
    | .container => (none, .default)
    | .text content => (some (textMeasure none content), .text)

variable {config : Config Float32} {d : Declaration}

theorem nodeAt_keeps {β : Type} {g : Node Float32 → β} (hc : ∀ n c, g (Node.adopting n c) = g n)
    (ho : ∀ n o, g { n with owner := o } = g n) (d : Declaration) (owner : Option NodeId)
    (k : Nat) : g (d.nodeAt config owner k) = g (d.node config) := by
  rw [Declaration.nodeAt, ho, Node.foldl_adopting_keeps hc]

theorem shows_node (h : ∀ p ∈ d.properties, p.item.Accepted) : Shows config d (d.node config) := by
  have hloose := d.furnished_loose config
  have hstyle := applyAll_eq h (.default config.webDefaults)
  have hreference := markAll_isReferenceBaseline (.new config) d.properties
  have hconfig := markAll_keeps (g := Node.config) (fun _ _ => rfl) (.new config) d.properties
  have htype := markAll_keeps (g := Node.nodeType) (fun _ _ => rfl) (.new config) d.properties
  cases hk : d.kind with
  | container =>
    simp only [Declaration.node, hk]
    exact ⟨hstyle, hreference, hconfig, by rw [hk]; exact Prod.ext hloose.measure htype⟩
  | text text =>
    simp only [Declaration.node, hk]
    exact ⟨hstyle, hreference, hconfig, by rw [hk]⟩

theorem shows_nodeAt (h : ∀ p ∈ d.properties, p.item.Accepted) (owner : Option NodeId) (k : Nat) :
    Shows config d (d.nodeAt config owner k) := by
  have hnode : Shows config d (d.node config) := shows_node h
  constructor
  · rw [nodeAt_keeps (g := Node.style) (fun _ _ => rfl) (fun _ _ => rfl)]
    exact hnode.style
  · rw [nodeAt_keeps (g := Node.isReferenceBaseline) (fun _ _ => rfl) (fun _ _ => rfl)]
    exact hnode.reference
  · rw [nodeAt_keeps (g := Node.config) (fun _ _ => rfl) (fun _ _ => rfl)]
    exact hnode.config
  · rw [nodeAt_keeps (g := fun n => (n.measure, n.nodeType)) (fun _ _ => rfl) (fun _ _ => rfl)]
    exact hnode.content

/-- The node at place `k` is that of `d`, and the nodes of the declarations inside it are its
children, each in its place. -/
inductive Stands (t : Tree Float32) (config : Config Float32) (all : List Declaration) :
    Option NodeId → Nat → Declaration → Prop
  | intro {owner : Option NodeId} {k : Nat} {d : Declaration} {n : Node Float32}
      (place : all[k]? = some d) (found : t.find? (.nth k) = some n) (shows : Shows config d n)
      (owned : n.owner = owner) (listed : n.children = (places (k + 1) d.children).map .nth)
      (below : ∀ c j, (c, j) ∈ d.children.zip (places (k + 1) d.children) →
        Stands t config all (some (.nth k)) j c) : Stands t config all owner k d

theorem stands_of_children {front back : List (Node Float32)} {ahead behind : List Declaration}
    {owner : Option NodeId} {m : Node Float32} (hm : m = d.nodeAt config owner front.length)
    (hl : front.length = ahead.length) (ha : ∀ p ∈ d.properties, p.item.Accepted)
    (h : ∀ c j, (c, j) ∈ d.children.zip (places (front ++ [m]).length d.children) →
      Stands (grown config (front ++ [m] ++
          nodesOf config (some (.nth front.length)) (front ++ [m]).length d.children ++ back))
        config (ahead ++ [d] ++ preorders d.children ++ behind) (some (.nth front.length)) j c) :
    Stands (grown config (front ++ nodes config owner front.length d ++ back)) config
      (ahead ++ d.preorder ++ behind) owner front.length d := by
  subst hm
  rw [List.length_append, List.length_singleton, List.append_assoc front, List.singleton_append,
    ← nodes_eq, List.append_assoc ahead, List.singleton_append, ← Declaration.preorder_eq] at h
  refine .intro ?_ ?_ (shows_nodeAt ha owner front.length) rfl ?_ h
  · simp [hl, Declaration.preorder_eq]
  · simp [Tree.find?_grown, nodes_eq]
  · simp [Declaration.nodeAt, Node.foldl_adopting_children, Declaration.node_children]

mutual

theorem stands_nodes (d : Declaration) (front back : List (Node Float32))
    (ahead behind : List Declaration) (owner : Option NodeId) (hl : front.length = ahead.length)
    (ha : ∀ e ∈ d.preorder, ∀ p ∈ e.properties, p.item.Accepted) :
    Stands (grown config (front ++ nodes config owner front.length d ++ back)) config
      (ahead ++ d.preorder ++ behind) owner front.length d := by
  match d with
  | ⟨kind, name, properties, children, span⟩ =>
    rw [Declaration.preorder, List.forall_mem_cons] at ha
    exact stands_of_children rfl hl ha.1
      (stands_nodesOf children _ back _ behind _ (by simp [hl]) ha.2)

theorem stands_nodesOf (ds : List Declaration) (front back : List (Node Float32))
    (ahead behind : List Declaration) (owner : Option NodeId) (hl : front.length = ahead.length)
    (ha : ∀ e ∈ preorders ds, ∀ p ∈ e.properties, p.item.Accepted) :
    ∀ c j, (c, j) ∈ ds.zip (places front.length ds) →
      Stands (grown config (front ++ nodesOf config owner front.length ds ++ back)) config
        (ahead ++ preorders ds ++ behind) owner j c := by
  match ds with
  | [] => simp
  | d :: ds =>
    -- `front` takes up the nodes of each declaration passed, so its length is the next place
    intro c j hmem
    rw [preorders, List.forall_mem_append] at ha
    rw [places, List.zip_cons_cons, List.mem_cons] at hmem
    rw [nodesOf, preorders]
    rcases hmem with he | hmem
    · cases he
      have hd := stands_nodes d front
        (nodesOf config owner (front.length + d.preorder.length) ds ++ back) ahead
        (preorders ds ++ behind) owner hl ha.1
      simpa using hd
    · have hlen : (front ++ nodes config owner front.length d).length =
          front.length + d.preorder.length := by
        simp [Declaration.length_nodes]
      have hds := stands_nodesOf ds (front ++ nodes config owner front.length d) back
        (ahead ++ d.preorder) behind owner (by simp [hl, Declaration.length_nodes]) ha.2 c j
      rw [hlen] at hds
      simpa using hds hmem

end

/-- One node for each declaration, made in the order of the document and nested as it is, and the
names with the nodes that have them. -/
structure Built.Mirrors (b : Built) (config : Config Float32) (d : Declaration) : Prop where
  root : b.root = .nth 0
  ids : b.tree.ids = (List.range d.preorder.length).map .nth
  nodes : Stands b.tree config d.preorder none 0 d
  names : b.names = d.preorder.zipIdx.filterMap fun (e, k) => e.label.map fun name => (name, .nth k)

mutual

theorem NodeForm.textsAreLeaves (f : NodeForm) : TextsAreLeaves f.declaration.preorder := by
  match f with
  | .bare keyword name block =>
    simp [declaration, Declaration.preorder, preorders, TextsAreLeaves]
  | .braced keyword name block opening children closing =>
    rw [declaration, Declaration.preorder, TextsAreLeaves, List.forall_mem_cons]
    exact ⟨nofun, textsAreLeaves_declarations children⟩
  | .text keyword name content block =>
    simp [declaration, Declaration.preorder, preorders, TextsAreLeaves]

theorem NodeForm.textsAreLeaves_declarations (fs : List NodeForm) :
    TextsAreLeaves (preorders (declarations fs)) := by
  match fs with
  | [] => simp [declarations, preorders, TextsAreLeaves]
  | f :: fs =>
    rw [declarations, preorders, TextsAreLeaves, List.forall_mem_append]
    exact ⟨textsAreLeaves f, textsAreLeaves_declarations fs⟩

end

theorem parse_textsAreLeaves {source : String} (h : parse source = .ok d) :
    TextsAreLeaves d.preorder := by
  obtain ⟨f, -, rfl⟩ := parse_eq_ok.mp h
  exact f.textsAreLeaves

theorem complaints_eq_nil_iff : complaints [] d.preorder = [] ↔
    (d.preorder.filterMap Declaration.label).Nodup ∧
      ∀ e ∈ d.preorder, ∀ p ∈ e.properties, p.item.Accepted := by
  simp [complaints_eq_nil]

theorem build_mirrors (hleaf : TextsAreLeaves d.preorder) {b : Built}
    (hb : build d config = .ok b) : b.Mirrors config d := by
  rw [build_settle hleaf] at hb
  obtain ⟨hnil, rfl⟩ := settle_eq_ok.mp hb
  refine ⟨rfl, ?_, ?_, rfl⟩
  · rw [Tree.ids_grown, Declaration.length_nodes]
  · simpa using stands_nodes d [] [] [] [] none rfl (complaints_eq_nil_iff.mp hnil).2

end Flexbox.Fixture
