import Kaleidoscope.Proofs.Preorder
import Kaleidoscope.Proofs.WellFormed
import Mathlib.Data.List.Nodup

/-! A diagram is the forest of the trees that are drawn. The number of a node is its place among
the visits, and the items are the steps of a tour with the ways replaced by these numbers. -/

set_option autoImplicit false

namespace Kaleidoscope

namespace DiagramItem

def source : DiagramItem → Nat
  | .node id _ => id
  | .edge parent _ _ => parent

def child? : DiagramItem → Option Nat
  | .node .. => none
  | .edge _ child _ => some child

def labelled? : DiagramItem → Option (Nat × String)
  | .node id label => some (id, label)
  | .edge .. => none

end DiagramItem

def Diagram.itemsFrom (index : Nat) : List Cluster → List (Nat × DiagramItem)
  | [] => []
  | c :: cs => c.items.map (index, ·) ++ itemsFrom (index + 1) cs

def Diagram.items (d : Diagram) : List (Nat × DiagramItem) := itemsFrom 0 d.clusters

def Visit.cluster (v : Visit) : Nat := v.way.headD 0

def Visit.IsChild (w : Visit) (k : Nat) (v : Visit) : Prop :=
  w.way = v.way ++ [k] ∧ v.node.parts[k]? = some w.node

/-- The diagram shows these trees and nothing else: their nodes in preorder, an edge to each child
behind all that is below the child, and to no node two edges. -/
structure Depicts (trees : List Node) (d : Diagram) : Prop where
  titles : d.clusters.map Cluster.title = trees.map Node.title
  nodes : d.items.filterMap (fun item => item.2.labelled?.map (item.1, ·)) =
    (Node.forest trees).mapIdx fun id v => (v.cluster, id, v.node.label)
  edge_iff : ∀ i a b role, (i, DiagramItem.edge a b role) ∈ d.items ↔
    ∃ v w k, (Node.forest trees)[a]? = some v ∧ (Node.forest trees)[b]? = some w ∧
      w.IsChild k v ∧ role = v.node.role k ∧ i = v.cluster
  edge_last : ∀ before after i a b role,
    d.items = before ++ (i, DiagramItem.edge a b role) :: after →
      ∀ w, (Node.forest trees)[b]? = some w → ∀ item ∈ d.items, ∀ v,
        (Node.forest trees)[item.2.source]? = some v → w.way <+: v.way → item ∈ before
  incoming : ∀ b w, (Node.forest trees)[b]? = some w →
    d.items.countP (·.2.child? == some b) = if w.isRoot then 0 else 1
  size : (Node.forest trees).length = Node.countAll trees ∧
    d.items.countP (·.2.child?.isSome) + trees.length = Node.countAll trees

theorem Depicts.exists_label {trees : List Node} {d : Diagram} (h : Depicts trees d) {i id : Nat}
    {label : String} (hi : (i, DiagramItem.node id label) ∈ d.items) :
    ∃ v ∈ Node.forest trees, v.node.label = label := by
  have hmem : (i, id, label) ∈ d.items.filterMap fun item => item.2.labelled?.map (item.1, ·) :=
    List.mem_filterMap.2 ⟨_, hi, rfl⟩
  rw [h.nodes] at hmem
  obtain ⟨j, hj, he⟩ := List.mem_mapIdx.1 hmem
  cases he
  exact ⟨_, List.getElem_mem hj, rfl⟩

theorem Depicts.exists_node {trees : List Node} {d : Diagram} (h : Depicts trees d) {id : Nat}
    {v : Visit} (hv : (Node.forest trees)[id]? = some v) :
    ∃ i, (i, DiagramItem.node id v.node.label) ∈ d.items := by
  have hmem : (v.cluster, id, v.node.label) ∈
      (Node.forest trees).mapIdx fun id v => (v.cluster, id, v.node.label) := by
    obtain ⟨hid, rfl⟩ := List.getElem?_eq_some_iff.1 hv
    exact List.mem_mapIdx.2 ⟨id, hid, rfl⟩
  rw [← h.nodes] at hmem
  obtain ⟨⟨i, item⟩, hitem, he⟩ := List.mem_filterMap.1 hmem
  cases item with
  | node => cases he; exact ⟨_, hitem⟩
  | edge => cases he

/-- The numbers of the visits follow each other. -/
def Numbers (number : List Nat → Nat) (first : Nat) (vs : List Visit) : Prop :=
  ∀ j v, vs[j]? = some v → number v.way = first + j

namespace Numbers

variable {number : List Nat → Nat} {first : Nat} {v : Visit} {vs ws : List Visit}

theorem head (h : Numbers number first (v :: vs)) : number v.way = first := h 0 v rfl

theorem tail (h : Numbers number first (v :: vs)) : Numbers number (first + 1) vs := by
  intro j w hw
  have hn := h (j + 1) w hw
  omega

theorem left (h : Numbers number first (vs ++ ws)) : Numbers number first vs := fun j v hv =>
  h j v (by rw [List.getElem?_append_left (List.getElem?_eq_some_iff.1 hv).1, hv])

theorem right (h : Numbers number first (vs ++ ws)) :
    Numbers number (first + vs.length) ws := by
  intro j w hw
  have hn := h (vs.length + j) w (by rw [List.getElem?_append_right (by omega)]; simpa using hw)
  omega

end Numbers

theorem Node.Ordered.exists_numbers {vs : List Visit} (h : Node.Ordered vs) :
    ∃ number, Numbers number 0 vs := by
  refine ⟨(vs.map Visit.way).idxOf, fun j v hv => ?_⟩
  obtain ⟨hj, rfl⟩ := List.getElem?_eq_some_iff.1 hv
  have hidx := h.nodup.idxOf_getElem j (by simpa using hj)
  simpa using hidx

def Step.item (number : List Nat → Nat) : Step → DiagramItem
  | .node v => .node (number v.way) v.node.label
  | .edge v k _ => .edge (number v.way) (number (v.way ++ [k])) (v.node.role k)

namespace Node

def drawUnder (parent : Nat) (n : Node) (id k : Nat) : List Node → List DiagramItem
  | [] => []
  | c :: cs =>
    c.draw id ++ .edge parent id (n.role k) :: drawUnder parent n (id + c.count) (k + 1) cs

theorem drawArguments_eq (callee : String) (all : List Node) (start : Position)
    (parent id i : Nat) (args : List Node) :
    drawArguments parent id i args = drawUnder parent (.call callee all start) id i args := by
  induction args generalizing id i with
  | nil => rfl
  | cons a args ih => rw [drawArguments, drawUnder, ih]; rfl

theorem draw_eq (id : Nat) (n : Node) :
    n.draw id = .node id n.label :: drawUnder id n (id + 1) 0 n.parts := by
  cases n with
  | call callee args start => rw [draw, drawArguments_eq callee args start]; rfl
  | _ => simp [draw, drawUnder, parts, role]

variable {number : List Nat → Nat}

theorem drawUnder_eq_map {cs : List Node}
    (h : ∀ c ∈ cs, ∀ id way, Numbers number id (c.visits way) →
      c.draw id = (c.tour way).map (Step.item number))
    {u : Visit} {id k : Nat} (hn : Numbers number id (visitsFrom u.way k cs)) :
    drawUnder (number u.way) u.node id k cs = (tourUnder u k cs).map (Step.item number) := by
  induction cs generalizing id k with
  | nil => rfl
  | cons c cs ih =>
    obtain ⟨hc, hcs⟩ := List.forall_mem_cons.1 h
    rw [visitsFrom] at hn
    have hfirst := hn.left
    have hrest := hn.right
    have hchild : number (u.way ++ [k]) = id := by
      rw [visits_eq] at hfirst
      exact hfirst.head
    rw [length_visits] at hrest
    rw [drawUnder, tourUnder, List.map_append, List.map_cons, hc id _ hfirst, ih hcs hrest,
      Step.item, hchild]

theorem draw_eq_map {n : Node} {id : Nat} {way : List Nat}
    (hn : Numbers number id (n.visits way)) :
    n.draw id = (n.tour way).map (Step.item number) := by
  induction n using induct_parts generalizing id way with
  | step n ih =>
    rw [visits_eq] at hn
    have hroot := hn.head
    rw [draw_eq, tour_eq, List.map_cons, Step.item, ← hroot]
    exact congrArg (_ :: ·) (drawUnder_eq_map (fun c hc id way h => ih c hc h) (hroot ▸ hn.tail))

theorem itemsFrom_clusters {trees : List Node} {id k : Nat}
    (hn : Numbers number id (visitsFrom [] k trees)) :
    Diagram.itemsFrom k (clusters id trees) =
      (tourFrom k trees).map fun s => (s.source.cluster, s.item number) := by
  induction trees generalizing id k with
  | nil => rfl
  | cons n ns ih =>
    rw [visitsFrom] at hn
    have hfirst := hn.left
    have hrest := hn.right
    rw [List.nil_append, length_visits] at *
    have htree : ∀ s ∈ n.tour [k], s.source.cluster = k := by
      intro s hs
      obtain ⟨rest, hrest⟩ := below_way (source_mem hs)
      rw [Visit.cluster, ← hrest]
      rfl
    rw [clusters, Diagram.itemsFrom, tourFrom, List.map_append, draw_eq_map hfirst, ih hrest,
      List.map_map]
    refine congrArg (· ++ _) (List.map_congr_left fun s hs => ?_)
    rw [htree s hs]
    rfl

theorem titles_clusters (id : Nat) (trees : List Node) :
    (clusters id trees).map Cluster.title = trees.map title := by
  induction trees generalizing id with
  | nil => rfl
  | cons n ns ih => rw [clusters, List.map_cons, List.map_cons, ih]

end Node

section

variable {number : List Nat → Nat} {trees : List Node}

theorem Numbers.eq (hn : Numbers number 0 (Node.forest trees)) {j : Nat} {v : Visit}
    (hv : (Node.forest trees)[j]? = some v) : number v.way = j := by
  rw [hn j v hv, Nat.zero_add]

theorem Numbers.getElem? (hn : Numbers number 0 (Node.forest trees)) {v : Visit}
    (hv : v ∈ Node.forest trees) : (Node.forest trees)[number v.way]? = some v := by
  obtain ⟨j, hj⟩ := List.getElem?_of_mem hv
  rw [hn.eq hj, hj]

theorem Visit.IsChild.mem {v w : Visit} {k : Nat} (h : w.IsChild k v) (hv : v ∈ Node.forest trees) :
    w ∈ Node.forest trees := by
  obtain ⟨way, node⟩ := w
  obtain ⟨rfl, hk⟩ := h
  have hedge := (Node.edge_mem_tourFrom (k := 0)).2 ⟨hv, hk⟩
  have hmem := (Node.targets_tourFrom 0 trees).subset (List.mem_filterMap.2 ⟨_, hedge, rfl⟩)
  exact (List.mem_filter.1 hmem).1

theorem Node.items_diagram (hn : Numbers number 0 (forest trees)) :
    (Diagram.mk (clusters 0 trees)).items =
      (tourFrom 0 trees).map fun s => (s.source.cluster, s.item number) := itemsFrom_clusters hn

theorem Step.source_item (number : List Nat → Nat) (s : Step) :
    (s.item number).source = number s.source.way := by cases s <;> rfl

theorem Step.child?_item (number : List Nat → Nat) (s : Step) :
    (s.item number).child? = s.target?.map (number ·.way) := by cases s <;> rfl

theorem Node.edge_mem_items (hn : Numbers number 0 (forest trees)) (i a b : Nat) (role : String) :
    (i, DiagramItem.edge a b role) ∈ (Diagram.mk (clusters 0 trees)).items ↔
      ∃ v w k, (forest trees)[a]? = some v ∧ (forest trees)[b]? = some w ∧
        w.IsChild k v ∧ role = v.node.role k ∧ i = v.cluster := by
  rw [items_diagram hn, List.mem_map]
  constructor
  · rintro ⟨s, hs, he⟩
    cases s with
    | node => cases he
    | edge v k c =>
      cases he
      obtain ⟨hv, hk⟩ := edge_mem_tourFrom.1 hs
      have hchild : Visit.IsChild ⟨v.way ++ [k], c⟩ k v := ⟨rfl, hk⟩
      exact ⟨v, ⟨v.way ++ [k], c⟩, k, hn.getElem? hv, hn.getElem? (hchild.mem hv), hchild, rfl, rfl⟩
  · rintro ⟨v, w, k, hv, hw, ⟨hway, hk⟩, rfl, rfl⟩
    refine ⟨.edge v k w.node, edge_mem_tourFrom.2 ⟨List.mem_of_getElem? hv, hk⟩, ?_⟩
    rw [Step.item, ← hway, hn.eq hv, hn.eq hw]
    rfl

theorem Node.nodes_items (hn : Numbers number 0 (forest trees)) :
    (Diagram.mk (clusters 0 trees)).items.filterMap (fun item => item.2.labelled?.map (item.1, ·)) =
      (forest trees).mapIdx fun id v => (v.cluster, id, v.node.label) := by
  have hstep : (fun item : Nat × DiagramItem => item.2.labelled?.map (item.1, ·)) ∘
      (fun s : Step => (s.source.cluster, s.item number)) =
        fun s => s.node?.map fun v => (v.cluster, number v.way, v.node.label) := by
    funext s
    cases s <;> rfl
  rw [items_diagram hn, List.filterMap_map, hstep, ← List.map_filterMap, nodes_tourFrom]
  refine List.ext_getElem? fun j => ?_
  rw [List.getElem?_map, List.getElem?_mapIdx]
  cases hv : (forest trees)[j]? with
  | none => rw [forest] at hv; rw [hv]; rfl
  | some v => rw [← forest, hv, Option.map_some, Option.map_some, hn.eq hv]

theorem Node.edge_last_items (hn : Numbers number 0 (forest trees))
    {before after : List (Nat × DiagramItem)} {i a b : Nat} {role : String}
    (he : (Diagram.mk (clusters 0 trees)).items = before ++ (i, .edge a b role) :: after)
    {w : Visit} (hw : (forest trees)[b]? = some w) {item : Nat × DiagramItem}
    (hmem : item ∈ (Diagram.mk (clusters 0 trees)).items) {v : Visit}
    (hv : (forest trees)[item.2.source]? = some v) (hwv : w.way <+: v.way) : item ∈ before := by
  have hleaves : (Diagram.mk (clusters 0 trees)).items.Pairwise fun x y =>
      ∀ b w v, x.2.child? = some b → (forest trees)[b]? = some w →
        (forest trees)[y.2.source]? = some v → ¬ w.way <+: v.way := by
    rw [items_diagram hn]
    refine List.pairwise_map.2 ((leaves_tourFrom 0 trees).imp_of_mem ?_)
    intro s t hs ht hst b w v hb hw hv
    cases s with
    | node => cases hb
    | edge u k c =>
      cases hb
      have hchild : Visit.IsChild ⟨u.way ++ [k], c⟩ k u := ⟨rfl, (edge_mem_tourFrom.1 hs).2⟩
      have hmem := hchild.mem (source_mem_tourFrom hs)
      cases hw.symm.trans (hn.getElem? hmem)
      rw [Step.source_item, hn.getElem? (source_mem_tourFrom ht)] at hv
      cases hv
      exact hst _ rfl
  rw [he] at hmem hleaves
  rcases List.mem_append.1 hmem with hb | hb
  · exact hb
  · rcases List.mem_cons.1 hb with rfl | ha
    · have hedge : (i, DiagramItem.edge a b role) ∈ (Diagram.mk (clusters 0 trees)).items := by
        simp [he]
      obtain ⟨v', w', k, hv', hw', ⟨hway, -⟩, -⟩ := (edge_mem_items hn i a b role).1 hedge
      cases hv.symm.trans hv'
      cases hw.symm.trans hw'
      have hle := hwv.length_le
      rw [hway, List.length_append, List.length_singleton] at hle
      omega
    · have hlater := (List.pairwise_cons.1 (List.pairwise_append.1 hleaves).2.1).1 item ha
      exact absurd hwv (hlater b w v rfl hw hv)

theorem Node.children_items (hn : Numbers number 0 (forest trees)) :
    ((Diagram.mk (clusters 0 trees)).items.filterMap (·.2.child?)).Perm
      (((forest trees).filter (! ·.isRoot)).map (number ·.way)) := by
  have hstep : (fun item : Nat × DiagramItem => item.2.child?) ∘
      (fun s : Step => (s.source.cluster, s.item number)) =
        fun s => s.target?.map (number ·.way) := by
    funext s
    exact s.child?_item number
  rw [items_diagram hn, List.filterMap_map, hstep, ← List.map_filterMap]
  exact (targets_tourFrom 0 trees).map _

theorem Node.incoming_items (hn : Numbers number 0 (forest trees)) {b : Nat} {w : Visit}
    (hw : (forest trees)[b]? = some w) :
    (Diagram.mk (clusters 0 trees)).items.countP (·.2.child? == some b) =
      if w.isRoot then 0 else 1 := by
  have hcount : (Diagram.mk (clusters 0 trees)).items.countP (·.2.child? == some b) =
      (((forest trees).filter (! ·.isRoot)).map (number ·.way)).count b := by
    rw [← (children_items hn).count_eq, List.count_filterMap]
  have hnodup : (((forest trees).filter (! ·.isRoot)).map (number ·.way)).Nodup := by
    refine List.Nodup.map_on ?_ ((ordered_forest trees).nodup.of_map _ |>.filter _)
    intro v hv v' hv' he
    have hplace := hn.getElem? (List.mem_filter.1 hv).1
    rw [he, hn.getElem? (List.mem_filter.1 hv').1] at hplace
    exact (Option.some.inj hplace).symm
  rw [hcount]
  split
  · next hroot =>
    refine List.count_eq_zero.2 fun hmem => ?_
    obtain ⟨v, hv, rfl⟩ := List.mem_map.1 hmem
    obtain ⟨hvf, hvr⟩ := List.mem_filter.1 hv
    cases hw.symm.trans (hn.getElem? hvf)
    simp [hroot] at hvr
  · next hroot =>
    refine List.count_eq_one_of_mem hnodup (List.mem_map.2 ⟨w, ?_, hn.eq hw⟩)
    exact List.mem_filter.2 ⟨List.mem_of_getElem? hw, by simpa using hroot⟩

theorem Node.edges_items (hn : Numbers number 0 (forest trees)) :
    (Diagram.mk (clusters 0 trees)).items.countP (·.2.child?.isSome) + trees.length =
      countAll trees := by
  have htargets := (targets_tourFrom 0 trees).length_eq
  have htrees := length_targets_tourFrom 0 trees
  rw [← List.length_filterMap_eq_countP, (children_items hn).length_eq, List.length_map, forest,
    ← htargets, htrees]
  exact length_forest trees

end

/-- Every list of trees is what its diagram shows. -/
theorem Node.depicts_clusters (trees : List Node) : Depicts trees ⟨clusters 0 trees⟩ := by
  obtain ⟨number, hn⟩ := (ordered_forest trees).exists_numbers
  exact {
    titles := titles_clusters 0 trees
    nodes := nodes_items hn
    edge_iff := edge_mem_items hn
    edge_last := fun before after i a b role he w hw item hmem v hv hwv =>
      edge_last_items hn he hw hmem hv hwv
    incoming := fun b w hw => incoming_items hn hw
    size := ⟨length_forest trees, edges_items hn⟩ }

end Kaleidoscope
