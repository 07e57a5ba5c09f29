import Kaleidoscope.Proofs.Forest

/-! Diagrams tell trees. Read from first to last, the items of a cluster grow a tree on a stack: a
node is put on top, and an edge takes it from there and hands it to its parent. If the labels tell
what the nodes carry, all of the trees is found again but the positions. -/

set_option autoImplicit false

namespace Kaleidoscope

namespace Node

/-- What a node carries by itself. -/
def stem : Node → Node
  | .missing => .missing
  | .bare kind _ => .bare kind {}
  | .textual text _ => .textual text {}
  | .number value _ => .number value {}
  | .var name _ => .var name {}
  | .binary operator .. => .binary operator .missing .missing {}
  | .call callee .. => .call callee [] {}
  | .prototype name params _ => .prototype name params {}
  | .function .. => .function .missing .missing {}

def withParts : Node → List Node → Option Node
  | .binary operator _ _ start, [left, right] => some (.binary operator left right start)
  | .binary .., _ => none
  | .call callee _ start, args => some (.call callee args start)
  | .function _ _ start, [proto, body] => some (.function proto body start)
  | .function .., _ => none
  | n, [] => some n
  | _, _ => none

mutual

def unplaced : Node → Node
  | .missing => .missing
  | .bare kind _ => .bare kind {}
  | .textual text _ => .textual text {}
  | .number value _ => .number value {}
  | .var name _ => .var name {}
  | .binary operator left right _ => .binary operator left.unplaced right.unplaced {}
  | .call callee args _ => .call callee (unplacedAll args) {}
  | .prototype name params _ => .prototype name params {}
  | .function proto body _ => .function proto.unplaced body.unplaced {}

def unplacedAll : List Node → List Node
  | [] => []
  | n :: ns => n.unplaced :: unplacedAll ns

end

theorem withParts_stem (n : Node) : n.stem.withParts (unplacedAll n.parts) = some n.unplaced := by
  cases n <;> rfl

theorem role_stem (n : Node) (k : Nat) : n.stem.role k = n.role k := by cases n <;> rfl

end Node

/-- A node whose children are still coming in. -/
structure Sprout where
  id : Nat
  stem : Node
  children : List Node

namespace Sprout

def grown (s : Sprout) : Option Node := s.stem.withParts s.children

/-- What an item does to the stack. A node that is no child of the one below it is an error, and so
is an edge with the role of another child. -/
def place (read : String → Option Node) : List Sprout → DiagramItem → Option (List Sprout)
  | stack, .node id label => do return ⟨id, ← read label, []⟩ :: stack
  | child :: parent :: stack, .edge a b role =>
    if parent.id = a ∧ child.id = b ∧ role = parent.stem.role parent.children.length then do
      return { parent with children := parent.children ++ [← child.grown] } :: stack
    else none
  | _, .edge .. => none

end Sprout

def Cluster.tree? (read : String → Option Node) (c : Cluster) : Option Node := do
  match ← c.items.foldlM (Sprout.place read) [] with
  | [s] => s.grown
  | _ => none

def Diagram.trees? (read : String → Option Node) (d : Diagram) : Option (List Node) :=
  d.clusters.mapM (Cluster.tree? read)

namespace Node

variable {read : String → Option Node}

def Tells (read : String → Option Node) (vs : List Visit) : Prop :=
  ∀ v ∈ vs, read v.node.label = some v.node.stem

theorem place_drawUnder {n : Node} {cs : List Node}
    (h : ∀ c ∈ cs, ∀ id way stack, Tells read (c.visits way) →
      (c.draw id).foldlM (Sprout.place read) stack =
        some (⟨id, c.stem, unplacedAll c.parts⟩ :: stack))
    (parent id : Nat) (way : List Nat) (k : Nat) (before : List Node) (stack : List Sprout)
    (hk : before.length = k) (ht : Tells read (visitsFrom way k cs)) :
    (drawUnder parent n id k cs).foldlM (Sprout.place read) (⟨parent, n.stem, before⟩ :: stack) =
      some (⟨parent, n.stem, before ++ unplacedAll cs⟩ :: stack) := by
  induction cs generalizing id k before with
  | nil => simp [drawUnder, unplacedAll]
  | cons c cs ih =>
    obtain ⟨hc, hcs⟩ := List.forall_mem_cons.1 h
    rw [visitsFrom] at ht
    obtain ⟨htc, htcs⟩ := List.forall_mem_append.1 ht
    have hchild := hc id _ (⟨parent, n.stem, before⟩ :: stack) htc
    have hedge : Sprout.place read
        (⟨id, c.stem, unplacedAll c.parts⟩ :: ⟨parent, n.stem, before⟩ :: stack)
        (.edge parent id (n.role k)) =
          some (⟨parent, n.stem, before ++ [c.unplaced]⟩ :: stack) := by
      simp [Sprout.place, Sprout.grown, withParts_stem, role_stem, hk]
    have hrest := ih hcs (id + c.count) (k + 1) (before ++ [c.unplaced]) (by simp [hk]) htcs
    rw [drawUnder, List.foldlM_append, hchild, Option.bind_eq_bind, Option.bind_some,
      List.foldlM_cons, hedge, Option.bind_eq_bind, Option.bind_some, hrest, unplacedAll,
      List.append_assoc, List.singleton_append]

/-- The items of a tree leave its root on the stack, with all its children. -/
theorem place_draw (n : Node) (id : Nat) (way : List Nat) (stack : List Sprout)
    (ht : Tells read (n.visits way)) :
    (n.draw id).foldlM (Sprout.place read) stack =
      some (⟨id, n.stem, unplacedAll n.parts⟩ :: stack) := by
  induction n using induct_parts generalizing id way stack with
  | step n ih =>
    rw [visits_eq] at ht
    obtain ⟨hroot, hbelow⟩ := List.forall_mem_cons.1 ht
    have hnode : Sprout.place read stack (.node id n.label) = some (⟨id, n.stem, []⟩ :: stack) := by
      simp [Sprout.place, hroot]
    rw [draw_eq, List.foldlM_cons, hnode, Option.bind_eq_bind, Option.bind_some]
    exact place_drawUnder (fun c hc id way stack => ih c hc id way stack) id (id + 1) way 0 [] stack
      rfl hbelow

theorem trees?_clusters (id k : Nat) (trees : List Node)
    (ht : Tells read (visitsFrom [] k trees)) :
    (clusters id trees).mapM (Cluster.tree? read) = some (unplacedAll trees) := by
  induction trees generalizing id k with
  | nil => rfl
  | cons n ns ih =>
    rw [visitsFrom] at ht
    obtain ⟨hn, hns⟩ := List.forall_mem_append.1 ht
    have htree : Cluster.tree? read ⟨n.title, n.draw id⟩ = some n.unplaced := by
      unfold Cluster.tree?
      rw [place_draw n id _ [] hn]
      exact withParts_stem n
    rw [clusters, List.mapM_cons, htree, ih _ _ hns]
    rfl

end Node

theorem Diagram.clusterLines_eq (index : Nat) (cs : List Cluster) :
    clusterLines index cs = (cs.mapIdx fun i c => c.lines (index + i)).flatten := by
  induction cs generalizing index with
  | nil => rfl
  | cons c cs ih =>
    rw [clusterLines, ih, List.mapIdx_cons, List.flatten_cons]
    simp only [Nat.add_zero, Nat.add_assoc, Nat.add_comm 1]

/-- The diagram of regular trees is their forest. Its text holds one cluster for each of them,
numbered from zero, with a line for each node, which is named for its number, and for each edge; and
from the items the trees are found again up to positions, whenever the labels tell what the nodes
carry. -/
theorem Node.diagram_forest (trees : List Node) (h : ∀ n ∈ trees, n.IsRegular) :
    ∃ d, diagram trees = .ok d ∧ Depicts trees d ∧
      d.lines =
        ["digraph \x7b", "\tgraph [rankdir=TB]",
          "\tnode [fontname=Helvetica fontsize=10 shape=box]"] ++
        (d.clusters.mapIdx fun i c =>
          [s!"\tsubgraph cluster_{i} \x7b",
            s!"\t\tcolor=gray label={Dot.value c.title} style=rounded"] ++
          (c.items.map fun
            | .node id label => s!"\t\tn{id} [label={Dot.value label}]"
            | .edge parent child role =>
              s!"\t\tn{parent} -> n{child} [label={Dot.value role}]") ++
          ["\t\x7d"]).flatten ++
        ["\x7d"] ∧
      ∀ read : String → Option Node,
        (∀ v ∈ forest trees, read v.node.label = some v.node.stem) →
          d.trees? read = some (unplacedAll trees) := by
  have hlines := Diagram.clusterLines_eq 0 (clusters 0 trees)
  simp only [Nat.zero_add] at hlines
  have hdiagram := diagram_eq fun n hn => (h n hn).flawless
  refine ⟨⟨clusters 0 trees⟩, hdiagram, depicts_clusters trees, ?_, fun read ht => ?_⟩
  · rw [Diagram.lines, hlines]
    rfl
  · exact trees?_clusters 0 0 trees ht

theorem Node.diagram_forest_twins :
    let twin : Node := .function (.prototype "f" ["x"] ⟨1, 5⟩)
      (.binary "+" (.var "x" ⟨1, 10⟩) (.var "x" ⟨1, 14⟩) ⟨1, 10⟩) ⟨1, 1⟩
    let read : String → Option Node := fun label =>
      if label = "Function\\nf" then some twin.stem
      else if label = "Prototype\\nf(x)" then some (.prototype "f" ["x"] {})
      else if label = "BinaryOp\\n+" then some (.binary "+" .missing .missing {})
      else if label = "Variable\\nx" then some (.var "x" {})
      else none
    (∀ n ∈ [twin, twin], n.IsRegular) ∧
      (∀ v ∈ forest [twin, twin], read v.node.label = some v.node.stem) ∧
      ∃ d, diagram [twin, twin] = .ok d ∧ Depicts [twin, twin] d ∧
        (1, DiagramItem.edge 7 9 "right") ∈ d.items ∧
        d.trees? read = some (unplacedAll [twin, twin]) := by
  intro twin read
  have hall : ∀ n ∈ [twin, twin], n.IsRegular := by
    intro n hn
    have hn : n = twin := by simpa using hn
    rw [hn]
    exact .function (.binary .var .var)
  have hread : ∀ v ∈ forest [twin, twin], read v.node.label = some v.node.stem := by
    intro v hv
    simp only [forest, visitsFrom, visits, twin, List.mem_append, List.mem_cons,
      List.not_mem_nil, or_false] at hv
    rcases hv with (rfl | rfl | rfl | rfl | rfl) | (rfl | rfl | rfl | rfl | rfl) <;> rfl
  obtain ⟨d, hd, hdepicts, -, htrees⟩ := diagram_forest [twin, twin] hall
  refine ⟨hall, hread, d, hd, hdepicts, ?_, htrees read hread⟩
  rw [← Except.ok.inj hd]
  decide +kernel

end Kaleidoscope
