import Kaleidoscope.Node.Drawing
import Mathlib.Data.List.Infix
import Mathlib.Data.List.Perm.Basic

/-! Walks through trees. A node can occur more than once, so occurrences are told apart by the way
that leads to them: the place of the root, and from there on the places of children. -/

set_option autoImplicit false

namespace Kaleidoscope

/-- A node where it occurs. -/
structure Visit where
  way : List Nat
  node : Node

def Visit.under (k : Nat) (v : Visit) : Visit := ⟨k :: v.way, v.node⟩

namespace Node

def parts : Node → List Node
  | .binary _ left right _ => [left, right]
  | .call _ args _ => args
  | .function proto body _ => [proto, body]
  | _ => []

def role (n : Node) (k : Nat) : String :=
  match n with
  | .binary .. => if k = 0 then "left" else "right"
  | .call .. => argumentRole k
  | .function .. => if k = 0 then "proto" else "body"
  | _ => ""

mutual

/-- A node, and after it all that is below it. -/
def visits (way : List Nat) : Node → List Visit
  | n@(.binary _ left right _) =>
    ⟨way, n⟩ :: (visits (way ++ [0]) left ++ visits (way ++ [1]) right)
  | n@(.call _ args _) => ⟨way, n⟩ :: visitsFrom way 0 args
  | n@(.function proto body _) =>
    ⟨way, n⟩ :: (visits (way ++ [0]) proto ++ visits (way ++ [1]) body)
  | n => [⟨way, n⟩]

def visitsFrom (way : List Nat) (k : Nat) : List Node → List Visit
  | [] => []
  | n :: ns => visits (way ++ [k]) n ++ visitsFrom way (k + 1) ns

end

def forest (trees : List Node) : List Visit := visitsFrom [] 0 trees

theorem visits_eq (way : List Nat) (n : Node) :
    n.visits way = ⟨way, n⟩ :: visitsFrom way 0 n.parts := by
  cases n <;> simp [visits, visitsFrom, parts]

theorem count_eq (n : Node) : n.count = 1 + countAll n.parts := by
  cases n <;> simp [count, countAll, parts, Nat.add_assoc]

theorem count_le_countAll {n : Node} {ns : List Node} (h : n ∈ ns) : n.count ≤ countAll ns := by
  induction ns with
  | nil => cases h
  | cons m ns ih =>
    rw [countAll]
    rcases List.mem_cons.1 h with rfl | h
    · omega
    · have := ih h
      omega

/-- What passes from children to their parents holds of all trees. -/
@[elab_as_elim]
theorem induct_parts {motive : Node → Prop}
    (step : ∀ n : Node, (∀ c ∈ n.parts, motive c) → motive n) (n : Node) : motive n := by
  induction hk : n.count using Nat.strongRecOn generalizing n with
  | ind k ih =>
    subst hk
    refine step n fun c hc => ih c.count ?_ c rfl
    have hle := count_le_countAll hc
    rw [count_eq n]
    omega

theorem visitsFrom_under {cs : List Node}
    (h : ∀ c ∈ cs, ∀ k way, c.visits (k :: way) = (c.visits way).map (.under k)) (k : Nat)
    (way : List Nat) (j : Nat) :
    visitsFrom (k :: way) j cs = (visitsFrom way j cs).map (.under k) := by
  induction cs generalizing j with
  | nil => rfl
  | cons c cs ih =>
    obtain ⟨hc, hcs⟩ := List.forall_mem_cons.1 h
    rw [visitsFrom, visitsFrom, List.map_append, ih hcs, List.cons_append, hc]

theorem visits_under (n : Node) (k : Nat) (way : List Nat) :
    n.visits (k :: way) = (n.visits way).map (.under k) := by
  induction n using induct_parts generalizing k way with
  | step n ih =>
    rw [visits_eq, visits_eq, visitsFrom_under ih]
    rfl

theorem mem_visitsFrom {way : List Nat} {k : Nat} {ns : List Node} {v : Visit} :
    v ∈ visitsFrom way k ns ↔
      ∃ (j : Nat) (n : Node), ns[j]? = some n ∧ v ∈ n.visits (way ++ [k + j]) := by
  induction ns generalizing k with
  | nil => simp [visitsFrom]
  | cons n ns ih =>
    rw [visitsFrom, List.mem_append, ih]
    constructor
    · rintro (hv | ⟨j, m, hm, hv⟩)
      · exact ⟨0, n, rfl, hv⟩
      · exact ⟨j + 1, m, hm, by rwa [Nat.add_right_comm] at hv⟩
    · rintro ⟨_ | j, m, hm, hv⟩
      · cases hm
        exact .inl hv
      · exact .inr ⟨j, m, hm, by rwa [Nat.add_right_comm, Nat.add_assoc]⟩

theorem forall_visits {P : Node → Prop} (hP : ∀ n, P n → ∀ c ∈ n.parts, P c) {n : Node} (h : P n)
    {way : List Nat} : ∀ v ∈ n.visits way, P v.node := by
  induction n using induct_parts generalizing way with
  | step n ih =>
    intro v hv
    rw [visits_eq] at hv
    rcases List.mem_cons.1 hv with rfl | hv
    · exact h
    · obtain ⟨j, c, hc, hv⟩ := mem_visitsFrom.1 hv
      have hmem := List.mem_of_getElem? hc
      exact ih c hmem (hP n h c hmem) v hv

theorem forall_forest {P : Node → Prop} (hP : ∀ n, P n → ∀ c ∈ n.parts, P c) {trees : List Node}
    (h : ∀ n ∈ trees, P n) : ∀ v ∈ forest trees, P v.node := by
  intro v hv
  obtain ⟨j, n, hn, hv⟩ := mem_visitsFrom.1 hv
  exact forall_visits hP (h n (List.mem_of_getElem? hn)) v hv

theorem below_way {n : Node} {way : List Nat} {v : Visit} (h : v ∈ n.visits way) :
    way <+: v.way := by
  induction n using induct_parts generalizing way with
  | step n ih =>
    rw [visits_eq] at h
    rcases List.mem_cons.1 h with rfl | h
    · exact List.prefix_refl _
    · obtain ⟨j, c, hc, hv⟩ := mem_visitsFrom.1 h
      exact (List.prefix_append _ _).trans (ih c (List.mem_of_getElem? hc) hv)

theorem way_ne_nil {ns : List Node} {k : Nat} {v : Visit} (h : v ∈ visitsFrom [] k ns) :
    v.way ≠ [] := by
  obtain ⟨j, c, -, hv⟩ := mem_visitsFrom.1 h
  intro hnil
  have hprefix := below_way hv
  rw [hnil] at hprefix
  exact absurd hprefix (by simp)

theorem length_visitsFrom {ns : List Node} (h : ∀ n ∈ ns, ∀ way, (n.visits way).length = n.count)
    (way : List Nat) (k : Nat) : (visitsFrom way k ns).length = countAll ns := by
  induction ns generalizing k with
  | nil => rfl
  | cons n ns ih =>
    obtain ⟨hn, hns⟩ := List.forall_mem_cons.1 h
    rw [visitsFrom, List.length_append, hn, ih hns, countAll]

theorem length_visits (n : Node) (way : List Nat) : (n.visits way).length = n.count := by
  induction n using induct_parts generalizing way with
  | step n ih =>
    rw [visits_eq, List.length_cons, length_visitsFrom fun c hc => ih c hc, count_eq, Nat.add_comm]

theorem length_forest (trees : List Node) : (forest trees).length = countAll trees :=
  length_visitsFrom (fun n _ => length_visits n) [] 0

/-- Nodes are visited in the order of the ways to them. -/
def Ordered (vs : List Visit) : Prop := vs.Pairwise fun v w => v.way < w.way

theorem lt_of_prefix {way : List Nat} {i j : Nat} {v w : Visit} (hij : i < j)
    (hv : way ++ [i] <+: v.way) (hw : way ++ [j] <+: w.way) : v.way < w.way := by
  obtain ⟨x, hx⟩ := hv
  obtain ⟨y, hy⟩ := hw
  rw [← hx, ← hy, List.append_assoc, List.append_assoc]
  exact List.append_left_lt (List.cons_lt_cons_iff.2 (.inl hij))

theorem ordered_visitsFrom {ns : List Node} (h : ∀ n ∈ ns, ∀ way, Ordered (n.visits way))
    (way : List Nat) (k : Nat) : Ordered (visitsFrom way k ns) := by
  induction ns generalizing k with
  | nil => exact .nil
  | cons n ns ih =>
    obtain ⟨hn, hns⟩ := List.forall_mem_cons.1 h
    rw [visitsFrom]
    refine List.pairwise_append.2 ⟨hn _, ih hns _, fun v hv w hw => ?_⟩
    obtain ⟨j, c, -, hc⟩ := mem_visitsFrom.1 hw
    exact lt_of_prefix (by omega : k < k + 1 + j) (below_way hv) (below_way hc)

theorem ordered_visits (n : Node) (way : List Nat) : Ordered (n.visits way) := by
  induction n using induct_parts generalizing way with
  | step n ih =>
    rw [visits_eq]
    refine List.pairwise_cons.2 ⟨fun v hv => ?_, ordered_visitsFrom (fun c hc => ih c hc) way 0⟩
    obtain ⟨j, c, -, hc⟩ := mem_visitsFrom.1 hv
    obtain ⟨x, hx⟩ := below_way hc
    have hlt : way ++ [] < way ++ ([0 + j] ++ x) := List.append_left_lt (List.nil_lt_cons _ _)
    rwa [List.append_nil, ← List.append_assoc, hx] at hlt

theorem ordered_forest (trees : List Node) : Ordered (forest trees) :=
  ordered_visitsFrom (fun n _ => ordered_visits n) [] 0

theorem Ordered.nodup {vs : List Visit} (h : Ordered vs) : (vs.map Visit.way).Nodup :=
  List.pairwise_map.2 (h.imp fun {v w} hvw (he : v.way = w.way) => by
    rw [he] at hvw
    exact List.lt_irrefl _ hvw)

end Node

/-- A tour comes to each node once, and comes back from each child once. -/
inductive Step where
  | node (v : Visit)
  | edge (parent : Visit) (k : Nat) (child : Node)

namespace Step

def source : Step → Visit
  | .node v => v
  | .edge v _ _ => v

def node? : Step → Option Visit
  | .node v => some v
  | .edge .. => none

def target? : Step → Option Visit
  | .node _ => none
  | .edge v k c => some ⟨v.way ++ [k], c⟩

end Step

namespace Node

mutual

def tour (way : List Nat) : Node → List Step
  | n@(.binary _ left right _) =>
    .node ⟨way, n⟩ :: (tour (way ++ [0]) left ++ .edge ⟨way, n⟩ 0 left ::
      (tour (way ++ [1]) right ++ [.edge ⟨way, n⟩ 1 right]))
  | n@(.call _ args _) => .node ⟨way, n⟩ :: tourUnder ⟨way, n⟩ 0 args
  | n@(.function proto body _) =>
    .node ⟨way, n⟩ :: (tour (way ++ [0]) proto ++ .edge ⟨way, n⟩ 0 proto ::
      (tour (way ++ [1]) body ++ [.edge ⟨way, n⟩ 1 body]))
  | n => [.node ⟨way, n⟩]

def tourUnder (v : Visit) (k : Nat) : List Node → List Step
  | [] => []
  | c :: cs => tour (v.way ++ [k]) c ++ .edge v k c :: tourUnder v (k + 1) cs

end

def tourFrom (k : Nat) : List Node → List Step
  | [] => []
  | n :: ns => n.tour [k] ++ tourFrom (k + 1) ns

theorem tour_eq (way : List Nat) (n : Node) :
    n.tour way = .node ⟨way, n⟩ :: tourUnder ⟨way, n⟩ 0 n.parts := by
  cases n <;> simp [tour, tourUnder, parts]

theorem nodes_tourUnder {cs : List Node}
    (h : ∀ c ∈ cs, ∀ way, (c.tour way).filterMap Step.node? = c.visits way) (v : Visit) (k : Nat) :
    (tourUnder v k cs).filterMap Step.node? = visitsFrom v.way k cs := by
  induction cs generalizing k with
  | nil => rfl
  | cons c cs ih =>
    obtain ⟨hc, hcs⟩ := List.forall_mem_cons.1 h
    rw [tourUnder, List.filterMap_append, List.filterMap_cons_none rfl, hc, ih hcs, visitsFrom]

theorem nodes_tour (n : Node) (way : List Nat) :
    (n.tour way).filterMap Step.node? = n.visits way := by
  induction n using induct_parts generalizing way with
  | step n ih =>
    rw [tour_eq, visits_eq]
    exact congrArg (_ :: ·) (nodes_tourUnder (fun c hc => ih c hc) ⟨way, n⟩ 0)

theorem edge_mem_tourUnder {cs : List Node}
    (h : ∀ c ∈ cs, ∀ way (v : Visit) (k : Nat) (d : Node),
      Step.edge v k d ∈ c.tour way ↔ v ∈ c.visits way ∧ v.node.parts[k]? = some d)
    (u : Visit) (k : Nat) (v : Visit) (j : Nat) (d : Node) :
    Step.edge v j d ∈ tourUnder u k cs ↔
      (∃ i, v = u ∧ j = k + i ∧ cs[i]? = some d) ∨
        v ∈ visitsFrom u.way k cs ∧ v.node.parts[j]? = some d := by
  induction cs generalizing k with
  | nil => simp [tourUnder, visitsFrom]
  | cons c cs ih =>
    obtain ⟨hc, hcs⟩ := List.forall_mem_cons.1 h
    have hfirst : (∃ i, v = u ∧ j = k + i ∧ (c :: cs)[i]? = some d) ↔
        Step.edge v j d = .edge u k c ∨ ∃ i, v = u ∧ j = k + 1 + i ∧ cs[i]? = some d := by
      constructor
      · rintro ⟨_ | i, rfl, rfl, hd⟩
        · cases hd
          exact .inl rfl
        · exact .inr ⟨i, rfl, by omega, hd⟩
      · rintro (he | ⟨i, rfl, rfl, hd⟩)
        · cases he
          exact ⟨0, rfl, rfl, rfl⟩
        · exact ⟨i + 1, rfl, by omega, hd⟩
    rw [tourUnder, visitsFrom, List.mem_append, List.mem_cons, List.mem_append, hc, ih hcs, hfirst,
      or_and_right]
    constructor
    · rintro (hv | he | hi | hv)
      · exact .inr (.inl hv)
      · exact .inl (.inl he)
      · exact .inl (.inr hi)
      · exact .inr (.inr hv)
    · rintro ((he | hi) | (hv | hv))
      · exact .inr (.inl he)
      · exact .inr (.inr (.inl hi))
      · exact .inl hv
      · exact .inr (.inr (.inr hv))

theorem edge_mem_tour (n : Node) (way : List Nat) (v : Visit) (k : Nat) (c : Node) :
    Step.edge v k c ∈ n.tour way ↔ v ∈ n.visits way ∧ v.node.parts[k]? = some c := by
  induction n using induct_parts generalizing way v k c with
  | step n ih =>
    rw [tour_eq, visits_eq, List.mem_cons, List.mem_cons, edge_mem_tourUnder fun c hc => ih c hc]
    simp only [reduceCtorEq, false_or, Nat.zero_add, exists_and_left, exists_eq_left']
    constructor
    · rintro (⟨rfl, hc⟩ | ⟨hv, hc⟩)
      · exact ⟨.inl rfl, hc⟩
      · exact ⟨.inr hv, hc⟩
    · rintro ⟨rfl | hv, hc⟩
      · exact .inl ⟨rfl, hc⟩
      · exact .inr ⟨hv, hc⟩

theorem source_mem {n : Node} {way : List Nat} {s : Step} (h : s ∈ n.tour way) :
    s.source ∈ n.visits way := by
  cases s with
  | node v =>
    rw [← nodes_tour]
    exact List.mem_filterMap.2 ⟨_, h, rfl⟩
  | edge v k c => exact ((edge_mem_tour n way v k c).1 h).1

theorem targets_tourUnder {cs : List Node}
    (h : ∀ c ∈ cs, ∀ way, ((c.tour way).filterMap Step.target?).Perm (visitsFrom way 0 c.parts))
    (v : Visit) (k : Nat) :
    ((tourUnder v k cs).filterMap Step.target?).Perm (visitsFrom v.way k cs) := by
  induction cs generalizing k with
  | nil => exact .nil
  | cons c cs ih =>
    obtain ⟨hc, hcs⟩ := List.forall_mem_cons.1 h
    rw [tourUnder, visitsFrom, List.filterMap_append, visits_eq]
    exact List.perm_middle.trans (((hc _).append (ih hcs _)).cons _)

theorem targets_tour (n : Node) (way : List Nat) :
    ((n.tour way).filterMap Step.target?).Perm (visitsFrom way 0 n.parts) := by
  induction n using induct_parts generalizing way with
  | step n ih =>
    rw [tour_eq, List.filterMap_cons_none rfl]
    exact targets_tourUnder (fun c hc => ih c hc) ⟨way, n⟩ 0

/-- No step of the other kind stands below a node that this step comes back from. -/
def Step.Leaves (s t : Step) : Prop := ∀ v, s.target? = some v → ¬ v.way <+: t.source.way

theorem below_target {n : Node} {way : List Nat} {s : Step} (h : s ∈ n.tour way) {v : Visit}
    (hv : s.target? = some v) : way <+: v.way := by
  cases s with
  | node => cases hv
  | edge u k c =>
    cases hv
    exact (below_way (source_mem h)).trans (List.prefix_append _ _)

theorem source_tourUnder {u : Visit} {k : Nat} {cs : List Node} {s : Step}
    (h : s ∈ tourUnder u k cs) :
    s.source = u ∨ ∃ j, k ≤ j ∧ u.way ++ [j] <+: s.source.way := by
  induction cs generalizing k with
  | nil => cases h
  | cons c cs ih =>
    rw [tourUnder] at h
    rcases List.mem_append.1 h with h | h
    · exact .inr ⟨k, Nat.le_refl _, below_way (source_mem h)⟩
    · rcases List.mem_cons.1 h with rfl | h
      · exact .inl rfl
      · rcases ih h with hs | ⟨j, hj, hs⟩
        · exact .inl hs
        · exact .inr ⟨j, Nat.le_of_succ_le hj, hs⟩

theorem eq_of_prefix {way w : List Nat} {i j : Nat} (hi : way ++ [i] <+: w)
    (hj : way ++ [j] <+: w) : i = j := by
  have he := (List.prefix_of_prefix_length_le hi hj (by simp)).eq_of_length (by simp)
  simpa using he

theorem not_prefix_of_source {u : Visit} {k : Nat} {cs : List Node} {s : Step}
    (h : s ∈ tourUnder u (k + 1) cs ∨ s.source = u) : ¬ u.way ++ [k] <+: s.source.way := by
  intro hk
  have hs : s.source = u ∨ ∃ j, k + 1 ≤ j ∧ u.way ++ [j] <+: s.source.way := by
    rcases h with h | h
    · exact source_tourUnder h
    · exact .inl h
  rcases hs with hs | ⟨j, hj, hs⟩
  · have hle := hk.length_le
    rw [hs, List.length_append, List.length_singleton] at hle
    omega
  · have hkj := eq_of_prefix hk hs
    omega

theorem leaves_tourUnder {cs : List Node}
    (h : ∀ c ∈ cs, ∀ way, (c.tour way).Pairwise Step.Leaves) (u : Visit) (k : Nat) :
    (tourUnder u k cs).Pairwise Step.Leaves := by
  induction cs generalizing k with
  | nil => exact .nil
  | cons c cs ih =>
    obtain ⟨hc, hcs⟩ := List.forall_mem_cons.1 h
    rw [tourUnder]
    refine List.pairwise_append.2 ⟨hc _, List.pairwise_cons.2 ⟨?_, ih hcs _⟩, ?_⟩
    · intro t ht v hv
      cases hv
      exact not_prefix_of_source (.inl ht)
    · intro s hs t ht v hv hvt
      have hlater : t ∈ tourUnder u (k + 1) cs ∨ t.source = u := by
        rcases List.mem_cons.1 ht with rfl | ht
        · exact .inr rfl
        · exact .inl ht
      exact not_prefix_of_source hlater ((below_target hs hv).trans hvt)

theorem leaves_tour (n : Node) (way : List Nat) : (n.tour way).Pairwise Step.Leaves := by
  induction n using induct_parts generalizing way with
  | step n ih =>
    rw [tour_eq]
    exact List.pairwise_cons.2 ⟨by rintro t - v ⟨⟩, leaves_tourUnder (fun c hc => ih c hc) _ _⟩

theorem nodes_tourFrom (k : Nat) (trees : List Node) :
    (tourFrom k trees).filterMap Step.node? = visitsFrom [] k trees := by
  induction trees generalizing k with
  | nil => rfl
  | cons n ns ih =>
    rw [tourFrom, visitsFrom, List.filterMap_append, nodes_tour, ih, List.nil_append]

theorem edge_mem_tourFrom {k : Nat} {trees : List Node} {v : Visit} {j : Nat} {c : Node} :
    Step.edge v j c ∈ tourFrom k trees ↔
      v ∈ visitsFrom [] k trees ∧ v.node.parts[j]? = some c := by
  induction trees generalizing k with
  | nil => simp [tourFrom, visitsFrom]
  | cons n ns ih =>
    rw [tourFrom, visitsFrom, List.mem_append, List.mem_append, edge_mem_tour, ih, or_and_right,
      List.nil_append]

theorem source_mem_tourFrom {k : Nat} {trees : List Node} {s : Step} (h : s ∈ tourFrom k trees) :
    s.source ∈ visitsFrom [] k trees := by
  cases s with
  | node v =>
    rw [← nodes_tourFrom]
    exact List.mem_filterMap.2 ⟨_, h, rfl⟩
  | edge v j c => exact (edge_mem_tourFrom.1 h).1

end Node

def Visit.isRoot (v : Visit) : Bool := v.way.length == 1

namespace Node

theorem roots_visits (n : Node) (k : Nat) :
    (n.visits [k]).filter (! ·.isRoot) = visitsFrom [k] 0 n.parts := by
  rw [visits_eq, List.filter_cons_of_neg (by simp [Visit.isRoot])]
  refine List.filter_eq_self.2 fun v hv => ?_
  obtain ⟨j, c, -, hc⟩ := mem_visitsFrom.1 hv
  have hle := (below_way hc).length_le
  simp only [List.singleton_append, List.length_cons, List.length_nil] at hle
  simp only [Visit.isRoot, Bool.not_eq_true', beq_eq_false_iff_ne]
  omega

theorem targets_tourFrom (k : Nat) (trees : List Node) :
    ((tourFrom k trees).filterMap Step.target?).Perm
      ((visitsFrom [] k trees).filter (! ·.isRoot)) := by
  induction trees generalizing k with
  | nil => exact .nil
  | cons n ns ih =>
    rw [tourFrom, visitsFrom, List.filterMap_append, List.filter_append, List.nil_append,
      roots_visits]
    exact (targets_tour n [k]).append (ih _)

theorem length_targets_tourFrom (k : Nat) (trees : List Node) :
    ((tourFrom k trees).filterMap Step.target?).length + trees.length =
      (visitsFrom [] k trees).length := by
  induction trees generalizing k with
  | nil => rfl
  | cons n ns ih =>
    have htree := (targets_tour n [k]).length_eq
    have hrest := ih (k + 1)
    rw [tourFrom, visitsFrom, List.filterMap_append, List.length_append, List.length_append,
      List.nil_append, visits_eq, List.length_cons, List.length_cons, htree]
    omega

theorem leaves_tourFrom (k : Nat) (trees : List Node) :
    (tourFrom k trees).Pairwise Step.Leaves := by
  induction trees generalizing k with
  | nil => exact .nil
  | cons n ns ih =>
    rw [tourFrom]
    refine List.pairwise_append.2 ⟨leaves_tour n _, ih _, fun s hs t ht v hv hvt => ?_⟩
    obtain ⟨j, c, -, hc⟩ := mem_visitsFrom.1 (source_mem_tourFrom ht)
    have hk : [] ++ [k] <+: t.source.way := (below_target hs hv).trans hvt
    have hkj := eq_of_prefix hk (below_way hc)
    omega

end Node

end Kaleidoscope
