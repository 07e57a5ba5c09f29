import Kaleidoscope.Chain

/-! How a chain of operators groups. A chain splits at its last operator of least level, and so do
the two chains on either side of it. The tree that is built in one pass is the one that splits. -/

set_option autoImplicit false

namespace Kaleidoscope.Chain

/-- The tree of a chain that is split, again and again, at the last operator of least level. -/
inductive Splits : Node → List Link → Node → Prop where
  | single (first : Node) : Splits first [] first
  | split {first left right : Node} {before after : List Link} {l : Link} :
      (∀ k ∈ before, l.level ≤ k.level) → (∀ k ∈ after, l.level < k.level) →
      Splits first before left → Splits l.operand after right →
      Splits first (before ++ l :: after) (join left l.operator right)

/-- What waits, and the last operand, when a chain has been read. -/
def push (ps : List Pending) (last : Node) : List Link → List Pending × Node
  | [] => (ps, last)
  | l :: ls =>
    push (⟨(reduce l.level ps last).2, l.operator, l.level⟩ :: (reduce l.level ps last).1)
      l.operand ls

theorem grow_eq (ps : List Pending) (last : Node) (ls : List Link) :
    grow ps last ls = close (push ps last ls).1 (push ps last ls).2 := by
  induction ls generalizing ps last with
  | nil => rfl
  | cons l ls ih => simp only [grow, push, ih]

theorem tree_eq (first : Node) (ls : List Link) :
    tree first ls = close (push [] first ls).1 (push [] first ls).2 := grow_eq [] first ls

theorem grow_append (ps : List Pending) (last : Node) (xs ys : List Link) :
    grow ps last (xs ++ ys) = grow (push ps last xs).1 (push ps last xs).2 ys := by
  induction xs generalizing ps last with
  | nil => rfl
  | cons x xs ih => simp only [List.cons_append, grow, push, ih]

theorem tree_append (first : Node) (xs ys : List Link) :
    tree first (xs ++ ys) = grow (push [] first xs).1 (push [] first xs).2 ys :=
  grow_append [] first xs ys

theorem close_append (ps qs : List Pending) (right : Node) :
    close (ps ++ qs) right = close qs (close ps right) := by
  induction ps generalizing right with
  | nil => rfl
  | cons p ps ih => simp only [List.cons_append, close, ih]

theorem reduce_append_of_le {level : Int} {ps : List Pending} (h : ∀ p ∈ ps, level ≤ p.level)
    (qs : List Pending) (right : Node) :
    reduce level (ps ++ qs) right = reduce level qs (close ps right) := by
  induction ps generalizing right with
  | nil => rfl
  | cons p ps ih =>
    obtain ⟨hp, hps⟩ := List.forall_mem_cons.1 h
    simp only [List.cons_append, reduce, hp, if_true, ih hps, close]

theorem reduce_append {level : Int} (ps : List Pending) {q : Pending} (qs : List Pending)
    (h : q.level < level) (right : Node) :
    reduce level (ps ++ q :: qs) right =
      ((reduce level ps right).1 ++ q :: qs, (reduce level ps right).2) := by
  induction ps generalizing right with
  | nil => simp only [List.nil_append, reduce, Int.not_le.2 h, if_false]
  | cons p ps ih =>
    simp only [List.cons_append, reduce]
    split
    · exact ih _
    · rfl

theorem push_append (ps : List Pending) {q : Pending} (qs : List Pending) (last : Node)
    {ls : List Link} (h : ∀ l ∈ ls, q.level < l.level) :
    push (ps ++ q :: qs) last ls = ((push ps last ls).1 ++ q :: qs, (push ps last ls).2) := by
  induction ls generalizing ps last with
  | nil => rfl
  | cons l ls ih =>
    obtain ⟨hl, hls⟩ := List.forall_mem_cons.1 h
    simp only [push, reduce_append ps qs hl]
    exact ih (_ :: _) _ hls

theorem mem_of_mem_reduce {level : Int} {ps : List Pending} {right : Node} {p : Pending}
    (h : p ∈ (reduce level ps right).1) : p ∈ ps := by
  induction ps generalizing right with
  | nil => exact h
  | cons q ps ih =>
    simp only [reduce] at h
    split at h
    · exact List.mem_cons_of_mem q (ih h)
    · exact h

theorem le_level_of_mem_push {least : Int} {ls : List Link} (h : ∀ l ∈ ls, least ≤ l.level)
    {ps : List Pending} (hps : ∀ p ∈ ps, least ≤ p.level) (last : Node) :
    ∀ p ∈ (push ps last ls).1, least ≤ p.level := by
  induction ls generalizing ps last with
  | nil => exact hps
  | cons l ls ih =>
    obtain ⟨hl, hls⟩ := List.forall_mem_cons.1 h
    refine ih hls (List.forall_mem_cons.2 ⟨hl, fun p hp => ?_⟩) _
    exact hps p (mem_of_mem_reduce hp)

theorem grow_append_close {ps : List Pending} {ls : List Link}
    (h : ∀ l ∈ ls.head?, ∀ p ∈ ps, l.level ≤ p.level) (qs : List Pending) (last : Node) :
    grow (ps ++ qs) last ls = grow qs (close ps last) ls := by
  cases ls with
  | nil => exact close_append ps qs last
  | cons l ls => simp only [grow, reduce_append_of_le (h l rfl)]

theorem grow_close {ps : List Pending} {ls : List Link}
    (h : ∀ l ∈ ls.head?, ∀ p ∈ ps, l.level ≤ p.level) (last : Node) :
    grow ps last ls = grow [] (close ps last) ls := by
  have hclose := grow_append_close h [] last
  rwa [List.append_nil] at hclose

theorem grow_tight (q : Pending) (qs : List Pending) (last : Node) {tight rest : List Link}
    (ht : ∀ k ∈ tight, q.level < k.level)
    (hr : ∀ l ∈ rest.head?, ∀ k ∈ tight, l.level ≤ k.level) :
    grow (q :: qs) last (tight ++ rest) = grow (q :: qs) (tree last tight) rest := by
  have hp := push_append [] qs last ht
  rw [List.nil_append] at hp
  rw [grow_append, hp, tree_eq]
  refine grow_append_close (fun l hl => ?_) _ _
  exact le_level_of_mem_push (hr l hl) (by simp) last

theorem tree_tight (first : Node) (before : List Link) (l : Link) {tight rest : List Link}
    (ht : ∀ k ∈ tight, l.level < k.level)
    (hr : ∀ l ∈ rest.head?, ∀ k ∈ tight, l.level ≤ k.level) :
    tree first (before ++ l :: (tight ++ rest)) =
      tree first (before ++ { l with operand := tree l.operand tight } :: rest) := by
  rw [tree_append, tree_append, grow, grow]
  exact grow_tight ⟨_, l.operator, l.level⟩ _ _ ht hr

theorem tree_cons_append (first : Node) (l : Link) (tight rest : List Link)
    (ht : ∀ k ∈ tight, l.level < k.level) (hr : ∀ k ∈ rest.head?, k.level ≤ l.level) :
    tree first (l :: (tight ++ rest)) =
      tree (join first l.operator (tree l.operand tight)) rest := by
  have hle : ∀ k ∈ rest.head?, ∀ k' ∈ tight, k.level ≤ k'.level := by
    intro k hk k' hk'
    have h₁ := hr k hk
    have h₂ := ht k' hk'
    omega
  simp only [tree, grow, reduce]
  rw [grow_tight _ _ _ ht hle, grow_close]
  · rfl
  · intro k hk p hp
    rw [List.mem_singleton.1 hp]
    exact hr k hk

/-- The tree splits where a split is due. -/
theorem tree_split (first : Node) {before after : List Link} {l : Link}
    (hb : ∀ k ∈ before, l.level ≤ k.level) (ha : ∀ k ∈ after, l.level < k.level) :
    tree first (before ++ l :: after) =
      join (tree first before) l.operator (tree l.operand after) := by
  have hps : ∀ p ∈ (push [] first before).1, l.level ≤ p.level :=
    le_level_of_mem_push hb (by simp) first
  have hcons := tree_cons_append (tree first before) l after [] ha (by simp)
  rw [List.append_nil] at hcons
  calc tree first (before ++ l :: after)
      = grow (push [] first before).1 (push [] first before).2 (l :: after) := tree_append ..
    _ = tree (tree first before) (l :: after) := by
        rw [tree_eq first before, tree, ← grow_close]
        intro k hk p hp
        cases hk
        exact hps p hp
    _ = join (tree first before) l.operator (tree l.operand after) := hcons

theorem exists_split {ls : List Link} (h : ls ≠ []) :
    ∃ before l after, ls = before ++ l :: after ∧ (∀ k ∈ before, l.level ≤ k.level) ∧
      ∀ k ∈ after, l.level < k.level := by
  induction ls with
  | nil => contradiction
  | cons x xs ih =>
    by_cases hxs : xs = []
    · subst hxs
      exact ⟨[], x, [], rfl, by simp, by simp⟩
    · obtain ⟨before, l, after, rfl, hb, ha⟩ := ih hxs
      by_cases hx : x.level < l.level
      · refine ⟨[], x, before ++ l :: after, rfl, by simp, fun k hk => ?_⟩
        obtain hk | hk := List.mem_append.1 hk
        · have := hb k hk
          omega
        · obtain rfl | hk := List.mem_cons.1 hk
          · exact hx
          · have := ha k hk
            omega
      · exact ⟨x :: before, l, after, rfl, List.forall_mem_cons.2 ⟨by omega, hb⟩, ha⟩

theorem splits_tree (first : Node) (ls : List Link) : Splits first ls (tree first ls) := by
  induction hn : ls.length using Nat.strongRecOn generalizing first ls with
  | ind n ih =>
    by_cases hls : ls = []
    · subst hls
      exact .single first
    · obtain ⟨before, l, after, rfl, hb, ha⟩ := exists_split hls
      simp only [List.length_append, List.length_cons] at hn
      rw [tree_split first hb ha]
      exact .split hb ha (ih _ (by omega) first before rfl) (ih _ (by omega) l.operand after rfl)

theorem splits_iff {first node : Node} {ls : List Link} :
    Splits first ls node ↔ node = tree first ls := by
  constructor
  · intro h
    induction h with
    | single first => rfl
    | split hb ha _ _ ihb iha => rw [tree_split _ hb ha, ihb, iha]
  · intro h
    rw [h]
    exact splits_tree first ls

theorem tree_of_level_eq (first : Node) {level : Int} {ls : List Link}
    (h : ∀ l ∈ ls, l.level = level) :
    tree first ls = ls.foldl (fun left l => join left l.operator l.operand) first := by
  induction ls generalizing first with
  | nil => rfl
  | cons l ls ih =>
    obtain ⟨hl, hls⟩ := List.forall_mem_cons.1 h
    have hr : ∀ k ∈ ls.head?, k.level ≤ l.level := by
      intro k hk
      have hk := hls k (List.mem_of_mem_head? hk)
      omega
    have hcons := tree_cons_append first l [] ls (by simp) hr
    simp only [List.nil_append] at hcons
    rw [hcons, List.foldl_cons, ← ih _ hls]
    rfl

end Kaleidoscope.Chain
