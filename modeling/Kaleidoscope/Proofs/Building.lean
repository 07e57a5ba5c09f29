import Mathlib.Data.List.Forall2
import Kaleidoscope.Proofs.Accounting
import Kaleidoscope.Proofs.Decomposition
import Kaleidoscope.Proofs.Grouping

/-! The trees that are built of the tokens passed. `Builds` says which trees stand for which tokens;
a rule that ends well comes to a tree that stands for what it has passed, whatever the table of
operators is. -/

set_option autoImplicit false

namespace Kaleidoscope

/-- The trees that tokens stand for, with commas between one and the next. -/
inductive Grammar.Builds (g : Grammar) : List Token → List Node → Prop where
  | number {t : Token} {v : Double} : t.kind = .number → t.payload = .number v →
      Builds g [t] [.number v t.start]
  | textual {t : Token} {s : String} : t.kind = .number → t.payload = .text s →
      Builds g [t] [.textual s t.start]
  | variable {t : Token} : t.kind = .identifier → Builds g [t] [.var t.text t.start]
  | call {name opening closing : Token} {u : List Token} {args : List Node} :
      name.kind = .identifier → opening.isChar "(" = true → Builds g u args →
      closing.isChar ")" = true →
      Builds g (name :: opening :: (u ++ [closing])) [.call name.text args name.start]
  | parenthesized {opening closing : Token} {u : List Token} {n : Node} :
      opening.isChar "(" = true → Builds g u [n] → closing.isChar ")" = true →
      Builds g (opening :: (u ++ [closing])) [n]
  | binary {t : Token} {u v : List Token} {left right : Node} : 0 < g.level t →
      Builds g u [left] → Builds g v [right] → Builds g (u ++ t :: v) [Chain.join left t right]
  | nothing : Builds g [] []
  | comma {t : Token} {u v : List Token} {n n' : Node} {ns : List Node} : Builds g u [n] →
      t.isChar "," = true → Builds g v (n' :: ns) → Builds g (u ++ t :: v) (n :: n' :: ns)

inductive Grammar.BuildsLinks (g : Grammar) : List Token → List Link → Prop where
  | nil : BuildsLinks g [] []
  | cons {t : Token} {u v : List Token} {n : Node} {ls : List Link} : 0 < g.level t →
      g.Builds u [n] → BuildsLinks g v ls → BuildsLinks g (t :: (u ++ v)) (⟨t, g.level t, n⟩ :: ls)

inductive BuildsPrototype : List Token → Node → Prop where
  | mk {name opening closing : Token} {params : List Token} : name.kind = .identifier →
      opening.isChar "(" = true → (∀ t ∈ params, t.kind = .identifier) →
      closing.isChar ")" = true → BuildsPrototype (name :: opening :: (params ++ [closing]))
        (.prototype name.text (params.map (·.text)) name.start)

/-- The trees of whole constructs. -/
inductive Grammar.BuildsConstruct (g : Grammar) : ConstructKind → List Token → Node → Prop where
  | definition {t : Token} {u v : List Token} {proto body : Node} : t.kind = .define →
      BuildsPrototype u proto → g.Builds v [body] →
      BuildsConstruct g .definition (t :: (u ++ v)) (.function proto body t.start)
  | external {t : Token} {u : List Token} {proto : Node} : t.kind = .external →
      BuildsPrototype u proto → BuildsConstruct g .external (t :: u) proto
  | expression {t : Token} {u : List Token} {body : Node} : g.Builds (t :: u) [body] →
      BuildsConstruct g .expression (t :: u)
        (.function (.prototype Node.anonymousName [] t.start) body t.start)

/-- The event is no success, or comes to a tree for its share of the tokens. -/
def Event.Builds (g : Grammar) (e : Event) (u : List Token) : Prop :=
  ∀ kind node p, e = .outcome ⟨kind, .ok node⟩ p → g.BuildsConstruct kind u node

namespace Grammar

open Rule

variable {g : Grammar}

theorem BuildsLinks.split {u : List Token} {before after : List Link} {l : Link}
    (h : g.BuildsLinks u (before ++ l :: after)) :
    ∃ v w x, u = v ++ l.operator :: (w ++ x) ∧ g.BuildsLinks v before ∧ 0 < g.level l.operator ∧
      g.Builds w [l.operand] ∧ g.BuildsLinks x after := by
  induction before generalizing u with
  | nil =>
    cases h with
    | cons hl hn hls => exact ⟨[], _, _, rfl, .nil, hl, hn, hls⟩
  | cons k before ih =>
    cases h with
    | @cons t u v n ls hk hn hls =>
      obtain ⟨v', w, x, rfl, hb, hl, hw, hx⟩ := ih hls
      exact ⟨t :: (u ++ v'), w, x, by simp, .cons hk hn hb, hl, hw, hx⟩

theorem Builds.chain {first node : Node} {ls : List Link} (hs : Chain.Splits first ls node)
    {u v : List Token} (hu : g.Builds u [first]) (hv : g.BuildsLinks v ls) :
    g.Builds (u ++ v) [node] := by
  induction hs generalizing u v with
  | single first =>
    cases hv
    rwa [List.append_nil]
  | split _ _ _ _ ihb iha =>
    obtain ⟨v₁, v₂, v₃, rfl, hb, hl, hn, ha⟩ := hv.split
    have hall := Builds.binary hl (ihb hu hb) (iha hn ha)
    rwa [List.append_assoc] at hall

/-- The rule comes to a tree for the tokens that it passes. -/
def BuildsAt (g : Grammar) (d : Nat) (e : Rule Node) : Prop :=
  ∀ f, Ends f d (fun n u _ => g.Builds u [n]) (e ⟨f, d⟩)

theorem ends_number_builds {f : Feed} {d : Nat} (hk : f.current.kind = .number) :
    Ends f d (fun n u _ => g.Builds u [n]) (number ⟨f, d⟩) := by
  have hne : f.current.kind ≠ .endOfInput := by rw [hk]; decide
  simp only [number, current_bind]
  cases hp : f.current.payload with
  | none => exact ends_fail _
  | number v => exact ends_advance_bind hne fun f₁ _ => ends_pure (.number hk hp)
  | text s => exact ends_advance_bind hne fun f₁ _ => ends_pure (.textual hk hp)

section Nested

variable {e : Rule Node} {f : Feed} {d : Nat}

theorem ends_parenthesized_builds (he : g.BuildsAt d e) (hc : f.current.isChar "(" = true) :
    Ends f d (fun n u _ => g.Builds u [n]) (parenthesized e ⟨f, d⟩) := by
  refine ends_advance_bind (Token.kind_ne_of_isChar hc) fun f₁ _ => Ends.bind (he f₁) ?_
  intro n u f₂ _ hu
  refine Ends.bind ends_expect ?_
  intro _ v f₃ _ h
  obtain ⟨rfl, hr⟩ := h
  exact ends_pure (by simpa using Builds.parenthesized hc hu hr)

theorem ends_argumentsAfter_builds (he : g.BuildsAt d e) (n : Nat) (hn : f.size ≤ n) :
    Ends f d (fun args v f₁ => f₁.current.isChar ")" = true ∧
        ∀ u a, g.Builds u [a] → g.Builds (u ++ v) (a :: args))
      (argumentsAfter e n ⟨f, d⟩) := by
  induction n generalizing f with
  | zero =>
    simp only [argumentsAfter, current_bind]
    split
    · next hc => exact ends_pure ⟨hc, fun u a hu => by simpa using hu⟩
    · split
      · next hc => simp [Feed.size, Token.kind_of_isChar hc] at hn
      · exact ends_fail _
  | succ n ih =>
    simp only [argumentsAfter, current_bind]
    split
    · next hc => exact ends_pure ⟨hc, fun u a hu => by simpa using hu⟩
    · split
      · next hc =>
        have hk : f.current.kind ≠ .endOfInput := Token.kind_ne_of_isChar hc
        refine ends_advance_bind hk fun f₁ ha => ?_
        rw [argumentsWithin_succ]
        refine Ends.bind (he f₁) ?_
        intro arg u f₂ hp hu
        have hs := Feed.size_lt_of_advance hk ha
        have hs' := hp.size_le
        refine Ends.bind (ih (by omega)) ?_
        intro args v f₃ _ h
        obtain ⟨hr, hv⟩ := h
        refine ends_pure ⟨hr, fun u' a hu' => ?_⟩
        simpa using Builds.comma hu' hc (hv u arg hu)
      · exact ends_fail _

theorem ends_arguments_builds (he : g.BuildsAt d e) :
    Ends f d (fun args u f₁ => f₁.current.isChar ")" = true ∧ g.Builds u args)
      (arguments e ⟨f, d⟩) := by
  cases hc : f.current.isChar ")" with
  | true =>
    rw [arguments_none hc]
    exact .ok .here ⟨hc, .nothing⟩
  | false =>
    rw [arguments_some hc, argumentsWithin_succ]
    refine Ends.bind (he f) ?_
    intro arg u f₁ hp hu
    have hs := hp.size_le
    refine Ends.bind (ends_argumentsAfter_builds he f.size (by omega)) ?_
    intro args v f₂ _ h
    obtain ⟨hr, hv⟩ := h
    exact ends_pure ⟨hr, by simpa using hv u arg hu⟩

theorem ends_identifier_builds (he : g.BuildsAt d e) (hi : f.current.kind = .identifier) :
    Ends f d (fun n u _ => g.Builds u [n]) (identifier e ⟨f, d⟩) := by
  have hk : f.current.kind ≠ .endOfInput := by rw [hi]; decide
  simp only [identifier, take, bind_assoc, pure_bind, current_bind]
  refine ends_advance_bind hk fun f₁ _ => ?_
  rw [current_bind]
  split
  · next hc =>
    refine ends_advance_bind (Token.kind_ne_of_isChar hc) fun f₂ _ =>
      Ends.bind (ends_arguments_builds he) ?_
    intro args u f₃ _ h
    obtain ⟨hr, hu⟩ := h
    refine ends_advance_bind (Token.kind_ne_of_isChar hr) fun f₄ _ => ends_pure ?_
    simpa using Builds.call hi hc hu hr
  · exact ends_pure (.variable hi)

theorem buildsAt_primary (he : g.BuildsAt d e) : g.BuildsAt d (primary e) := by
  intro f
  by_cases hi : f.current.kind = .identifier
  · rw [primary_of_identifier hi]
    exact ends_identifier_builds he hi
  by_cases hn : f.current.kind = .number
  · rw [primary_of_number hn]
    exact ends_number_builds hn
  cases hc : f.current.isChar "(" with
  | true =>
    rw [primary_of_opening hc]
    exact ends_parenthesized_builds he hc
  | false =>
    rw [primary_of_other hi hn hc]
    exact ends_fail _

theorem ends_linksWithin_builds {operand : Rule Node} (ho : g.BuildsAt d operand) (n : Nat)
    (hn : f.size < n) :
    Ends f d (fun ls u _ => g.BuildsLinks u ls) (g.linksWithin operand 0 n ⟨f, d⟩) := by
  induction n generalizing f with
  | zero => omega
  | succ n ih =>
    by_cases hl : g.level f.current < 0
    · rw [linksWithin_stop hl]
      exact .ok .here .nil
    · have hpos : 0 < g.level f.current := by
        have := level_pos_or g f.current
        omega
      have hk := kind_ne_of_level_pos hpos
      simp only [linksWithin, current_bind, hl, if_false]
      refine ends_advance_bind hk fun f₁ ha => Ends.bind (ho f₁) ?_
      intro right u f₂ hp hu
      have hs := Feed.size_lt_of_advance hk ha
      have hs' := hp.size_le
      refine Ends.bind (ih (by omega)) ?_
      intro links v f₃ _ hv
      exact ends_pure (by simpa using BuildsLinks.cons hpos hu hv)

theorem buildsAt_expressionWithin (n : Nat) : g.BuildsAt d (g.expressionWithin n) := by
  induction n generalizing d with
  | zero => exact fun f => ends_fail _
  | succ n ih =>
    intro f
    rw [expressionWithin_succ]
    refine ends_nested (Ends.bind (buildsAt_primary ih f) ?_)
    intro left u f₁ _ hu
    rw [operators_eq]
    refine Ends.bind (ends_linksWithin_builds (buildsAt_primary ih) _ (by simp)) ?_
    intro links v f₂ _ hv
    exact ends_pure (by simpa using Builds.chain (Chain.splits_tree left links) hu hv)

end Nested

section Constructs

variable {f : Feed} {d : Nat}

theorem buildsAt_expression : g.BuildsAt d g.expression := fun f => buildsAt_expressionWithin _ f

theorem ends_prototype_builds :
    Ends f d (fun n u _ => BuildsPrototype u n) (prototype ⟨f, d⟩) := by
  have h := ends_prototype (f := f) (d := d)
  generalize hr : prototype ⟨f, d⟩ = r at h ⊢
  cases h with
  | ok hp hu =>
    obtain ⟨hk, ho, hps, hl⟩ := hu
    have hproto := prototype_passed (d := d) hk ho hps hl hp
    cases hr.symm.trans hproto
    exact .ok hp (.mk hk ho hps hl)
  | complaint hp => exact .complaint hp
  | fault hp ha => exact .fault hp ha

theorem Builds.ne_nil {u : List Token} {n : Node} {ns : List Node}
    (h : g.Builds u (n :: ns)) : u ≠ [] := by
  cases h <;> simp

theorem ends_rule_builds (kind : ConstructKind) :
    Ends f 0 (fun n u _ => g.BuildsConstruct kind u n) (g.rule kind ⟨f, 0⟩) := by
  cases kind with
  | definition =>
    simp only [rule, definition, current_bind]
    by_cases hd : f.current.kind = .define
    · simp only [hd, ne_eq, not_true_eq_false, if_false]
      refine ends_advance_bind (by rw [hd]; decide) fun f₁ _ =>
        Ends.bind ends_prototype_builds ?_
      intro proto u f₂ _ hu
      refine Ends.bind (buildsAt_expression f₂) ?_
      intro body v f₃ _ hv
      exact ends_pure (by simpa using BuildsConstruct.definition hd hu hv)
    · simp only [ne_eq, hd, not_false_eq_true, if_true]
      exact ends_fail_bind
  | external =>
    simp only [rule, external, current_bind]
    by_cases hx : f.current.kind = .external
    · simp only [hx, ne_eq, not_true_eq_false, if_false]
      refine ends_advance_bind (by rw [hx]; decide) fun f₁ _ => ends_prototype_builds.imp ?_
      intro proto u f₂ _ hu
      exact .external hx hu
    · simp only [ne_eq, hx, not_false_eq_true, if_true]
      exact ends_fail_bind
  | expression =>
    simp only [rule, standalone, current_bind]
    refine Ends.bind (buildsAt_expression f) ?_
    intro body u f₁ hp hu
    obtain ⟨t, u, rfl⟩ := List.exists_cons_of_ne_nil hu.ne_nil
    obtain ⟨rfl, -⟩ := hp.head
    exact ends_pure (by simpa using BuildsConstruct.expression hu)

end Constructs

theorem Accounts.builds {p q : Parser} {e : Event} {u : List Token} (h : g.Accounts p e u q)
    {w : List Token} (hw : p.feed.Delivers w) : e.Builds g u := by
  intro kind node p' he
  subst he
  cases h with
  | @success f f₁ _ _ _ _ ha hp _ =>
    have hends := ends_rule_builds (g := g) (f := f) kind
    generalize hr : g.rule kind ⟨f, 0⟩ = r at hends
    cases hends with
    | ok hp' hu =>
      simp only [attempt, hr] at ha
      cases ha
      rwa [hw.eq_of_passes hp hp']
    | complaint => simp only [attempt, hr] at ha; cases ha
    | @fault e =>
      simp only [attempt, hr] at ha
      cases e <;> cases ha

theorem AccountsAll.forall₂ {P : Event → List Token → Prop}
    (hP : ∀ p e u q w, g.Accounts p e u q → p.feed.Delivers w → P e u) {p r : Parser}
    {es : List Event} {us : List (List Token)} (h : g.AccountsAll p es us r) {w : List Token}
    (hw : p.feed.Delivers w) : List.Forall₂ P es us := by
  induction h generalizing w with
  | finished => exact .nil
  | turn ha _ ih =>
    obtain ⟨v, -, hv, -⟩ := ha.delivers hw
    exact .cons (hP _ _ _ _ _ ha hw) (ih hv)

theorem AccountsAll.builds {p r : Parser} {es : List Event} {us : List (List Token)}
    (h : g.AccountsAll p es us r) {w : List Token} (hw : p.feed.Delivers w) :
    List.Forall₂ (Event.Builds g) es us :=
  h.forall₂ (fun _ _ _ _ _ ha hw => ha.builds hw) hw

end Grammar

def Scanned (ts : List Token) : Prop := ∀ t ∈ ts, ∃ l rest, Reads rest l t

theorem Scanned.subset {ts us : List Token} (h : Scanned ts) (hs : us ⊆ ts) : Scanned us :=
  fun t ht => h t (hs ht)

theorem Reads.payload_eq {tail l : List Char} {t : Token} (h : Reads tail l t)
    (hk : t.kind ≠ .number) : t.payload = .text t.text := by
  cases h with
  | word => rfl
  | number => exact absurd rfl hk
  | symbol => rfl

theorem Scanned.payload_eq {ts : List Token} (h : Scanned ts) {t : Token} (ht : t ∈ ts)
    (hk : t.kind ≠ .number) : t.payload = .text t.text := by
  obtain ⟨l, rest, hr⟩ := h t ht
  exact hr.payload_eq hk

theorem exists_of_forall₂ {α β : Type} {R : α → β → Prop} {as : List α} {bs : List β}
    (h : List.Forall₂ R as bs) {a : α} (ha : a ∈ as) : ∃ b, R a b := by
  induction h with
  | nil => cases ha
  | cons hab _ ih =>
    obtain rfl | ha := List.mem_cons.1 ha
    · exact ⟨_, hab⟩
    · exact ih ha

/-- What happens on a text, and what share of its tokens each event takes and is built of. -/
theorem Setup.run_builds {setup : Setup} {g : Grammar} (hg : setup.grammar = .ok g)
    (text : String) :
    ∃ f us finish, setup.parser (.ofText text) = .ok (g, ⟨f, 0⟩) ∧ f.Delivers (lex text) ∧
      setup.run (.ofText text) = .ok (g.run ⟨f, 0⟩) ∧ (g.run ⟨f, 0⟩).fault = none ∧
      g.AccountsAll ⟨f, 0⟩ (g.run ⟨f, 0⟩).events us (g.run ⟨f, 0⟩).final ∧
      lex text = us.flatten ++ [.endOfInput finish] ∧
      List.Forall₂ (fun e u => e.Builds g u ∧ u.Sublist (lex text) ∧ Scanned u)
        (g.run ⟨f, 0⟩).events us := by
  obtain ⟨f, hp, hw⟩ := parser_ok hg text
  obtain ⟨hf, us, hall⟩ := Grammar.accountsAll_runWithin (g := g) hw hw.length_le
  obtain ⟨v, hv, hr, hk⟩ := hall.delivers hw
  obtain ⟨finish, rfl⟩ := hr.eq_of_finished hk
  refine ⟨f, us, finish, hp, hw, ?_, hf, hall, hv, ?_⟩
  · simp only [run, hp]
    rfl
  have hb := List.forall₂_iff_zip.1 (hall.builds hw)
  refine List.forall₂_iff_zip.2 ⟨hb.1, fun {e u} hmem => ⟨hb.2 hmem, ?_⟩⟩
  have hu : u ∈ us := (List.of_mem_zip hmem).2
  have hsub : u.Sublist (lex text) := by
    rw [hv]
    exact (List.sublist_flatten_of_mem hu).trans (List.sublist_append_left _ _)
  refine ⟨hsub, fun t ht => ?_⟩
  exact (decomposes_lex text).reads_of_mem t (hsub.subset ht) ((hall.kind_ne u hu).2 t ht)

end Kaleidoscope
