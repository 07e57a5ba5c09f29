import Kaleidoscope.Proofs.Decomposition
import Kaleidoscope.Proofs.Tracking

/-! What a table of operators is good for. Of the levels only the sign and the order matter, and
only for the characters that occur: tables that agree on those parse a text alike. -/

set_option autoImplicit false

namespace Kaleidoscope

namespace Precedence

/-- The tables agree which of the characters are operators, and which of two binds more tightly. -/
structure AgreeOn (cs : List Char) (p p' : Precedence) : Prop where
  sign : ∀ c ∈ cs, (0 < p.entry c ↔ 0 < p'.entry c)
  order : ∀ c ∈ cs, ∀ d ∈ cs, 0 < p.entry c → 0 < p.entry d →
    (p.entry c < p.entry d ↔ p'.entry c < p'.entry d)

variable {cs : List Char} {p p' : Precedence}

def agreesOn (cs : List Char) (p p' : Precedence) : Bool :=
  cs.all fun c => decide (0 < p.entry c ↔ 0 < p'.entry c) && cs.all fun d =>
    decide (0 < p.entry c → 0 < p.entry d → (p.entry c < p.entry d ↔ p'.entry c < p'.entry d))

theorem agreesOn_iff : agreesOn cs p p' = true ↔ AgreeOn cs p p' := by
  simp only [agreesOn, List.all_eq_true, Bool.and_eq_true, decide_eq_true_iff]
  constructor
  · intro h
    exact ⟨fun c hc => (h c hc).1, fun c hc d hd => (h c hc).2 d hd⟩
  · intro h c hc
    exact ⟨h.sign c hc, fun d hd => h.order c hc d hd⟩

instance : Decidable (AgreeOn cs p p') := decidable_of_iff _ agreesOn_iff

theorem agreeOn_of_entry (h : ∀ c ∈ cs, p'.entry c = p.entry c) : AgreeOn cs p p' :=
  ⟨fun c hc => by rw [h c hc], fun c hc d hd _ _ => by rw [h c hc, h d hd]⟩

theorem lookup_filter (keep : Char → Bool) (entries : List (Char × Int)) (c : Char) :
    (entries.filter fun e => keep e.1).lookup c = if keep c then entries.lookup c else none := by
  induction entries with
  | nil => simp
  | cons e es ih =>
    obtain ⟨k, n⟩ := e
    have hcons : c ≠ k → ((k, n) :: es).lookup c = es.lookup c := fun hc => by
      simp [List.lookup_cons, beq_false_of_ne hc]
    cases hk : keep k with
    | true =>
      simp only [List.filter_cons, hk, if_true]
      by_cases hc : c = k
      · subst hc
        simp [hk]
      · rw [hcons hc, List.lookup_cons, beq_false_of_ne hc, ih]
    | false =>
      simp only [List.filter_cons, hk, Bool.false_eq_true, if_false, ih]
      by_cases hc : c = k
      · subst hc
        simp [hk]
      · rw [hcons hc]

theorem lookup_map (f : Int → Int) (entries : List (Char × Int)) (c : Char) :
    (entries.map fun e => (e.1, f e.2)).lookup c = (entries.lookup c).map f := by
  induction entries with
  | nil => rfl
  | cons e es ih =>
    obtain ⟨k, n⟩ := e
    by_cases hc : c = k
    · subst hc
      simp
    · simp [List.lookup_cons, beq_false_of_ne hc, ih]

theorem agreeOn_filter (cs : List Char) {keep : Char → Bool}
    (h : ∀ c, 0 < p.entry c → keep c = true) :
    AgreeOn cs p ⟨p.entries.filter fun e => keep e.1⟩ := by
  have hentry : ∀ c, 0 < p.entry c →
      (Precedence.mk (p.entries.filter fun e => keep e.1)).entry c = p.entry c := by
    intro c hc
    simp only [entry, lookup_filter, h c hc, if_true]
  have hsign : ∀ c, 0 < p.entry c ↔
      0 < (Precedence.mk (p.entries.filter fun e => keep e.1)).entry c := by
    intro c
    refine ⟨fun hc => by rwa [hentry c hc], fun hc => ?_⟩
    simp only [entry, lookup_filter] at hc ⊢
    split at hc
    · exact hc
    · simp at hc
  refine ⟨fun c _ => hsign c, fun c _ d _ hc hd => ?_⟩
  rw [hentry c hc, hentry d hd]

theorem agreeOn_append {extra : List (Char × Int)} (h : ∀ e ∈ extra, e.1 ∉ cs) :
    AgreeOn cs p ⟨p.entries ++ extra⟩ := by
  refine agreeOn_of_entry fun c hc => ?_
  have hnone : extra.lookup c = none := by
    refine List.lookup_eq_none_iff.2 fun e he => ?_
    have hne : c ≠ e.1 := fun hce => h e he (hce ▸ hc)
    simpa using hne
  simp only [entry, List.lookup_append, hnone, Option.or_none]

theorem agreeOn_map (cs : List Char) {f : Int → Int} (hs : ∀ n, 0 < n ↔ 0 < f n)
    (ho : ∀ m n, 0 < m → 0 < n → (m < n ↔ f m < f n)) :
    AgreeOn cs p ⟨p.entries.map fun e => (e.1, f e.2)⟩ := by
  have hentry : ∀ c, 0 < p.entry c →
      (Precedence.mk (p.entries.map fun e => (e.1, f e.2))).entry c = f (p.entry c) := by
    intro c hc
    simp only [entry, lookup_map] at hc ⊢
    cases hl : p.entries.lookup c with
    | none => simp [hl] at hc
    | some n => rfl
  have hsign : ∀ c, 0 < p.entry c ↔
      0 < (Precedence.mk (p.entries.map fun e => (e.1, f e.2))).entry c := by
    intro c
    simp only [entry, lookup_map]
    cases p.entries.lookup c with
    | none => simp
    | some n => exact hs n
  refine ⟨fun c _ => hsign c, fun c _ d _ hc hd => ?_⟩
  rw [hentry c hc, hentry d hd]
  exact ho _ _ hc hd

end Precedence

def Token.Within (cs : List Char) (t : Token) : Prop :=
  t.kind = .character → ∃ c ∈ cs, t.payload = .text (String.ofList [c])

theorem Reads.within {tail l : List Char} {t : Token} (h : Reads tail l t) {cs : List Char}
    (hl : l ⊆ cs) : t.Within cs := by
  intro hk
  cases h with
  | word _ _ _ hw => cases hw <;> cases hk
  | number => cases hk
  | @symbol c => exact ⟨c, hl (by simp), rfl⟩

theorem Decomposes.within {before cs : List Char} {w : List Token} (h : Decomposes before cs w) :
    ∀ t ∈ w, t.Within cs := by
  induction h with
  | finished =>
    intro t ht hk
    rw [List.mem_singleton.1 ht] at hk
    cases hk
  | token _ ht _ _ ih =>
    refine List.forall_mem_cons.2 ⟨ht.within (by simp), fun t' ht' hk => ?_⟩
    obtain ⟨c, hc, hp⟩ := ih t' ht' hk
    exact ⟨c, by simp [hc], hp⟩

namespace Grammar

variable {g g' : Grammar} {cs : List Char}

theorem level_of_payload {t : Token} {c : Char} (hk : t.kind = .character)
    (hp : t.payload = .text (String.ofList [c])) : g.level t = g.precedence.level c := by
  simp only [level, hk, hp, String.toList_ofList]

theorem level_of_kind_ne {t : Token} (hk : t.kind ≠ .character) : g.level t = -1 := by
  obtain h | h := g.level_pos_or t
  · exact absurd (kind_of_level_pos h) hk
  · exact h

theorem ranksAlike_of_agreeOn (hd : g.maxDepth = g'.maxDepth)
    (h : g.precedence.AgreeOn cs g'.precedence) : RanksAlike (Token.Within cs) g g' := by
  refine ⟨hd, fun t ht => ?_, fun t u ht hu hpos hpos' => ?_⟩
  · by_cases hk : t.kind = .character
    · obtain ⟨c, hc, hp⟩ := ht hk
      rw [level_of_payload hk hp, level_of_payload hk hp, Precedence.level_pos_iff,
        Precedence.level_pos_iff]
      exact h.sign c hc
    · rw [level_of_kind_ne hk, level_of_kind_ne hk]
  · have hkt := kind_of_level_pos hpos
    have hku := kind_of_level_pos hpos'
    obtain ⟨c, hc, hp⟩ := ht hkt
    obtain ⟨d, hd, hp'⟩ := hu hku
    rw [level_of_payload hkt hp, Precedence.level_pos_iff] at hpos
    rw [level_of_payload hku hp', Precedence.level_pos_iff] at hpos'
    rw [level_of_payload hkt hp, level_of_payload hkt hp, level_of_payload hku hp',
      level_of_payload hku hp', Precedence.level_of_pos hpos, Precedence.level_of_pos hpos',
      Precedence.level_of_pos ((h.sign c hc).1 hpos),
      Precedence.level_of_pos ((h.sign d hd).1 hpos')]
    exact h.order c hc d hd hpos hpos'

end Grammar

/-- Two runs on one and the same feed of tokens that are known. They never part. -/
def Accord.onSame (known : Token → Prop) : Accord where
  pairs f f' := f = f' ∧ ∃ w, f.Delivers w ∧ ∀ t ∈ w, known t
  known := known
  past _ := False
  breaks _ := False
  current_eq := by
    intro f f' h
    rw [h.1]
  current_known := by
    intro f f' h
    obtain ⟨-, w, hw, hk⟩ := h
    cases hw <;> exact hk _ List.mem_cons_self
  pairs_advance := by
    intro f f' h
    obtain ⟨rfl, w, hw, hk⟩ := h
    obtain ⟨f₁, ha⟩ := hw.advance_ok
    rw [ha]
    refine .ok ⟨rfl, ?_⟩ rfl
    by_cases hend : f.current.kind = .endOfInput
    · obtain ⟨-, hw₁, -⟩ := hw.of_finished hend ha
      exact ⟨w, hw₁, hk⟩
    · obtain ⟨w₁, rfl, hw₁⟩ := hw.tail hend ha
      exact ⟨w₁, hw₁, fun t ht => hk t (List.mem_cons_of_mem _ ht)⟩
  past_advance := fun _ h => h

theorem Accord.tracksRun_onSame {known : Token → Prop} {run run' : Run}
    (h : (Accord.onSame known).TracksRun run run') : run = run' := by
  have hpair : ∀ {p p' : Parser}, (Accord.onSame known).PairsAt p p' → p = p' := by
    intro p p' hp
    obtain ⟨⟨hf, -⟩, hd⟩ := hp
    obtain ⟨f, d⟩ := p
    cases hf
    cases hd
    rfl
  cases h with
  | whole hes hf hp =>
    have heq : ∀ e e', (Accord.onSame known).SameEvent e e' → e = e' := by
      intro e e' he
      cases he with
      | separator hp => rw [hpair hp]
      | outcome hp => rw [hpair hp]
    obtain ⟨events, fault, final⟩ := run
    obtain ⟨events', fault', final'⟩ := run'
    simp only at hes hf hp
    have hevents := hes.imp heq
    rw [List.forall₂_eq_eq_eq] at hevents
    rw [hevents, hf, hpair hp]
  | broken _ _ _ hp => exact hp.elim

namespace Setup

def RunsAs (setup setup' : Setup) (text : String) : Prop :=
  ∃ run, setup.run (.ofText text) = .ok run ∧ setup'.run (.ofText text) = .ok run

theorem maxDepth_eq {setup : Setup} {g : Grammar} (hg : setup.grammar = .ok g) :
    g.maxDepth = setup.maxDepth := by
  unfold grammar at hg
  split at hg
  · cases hg
    rfl
  · next entries _ =>
    cases hp : Precedence.ofEntries entries with
    | ok p =>
      rw [hp] at hg
      cases hg
      rfl
    | error e =>
      rw [hp] at hg
      cases hg

theorem parser_eq {setup setup' : Setup} {g g' : Grammar} (hg : setup.grammar = .ok g)
    (hg' : setup'.grammar = .ok g') {source : Source} {p : Parser}
    (h : setup.parser source = .ok (g, p)) : setup'.parser source = .ok (g', p) := by
  simp only [parser, hg] at h
  simp only [parser, hg']
  cases hs : Scanner.start source with
  | error e s => rw [hs] at h; cases h
  | ok _ s =>
    rw [hs] at h
    simp only at h ⊢
    cases hp : Parser.start s with
    | error e q => rw [hp] at h; cases h
    | ok _ q => rw [hp] at h; cases h; rfl

theorem runsAs_of_agreeOn {setup setup' : Setup} {g g' : Grammar} (hg : setup.grammar = .ok g)
    (hg' : setup'.grammar = .ok g') (hd : setup.maxDepth = setup'.maxDepth) {text : String}
    (h : g.precedence.AgreeOn text.toList g'.precedence) : setup.RunsAs setup' text := by
  obtain ⟨f, hp, hw⟩ := parser_ok hg text
  have hdepth : g.maxDepth = g'.maxDepth := by rw [maxDepth_eq hg, maxDepth_eq hg', hd]
  have hpairs : (Accord.onSame (Token.Within text.toList)).PairsAt ⟨f, 0⟩ ⟨f, 0⟩ :=
    ⟨⟨rfl, lex text, hw, (decomposes_lex text).within⟩, rfl⟩
  have hrun : g.run ⟨f, 0⟩ = g'.run ⟨f, 0⟩ := Accord.tracksRun_onSame
    (Accord.tracksRun_runWithin (fun _ h => False.elim h) (Grammar.ranksAlike_of_agreeOn hdepth h)
      (f.size + 1) hpairs)
  refine ⟨g.run ⟨f, 0⟩, ?_, ?_⟩
  · simp only [run, hp]
    rfl
  · simp only [run, parser_eq hg hg' hp, hrun]
    rfl

/-- A text is parsed alike under two tables of operators, with all that happens on the way, if the
tables agree on its characters. So entries of characters that are no operators can be dropped,
entries of characters that do not occur can be added, and levels can be moved as long as their
signs and their order are kept. -/
theorem run_ranked (setup setup' : Setup) (g g' : Grammar) (hg : setup.grammar = .ok g)
    (hg' : setup'.grammar = .ok g') (hd : setup.maxDepth = setup'.maxDepth) (text : String) :
    (g.precedence.AgreeOn text.toList g'.precedence → setup.RunsAs setup' text) ∧
    (∀ keep : Char → Bool, (∀ c, 0 < g.precedence.entry c → keep c = true) →
      g'.precedence.entries = g.precedence.entries.filter (fun e => keep e.1) →
      setup.RunsAs setup' text) ∧
    (∀ extra : List (Char × Int), (∀ e ∈ extra, e.1 ∉ text.toList) →
      g'.precedence.entries = g.precedence.entries ++ extra → setup.RunsAs setup' text) ∧
    (∀ f : Int → Int, (∀ n, 0 < n ↔ 0 < f n) →
      (∀ m n, 0 < m → 0 < n → (m < n ↔ f m < f n)) →
      g'.precedence.entries = g.precedence.entries.map (fun e => (e.1, f e.2)) →
      setup.RunsAs setup' text) := by
  have hsame : ∀ {es : List (Char × Int)}, g'.precedence.entries = es →
      g.precedence.AgreeOn text.toList ⟨es⟩ → setup.RunsAs setup' text := by
    intro es hes h
    subst hes
    exact runsAs_of_agreeOn hg hg' hd h
  refine ⟨runsAs_of_agreeOn hg hg' hd, fun keep hk he => ?_, fun extra hx he => ?_,
    fun f hs ho he => ?_⟩
  · exact hsame he (Precedence.agreeOn_filter _ hk)
  · exact hsame he (Precedence.agreeOn_append hx)
  · exact hsame he (Precedence.agreeOn_map _ hs ho)

end Setup

theorem run_ranked_stretched :
    let text := "a-b*c<d;def f(x)x-"
    let setup : Setup := {}
    let setup' : Setup := { table := some [(.text "<", .integer 1), (.text "*", .integer 900),
      (.text "-", .integer 7), (.text "|", .integer 3)] }
    let g' : Grammar := { precedence := ⟨[('<', 1), ('*', 900), ('-', 7), ('|', 3)]⟩ }
    setup.grammar = .ok {} ∧ setup'.grammar = .ok g' ∧ setup.maxDepth = setup'.maxDepth ∧
      ({} : Grammar).precedence.AgreeOn text.toList g'.precedence ∧
      setup.RunsAs setup' text := by
  intro text setup setup' g'
  have hagree : ({} : Grammar).precedence.AgreeOn text.toList g'.precedence := by decide +kernel
  exact ⟨rfl, rfl, rfl, hagree, (Setup.run_ranked setup setup' {} g' rfl rfl rfl text).1 hagree⟩

end Kaleidoscope
