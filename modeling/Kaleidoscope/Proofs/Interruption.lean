import Kaleidoscope.Proofs.Places

/-! A source that fails on the way. Up to a token the scanner reads the characters of the token and
one more, so a source that fails behind `n` characters is noticed at the first token that does not
end before them, and at no earlier one. -/

set_option autoImplicit false

namespace Kaleidoscope

/-- Number of characters up to the end of the first lexeme, or up to the end of the text. -/
def reach (cs : List Char) : Nat := triviaLength false cs + (lexeme (trimmed cs)).length

theorem reach_of_trivia {gap : List Char} (h : Trivia [] gap) : reach gap = gap.length := by
  have hlen := h.triviaLength_eq (by simp [StartsWithInk])
  rw [List.append_nil] at hlen
  simp [reach, trimmed, hlen, lexeme]

theorem reach_of_reads {gap l rest : List Char} {t : Token} (hg : Trivia (l ++ rest) gap)
    (hr : Reads rest l t) : reach (gap ++ (l ++ rest)) = (gap ++ l).length := by
  have hlen := hg.triviaLength_eq hr.startsWithInk
  simp [reach, trimmed, hlen, hr.lexeme_eq]

theorem reach_le (cs : List Char) : reach cs ≤ cs.length := by
  have htrivia := triviaLength_le false cs
  have hlexeme := (lexeme_starts (trimmed cs)).length_le
  rw [trimmed, List.length_drop] at hlexeme
  rw [reach, trimmed]
  omega

theorem Trivia.of_head_eq {tail tail' gap : List Char} (h : Trivia tail gap)
    (ht : tail.head? = tail'.head?) : Trivia tail' gap := by
  induction h with
  | none => exact .none
  | blank hb _ ih => exact .blank hb ih
  | @comment body cs hbody hend _ ih =>
    refine .comment hbody (fun c hc => hend c ?_) ih
    rw [List.head?_append] at hc ⊢
    rwa [ht]

theorem Reads.of_head_eq {tail tail' l : List Char} {t : Token} (h : Reads tail l t)
    (ht : tail.head? = tail'.head?) : Reads tail' l t := by
  cases h with
  | word hc hcs htail hk => exact .word hc hcs (ht ▸ htail) hk
  | number hc hcs htail hv => exact .number hc hcs (ht ▸ htail) hv
  | symbol ha hn hi => exact .symbol ha hn hi

theorem head?_eq_of_take_eq {cs cs' : List Char} {m : Nat} (h : cs.take m = cs'.take m)
    (hm : 0 < m) : cs.head? = cs'.head? := by
  have hhead := congrArg List.head? h
  rwa [List.head?_take, List.head?_take, if_neg (by omega), if_neg (by omega)] at hhead

theorem Reads.of_take_eq {gap l rest cs : List Char} {t : Token} {m : Nat} (hr : Reads rest l t)
    (hg : Trivia (l ++ rest) gap) (h : (gap ++ (l ++ rest)).take m = cs.take m)
    (hm : (gap ++ l).length < m) :
    ∃ rest', cs = gap ++ (l ++ rest') ∧ Trivia (l ++ rest') gap ∧ Reads rest' l t ∧
      rest.take (m - (gap ++ l).length) = rest'.take (m - (gap ++ l).length) := by
  have htake : ∀ xs : List Char, (gap ++ (l ++ xs)).take m =
      (gap ++ l) ++ xs.take (m - (gap ++ l).length) := by
    intro xs
    rw [← List.append_assoc, List.take_append, List.take_of_length_le (Nat.le_of_lt hm)]
  obtain ⟨rest', hcs⟩ : ∃ rest', cs = gap ++ (l ++ rest') := by
    refine ⟨rest.take (m - (gap ++ l).length) ++ cs.drop m, ?_⟩
    rw [← List.append_assoc, ← List.append_assoc, ← htake, h, List.take_append_drop]
  have hrest : rest.take (m - (gap ++ l).length) = rest'.take (m - (gap ++ l).length) := by
    rw [hcs, htake, htake] at h
    exact List.append_cancel_left h
  have hhead := head?_eq_of_take_eq hrest (by omega)
  have hhead' : (l ++ rest).head? = (l ++ rest').head? := by
    rw [List.head?_append, List.head?_append, hhead]
  exact ⟨rest', hcs, hg.of_head_eq hhead', hr.of_head_eq hhead, hrest⟩

theorem eq_of_take_eq {cs cs' : List Char} {m : Nat} (h : cs.take m = cs'.take m)
    (hm : cs.length < m) : cs' = cs := by
  have hlen := congrArg List.length h
  rw [List.length_take, List.length_take] at hlen
  rwa [List.take_of_length_le (Nat.le_of_lt hm), List.take_of_length_le (by omega), eq_comm] at h

theorem reach_of_take_eq {cs cs' : List Char} {m : Nat} (h : cs.take m = cs'.take m)
    (hm : reach cs < m) : reach cs' = reach cs := by
  obtain ⟨w, hw⟩ := exists_decomposes [] cs
  cases hw with
  | finished hg =>
    rw [reach_of_trivia hg] at hm
    rw [eq_of_take_eq h hm]
  | token hg hr _ _ =>
    rw [reach_of_reads hg hr] at hm
    obtain ⟨rest', rfl, hg', hr', -⟩ := hr.of_take_eq hg h hm
    rw [reach_of_reads hg hr, reach_of_reads hg' hr']

namespace Scanner

/-- A scanner that has passed some characters, with the rest of the text ahead. It holds the first
character of the rest, and all that has been read is this one and what is behind it. -/
structure Poised (pending : Option PendingFault) (before cs : List Char) (s : Scanner) : Prop where
  ahead : s.ahead = cs
  position : s.position = .behind before
  ended : s.current = none → s.source.rest = []
  taken : s.source.taken = min (before.length + 1) (before ++ cs).length
  pending : s.source.pending = pending

/-- No fault is raised by the reads that come when `n` characters have been taken or fewer. -/
def Clear (pending : Option PendingFault) (n : Nat) : Prop := ∀ p ∈ pending, n < p.after

theorem Clear.of_lt {m n : Nat} (h : m < n) (f : Fault) : Clear (some ⟨n, f⟩) m := by
  intro p hmem
  cases hmem
  exact h

variable {pending : Option PendingFault} {before : List Char} {s : Scanner}

theorem Poised.cons {c : Char} {cs : List Char} (h : s.Poised pending before (c :: cs)) :
    s.current = some c ∧ s.source.rest = cs ∧ s.source.taken = before.length + 1 := by
  have ha := h.ahead
  have ht := h.taken
  cases hc : s.current with
  | none => simp [Scanner.ahead, hc, h.ended hc] at ha
  | some a =>
    simp only [Scanner.ahead, hc, Option.toList_some, List.singleton_append, List.cons.injEq] at ha
    refine ⟨by rw [ha.1], ha.2, ?_⟩
    rw [ht, List.length_append, List.length_cons]
    omega

theorem Poised.advance {c : Char} {cs : List Char} (h : s.Poised pending before (c :: cs))
    (hp : Clear pending (before.length + 1)) :
    ∃ s', Scanner.advance s = .ok () s' ∧ s'.Poised pending (before ++ [c]) cs := by
  obtain ⟨hc, hr, ht⟩ := h.cons
  have hdue : s.source.dueFault? = none := by
    simp only [Source.dueFault?, h.pending, Option.map_eq_none_iff, Option.filter_eq_none_iff]
    intro p hmem
    have := hp p hmem
    rw [ht]
    simp only [beq_iff_eq]
    omega
  have hpos : s.position.after s.current = .behind (before ++ [c]) := by
    rw [hc, h.position, Position.behind_concat]
  cases cs with
  | nil =>
    refine ⟨⟨none, s.position.after s.current, s.source⟩, ?_, ?_⟩
    · simp only [Scanner.advance, Source.read, hdue, hr]
    · exact ⟨hr, hpos, fun _ => hr, by simp [ht], h.pending⟩
  | cons d ds =>
    refine ⟨⟨some d, s.position.after s.current, ⟨ds, s.source.taken + 1, s.source.pending⟩⟩,
      ?_, ?_⟩
    · simp only [Scanner.advance, Source.read, hdue, hr]
    · refine ⟨rfl, hpos, by simp, ?_, h.pending⟩
      simp only [ht, List.length_append, List.length_cons, List.length_nil]
      omega

theorem Poised.advance_fault {c : Char} {cs : List Char} {f : Fault}
    (h : s.Poised (some ⟨before.length + 1, f⟩) before (c :: cs)) :
    ∃ s', Scanner.advance s = .error f s' := by
  obtain ⟨-, -, ht⟩ := h.cons
  have hdue : s.source.dueFault? = some f := by
    simp [Source.dueFault?, h.pending, ht, Option.filter]
  exact ⟨_, by simp only [Scanner.advance, Source.read, hdue]; rfl⟩

theorem poised_invariant {n : Nat} (hp : Clear pending n) : Invariant n (Poised pending) where
  ahead := fun h => h.ahead
  advance := fun h hn => h.advance fun p hmem => Nat.lt_of_le_of_lt hn (hp p hmem)

theorem Poised.advanceBy_fault {n : Nat} {f : Fault} {l rest : List Char}
    (h : s.Poised (some ⟨n, f⟩) before (l ++ rest)) (hn : before.length < n)
    (hn' : n ≤ (before ++ l).length) : ∃ s', Scanner.advanceBy l.length s = .error f s' := by
  induction l generalizing s before with
  | nil =>
    rw [List.append_nil] at hn'
    omega
  | cons c l ih =>
    by_cases hone : n = before.length + 1
    · subst hone
      obtain ⟨s₁, ha⟩ := h.advance_fault
      exact ⟨s₁, by rw [List.length_cons, Scanner.advanceBy, bind_error ha]⟩
    · obtain ⟨s₁, ha, hs₁⟩ := h.advance (.of_lt (by omega) f)
      have hlen : (before ++ [c] ++ l).length = (before ++ c :: l).length := by simp
      obtain ⟨s₂, hb⟩ := ih hs₁ (by rw [List.length_append, List.length_singleton]; omega)
        (by rw [hlen]; exact hn')
      exact ⟨s₂, by rw [List.length_cons, Scanner.advanceBy, bind_ok ha, hb]⟩

section Next

variable {gap l rest : List Char}

theorem Poised.next (h : s.Poised pending before (gap ++ (l ++ rest)))
    (hg : triviaLength false (gap ++ (l ++ rest)) = gap.length) (hl : lexeme (l ++ rest) = l)
    (hp : Clear pending (before ++ gap ++ l).length) :
    ∃ s', Scanner.next s = .ok (Token.ofLexeme (.behind (before ++ gap)) l) s' ∧
      s'.Poised pending (before ++ gap ++ l) rest := by
  obtain ⟨s₁, s₂, hs₁, hnext, hs₂⟩ := (poised_invariant hp).next h hg hl (Nat.le_refl _)
  exact ⟨s₂, hs₁.position ▸ hnext, hs₂⟩

theorem Poised.next_reads {t : Token} (h : s.Poised pending before (gap ++ (l ++ rest)))
    (hg : Trivia (l ++ rest) gap) (hr : Reads rest l t) (ht : t.start = .behind (before ++ gap))
    (hp : Clear pending (before ++ gap ++ l).length) :
    ∃ s', Scanner.next s = .ok t s' ∧ s'.Poised pending (before ++ gap ++ l) rest := by
  obtain ⟨s', hn, hs'⟩ := h.next (hg.triviaLength_eq hr.startsWithInk) hr.lexeme_eq hp
  rw [← ht, ← hr.eq_ofLexeme] at hn
  exact ⟨s', hn, hs'⟩

theorem Poised.next_end (h : s.Poised pending before gap) (hg : Trivia [] gap)
    (hp : Clear pending (before ++ gap).length) :
    ∃ s', Scanner.next s = .ok (.endOfInput (.behind (before ++ gap))) s' ∧
      s'.Poised pending (before ++ gap) [] := by
  have hlen := hg.triviaLength_eq (by simp [StartsWithInk])
  have hsplit : s.Poised pending before (gap ++ ([] ++ [])) := by simpa using h
  obtain ⟨s', hn, hs'⟩ := hsplit.next (by simpa using hlen) rfl (by rwa [List.append_nil])
  exact ⟨s', hn, by rwa [List.append_nil] at hs'⟩

theorem Poised.next_fault {cs : List Char} {n : Nat} {f : Fault}
    (h : s.Poised (some ⟨n, f⟩) before cs) (hn : before.length < n)
    (hn' : n ≤ before.length + reach cs) : ∃ s', Scanner.next s = .error f s' := by
  have hle := triviaLength_le false cs
  have hsplit := List.take_append_drop (triviaLength false cs) cs
  have hgap : (cs.take (triviaLength false cs)).length = triviaLength false cs := by
    rw [List.length_take]
    omega
  have hpoised := h
  rw [← hsplit] at hpoised
  by_cases hlow : n ≤ (before ++ cs.take (triviaLength false cs)).length
  · obtain ⟨s₁, ha⟩ := hpoised.advanceBy_fault hn hlow
    rw [hgap] at ha
    exact ⟨s₁, by rw [Scanner.next, look_bind, h.ahead, bind_error ha]⟩
  · have hclear := Clear.of_lt (Nat.lt_of_not_le hlow) f
    obtain ⟨s₁, ha, hs₁⟩ := (poised_invariant hclear).advanceBy hpoised (Nat.le_refl _)
    rw [hgap] at ha
    obtain ⟨rest, hrest⟩ := lexeme_starts (trimmed cs)
    have hs₁' : s₁.Poised (some ⟨n, f⟩) (before ++ cs.take (triviaLength false cs))
        (lexeme (trimmed cs) ++ rest) := by
      rw [hrest]
      exact hs₁
    obtain ⟨s₂, hb⟩ := hs₁'.advanceBy_fault (by omega) (by
      rw [List.length_append, List.length_append, hgap]
      simp only [reach] at hn'
      omega)
    have hahead : s₁.ahead = trimmed cs := hs₁.ahead
    refine ⟨s₂, ?_⟩
    rw [Scanner.next, look_bind, h.ahead, bind_ok ha, get_bind, look_bind, hahead, bind_error hb]

end Next

end Scanner

/-- The delivery is a token that ends behind `n` characters or more, on which one character more
than up to its end has been read, if there is one. -/
def Delivery.EndsFrom (text : List Char) (n : Nat) (d : Delivery) : Prop :=
  ∃ t k, d = .token t (min (k + 1) text.length) ∧ t.EndsAt text k ∧ n ≤ k

theorem Delivery.EndsFrom.mono {text : List Char} {m n : Nat} {d : Delivery} (h : m ≤ n)
    (hd : d.EndsFrom text n) : d.EndsFrom text m := by
  obtain ⟨t, k, rfl, ht, hk⟩ := hd
  exact ⟨t, k, rfl, ht, Nat.le_trans h hk⟩

/-- What is delivered of a text, and what is delivered of a text that is the same up to the first
`n` characters by a source that fails there. -/
inductive Feed.CutAt (text : List Char) (n : Nat) :
    List Delivery × Finish → List Delivery × Finish → Prop where
  | token {t : Token} {k m : Nat} {ds ds' : List Delivery} {finish finish' : Finish} :
      t.EndsAt text k → k < n → CutAt text n (ds, finish) (ds', finish') →
      CutAt text n (.token t (min (k + 1) text.length) :: ds, finish) (.token t m :: ds', finish')
  | cut {m : Nat} {ds ds' : List Delivery} {finish' : Finish} :
      (∀ d ∈ ds, d.EndsFrom text n) → n ≤ text.length →
      CutAt text n (ds, ⟨.behind text, text.length⟩) (.fault .interrupted m :: ds', finish')
  | finished {m : Nat} : text.length < n →
      CutAt text n ([], ⟨.behind text, text.length⟩) ([], ⟨.behind text, m⟩)

namespace Scanner

theorem Poised.deliveriesWithin {text before cs : List Char} {w : List Token}
    (hd : Decomposes before cs w) (ht : text = before ++ cs) {s : Scanner}
    (hs : s.Poised none before cs) {n : Nat} (hn : w.length ≤ n) :
    (∀ d ∈ (Scanner.deliveriesWithin n s).1, d.EndsFrom text (before.length + reach cs)) ∧
      (Scanner.deliveriesWithin n s).2 = ⟨.behind text, text.length⟩ := by
  have hclear : ∀ n, Clear none n := fun n p hmem => by cases hmem
  induction hd generalizing s n with
  | @finished before gap hg =>
    obtain ⟨n, rfl⟩ := Nat.exists_eq_add_one.2 (show 0 < n by simp at hn; omega)
    obtain ⟨s', hnext, hs'⟩ := hs.next_end hg (hclear _)
    have htaken := hs'.taken
    subst ht
    simp only [Scanner.deliveriesWithin, hnext, Token.endOfInput, if_true]
    refine ⟨by simp, ?_⟩
    rw [htaken, List.append_nil]
    simp
  | @token before gap l rest t w hg hr hstart hw ih =>
    obtain ⟨n, rfl⟩ := Nat.exists_eq_add_one.2 (show 0 < n by simp at hn; omega)
    obtain ⟨s', hnext, hs'⟩ := hs.next_reads hg hr hstart (hclear _)
    have htext : text = before ++ gap ++ l ++ rest := by simp [ht]
    simp only [List.length_cons] at hn
    obtain ⟨hds, hfinish⟩ := ih htext hs' (n := n) (by omega)
    have htaken := hs'.taken
    rw [← htext] at htaken
    have hends : t.EndsAt text (before ++ gap ++ l).length :=
      .lexeme (by simp [htext]) hr hstart
    simp only [Scanner.deliveriesWithin, hnext, hr.kind_ne, if_false]
    refine ⟨List.forall_mem_cons.2 ⟨⟨t, _, by rw [htaken], hends, ?_⟩, fun d hmem => ?_⟩,
      hfinish⟩
    · rw [reach_of_reads hg hr]
      simp
    · refine (hds d hmem).mono ?_
      rw [reach_of_reads hg hr]
      simp

/-- Where the source fails, the text without a failure goes on with tokens that end behind that. -/
theorem Poised.deliveriesWithin_fault {text before cs cs' : List Char} (ht : text = before ++ cs)
    {n : Nat} (hlow : before.length < n) (hreach : n ≤ before.length + reach cs')
    (htake : cs'.take (n - before.length) = cs.take (n - before.length)) {s s' : Scanner}
    (hs : s.Poised none before cs) (hs' : s'.Poised (some ⟨n, .interrupted⟩) before cs')
    {k k' : Nat} (hk : cs.length < k) (hk' : 0 < k') :
    Feed.CutAt text n (Scanner.deliveriesWithin k s) (Scanner.deliveriesWithin k' s') := by
  have hreach' : n ≤ before.length + reach cs := by
    refine Nat.le_of_not_lt fun hlt => ?_
    have heq := reach_of_take_eq htake.symm (show reach cs < n - before.length by omega)
    omega
  have hle : before.length + reach cs ≤ text.length := by
    rw [ht, List.length_append]
    exact Nat.add_le_add_left (reach_le cs) _
  obtain ⟨k', rfl⟩ := Nat.exists_eq_add_one.2 hk'
  obtain ⟨s₁, hnext⟩ := hs'.next_fault hlow hreach
  obtain ⟨w, hw⟩ := exists_decomposes before cs
  have hlen := hw.length_le
  obtain ⟨hds, hfinish⟩ := hs.deliveriesWithin hw ht (n := k) (by omega)
  generalize Scanner.deliveriesWithin k s = clean at hds hfinish
  obtain ⟨ds, finish⟩ := clean
  simp only at hfinish hds
  subst hfinish
  simp only [Scanner.deliveriesWithin, hnext]
  exact .cut (fun d hmem => (hds d hmem).mono hreach') (Nat.le_trans hreach' hle)

theorem Poised.deliveriesWithin_cut {text before cs cs' : List Char} {w : List Token}
    (hd : Decomposes before cs' w) (ht : text = before ++ cs) {n : Nat} (hlow : before.length < n)
    (htake : cs'.take (n - before.length) = cs.take (n - before.length)) {s s' : Scanner}
    (hs : s.Poised none before cs) (hs' : s'.Poised (some ⟨n, .interrupted⟩) before cs')
    {k k' : Nat} (hk : cs.length < k) (hk' : w.length ≤ k') :
    Feed.CutAt text n (Scanner.deliveriesWithin k s) (Scanner.deliveriesWithin k' s') := by
  have hnone : ∀ m, Clear none m := fun m p hmem => by cases hmem
  induction hd generalizing cs s s' k k' with
  | @finished before gap hg =>
    have hk' : 0 < k' := Nat.lt_of_lt_of_le Nat.zero_lt_one hk'
    by_cases hn : (before ++ gap).length < n
    · have hcs : cs = gap := eq_of_take_eq htake (by rw [List.length_append] at hn; omega)
      subst hcs
      obtain ⟨k, rfl⟩ := Nat.exists_eq_add_one.2 (show 0 < k by omega)
      obtain ⟨k', rfl⟩ := Nat.exists_eq_add_one.2 hk'
      obtain ⟨s₁, hnext, hs₁⟩ := hs.next_end hg (hnone _)
      obtain ⟨s₁', hnext', -⟩ := hs'.next_end hg (.of_lt hn _)
      have htaken := hs₁.taken
      rw [List.append_nil, ← ht] at htaken
      have htaken' : s₁.source.taken = text.length := by omega
      simp only [Scanner.deliveriesWithin, hnext, hnext', Token.endOfInput, if_true, ← ht, htaken']
      exact .finished (ht ▸ hn)
    · refine hs.deliveriesWithin_fault ht hlow ?_ htake hs' hk hk'
      rw [reach_of_trivia hg]
      simpa using hn
  | @token before gap l rest t w hg hr hstart hw ih =>
    simp only [List.length_cons] at hk'
    by_cases hn : (before ++ gap ++ l).length < n
    · have hm : (gap ++ l).length < n - before.length := by
        simp only [List.length_append] at hn ⊢
        omega
      obtain ⟨rest', rfl, hg', hr', hrest⟩ := hr.of_take_eq hg htake hm
      have hsub : n - before.length - (gap ++ l).length = n - (before ++ gap ++ l).length := by
        simp only [List.length_append]
        omega
      rw [hsub] at hrest
      obtain ⟨k, rfl⟩ := Nat.exists_eq_add_one.2 (show 0 < k by omega)
      obtain ⟨k', rfl⟩ := Nat.exists_eq_add_one.2 (show 0 < k' by omega)
      obtain ⟨s₁, hnext, hs₁⟩ := hs.next_reads hg' hr' hstart (hnone _)
      obtain ⟨s₁', hnext', hs₁'⟩ := hs'.next_reads hg hr hstart (.of_lt hn _)
      have htext : text = before ++ gap ++ l ++ rest' := by simp [ht]
      have hpos := List.length_pos_iff.2 hr.isLexeme.ne_nil
      have hlen : rest'.length < k := by
        simp only [List.length_append] at hk
        omega
      have hcut := ih htext hn hrest hs₁ hs₁' hlen (show w.length ≤ k' by omega)
      have htaken := hs₁.taken
      rw [← htext] at htaken
      have hends : t.EndsAt text (before ++ gap ++ l).length := .lexeme (by simp [htext]) hr' hstart
      simp only [Scanner.deliveriesWithin, hnext, hnext', hr.kind_ne, if_false, htaken]
      exact .token hends hn hcut
    · refine hs.deliveriesWithin_fault ht hlow ?_ htake hs' hk (by omega)
      rw [reach_of_reads hg hr]
      simp only [List.length_append] at hn ⊢
      omega

end Scanner

end Kaleidoscope
