import Kaleidoscope.Proofs.Interruption
import Kaleidoscope.Proofs.Joining

/-! Texts are scanned line by line. Where a line ends, or the text does, every comment and every
lexeme is over, so the tokens of a text are those of its beginning and those of the rest, moved to
where the rest stands. A comment in front of such a place leaves no trace but in the columns. -/

set_option autoImplicit false

namespace Kaleidoscope

namespace Position

theorem behind_append_of_mem {ys : List Char} (h : '\n' ∈ ys) (xs : List Char) :
    behind (xs ++ ys) = ⟨(behind ys).line + (xs.count '\n' : Int), (behind ys).column⟩ := by
  obtain ⟨s, t, hs⟩ := List.append_of_mem (List.mem_reverse.2 h)
  have hstop : ∀ t, (s ++ '\n' :: t).takeWhile (· != '\n') = s.takeWhile (· != '\n') :=
    fun t => takeWhile_append_cons (by decide) s t
  have htake : (xs ++ ys).reverse.takeWhile (· != '\n') = ys.reverse.takeWhile (· != '\n') := by
    rw [List.reverse_append, hs, List.append_assoc, List.cons_append, hstop, hstop]
  simp only [behind, htake, List.count_append, Int.natCast_add, mk.injEq, and_true]
  omega

theorem behind_append_of_notMem {ys : List Char} (h : '\n' ∉ ys) (xs : List Char) :
    behind (xs ++ ys) = ⟨(behind xs).line, (behind xs).column + (ys.length : Int)⟩ := by
  have hall : ∀ c ∈ ys.reverse, (c != '\n') = true := by
    intro c hc
    have hne : c ≠ '\n' := fun he => h (he ▸ List.mem_reverse.1 hc)
    simpa using hne
  have hcount : ys.count '\n' = 0 := List.count_eq_zero.2 h
  simp only [behind, List.reverse_append, List.takeWhile_append_of_pos hall, List.count_append,
    hcount, List.length_append, List.length_reverse, mk.injEq, Nat.add_zero, true_and]
  omega

def below (lines : Nat) (p : Position) : Position := ⟨p.line + lines, p.column⟩

/-- The place as many columns to the left, if it is on the line. -/
def pulled (line : Int) (columns : Nat) (p : Position) : Position :=
  if p.line = line then ⟨p.line, p.column - columns⟩ else p

theorem behind_line (xs ys : List Char) :
    behind (xs ++ '\n' :: ys) = (behind ys).below (1 + xs.count '\n') := by
  have hline : xs ++ '\n' :: ys = xs ++ ['\n'] ++ ys := by simp
  by_cases h : '\n' ∈ ys
  · rw [hline, behind_append_of_mem h]
    simp only [below, List.count_append, List.count_singleton_self, mk.injEq, and_true]
    omega
  · have hfirst : behind (xs ++ ['\n']) = (⟨1, 1⟩ : Position).below (1 + xs.count '\n') := by
      rw [behind_append_of_mem (List.mem_singleton.2 rfl)]
      simp [behind, below]
      omega
    have hrest := behind_append_of_notMem h []
    rw [List.nil_append] at hrest
    rw [hline, behind_append_of_notMem h, hfirst, hrest]
    rfl

theorem behind_gone {gone : List Char} (h : '\n' ∉ gone) (xs ys : List Char) :
    behind (xs ++ ys) = (behind (xs ++ gone ++ ys)).pulled (behind xs).line gone.length := by
  have hcount : (xs ++ gone).count '\n' = xs.count '\n' := by
    rw [List.count_append, List.count_eq_zero.2 h, Nat.add_zero]
  by_cases hy : '\n' ∈ ys
  · rw [behind_append_of_mem hy, behind_append_of_mem hy, hcount, pulled, if_neg]
    have hpos := List.count_pos_iff.2 hy
    simp only [behind]
    omega
  · rw [behind_append_of_notMem hy, behind_append_of_notMem hy, behind_append_of_notMem h, pulled,
      if_pos rfl]
    simp only [mk.injEq, true_and]
    omega

end Position

def Token.moved (move : Position → Position) (t : Token) : Token := { t with start := move t.start }

theorem Decomposes.moved {before before' cs : List Char} {w : List Token}
    (h : Decomposes before cs w) {move : Position → Position}
    (hm : ∀ passed, .behind (before' ++ passed) = move (.behind (before ++ passed))) :
    Decomposes before' cs (w.map (Token.moved move)) := by
  induction h generalizing before' with
  | @finished before gap hg =>
    have hend : Decomposes before' gap [.endOfInput (.behind (before' ++ gap))] := .finished hg
    rw [hm gap] at hend
    exact hend
  | @token before gap l rest t w hg hr hs _ ih =>
    have hrest : ∀ passed, Position.behind (before' ++ gap ++ l ++ passed) =
        move (.behind (before ++ gap ++ l ++ passed)) := by
      intro passed
      have := hm (gap ++ (l ++ passed))
      simpa using this
    refine .token hg ?_ ?_ (ih hrest)
    · cases hr with
      | word hc hcs ht hk => exact .word hc hcs ht hk
      | number hc hcs ht hv => exact .number hc hcs ht hv
      | symbol ha hn hi => exact .symbol ha hn hi
    · rw [hm gap, ← hs]
      rfl

/-- Nothing that stands before the characters goes on in them. -/
def AtLineEnd (cs : List Char) : Prop := ∀ c ∈ cs.head?, endsComment c = true

theorem isAlphanum_of_endsComment {c : Char} (h : endsComment c = true) :
    c.isAlphanum = false ∧ isNumeralChar c = false := by
  simp only [endsComment, Bool.or_eq_true, beq_iff_eq] at h
  obtain rfl | rfl := h <;> decide

theorem Trivia.append {tail gap gap' : List Char} (h : Trivia (gap' ++ tail) gap)
    (h' : Trivia tail gap') : Trivia tail (gap ++ gap') := by
  induction h with
  | none => exact h'
  | blank hb _ ih => exact .blank hb ih
  | @comment body cs hbody hend _ ih =>
    rw [List.cons_append, List.append_assoc]
    exact .comment hbody (by rwa [List.append_assoc]) ih

theorem Trivia.of_atLineEnd {tail gap : List Char} (h : Trivia [] gap) (ht : AtLineEnd tail) :
    Trivia tail gap := by
  induction h with
  | none => exact .none
  | blank hb _ ih => exact .blank hb ih
  | @comment body cs hbody hend _ ih =>
    refine .comment hbody ?_ ih
    cases cs with
    | nil => exact ht
    | cons c cs => exact hend

theorem Trivia.concat_comment {gap body : List Char} (h : Trivia [] gap)
    (hbody : ∀ c ∈ body, endsComment c = false) : Trivia [] (gap ++ '#' :: body) := by
  have hall : ∀ c ∈ '#' :: body, endsComment c = false :=
    List.forall_mem_cons.2 ⟨by decide, hbody⟩
  induction h with
  | none =>
    have hone : Trivia [] ('#' :: (body ++ [])) := .comment hbody (by simp) .none
    simpa using hone
  | blank hb _ ih => exact .blank hb ih
  | @comment body' cs hbody' hend _ ih =>
    cases cs with
    | nil =>
      have hone : Trivia [] ('#' :: (body' ++ '#' :: body ++ [])) :=
        .comment (List.forall_mem_append.2 ⟨hbody', hall⟩) (by simp) .none
      simpa using hone
    | cons c cs =>
      have hmore : Trivia [] ('#' :: (body' ++ (c :: cs ++ '#' :: body))) :=
        .comment hbody' (by simpa using hend) ih
      simpa using hmore

theorem Reads.append {tail l : List Char} {t : Token} (h : Reads tail l t) {more : List Char}
    (hm : ∀ c ∈ more.head?, c.isAlphanum = false ∧ isNumeralChar c = false) :
    Reads (tail ++ more) l t := by
  cases tail with
  | cons c tail => exact h.of_head_eq rfl
  | nil =>
    cases h with
    | word hc hcs _ hk => exact .word hc hcs (fun c h => (hm c h).1) hk
    | number hc hcs _ hv => exact .number hc hcs (fun c h => (hm c h).2) hv
    | symbol ha hn hi => exact .symbol ha hn hi

theorem Decomposes.ne_nil {before cs : List Char} {w : List Token} (h : Decomposes before cs w) :
    w ≠ [] := by
  cases h <;> simp

theorem Decomposes.after_trivia {before gap cs : List Char} {w : List Token}
    (hg : Trivia cs gap) (h : Decomposes (before ++ gap) cs w) :
    Decomposes before (gap ++ cs) w := by
  cases h with
  | finished hg' =>
    have hall : Trivia [] (gap ++ cs) := Trivia.append (by rwa [List.append_nil]) hg'
    have hend : Decomposes before (gap ++ cs) [.endOfInput (.behind (before ++ (gap ++ cs)))] :=
      .finished hall
    rwa [← List.append_assoc] at hend
  | @token _ gap' l rest t w hg' hr hs hw =>
    have hmore : Decomposes before (gap ++ gap' ++ (l ++ rest)) (t :: w) :=
      .token (hg.append hg') hr (by rw [hs, List.append_assoc]) (by rwa [← List.append_assoc])
    rwa [List.append_assoc] at hmore

theorem Decomposes.token_append {before gap l rest more : List Char} {t : Token} {w : List Token}
    (hg : Trivia (l ++ rest) gap) (hr : Reads rest l t) (hs : t.start = .behind (before ++ gap))
    (hm : ∀ c ∈ more.head?, c.isAlphanum = false ∧ isNumeralChar c = false)
    (h : Decomposes (before ++ gap ++ l) (rest ++ more) w) :
    Decomposes before (gap ++ (l ++ rest) ++ more) (t :: w) := by
  have hhead : (l ++ rest).head? = (l ++ (rest ++ more)).head? := by
    obtain ⟨c, l', hl⟩ := List.exists_cons_of_ne_nil hr.isLexeme.ne_nil
    rw [hl]
    rfl
  have hall := Decomposes.token (hg.of_head_eq hhead) (hr.append hm) hs h
  rwa [← List.append_assoc l, ← List.append_assoc] at hall

theorem Decomposes.append {before cs tail : List Char} {w v : List Token}
    (h : Decomposes before cs w) (ht : AtLineEnd tail) (hv : Decomposes (before ++ cs) tail v) :
    Decomposes before (cs ++ tail) (w.dropLast ++ v) := by
  induction h with
  | finished hg => exact .after_trivia (hg.of_atLineEnd ht) hv
  | @token before gap l rest t w hg hr hs hw ih =>
    rw [List.dropLast_cons_of_ne_nil hw.ne_nil, List.cons_append]
    exact .token_append hg hr hs (fun c hc => isAlphanum_of_endsComment (ht c hc))
      (ih (by simpa using hv))

theorem Decomposes.concat_comment {before cs body : List Char} {w : List Token}
    (h : Decomposes before cs w) (hbody : ∀ c ∈ body, endsComment c = false) :
    Decomposes before (cs ++ '#' :: body)
      (w.dropLast ++ [.endOfInput (.behind (before ++ (cs ++ '#' :: body)))]) := by
  induction h with
  | finished hg => exact .finished (hg.concat_comment hbody)
  | @token before gap l rest t w hg hr hs hw ih =>
    have hhash : ∀ c ∈ ('#' :: body).head?, c.isAlphanum = false ∧ isNumeralChar c = false := by
      intro c hc
      cases hc
      decide
    have hall := Decomposes.token_append hg hr hs hhash ih
    rw [List.dropLast_cons_of_ne_nil hw.ne_nil, List.cons_append]
    simpa using hall

def Token.below (lines : Nat) (t : Token) : Token := t.moved (Position.below lines)

def Token.offColumn (t : Token) : Token := { t with start := ⟨t.start.line, 0⟩ }

theorem Token.offColumn_pulled (line : Int) (columns : Nat) (t : Token) :
    (t.moved (Position.pulled line columns)).offColumn = t.offColumn := by
  simp only [offColumn, moved, Position.pulled]
  split <;> rfl

theorem isBlank_lineFeed : Text.isBlank '\n' = true := by decide

theorem lex_line (a b : String) :
    lex (a ++ "\n" ++ b) =
      (lex a).dropLast ++ (lex b).map (.below (1 + a.toList.count '\n')) := by
  have hb : Decomposes (a.toList ++ ['\n']) b.toList
      ((lex b).map (.below (1 + a.toList.count '\n'))) := by
    refine (decomposes_lex b).moved fun passed => ?_
    rw [List.append_assoc, List.singleton_append, Position.behind_line, List.nil_append]
  have hline : Decomposes a.toList ('\n' :: b.toList)
      ((lex b).map (.below (1 + a.toList.count '\n'))) :=
    .after_trivia (.blank isBlank_lineFeed .none) hb
  have hends : AtLineEnd ('\n' :: b.toList) := by
    intro c hc
    cases hc
    decide
  have hall := (decomposes_lex a).append hends hline
  exact lex_eq_iff.2 (by simpa using hall)

theorem lex_comment {pre body post : String} (hbody : ∀ c ∈ body.toList, endsComment c = false)
    (hpost : AtLineEnd post.toList) :
    ∃ vs, lex (pre ++ "#" ++ body ++ post) = (lex pre).dropLast ++ vs ∧
      lex (pre ++ post) = (lex pre).dropLast ++ vs.map (Token.moved
        (Position.pulled (Position.behind pre.toList).line (body.length + 1))) := by
  have hgone : '\n' ∉ '#' :: body.toList := by
    intro hmem
    obtain h | h := List.mem_cons.1 hmem
    · exact absurd h (by decide)
    · exact absurd (hbody _ h) (by decide)
  have hcomment := (decomposes_lex pre).concat_comment hbody
  obtain ⟨vs, hv⟩ := exists_decomposes (pre.toList ++ '#' :: body.toList) post.toList
  have hwith := hcomment.append hpost hv
  rw [List.dropLast_concat] at hwith
  have hpulled := hv.moved (fun passed => Position.behind_gone hgone pre.toList passed)
  have hwithout := (decomposes_lex pre).append hpost hpulled
  rw [List.length_cons, String.length_toList] at hwithout
  exact ⟨vs, lex_eq_iff.2 (by simpa using hwith), lex_eq_iff.2 (by simpa using hwithout)⟩

/-- Texts are scanned line by line, and comments leave no trace. A line feed between two texts ends
whatever the first one breaks off in, and the tokens of the second one stand as many lines further
down as there are lines in front of them. A comment that is left out changes no token but in its
column, and that only on its own line. -/
theorem lex_lines :
    (∀ a b : String, ∃ ts place, lex a = ts ++ [.endOfInput place] ∧
      (∀ t ∈ ts, t.kind ≠ .endOfInput) ∧
      lex (a ++ "\n" ++ b) = ts ++ (lex b).map (.below (1 + a.toList.count '\n'))) ∧
    ∀ pre body post : String, (∀ c ∈ body.toList, endsComment c = false) →
      (∀ c ∈ post.toList.head?, endsComment c = true) →
      (lex (pre ++ "#" ++ body ++ post)).map Token.offColumn =
        (lex (pre ++ post)).map Token.offColumn ∧
      ∃ us vs, lex (pre ++ "#" ++ body ++ post) = us ++ vs ∧
        lex (pre ++ post) = us ++ vs.map (Token.moved
          (Position.pulled (Position.behind pre.toList).line (body.length + 1))) := by
  refine ⟨fun a b => ?_, fun pre body post hbody hpost => ?_⟩
  · obtain ⟨ts, hts, hk⟩ := (decomposes_lex a).ends
    have hline := lex_line a b
    rw [hts, List.dropLast_concat] at hline
    exact ⟨ts, _, hts, hk, hline⟩
  · obtain ⟨vs, hwith, hwithout⟩ := lex_comment hbody hpost
    refine ⟨?_, _, vs, hwith, hwithout⟩
    rw [hwith, hwithout, List.map_append, List.map_append, List.map_map]
    congr 2
    funext t
    exact (Token.offColumn_pulled _ _ t).symm

theorem lex_lines_return :
    lex ("x#1" ++ "\n" ++ "\r2") =
        (lex "x#1").dropLast ++ (lex "\r2").map (.below 1) ∧
      (∀ c ∈ " 1".toList, endsComment c = false) ∧
      (∀ c ∈ "\ry".toList.head?, endsComment c = true) ∧
      (lex ("x" ++ "#" ++ " 1" ++ "\ry")).map Token.offColumn =
        (lex ("x" ++ "\ry")).map Token.offColumn ∧
      (lex ("x" ++ "#" ++ " 1" ++ "\ry")).map (·.start.column) = [1, 6, 7] ∧
      (lex ("x" ++ "\ry")).map (·.start.column) = [1, 3, 4] := by
  have hbody : ∀ c ∈ " 1".toList, endsComment c = false := by
    intro c hc
    obtain rfl | hc := List.mem_cons.1 hc
    · decide
    · rw [List.mem_singleton.1 hc]
      decide
  have hpost : ∀ c ∈ "\ry".toList.head?, endsComment c = true := by
    intro c hc
    cases hc
    decide
  obtain ⟨ts, place, hts, -, hline⟩ := lex_lines.1 "x#1" "\r2"
  obtain ⟨hcomment, -⟩ := lex_lines.2 "x" " 1" "\ry" hbody hpost
  refine ⟨?_, hbody, hpost, hcomment, by decide +kernel, by decide +kernel⟩
  rw [hts, List.dropLast_concat]
  exact hline

end Kaleidoscope
