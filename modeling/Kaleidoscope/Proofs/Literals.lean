import Kaleidoscope.Precedence
import Kaleidoscope.Proofs.Lexemes
import Mathlib.Data.Nat.Digits.Defs

/-! Integer literals, and the options that hold one. A literal is white space, a sign or none, then
groups of digits with an underscore between each two, then white space again; what is read of it is
the number that its digits make. An option is a character, an equals sign and a literal. -/

set_option autoImplicit false

namespace Kaleidoscope

namespace Text

/-- The characters with the property White_Space of Unicode. -/
def whiteSpace : Ranges :=
  [(0x09, 0x0d), (0x20, 0x20), (0x85, 0x85), (0xa0, 0xa0), (0x1680, 0x1680), (0x2000, 0x200a),
   (0x2028, 0x2029), (0x202f, 0x202f), (0x205f, 0x205f), (0x3000, 0x3000)]

def IsWhiteSpace (c : Char) : Prop := whiteSpace.covers c.toNat = true
  deriving Decidable

inductive IsSign : List Char → Bool → Prop
  | absent : IsSign [] false
  | plus : IsSign ['+'] false
  | minus : IsSign ['-'] true

def signed (negative : Bool) (n : Nat) : Int := if negative then -n else n

/-- The groups of digits are read as one; the first digit counts most. -/
inductive IsLiteral : List Char → Int → Prop
  | mk {before sign after : List Char} {groups : List (List Char)} {digits : List Nat}
      {negative : Bool} :
      (∀ c ∈ before, IsWhiteSpace c) → IsSign sign negative →
      groups ≠ [] → (∀ g ∈ groups, g ≠ []) →
      groups.flatten.map digitValue? = digits.map some → digits.length ≤ maxIntegerDigits →
      (∀ c ∈ after, IsWhiteSpace c) →
      IsLiteral (before ++ sign ++ ['_'].intercalate groups ++ after)
        (signed negative (Nat.ofDigits 10 digits.reverse))

theorem isPadding_iff (c : Char) : isPadding c = true ↔ IsWhiteSpace c := by
  simp only [isPadding, isBlank, blankRanges, IsWhiteSpace, whiteSpace, Ranges.covers,
    List.any_cons, List.any_nil, Bool.and_eq_true, Bool.or_eq_true, decide_eq_true_eq,
    Bool.not_eq_true', Bool.and_eq_false_iff, decide_eq_false_iff_not, Bool.false_eq_true, or_false]
  omega

theorem isPadding_of_isDecimal {c : Char} (h : isDecimal c = true) : isPadding c = false := by
  have hclear : ∀ z ∈ zeros, ∀ r ∈ blankRanges, z + 10 ≤ r.1 ∨ r.2 < z := by decide
  obtain ⟨d, hd⟩ := Option.isSome_iff_exists.1 h
  obtain ⟨z, hz, -⟩ := Option.map_eq_some_iff.1 hd
  have hin := List.find?_some hz
  simp only [Bool.and_eq_true, decide_eq_true_eq] at hin
  refine Bool.eq_false_iff.2 fun hp => ?_
  obtain ⟨r, hr, hlow, hhigh⟩ := (Ranges.covers_iff _ _).1 (Bool.and_eq_true_iff.1 hp).1
  have := hclear z (List.mem_of_find?_eq_some hz) r hr
  omega

theorem digitValue?_underscore : digitValue? '_' = none := by decide

def inRun (c : Char) : Bool := isDecimal c || c = '_'

theorem inRun_of_isPadding {c : Char} (h : isPadding c = true) : inRun c = false := by
  refine Bool.eq_false_iff.2 fun hrun => ?_
  obtain hd | hu := Bool.or_eq_true_iff.1 hrun
  · rw [isPadding_of_isDecimal hd] at h
    cases h
  · rw [of_decide_eq_true hu] at h
    revert h
    decide

theorem isDecimal_underscore : isDecimal '_' = false := by decide

theorem intercalate_cons_eq {α : Type} (x : α) (g : List α) (gs : List (List α)) :
    [x].intercalate (g :: gs) = g ++ gs.flatMap (x :: ·) := by
  induction gs generalizing g with
  | nil => simp
  | cons g' gs ih => rw [List.intercalate_cons_cons, ih]; simp

theorem wellSeparated_iff {run : List Char} (hrun : ∀ c ∈ run, inRun c = true)
    (afterDigit : Bool) :
    wellSeparated afterDigit run = true ↔ ∃ g gs, run = g ++ gs.flatMap ('_' :: ·) ∧
      (afterDigit = true ∨ g ≠ []) ∧ (∀ g' ∈ gs, g' ≠ []) ∧
      ∀ c ∈ (g :: gs).flatten, isDecimal c = true := by
  induction run generalizing afterDigit with
  | nil =>
    constructor
    · intro h
      exact ⟨[], [], rfl, .inl h, by simp, by simp⟩
    · rintro ⟨g, gs, heq, hfirst, -⟩
      obtain ⟨rfl, -⟩ := List.append_eq_nil_iff.1 heq.symm
      simpa [wellSeparated] using hfirst
  | cons c cs ih =>
    have ih := ih fun c' hc' => hrun c' (List.mem_cons_of_mem _ hc')
    by_cases hc : c = '_'
    · subst hc
      simp only [wellSeparated, if_true, Bool.and_eq_true, ih]
      constructor
      · rintro ⟨hafter, g, gs, rfl, hg, hgs, hdigits⟩
        have hg : g ≠ [] := by simpa using hg
        exact ⟨[], g :: gs, rfl, .inl hafter, List.forall_mem_cons.2 ⟨hg, hgs⟩, hdigits⟩
      · rintro ⟨g, gs, heq, hfirst, hgs, hdigits⟩
        cases g with
        | nil =>
          cases gs with
          | nil => cases heq
          | cons g gs =>
            obtain ⟨hg, hgs⟩ := List.forall_mem_cons.1 hgs
            exact ⟨by simpa using hfirst, g, gs, (List.cons.inj heq).2, .inr hg, hgs, hdigits⟩
        | cons d g =>
          obtain ⟨rfl, -⟩ := List.cons.inj heq
          have := hdigits '_' (by simp)
          rw [isDecimal_underscore] at this
          cases this
    · have hdecimal : isDecimal c = true := by
        simpa [inRun, hc] using hrun c List.mem_cons_self
      simp only [wellSeparated, if_neg hc, ih]
      constructor
      · rintro ⟨g, gs, rfl, -, hgs, hdigits⟩
        exact ⟨c :: g, gs, rfl, .inr (by simp), hgs, List.forall_mem_cons.2 ⟨hdecimal, hdigits⟩⟩
      · rintro ⟨g, gs, heq, -, hgs, hdigits⟩
        cases g with
        | nil =>
          cases gs with
          | nil => cases heq
          | cons g gs => exact absurd (List.cons.inj heq).1 hc
        | cons d g =>
          obtain ⟨rfl, hcs⟩ := List.cons.inj heq
          exact ⟨g, gs, hcs, .inl trivial, hgs, (List.forall_mem_cons.1 hdigits).2⟩

theorem filterMap_digitValue? (g : List Char) (gs : List (List Char)) :
    (g ++ gs.flatMap ('_' :: ·)).filterMap digitValue? =
      (g :: gs).flatten.filterMap digitValue? := by
  rw [List.flatten_cons, List.filterMap_append, List.filterMap_append]
  congr 1
  induction gs with
  | nil => rfl
  | cons g' gs ih =>
    rw [List.flatMap_cons, List.flatten_cons, List.filterMap_append, List.filterMap_append, ih,
      List.filterMap_cons_none digitValue?_underscore]

theorem map_digitValue?_iff {cs : List Char} {digits : List Nat} :
    cs.map digitValue? = digits.map some ↔
      (∀ c ∈ cs, isDecimal c = true) ∧ cs.filterMap digitValue? = digits := by
  induction cs generalizing digits with
  | nil => cases digits <;> simp
  | cons c cs ih =>
    cases hc : digitValue? c with
    | none => cases digits <;> simp [hc, isDecimal]
    | some d =>
      cases digits with
      | nil => simp [hc]
      | cons d' digits => simp [hc, ih, isDecimal, and_left_comm]

theorem decimalValue_eq (digits : List Nat) :
    decimalValue digits = Nat.ofDigits 10 digits.reverse := by
  rw [Nat.ofDigits_eq_foldr, List.foldr_reverse, decimalValue]
  congr 1
  funext n d
  exact Nat.add_comm ..

theorem isSign_splitSign (cs : List Char) :
    ∃ sign, IsSign sign (splitSign cs).1 ∧ cs = sign ++ (splitSign cs).2 := by
  unfold splitSign
  split
  · exact ⟨_, .plus, rfl⟩
  · exact ⟨_, .minus, rfl⟩
  · exact ⟨_, .absent, rfl⟩

theorem splitSign_append {sign : List Char} {negative : Bool} (h : IsSign sign negative) {c : Char}
    (hc : inRun c = true) (cs : List Char) :
    splitSign (sign ++ c :: cs) = (negative, c :: cs) := by
  have hplus : c ≠ '+' := by
    rintro rfl
    revert hc
    decide
  have hminus : c ≠ '-' := by
    rintro rfl
    revert hc
    decide
  cases h with
  | plus | minus => rfl
  | absent => simp [splitSign, hplus, hminus]

theorem isPadding_head {sign : List Char} {negative : Bool} (h : IsSign sign negative) {c : Char}
    (hc : inRun c = true) (cs : List Char) :
    ∀ c' ∈ (sign ++ c :: cs).head?, isPadding c' = false := by
  have hpad : isPadding c = false := Bool.eq_false_iff.2 fun hp => by
    rw [inRun_of_isPadding hp] at hc
    cases hc
  cases h with
  | plus | minus => simp; decide
  | absent => simpa using hpad

theorem inRun_of_groups {g : List Char} {gs : List (List Char)}
    (h : ∀ c ∈ (g :: gs).flatten, isDecimal c = true) :
    ∀ c ∈ g ++ gs.flatMap ('_' :: ·), inRun c = true := by
  intro c hc
  rw [inRun, Bool.or_eq_true, decide_eq_true_eq]
  obtain hg | hgs := List.mem_append.1 hc
  · exact .inl (h c (List.mem_append_left _ hg))
  · obtain ⟨g', hg', hmem⟩ := List.mem_flatMap.1 hgs
    obtain rfl | hmem := List.mem_cons.1 hmem
    · exact .inr rfl
    · exact .inl (h c (List.mem_append_right _ (List.mem_flatten.2 ⟨g', hg', hmem⟩)))

theorem readInteger_of_isLiteral {cs : List Char} {n : Int} (h : IsLiteral cs n) :
    readInteger (String.ofList cs) = .ok n := by
  obtain @⟨before, sign, after, groups, digits, negative, hbefore, hsign, hne, hgroups, hdigits,
    hlength, hafter⟩ := h
  cases groups with
  | nil => exact absurd rfl hne
  | cons g gs =>
  obtain ⟨hdecimal, hvalues⟩ := map_digitValue?_iff.1 hdigits
  obtain ⟨hg, hgs⟩ := List.forall_mem_cons.1 hgroups
  rw [intercalate_cons_eq]
  generalize hrun : g ++ gs.flatMap ('_' :: ·) = run
  have hin : ∀ c ∈ run, inRun c = true := hrun ▸ inRun_of_groups hdecimal
  have hseparated : wellSeparated false run = true :=
    (wellSeparated_iff hin false).2 ⟨g, gs, hrun.symm, .inr hg, hgs, hdecimal⟩
  have hread : run.filterMap digitValue? = digits := by
    rw [← hrun, filterMap_digitValue?, hvalues]
  obtain ⟨c, cs, rfl⟩ : ∃ c cs, run = c :: cs := by
    refine List.exists_cons_of_ne_nil fun hnil => hg ?_
    rw [hnil] at hrun
    exact (List.append_eq_nil_iff.1 hrun).1
  have hc := hin c List.mem_cons_self
  have htrimmed : (before ++ sign ++ (c :: cs) ++ after).dropWhile isPadding =
      sign ++ c :: (cs ++ after) := by
    have hpadding : ∀ a ∈ before, isPadding a = true :=
      fun a ha => (isPadding_iff a).2 (hbefore a ha)
    rw [List.append_assoc, List.append_assoc, List.dropWhile_append_of_pos hpadding,
      List.cons_append]
    have hhead := isPadding_head hsign hc (cs ++ after)
    generalize sign ++ c :: (cs ++ after) = rest at hhead ⊢
    cases rest with
    | nil => rfl
    | cons a rest => rw [List.dropWhile_cons_of_neg (by simp [hhead a rfl])]
  have htaken : (c :: (cs ++ after)).takeWhile inRun = c :: cs :=
    takeWhile_append_of_head hin fun a ha =>
      inRun_of_isPadding ((isPadding_iff a).2 (hafter a (List.mem_of_mem_head? ha)))
  have hrest : (c :: (cs ++ after)).drop (c :: cs).length = after := List.drop_left ..
  have hpadding : after.all isPadding = true :=
    List.all_eq_true.2 fun a ha => (isPadding_iff a).2 (hafter a ha)
  have htaken : (c :: (cs ++ after)).takeWhile (fun c => isDecimal c || c = '_') = c :: cs := htaken
  unfold readInteger
  simp only [String.toList_ofList, htrimmed, splitSign_append hsign hc, htaken, hrest, hread,
    hseparated, hpadding, Nat.not_lt.2 hlength, decimalValue_eq, Bool.not_true, if_false,
    Bool.false_eq_true, signed]

theorem isLiteral_of_readInteger {cs : List Char} {n : Int}
    (h : readInteger (String.ofList cs) = .ok n) : IsLiteral cs n := by
  unfold readInteger at h
  rw [String.toList_ofList] at h
  have hbefore : ∀ c ∈ cs.takeWhile isPadding, IsWhiteSpace c := fun c hc =>
    (isPadding_iff c).1 (List.all_eq_true.1 List.all_takeWhile c hc)
  obtain ⟨sign, hsign, hrest⟩ := isSign_splitSign (cs.dropWhile isPadding)
  have hcs : cs = cs.takeWhile isPadding ++ cs.dropWhile isPadding :=
    List.takeWhile_append_dropWhile.symm
  rw [hrest] at hcs
  revert h hsign hcs
  generalize splitSign (cs.dropWhile isPadding) = split
  obtain ⟨negative, body⟩ := split
  intro h hsign hcs
  have hbody : body = body.takeWhile inRun ++ body.drop (body.takeWhile inRun).length :=
    (List.prefix_iff_eq_append.1 (List.takeWhile_prefix inRun)).symm
  have hin : ∀ c ∈ body.takeWhile inRun, inRun c = true :=
    fun c hc => List.all_eq_true.1 List.all_takeWhile c hc
  have hfun : (fun c => isDecimal c || decide (c = '_')) = inRun := rfl
  simp only [hfun] at h
  revert hbody hin h
  generalize body.takeWhile inRun = run
  generalize body.drop run.length = after
  intro hbody hin h
  split at h
  · cases h
  split at h
  · cases h
  split at h
  · cases h
  next hseparated hlength hpadding =>
  have hseparated : wellSeparated false run = true := by simpa using hseparated
  obtain ⟨g, gs, rfl, hg, hgs, hdecimal⟩ := (wellSeparated_iff hin false).1 hseparated
  have hg : g ≠ [] := by simpa using hg
  rw [filterMap_digitValue?] at hlength h
  have hafter : ∀ c ∈ after, IsWhiteSpace c := fun c hc =>
    (isPadding_iff c).1 (List.all_eq_true.1 (by simpa using hpadding) c hc)
  have hliteral := IsLiteral.mk hbefore hsign (List.cons_ne_nil g gs)
    (List.forall_mem_cons.2 ⟨hg, hgs⟩) (map_digitValue?_iff.2 ⟨hdecimal, rfl⟩)
    (Nat.not_lt.1 hlength) hafter
  rw [← decimalValue_eq, intercalate_cons_eq, List.append_assoc, List.append_assoc, ← hbody,
    ← hcs] at hliteral
  cases h
  exact hliteral

theorem IsLiteral.equals_notMem {cs : List Char} {n : Int} (h : IsLiteral cs n) : '=' ∉ cs := by
  obtain @⟨before, sign, after, groups, digits, negative, hbefore, hsign, hne, hgroups, hdigits,
    hlength, hafter⟩ := h
  cases groups with
  | nil => exact absurd rfl hne
  | cons g gs =>
  have hspace : ¬ IsWhiteSpace '=' := by decide
  have hsigned : '=' ∉ sign := by cases hsign <;> decide
  have hrun : '=' ∉ g ++ gs.flatMap ('_' :: ·) := fun hmem =>
    absurd (inRun_of_groups (map_digitValue?_iff.1 hdigits).1 _ hmem) (by decide)
  rw [intercalate_cons_eq]
  simp only [List.mem_append, not_or] at hrun ⊢
  exact ⟨⟨⟨fun hmem => hspace (hbefore _ hmem), hsigned⟩, hrun⟩,
    fun hmem => hspace (hafter _ hmem)⟩

theorem digitValue?_of_isDigit {c : Char} (h : c.isDigit = true) :
    digitValue? c = some (c.toNat - 48) := by
  obtain ⟨hlow, hhigh⟩ := toNat_of_isDigit h
  have hin : (decide (48 ≤ c.toNat) && decide (c.toNat < 58)) = true := by
    simp only [Bool.and_eq_true, decide_eq_true_eq]
    omega
  have hfirst : zeros.find? (fun z => z ≤ c.toNat && c.toNat < z + 10) = some 48 :=
    List.find?_cons_of_pos hin
  rw [digitValue?, hfirst, Option.map_some]

theorem isLiteral_toDigits {sign : List Char} {negative : Bool} (h : IsSign sign negative)
    {n : Nat} (hn : (Nat.toDigits 10 n).length ≤ maxIntegerDigits) :
    IsLiteral (sign ++ Nat.toDigits 10 n) (signed negative n) := by
  have hvalues : [Nat.toDigits 10 n].flatten.map digitValue? =
      ((Nat.toDigits 10 n).map (·.toNat - 48)).map some := by
    rw [List.flatten_singleton, List.map_map]
    exact List.map_congr_left fun c hc => digitValue?_of_isDigit
      (Nat.isDigit_of_mem_toDigits (by decide) (by decide) hc)
  have hvalue : Nat.ofDigits 10 ((Nat.toDigits 10 n).map (·.toNat - 48)).reverse = n := by
    rw [← decimalValue_eq, decimalValue, List.foldl_map]
    exact Nat.ofDigitChars_ten_toDigits
  have hliteral := IsLiteral.mk (List.forall_mem_nil IsWhiteSpace) h (List.cons_ne_nil _ [])
    (List.forall_mem_singleton.2 Nat.toDigits_ne_nil) hvalues (by rwa [List.length_map])
    (List.forall_mem_nil IsWhiteSpace)
  rwa [hvalue, List.intercalate_singleton, List.nil_append, List.append_nil] at hliteral

theorem isLiteral_toString {n : Int} (h : (toString n.natAbs).length ≤ maxIntegerDigits) :
    IsLiteral (toString n).toList n := by
  have hlength : (Nat.toDigits 10 n.natAbs).length ≤ maxIntegerDigits := by
    rwa [← Nat.toList_repr, String.length_toList]
  rw [Int.toString_eq_repr, Int.repr_eq_if]
  split
  · next hn =>
    have hliteral := isLiteral_toDigits .absent hlength
    have habs : n.toNat = n.natAbs := by omega
    have hvalue : signed false n.natAbs = n := by rw [signed, if_neg (by decide)]; omega
    rwa [hvalue, List.nil_append, ← Nat.toList_repr, ← habs] at hliteral
  · next hn =>
    have hliteral := isLiteral_toDigits .minus hlength
    have habs : (-n).toNat = n.natAbs := by omega
    have hvalue : signed true n.natAbs = n := by rw [signed, if_pos rfl]; omega
    rw [hvalue, ← Nat.toList_repr, ← habs] at hliteral
    rwa [String.toList_append]

end Text

namespace Precedence

/-- The parts of an option: one character, and what stands behind the last equals sign. -/
def IsOption (option : String) (op : Char) (level : List Char) : Prop :=
  option.toList = op :: '=' :: level ∧ '=' ∉ level

theorem readOption_of_isOption {option : String} {op : Char} {level : List Char}
    (h : IsOption option op level) :
    readOption option =
      match Text.readInteger (String.ofList level) with
      | .ok n => .ok (op, n)
      | .error e => .error (.badLevel e) := by
  obtain ⟨hoption, hlevel⟩ := h
  cases hread : Text.readInteger (String.ofList level) with
  | ok n => simp [readOption, hoption, hlevel, hread]
  | error e => simp [readOption, hoption, hlevel, hread]

theorem readOption_of_not_isOption {option : String} (h : ∀ op level, ¬ IsOption option op level) :
    readOption option = .error (.malformed option) := by
  unfold readOption
  split
  · next op level heq =>
    split
    · rfl
    · next hlevel => exact absurd ⟨heq, by simpa using hlevel⟩ (h op level)
  · rfl

/-- An option is read exactly if it is one character, an equals sign and a literal without one, as
that character and the number that the literal is written for. Any other is refused: for its form,
or for a level that is no literal. So whatever the character and the number, the option written
with them is read as them, as long as the number does not have too many digits. -/
theorem readOption_exact :
    (∀ (option : String) (op : Char) (n : Int), readOption option = .ok (op, n) ↔
      ∃ level, IsOption option op level ∧ Text.IsLiteral level n) ∧
    (∀ option : String, (∀ op level, ¬ IsOption option op level) →
      readOption option = .error (.malformed option)) ∧
    (∀ (option : String) (op : Char) (level : List Char), IsOption option op level →
      (∀ n, ¬ Text.IsLiteral level n) → ∃ e, readOption option = .error (.badLevel e)) ∧
    ∀ (op : Char) (n : Int), (toString n.natAbs).length ≤ Text.maxIntegerDigits →
      readOption (op.toString ++ "=" ++ toString n) = .ok (op, n) := by
  have hread : ∀ (option : String) (op : Char) (level : List Char) (n : Int),
      IsOption option op level → Text.IsLiteral level n → readOption option = .ok (op, n) := by
    intro option op level n hoption hn
    rw [readOption_of_isOption hoption, Text.readInteger_of_isLiteral hn]
  refine ⟨fun option op n => ⟨fun h => ?_, fun ⟨level, hoption, hn⟩ => hread _ _ _ _ hoption hn⟩,
    fun option => readOption_of_not_isOption, fun option op level hoption hn => ?_,
    fun op n hn => ?_⟩
  · by_cases hoption : ∃ op' level, IsOption option op' level
    · obtain ⟨op', level, hoption⟩ := hoption
      rw [readOption_of_isOption hoption] at h
      split at h
      · next hlevel =>
        cases h
        exact ⟨level, hoption, Text.isLiteral_of_readInteger hlevel⟩
      · cases h
    · rw [readOption_of_not_isOption fun op' level h' => hoption ⟨op', level, h'⟩] at h
      cases h
  · rw [readOption_of_isOption hoption]
    split
    · next hlevel => exact absurd (Text.isLiteral_of_readInteger hlevel) (hn _)
    · exact ⟨_, rfl⟩
  · have hliteral := Text.isLiteral_toString hn
    exact hread _ op (toString n).toList n ⟨by simp, hliteral.equals_notMem⟩ hliteral

theorem readOption_exact_scripts :
    readOption "==\u3000-1_\u0660" = .ok ('=', -10) ∧
    (∀ op level, ¬ IsOption "a=b=5" op level) ∧
    readOption "a=b=5" = .error (.malformed "a=b=5") ∧
    IsOption "+=1__0" '+' "1__0".toList ∧
    (∃ e, readOption "+=1__0" = .error (.badLevel e)) ∧
    (toString (-7 : Int).natAbs).length ≤ Text.maxIntegerDigits ∧
    readOption ('='.toString ++ "=" ++ toString (-7 : Int)) = .ok ('=', -7) := by
  obtain ⟨hread, hmalformed, hlevel, hprinted⟩ := readOption_exact
  have hspace : ∀ c ∈ ['\u3000'], Text.IsWhiteSpace c := List.forall_mem_singleton.2 (by decide)
  have hliteral : Text.IsLiteral "\u3000-1_\u0660".toList (-10) :=
    @Text.IsLiteral.mk ['\u3000'] ['-'] [] [['1'], ['\u0660']] [1, 0] true hspace .minus
      (by decide) (by decide) (by decide) (by decide) (by simp)
  have hform : ∀ op level, ¬ IsOption "a=b=5" op level := by
    rintro op level ⟨heq, hmem⟩
    obtain ⟨-, rfl⟩ : 'a' = op ∧ "b=5".toList = level := by simpa using heq
    exact hmem (by decide)
  have hoption : IsOption "+=1__0" '+' "1__0".toList := ⟨rfl, by decide⟩
  have hbad : ∀ n, ¬ Text.IsLiteral "1__0".toList n := by
    intro n hn
    have herror := Text.readInteger_of_isLiteral hn
    cases herror
  have hfew : (toString (-7 : Int).natAbs).length ≤ Text.maxIntegerDigits := by decide
  exact ⟨(hread _ _ _).2 ⟨_, ⟨rfl, by decide⟩, hliteral⟩, hform, hmalformed _ hform, hoption,
    hlevel _ _ _ hoption hbad, hfew, hprinted _ _ hfew⟩

end Precedence

end Kaleidoscope
