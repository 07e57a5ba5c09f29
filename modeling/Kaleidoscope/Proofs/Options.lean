import Kaleidoscope.CommandLine.Run

/-! Command lines that name a file. The options of printing, dumping and drawing may stand in any
order around the file, and each comes to what it says. -/

set_option autoImplicit false

namespace Kaleidoscope

inductive BatchOption where
  | printTokens | noAst | surface
  | dumpAst (path : String) | vizAst (path : String) | vizFormat (format : String)
  deriving DecidableEq, Repr

def valued (name value : String) : String := name ++ "=" ++ value

namespace BatchOption

def word : BatchOption → String
  | .printTokens => "--print-tokens"
  | .noAst => "--no-ast"
  | .surface => "--surface"
  | .dumpAst path => valued "--dump-ast" path
  | .vizAst path => valued "--viz-ast" path
  | .vizFormat format => valued "--viz-format" format

def given : BatchOption → GivenFlag
  | .printTokens => ⟨.printTokens, .nothing⟩
  | .noAst => ⟨.noAst, .nothing⟩
  | .surface => ⟨.surface, .nothing⟩
  | .dumpAst path => ⟨.dumpAst, .value path⟩
  | .vizAst path => ⟨.vizAst, .value path⟩
  | .vizFormat format => ⟨.vizFormat, .value format⟩

def choose (c : Choices) : BatchOption → Choices
  | .printTokens => { c with printTokens := true }
  | .noAst => { c with outline := false }
  | .surface => { c with surface := true }
  | .dumpAst path => { c with dumpAst := .ofText path }
  | .vizAst path => { c with vizAst := .ofText path }
  | .vizFormat format => { c with vizFormat := .ofText format }

end BatchOption

namespace Word

theorem splitEquals_append {stem : List Char} (h : '=' ∉ stem) (value : List Char) :
    splitEquals (stem ++ '=' :: value) = (stem, .value (String.ofList value)) := by
  have hstem : ∀ c ∈ stem, (c != '=') = true := fun c hc => by
    rw [bne_iff_ne]
    rintro rfl
    exact h hc
  rw [splitEquals, List.dropWhile_append_of_pos hstem, List.takeWhile_append_of_pos hstem]
  simp

theorem ofSpelling?_eq_none {s : String} (h : '=' ∈ s.toList) : Flag.ofSpelling? s = none := by
  have hnone : ∀ p ∈ Flag.spellings, '=' ∉ p.1.toList := by decide
  rw [Flag.ofSpelling?, List.lookup_eq_none_iff]
  intro p hp
  rw [bne_iff_ne]
  rintro rfl
  exact hnone p hp h

theorem ofText_valued {name : String} {flag : Flag} (hflag : Flag.ofSpelling? name = some flag)
    (hlong : isLong name.toList = true) (hname : '=' ∉ name.toList) (value : String) :
    ofText (valued name value) = .ok (.flag (valued name value) ⟨flag, .value value⟩) := by
  have hchars : (valued name value).toList = name.toList ++ '=' :: value.toList := by
    simp [valued]
  have hwhole : Flag.ofSpelling? (valued name value) = none :=
    ofSpelling?_eq_none (by simp [hchars])
  obtain ⟨rest, hrest⟩ : ∃ rest, name.toList = '-' :: '-' :: rest := by
    refine ⟨name.toList.drop 2, ?_⟩
    rw [← List.take_append_drop 2 name.toList, eq_of_beq hlong]
    rfl
  have hspelled : spelledOut? (valued name value).toList = some ⟨flag, .value value⟩ := by
    rw [spelledOut?, String.ofList_toList, hwhole, hchars, splitEquals_append hname]
    simp [hlong, hflag]
  unfold ofText
  simp only [hspelled]
  rw [hchars, hrest]
  simp

theorem ofTexts_cons {s : String} {w : Word} (hs : s ≠ "--") (hw : ofText s = .ok w)
    {ss : List String} {ws : List Word} (hws : ofTexts ss = .ok ws) :
    ofTexts (s :: ss) = .ok (w :: ws) := by
  rw [ofTexts, if_neg hs, hw, hws]
  rfl

end Word

theorem valued_ne_stop (name value : String) : valued name value ≠ "--" := by
  intro h
  have hmem : '=' ∈ (valued name value).toList := by simp [valued]
  rw [h] at hmem
  exact absurd hmem (by decide)

namespace BatchOption

def asWord (o : BatchOption) : Word := .flag o.word o.given

theorem ofText_word (o : BatchOption) : Word.ofText o.word = .ok o.asWord := by
  cases o with
  | printTokens | noAst | surface => rfl
  | dumpAst path => exact @Word.ofText_valued "--dump-ast" .dumpAst rfl rfl (by decide) path
  | vizAst path => exact @Word.ofText_valued "--viz-ast" .vizAst rfl rfl (by decide) path
  | vizFormat format =>
    exact @Word.ofText_valued "--viz-format" .vizFormat rfl rfl (by decide) format

theorem word_ne_stop (o : BatchOption) : o.word ≠ "--" := by
  cases o with
  | printTokens | noAst | surface => decide
  | dumpAst | vizAst | vizFormat => exact valued_ne_stop _ _

theorem take_asWord (c : Choices) (extra : List String) (o : BatchOption) (ws : List Word) :
    Choices.take c extra (o.asWord :: ws) = Choices.take (choose c o) extra ws := by
  rw [asWord, Choices.take]
  cases o <;> rfl

theorem choose_file (c : Choices) (file : Option GivenValue) (o : BatchOption) :
    choose { c with file } o = { choose c o with file } := by
  cases o <;> rfl

theorem ofTexts_words (os : List BatchOption) {ss : List String} {ws : List Word}
    (h : Word.ofTexts ss = .ok ws) :
    Word.ofTexts (os.map word ++ ss) = .ok (os.map asWord ++ ws) := by
  induction os with
  | nil => exact h
  | cons o os ih => exact Word.ofTexts_cons o.word_ne_stop o.ofText_word ih

theorem take_asWords (c : Choices) (extra : List String) (os : List BatchOption)
    (ws : List Word) :
    Choices.take c extra (os.map asWord ++ ws) = Choices.take (os.foldl choose c) extra ws := by
  induction os generalizing c with
  | nil => rfl
  | cons o os ih => exact (take_asWord ..).trans (ih _)

theorem foldl_choose_file (c : Choices) (file : Option GivenValue) (os : List BatchOption) :
    os.foldl choose { c with file } = { os.foldl choose c with file } := by
  induction os generalizing c with
  | nil => rfl
  | cons o os ih => rw [List.foldl_cons, choose_file, ih, List.foldl_cons]

theorem foldl_choose_keeps (c : Choices) (os : List BatchOption) :
    (os.foldl choose c).interactive = c.interactive ∧ (os.foldl choose c).binops = c.binops := by
  induction os generalizing c with
  | nil => exact ⟨rfl, rfl⟩
  | cons o os ih =>
    obtain ⟨hi, hb⟩ := ih (choose c o)
    rw [List.foldl_cons, hi, hb]
    cases o <;> exact ⟨rfl, rfl⟩

def style (os : List BatchOption) : BatchStyle :=
  let c := os.foldl choose {}
  ⟨c.printTokens, ⟨c.outline, c.surface⟩, c.dumpAst, c.vizAst, c.vizFormat⟩

end BatchOption

def fileWord (path : String) : Word := .flag (valued "--file" path) ⟨.file, .value path⟩

theorem ofText_file (path : String) : Word.ofText (valued "--file" path) = .ok (fileWord path) :=
  @Word.ofText_valued "--file" .file rfl rfl (by decide) path

theorem mapError_ok {ε ε' α : Type} (f : ε → ε') (a : α) :
    (Except.ok a : Except ε α).mapError f = .ok a := rfl

theorem mapError_error {ε ε' α : Type} (f : ε → ε') (e : ε) :
    (Except.error e : Except ε α).mapError f = .error (f e) := rfl

theorem take_fileWord {c : Choices} (hc : c.interactive = false) (path : String)
    (extra : List String) (ws : List Word) :
    Choices.take c extra (fileWord path :: ws) =
      Choices.take { c with file := some (GivenValue.ofText path) } extra ws := by
  have hset : c.setValue .file path = .ok { c with file := some (GivenValue.ofText path) } := by
    simp [Choices.setValue, hc]
  have hnone : ([] : List Flag).foldlM Choices.setSwitch c = .ok c := rfl
  rw [fileWord, Choices.take]
  simp only [Asked.ofGiven, Asked.ofValue, Flag.takesValue, if_true, mapError_ok, bind,
    Except.bind, hnone, hset]

namespace BatchOption

/-- The choices of a file with options before and behind it. -/
def choices (path : String) (os : List BatchOption) : Choices :=
  { os.foldl choose {} with file := some (GivenValue.ofText path) }

theorem take_words (path : String) (before behind : List BatchOption) :
    Choices.take {} [] (before.map asWord ++ fileWord path :: behind.map asWord) =
      .ok (choices path (before ++ behind), []) := by
  have hbefore := (foldl_choose_keeps {} before).1
  have hbehind := take_asWords
    { before.foldl choose {} with file := some (GivenValue.ofText path) } [] behind []
  rw [List.append_nil] at hbehind
  rw [take_asWords, take_fileWord hbefore, hbehind, foldl_choose_file, ← List.foldl_append]
  rfl

theorem precedence_choices (path : String) (os : List BatchOption) :
    (choices path os).precedence = .ok Precedence.standard := by
  have hbinops : (choices path os).binops = [] := (foldl_choose_keeps {} os).2
  rw [Choices.precedence, hbinops]
  rfl

theorem ofWords_choices (path : String) (before behind : List BatchOption) :
    Choices.ofWords (before.map word ++ valued "--file" path :: behind.map word) =
      .ok (choices path (before ++ behind), Precedence.standard) := by
  have hnone : Word.ofTexts [] = .ok [] := rfl
  have hbehind := ofTexts_words behind hnone
  rw [List.append_nil, List.append_nil] at hbehind
  have hwords := ofTexts_words before
    (Word.ofTexts_cons (valued_ne_stop _ _) (ofText_file path) hbehind)
  simp only [Choices.ofWords, hwords, take_words, precedence_choices, mapError_ok, bind,
    Except.bind]
  rfl

end BatchOption

open BatchOption in
/-- Options before and behind a file ask for a batch on it, in the style that they come to, unless
the file has no name. -/
theorem CommandLine.plan_file (path : String) (before behind : List BatchOption) :
    plan (before.map word ++ valued "--file" path :: behind.map word) =
      match Batch.wanted (GivenValue.ofText path) with
      | none => .error .help
      | some path =>
        .ok (.batch path { table := some Precedence.standard.table }
          (style (before ++ behind))) := by
  have hinteractive : (choices path (before ++ behind)).interactive = false :=
    (foldl_choose_keeps {} (before ++ behind)).1
  have hfile : (choices path (before ++ behind)).file.join = GivenValue.ofText path := rfl
  simp only [plan, ofWords_choices, taskOf, hinteractive, Bool.false_eq_true, if_false, hfile]
  cases Batch.wanted (GivenValue.ofText path) <;> rfl

end Kaleidoscope
