import Kaleidoscope.CommandLine.Run
import Kaleidoscope.Proofs.Encoding
import Kaleidoscope.Proofs.Options
import Kaleidoscope.Proofs.Outlines

/-! Programs given as files. The table of a command line is always one that a parser takes, and a
text has no faults, so what can end a run without an exit code is the reading of the file: the path
is malformed, or the bytes encode no text. -/

set_option autoImplicit false

namespace Kaleidoscope

namespace Precedence

def IsEntry (e : Datum × Datum) : Prop :=
  ∃ (op : Char) (n : Int), e = (.text op.toString, .integer n)

theorem checkEntry_of_isEntry {e : Datum × Datum} (h : IsEntry e) : ∃ x, checkEntry e = .ok x := by
  obtain ⟨op, n, rfl⟩ := h
  refine ⟨(op, n), ?_⟩
  simp [checkEntry]

theorem isEntry_mergeEntry {key level : Datum} {entries : List (Datum × Datum)}
    (h : IsEntry (key, level)) (hall : ∀ e ∈ entries, IsEntry e) :
    ∀ e ∈ mergeEntry key level entries, IsEntry e := by
  induction entries with
  | nil => exact List.forall_mem_singleton.2 h
  | cons e es ih =>
    obtain ⟨⟨op, n, rfl⟩, hes⟩ := List.forall_mem_cons.1 hall
    obtain ⟨op', n', heq⟩ := h
    cases heq
    unfold mergeEntry
    split
    · exact List.forall_mem_cons.2 ⟨⟨op, n', rfl⟩, hes⟩
    · exact List.forall_mem_cons.2 ⟨⟨op, n, rfl⟩, ih hes⟩

theorem exists_mapM_checkEntry {entries : List (Datum × Datum)} (h : ∀ e ∈ entries, IsEntry e) :
    ∃ xs, entries.mapM checkEntry = .ok xs := by
  induction entries with
  | nil => exact ⟨[], rfl⟩
  | cons e es ih =>
    obtain ⟨he, hes⟩ := List.forall_mem_cons.1 h
    obtain ⟨x, hx⟩ := checkEntry_of_isEntry he
    obtain ⟨xs, hxs⟩ := ih hes
    refine ⟨x :: xs, ?_⟩
    rw [List.mapM_cons, hx, hxs]
    rfl

theorem exists_ofEntries (p : Precedence) : ∃ p', ofEntries p.table = .ok p' := by
  have hentries : ∀ e ∈ p.table, IsEntry e := by
    intro e he
    obtain ⟨⟨op, n⟩, -, rfl⟩ := List.mem_map.1 he
    exact ⟨op, n, rfl⟩
  have hmerged : ∀ (es merged : List (Datum × Datum)), (∀ e ∈ es, IsEntry e) →
      (∀ e ∈ merged, IsEntry e) →
      ∀ e ∈ es.foldl (fun es e => mergeEntry e.1 e.2 es) merged, IsEntry e := by
    intro es
    induction es with
    | nil => exact fun _ _ h => h
    | cons e es ih =>
      intro merged hes hmerged
      obtain ⟨he, hes⟩ := List.forall_mem_cons.1 hes
      exact ih _ hes (isEntry_mergeEntry he hmerged)
  obtain ⟨xs, hxs⟩ := exists_mapM_checkEntry (hmerged p.table [] hentries (by simp))
  refine ⟨⟨xs⟩, ?_⟩
  rw [ofEntries, hxs]
  rfl

end Precedence

namespace Batch

def report (style : BatchStyle) (text : String) (events : List Event) : List Print :=
  (if style.tokens then (tokenListing (lex text)).map (Print.line .output) else []) ++
    (Event.outcomes events).flatMap (·.report style.report)

variable {m : Type → Type} [Monad m]

theorem run_of_ok [LawfulMonad m] (disk : Disk m) {setup : Setup} {text : String} {run : Run}
    (h : setup.run (.ofText text) = .ok run) (style : BatchStyle) :
    Batch.run disk setup style text = (fun exported =>
      ⟨report style text run.events ++ exported, .ok (Event.outcomes run.events)⟩) <$>
        exports disk style (Event.nodes run.events) := by
  unfold Batch.run
  rw [h]
  simp only [map_eq_pure_bind]
  rfl

end Batch

def Contents.Holds : Contents → String → Prop
  | .text s, t => s = t
  | .bytes b, t => b = Text.utf8Bytes t.toList

theorem Contents.decode_eq_ok_iff (c : Contents) (text : String) :
    c.decode = .ok text ↔ c.Holds text := by
  cases c with
  | text s => simp [decode, Holds]
  | bytes b => exact Text.decodeUtf8_eq_ok_iff b text

namespace CommandLine

def asProgram (text : String) : String := String.ofList (Text.unifyLineEnds text.toList)

theorem programText_of_holds {c : Contents} {text : String} (h : c.Holds text) :
    programText c = .ok (asProgram text) := by
  rw [programText, (c.decode_eq_ok_iff text).2 h]
  rfl

theorem programText_of_not_holds {c : Contents} (h : ∀ text, ¬ c.Holds text) :
    ∃ e, programText c = .error e := by
  cases hd : c.decode with
  | error e =>
    refine ⟨e, ?_⟩
    rw [programText, hd]
    rfl
  | ok text => exact absurd ((c.decode_eq_ok_iff text).1 hd) (h text)

theorem grammar_of_plan {args : List String} {path : String} {setup : Setup} {style : BatchStyle}
    (h : plan args = .ok (.batch path setup style)) : ∃ g, setup.grammar = .ok g := by
  unfold plan at h
  split at h
  · cases h
  next choices precedence _ =>
  split at h
  · cases h
  next task htask =>
  cases h
  unfold taskOf at htask
  split at htask
  · cases htask
  obtain ⟨_, -, heq⟩ := Option.map_eq_some_iff.1 htask
  cases heq
  obtain ⟨p, hp⟩ := precedence.exists_ofEntries
  refine ⟨{ precedence := p }, ?_⟩
  simp only [Setup.grammar, hp]
  rfl

section

variable {σ : Type} (disk : Disk (StateM σ)) (path : String) (setup : Setup) (style : BatchStyle)

/-- What a batch on a file comes to, by what reading the file brings. -/
inductive Concludes : Except PathError Contents × σ → Result × σ → Prop where
  | unread {e : PathError} {s : σ} : e.fault ≠ .malformed →
      Concludes (.error e, s)
        (⟨[.line .diagnostics s!"Failed to read file {path}: {e.message}"], .exit 1⟩, s)
  | malformed {e : PathError} {s : σ} : e.fault = .malformed →
      Concludes (.error e, s) (⟨[], .crash (.malformedPath e)⟩, s)
  | undecodable {c : Contents} {e : Text.Utf8Error} {s : σ} : (∀ text, ¬ c.Holds text) →
      Concludes (.ok c, s) (⟨[], .crash (.undecodable e)⟩, s)
  | processed {c : Contents} {text : String} {r : Run} {s : σ} : c.Holds text →
      setup.Runs (asProgram text) r →
      Concludes (.ok c, s)
        (⟨Batch.report style (asProgram text) r.events ++
            (Batch.exports disk style (Event.nodes r.events) s).1, .exit 0⟩,
          (Batch.exports disk style (Event.nodes r.events) s).2)

variable {path setup style}

theorem runBatch_concludes {g : Grammar} (hg : setup.grammar = .ok g) (s : σ) :
    Concludes disk path setup style (disk.read path s) (runBatch disk path setup style s) := by
  rcases hread : disk.read path s with ⟨answer, s'⟩
  cases answer with
  | error e =>
    by_cases he : e.fault = .malformed
    · have hrun : runBatch disk path setup style s = (⟨[], .crash (.malformedPath e)⟩, s') := by
        simp only [runBatch, bind, StateT.bind, hread, he, if_true]
        rfl
      rw [hrun]
      exact .malformed he
    · have hrun : runBatch disk path setup style s =
          (⟨[.line .diagnostics s!"Failed to read file {path}: {e.message}"], .exit 1⟩, s') := by
        simp only [runBatch, bind, StateT.bind, hread, he, if_false]
        rfl
      rw [hrun]
      exact .unread he
  | ok c =>
    by_cases hc : ∃ text, c.Holds text
    · obtain ⟨text, htext⟩ := hc
      obtain ⟨r, hr⟩ := Setup.exists_runs hg (asProgram text)
      have hrun : runBatch disk path setup style s =
          (⟨Batch.report style (asProgram text) r.events ++
              (Batch.exports disk style (Event.nodes r.events) s').1, .exit 0⟩,
            (Batch.exports disk style (Event.nodes r.events) s').2) := by
        simp only [runBatch, bind, StateT.bind, hread, programText_of_holds htext,
          Batch.run_of_ok disk hr.1]
        rfl
      rw [hrun]
      exact .processed htext hr
    · have hnone : ∀ text, ¬ c.Holds text := not_exists.1 hc
      obtain ⟨e, he⟩ := programText_of_not_holds hnone
      have hrun : runBatch disk path setup style s = (⟨[], .crash (.undecodable e)⟩, s') := by
        simp only [runBatch, bind, StateT.bind, hread, he]
        rfl
      rw [hrun]
      exact .undecodable hnone

variable {disk} {answer : Except PathError Contents} {s s' : σ} {result : Result}

/-- A run has no exit code exactly if the path is malformed or the file holds no text. -/
theorem Concludes.crashes_iff
    (h : Concludes disk path setup style (answer, s) (result, s')) :
    (¬ ∃ code, result.ending = .exit code) ↔
      (∃ e, answer = .error e ∧ e.fault = .malformed) ∨
        ∃ c, answer = .ok c ∧ ∀ text, ¬ c.Holds text := by
  cases h with
  | unread he => simp [he]
  | malformed he => simp [he]
  | undecodable hc => simp [hc]
  | processed hc => simpa using ⟨_, hc⟩

end

end CommandLine

namespace FileTree

theorem walk_ne_malformed (tree : FileTree) (place : Place) (parts : List String) :
    tree.walk place parts ≠ .error .malformed := by
  fun_induction walk tree place parts with
  | case1 => nofun
  | case2 _ _ _ _ ih => exact ih
  | case3 => nofun
  | case4 => nofun

theorem locate_eq_malformed_iff (tree : FileTree) (path : String) :
    tree.locate path = .error .malformed ↔ Path.isMalformed path = true := by
  unfold locate
  split
  next h => simp [h]
  next h =>
  split
  next => simp [h]
  next => simp [h, tree.walk_ne_malformed]

theorem readAt_ne_malformed (tree : FileTree) (place : Place) :
    tree.readAt place ≠ .error .malformed := by
  unfold readAt
  split <;> simp

theorem read_malformed_iff (tree : FileTree) (path : String) :
    (∃ e, tree.read path = .error e ∧ e.fault = .malformed) ↔ Path.isMalformed path = true := by
  rw [← tree.locate_eq_malformed_iff, read]
  cases tree.locate path with
  | error f => simp
  | ok place =>
    have hread := tree.readAt_ne_malformed place
    cases h : tree.readAt place with
    | error f => simpa [h, mapError_error] using hread
    | ok c => simp [h, mapError_ok]

end FileTree

namespace CommandLine

open BatchOption in
/-- Options stand in any order around the file. A file that cannot be read is reported, with the
reason, and the exit code is one. A file that holds a text is processed, whatever the text, and the
exit code is zero, whatever becomes of the exports. A run ends without an exit code exactly if the
path is malformed or the file holds bytes that encode no text. -/
theorem run_file (path : String) (before behind : List BatchOption) (input : Source) :
    plan (before.map word ++ valued "--file" path :: behind.map word) =
      (match Batch.wanted (GivenValue.ofText path) with
        | none => .error .help
        | some path => .ok (.batch path { table := some Precedence.standard.table }
            (style (before ++ behind)))) ∧
    ∀ {args : List String} {setup : Setup} {style : BatchStyle},
      plan args = .ok (.batch path setup style) →
      (∀ {σ : Type} (disk : Disk (StateM σ)) (s : σ),
        Concludes disk path setup style (disk.read path s) (run disk input args s)) ∧
      ∀ w : Workspace,
        (¬ ∃ code, (run Workspace.disk input args w).1.ending = .exit code) ↔
          Path.isMalformed path = true ∨
            ∃ bytes, w.tree.read path = .ok (.bytes bytes) ∧
              ∀ text : String, bytes ≠ Text.utf8Bytes text.toList := by
  refine ⟨plan_file path before behind, fun {args setup style} hplan => ?_⟩
  obtain ⟨g, hg⟩ := grammar_of_plan hplan
  have hrun {σ : Type} (disk : Disk (StateM σ)) (s : σ) :
      Concludes disk path setup style (disk.read path s) (run disk input args s) := by
    have hbatch : run disk input args = runBatch disk path setup style := by simp only [run, hplan]
    rw [hbatch]
    exact runBatch_concludes disk hg s
  refine ⟨hrun, fun w => ?_⟩
  refine (hrun Workspace.disk w).crashes_iff.trans ?_
  rw [← w.tree.read_malformed_iff]
  refine or_congr Iff.rfl ⟨?_, ?_⟩
  · rintro ⟨c, hread, hnone⟩
    cases c with
    | text s => exact absurd rfl (hnone s)
    | bytes b => exact ⟨b, hread, hnone⟩
  · rintro ⟨b, hread, hnone⟩
    exact ⟨.bytes b, hread, hnone⟩

end CommandLine

open CommandLine in
theorem run_file_bytes :
    let args := ["--no-ast", "--file=p", "--dump-ast=q"]
    let holding (bytes : List UInt8) : Workspace := { tree := ⟨[(["p"], .file (.bytes bytes))]⟩ }
    (∃ code, (run Workspace.disk (.ofText "") args (holding [0xc3, 0xa9])).1.ending =
      .exit code) ∧
    ¬ ∃ code, (run Workspace.disk (.ofText "") args (holding [0xff])).1.ending = .exit code := by
  intro args holding
  obtain ⟨hplan, hfile⟩ := run_file "p" [.noAst] [.dumpAst "q"] (.ofText "")
  have hends := fun bytes => (hfile hplan).2 (holding bytes)
  constructor
  · refine Classical.not_not.1 fun hcrash => ?_
    obtain hpath | ⟨bytes, hread, hnone⟩ := (hends [0xc3, 0xa9]).1 hcrash
    · exact absurd hpath (by decide)
    · cases hread
      exact hnone "é" rfl
  · refine (hends [0xff]).2 (.inr ⟨[0xff], rfl, fun text htext => ?_⟩)
    cases (Text.decodeUtf8_eq_ok_iff [0xff] text).2 htext

open CommandLine in
/-- Not every run on a file ends with an exit code: a byte that no text has crashes it, and nothing
is reported. -/
theorem not_exit_undecodable :
    ¬ ∀ (args : List String) (path : String) (setup : Setup) (style : BatchStyle),
      plan args = .ok (.batch path setup style) → ∀ (input : Source) (w : Workspace),
        ∃ code, (run Workspace.disk input args w).1.ending = .exit code := by
  intro h
  have hplan := plan_file "p" [] []
  obtain ⟨code, hcode⟩ :=
    h _ _ _ _ hplan (.ofText "") { tree := ⟨[(["p"], .file (.bytes [0xff]))]⟩ }
  simp only [run, hplan] at hcode
  cases hcode

end Kaleidoscope
