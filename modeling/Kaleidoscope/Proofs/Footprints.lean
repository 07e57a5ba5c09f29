import Kaleidoscope.Proofs.Exports

/-! What exports leave behind, and what they say of it. No file is touched but where an export is
about one, or at the path that a drawing was given; and where a file is said to be written, one
was, though the drawing may have gone over the dump, or stand under another name. -/

set_option autoImplicit false

namespace Kaleidoscope

open FileTree (Revised Change)

theorem head?_append {b : String} (hb : b ≠ "") (t : String) :
    (b ++ t).toList.head? = b.toList.head? := by
  rw [String.toList_append, List.head?_append_of_ne_nil]
  simpa using hb

/-- Files are only touched where one of the paths leads, and directories stay. -/
structure Confined (asked : String → Prop) (w w' : Workspace) : Prop where
  program : w'.program = w.program
  directory : ∀ q, w.tree.find? q = some .directory → w'.tree.find? q = some .directory
  file : ∀ q, (∀ path, asked path → w'.tree.locate path ≠ .ok q) →
    w'.tree.fileAt? q = w.tree.fileAt? q

def DrawsAt (given format : Option String) (path : String) : Prop :=
  ∃ base, Batch.wanted given = some base ∧ (path = base ∨
    ∃ f lower, format = some f ∧ readFormat f = .ok lower ∧ path = Path.extended base lower)

section

variable {given format : Option String} {trees : List Node} {w w' w'' : Workspace}
  {prints : List Print} {asked asked' : String → Prop}

theorem Confined.of_revised {changes : List Change} {tree : FileTree}
    (h : Revised w.tree changes tree)
    (hall : ∀ change ∈ changes, ∃ path, asked path ∧ tree.locate path = .ok change.1) :
    Confined asked w { w with tree } := by
  refine ⟨rfl, h.directory, fun q hq => h.file_eq fun change hmem hplace => ?_⟩
  obtain ⟨path, hpath, hloc⟩ := hall change hmem
  exact hq path hpath (hplace ▸ hloc)

theorem Confined.trans (h : Confined asked w w') (h' : Confined asked' w' w'') :
    Confined (fun path => asked path ∨ asked' path) w w'' := by
  refine ⟨h'.program.trans h.program, fun q hq => h'.directory q (h.directory q hq),
    fun q hq => ?_⟩
  rw [h'.file q fun path hpath => hq path (.inr hpath)]
  exact h.file q fun path hpath hloc =>
    hq path (.inl hpath) (FileTree.locate_of_directories h'.directory hloc)

theorem Dumped.confined (h : Dumped given trees w prints w') :
    Confined (fun path => Batch.wanted given = some path) w w' := by
  cases h with
  | unasked => exact .of_revised (.refl w.tree) (by simp)
  | failed => exact .of_revised (.refl w.tree) (by simp)
  | written hgiven hloc hrevised => exact .of_revised hrevised (by simpa using ⟨_, hgiven, hloc⟩)

theorem Drawn.confined (h : Drawn given format trees w prints w') :
    Confined (DrawsAt given format) w w' := by
  cases h with
  | unasked => exact .of_revised (.refl w.tree) (by simp)
  | refused _ _ hrevised => exact .of_revised hrevised (by simp)
  | undrawn hgiven _ _ hloc hrevised =>
    exact .of_revised hrevised (by simpa using ⟨_, ⟨_, hgiven, .inl rfl⟩, hloc⟩)
  | @drawn path f lower place beside tree hgiven hformat hf _ hloc hbeside _ hrevised =>
    have hbase : ∃ p, DrawsAt given format p ∧ tree.locate p = .ok place :=
      ⟨path, ⟨path, hgiven, .inl rfl⟩, hloc⟩
    have hdrawing : ∃ p, DrawsAt given format p ∧ tree.locate p = .ok beside :=
      ⟨_, ⟨path, hgiven, .inr ⟨f, lower, hformat, hf, rfl⟩⟩, hbeside⟩
    exact .of_revised hrevised (by simpa using ⟨hbase, hdrawing, hbase⟩)
  | @obstructed path f lower place beside tree hgiven _ _ _ hloc _ _ _ hrevised =>
    have hbase : ∃ p, DrawsAt given format p ∧ tree.locate p = .ok place :=
      ⟨path, ⟨path, hgiven, .inl rfl⟩, hloc⟩
    exact .of_revised hrevised (by simpa using hbase)

theorem Drawn.fileAt?_base (h : Drawn given format trees w prints w') {base : String} {q : Place}
    (hbase : Batch.wanted given = some base) (hq : w'.tree.locate base = .ok q) :
    (∃ e, (∀ d, e ≠ .drawing d) ∧ prints = drawingFailure base e ∧
      w'.tree.fileAt? q = w.tree.fileAt? q) ∨
    (∃ d, prints = drawingFailure base (.drawing d) ∧ w.program ≠ .works ∧
      w'.tree.fileAt? q = some (.text (drawingText trees))) ∨
    ∃ f : String, prints = [.line .diagnostics s!"Wrote AST visualization to {base}.{f}"] ∧
      w.program = .works ∧ w'.tree.fileAt? q = none := by
  cases h with
  | unasked hnone =>
    rw [hbase] at hnone
    cases hnone
  | refused hpath he hrevised =>
    cases hbase.symm.trans hpath
    exact .inl ⟨_, he, rfl, hrevised.file q⟩
  | undrawn hpath hw _ hloc hrevised =>
    cases hbase.symm.trans hpath
    cases hq.symm.trans hloc
    exact .inr (.inl ⟨_, rfl, hw, by simp [hrevised.file]⟩)
  | drawn hpath _ _ hw hloc _ _ hrevised =>
    cases hbase.symm.trans hpath
    cases hq.symm.trans hloc
    exact .inr (.inr ⟨_, rfl, hw, by simp [hrevised.file]⟩)
  | obstructed hpath _ _ hw hloc _ _ _ hrevised =>
    cases hbase.symm.trans hpath
    cases hq.symm.trans hloc
    exact .inr (.inr ⟨_, rfl, hw, by simp [hrevised.file]⟩)

end

/-- Files that no export is about stay as they are, and none comes up; directories stay. Only the
file at the path that a drawing was given is touched without being the drawing: it stays as it is if
the drawing is refused before anything is written, holds the DOT text afterwards if there is no
program that works, and is gone if there is one. -/
theorem Batch.run_frame {setup : Setup} {g : Grammar} (hg : setup.grammar = .ok g)
    (style : BatchStyle) (text : String) (w : Workspace) :
    ∃ run, setup.Runs text run ∧
      let done := Batch.run Workspace.disk setup style text w
      done.1.result = .ok (Event.outcomes run.events) ∧
      Confined (fun path => wanted style.dumpPath = some path ∨
        DrawsAt style.drawingPath style.drawingFormat path) w done.2 ∧
      ∀ base q, wanted style.drawingPath = some base → done.2.tree.locate base = .ok q →
        (∃ e, (∀ d, e ≠ .drawing d) ∧ drawingFailure base e <:+ done.1.prints ∧
          ((∀ path, wanted style.dumpPath = some path → done.2.tree.locate path ≠ .ok q) →
            done.2.tree.fileAt? q = w.tree.fileAt? q)) ∨
        (∃ d, drawingFailure base (.drawing d) <:+ done.1.prints ∧ w.program ≠ .works ∧
          done.2.tree.fileAt? q = some (.text (drawingText (Event.nodes run.events)))) ∨
        ∃ f : String,
          [.line .diagnostics s!"Wrote AST visualization to {base}.{f}"] <:+ done.1.prints ∧
            w.program = .works ∧ done.2.tree.fileAt? q = none := by
  obtain ⟨run, dumped, w₁, drawn, w₂, hrun, hdumped, hdrawn, heq⟩ := run_spec hg style text w
  have h₁ := hdumped.confined
  have h₂ := hdrawn.confined
  have hsuffix : drawn <:+ report style text run.events ++ (dumped ++ drawn) :=
    (List.suffix_append dumped drawn).trans (List.suffix_append _ _)
  refine ⟨run, hrun, ?_⟩
  rw [heq]
  refine ⟨rfl, h₁.trans h₂, fun base q hbase hq => ?_⟩
  rw [← h₁.program]
  obtain ⟨e, he, rfl, hsame⟩ | ⟨d, rfl, hdrawing⟩ | ⟨f, rfl, hdrawing⟩ :=
    hdrawn.fileAt?_base hbase hq
  · refine .inl ⟨e, he, hsuffix, fun hdump => hsame.trans (h₁.file q fun path hpath hloc => ?_)⟩
    exact hdump path hpath (FileTree.locate_of_directories h₂.directory hloc)
  · exact .inr (.inl ⟨d, hsuffix, hdrawing⟩)
  · exact .inr (.inr ⟨f, hsuffix, hdrawing⟩)

theorem run_frame_drawn :
    let w : Workspace :=
      { tree := ⟨[(["v"], .file (.text "keep")), (["u"], .file (.text "u"))]⟩, program := .works }
    let done := Batch.run Workspace.disk {} { drawingPath := some "v" } "1" w
    ({} : Setup).grammar = .ok {} ∧ done.2.tree.fileAt? ["u"] = some (.text "u") ∧
      done.2.tree.fileAt? ["v"] = none := by
  intro w done
  have hdone : done = Batch.run Workspace.disk {} { drawingPath := some "v" } "1" w := rfl
  have hg : ({} : Setup).grammar = .ok {} := rfl
  obtain ⟨run, -, -, hframe, hdrawing⟩ := Batch.run_frame hg { drawingPath := some "v" } "1" w
  rw [hdone]
  refine ⟨hg, hframe.file ["u"] ?_, ?_⟩
  · have hformat : readFormat "svg" = .ok "svg" := by decide +kernel
    rintro path (hpath | ⟨base, hbase, rfl | ⟨f, lower, hf, hlower, rfl⟩⟩) hloc
    · cases hpath
    · cases hbase
      exact absurd hloc (by decide +kernel)
    · cases hbase
      cases hf
      cases hformat.symm.trans hlower
      exact absurd hloc (by decide +kernel)
  · obtain ⟨e, -, hsuffix, -⟩ | ⟨d, -, hprogram, -⟩ | ⟨f, -, -, hgone⟩ :=
      hdrawing "v" ["v"] rfl (by decide +kernel)
    · have hlast : done.1.prints.getLast? =
          some (.line .diagnostics "Wrote AST visualization to v.svg") := by decide +kernel
      obtain ⟨before, hprints⟩ := hsuffix
      rw [hdone, ← hprints] at hlast
      simp [drawingFailure, List.getLast?_append, Print.line] at hlast
      have hheads := congrArg (·.toList.head?) hlast
      simp only [String.append_assoc] at hheads
      rw [head?_append (by decide)] at hheads
      exact absurd hheads (by decide)
    · exact absurd rfl hprogram
    · exact hgone

/-- Exports do not leave all other files alone: the file at the path that a drawing was given is
lost. -/
theorem not_frame_drawing :
    ¬ ∀ (setup : Setup) (g : Grammar), setup.grammar = .ok g →
      ∀ (style : BatchStyle) (text : String) (w : Workspace) (q : Place),
        let done := Batch.run Workspace.disk setup style text w
        (∀ path, Batch.wanted style.dumpPath = some path → done.2.tree.locate path ≠ .ok q) →
        (∀ base f lower, Batch.wanted style.drawingPath = some base →
          style.drawingFormat = some f → readFormat f = .ok lower →
          done.2.tree.locate (Path.extended base lower) ≠ .ok q) →
        done.2.tree.fileAt? q = w.tree.fileAt? q := by
  intro h
  let w : Workspace := { tree := ⟨[(["v"], .file (.text "keep"))]⟩ }
  let style : BatchStyle := { drawingPath := some "v" }
  have hformat : readFormat "svg" = .ok "svg" := by decide +kernel
  have hkept := h {} {} rfl style "1" w ["v"] nofun fun base f lower hbase hf hlower => by
    cases hbase
    cases hf
    cases hformat.symm.trans hlower
    decide +kernel
  exact absurd hkept (by decide +kernel)

def wrote (s : String) : Print := .line .diagnostics ("Wrote AST " ++ s)

theorem Print.line_inj {c c' : Channel} {s s' : String} :
    Print.line c s = Print.line c' s' ↔ c = c' ∧ s = s' := by
  simp [Print.line]

theorem json_message (path : String) :
    Print.line .diagnostics s!"Wrote AST JSON to {path}" = wrote ("JSON to " ++ path) := by
  rw [wrote, ← String.append_assoc]
  rfl

theorem drawing_message (file : String) :
    Print.line .diagnostics s!"Wrote AST visualization to {file}" =
      wrote ("visualization to " ++ file) := by
  rw [wrote, ← String.append_assoc]
  rfl

theorem json_ne_drawing (path file : String) :
    "JSON to " ++ path ≠ "visualization to " ++ file := by
  intro h
  have hheads := congrArg (·.toList.head?) h
  simp only [head?_append (b := "JSON to ") (by decide),
    head?_append (b := "visualization to ") (by decide)] at hheads
  exact absurd hheads (by decide)

theorem wrote_inj {s s' : String} : wrote s = wrote s' ↔ s = s' := by
  simp [wrote, Print.line_inj]

theorem head?_wrote (s : String) : (wrote s).text.toList.head? = some 'W' := by
  have hbegins : (wrote s).text = "Wrote AST " ++ (s ++ "\n") := String.append_assoc
  rw [hbegins, head?_append (by decide)]
  rfl

theorem wrote_ne_of_head? {p : Print} (h : p.text.toList.head? ≠ some 'W') (s : String) :
    wrote s ≠ p := by
  rintro rfl
  exact h (head?_wrote s)

theorem wrote_ne {b : String} (hb : b ≠ "") (h : b.toList.head? ≠ some 'W') (s t : String) :
    wrote s ≠ .line .diagnostics (b ++ t) := by
  refine wrote_ne_of_head? ?_ s
  rwa [Print.line, String.append_assoc, head?_append hb]

theorem wrote_ne_output (s t : String) : wrote s ≠ .line .output t := by
  simp [wrote, Print.line_inj]

theorem wrote_notMem_report (s : String) (style : BatchStyle) (text : String)
    (events : List Event) : wrote s ∉ Batch.report style text events := by
  have houtcome : ∀ o : Outcome, wrote s ∉ o.report style.report := by
    intro o
    have herror := wrote_ne (b := "Error: ") (by decide) (by decide) s
    have hparsed := wrote_ne (b := "Parsed ") (by decide) (by decide) s
    have hstatus : wrote s ≠ .line .diagnostics o.kind.status := by
      cases o.kind with
      | definition => exact hparsed "a function definition"
      | external => exact hparsed "an extern"
      | expression => exact hparsed "a top-level expression"
    unfold Outcome.report
    split
    next d _ => exact fun hmem => herror d.shown (List.mem_singleton.1 hmem)
    next => simp [hstatus, wrote_ne_output]
  simp only [Batch.report, List.mem_append, List.mem_flatMap, not_or, not_exists, not_and]
  refine ⟨?_, fun o _ => houtcome o⟩
  split <;> simp [(wrote_ne_output s _).symm]

theorem wrote_notMem_drawingFailure (s path : String) {e : ExportError}
    (he : e.complaint = "" ∨ e.complaint = "dot: boom\n") :
    wrote s ∉ drawingFailure path e := by
  have hfailed := wrote_ne (b := "Failed to render AST visualization to ") (by decide) (by decide) s
    (path ++ (": " ++ e.message))
  rw [← String.append_assoc, ← String.append_assoc] at hfailed
  have hcomplaint : wrote s ≠ ⟨.diagnostics, e.complaint⟩ := by
    refine wrote_ne_of_head? ?_ s
    obtain h | h := he <;> rw [h] <;> decide
  simp only [drawingFailure, List.mem_cons, List.not_mem_nil, or_false, not_or]
  exact ⟨hcomplaint, hfailed⟩

theorem Dumped.wrote_mem {given : Option String} {trees : List Node} {w w' : Workspace}
    {prints : List Print} {s : String} (h : Dumped given trees w prints w')
    (hmem : wrote s ∈ prints) :
    ∃ path place, s = "JSON to " ++ path ∧ w'.tree.locate path = .ok place ∧
      Revised w.tree [(place, some (.text (dumpDocument trees).json))] w'.tree := by
  cases h with
  | unasked => simp at hmem
  | @failed path e =>
    have hfailed := wrote_ne (b := "Failed to write AST JSON to ") (by decide) (by decide) s
      (path ++ (": " ++ e.message))
    rw [← String.append_assoc, ← String.append_assoc] at hfailed
    exact absurd (List.mem_singleton.1 hmem) hfailed
  | @written path place tree hgiven hloc hrevised =>
    rw [dumpReport, json_message, List.mem_singleton, wrote_inj] at hmem
    exact ⟨path, place, hmem, hloc, hrevised⟩

theorem ExportError.complaint_eq {e : ExportError} (h : ∀ d, e ≠ .drawing d) :
    e.complaint = "" := by
  cases e with
  | drawing d => exact absurd rfl (h d)
  | noFormat | format | path => rfl

theorem Drawn.wrote_mem {given format : Option String} {trees : List Node} {w w' : Workspace}
    {prints : List Print} {s : String} (h : Drawn given format trees w prints w')
    (hmem : wrote s ∈ prints) :
    ∃ base f lower beside, Batch.wanted given = some base ∧ format = some f ∧
      readFormat f = .ok lower ∧ s = "visualization to " ++ Path.extended base f ∧
      w'.tree.locate (Path.extended base lower) = .ok beside ∧
      (w'.tree.find? beside = some .directory ∨ w'.tree.fileAt? beside =
        some (Workspace.picture base lower (drawingText trees))) := by
  have hwrote : ∀ base f : String,
      Print.line .diagnostics s!"Wrote AST visualization to {base}.{f}" =
        wrote ("visualization to " ++ Path.extended base f) := by
    intro base f
    rw [wrote, Path.extended, ← String.append_assoc, ← String.append_assoc, ← String.append_assoc]
    rfl
  cases h with
  | unasked => simp at hmem
  | refused _ he =>
    have hcomplaint := ExportError.complaint_eq he
    exact absurd hmem (wrote_notMem_drawingFailure s _ (.inl hcomplaint))
  | undrawn _ _ he => exact absurd hmem (wrote_notMem_drawingFailure s _ he)
  | @drawn base f lower _ beside _ hgiven hformat hf _ _ hbeside hne hrevised =>
    rw [hwrote, List.mem_singleton, wrote_inj] at hmem
    refine ⟨base, f, lower, beside, hgiven, hformat, hf, hmem, hbeside, .inr ?_⟩
    simp [hrevised.file, List.lookup_cons, beq_false_of_ne hne]
  | @obstructed base f lower _ beside _ hgiven hformat hf _ _ hbeside _ hdir =>
    rw [hwrote, List.mem_singleton, wrote_inj] at hmem
    exact ⟨base, f, lower, beside, hgiven, hformat, hf, hmem, hbeside, .inl hdir⟩

theorem wrote_mem_run {s : String} {style : BatchStyle} {text : String} {events : List Event}
    {dumped drawn : List Print}
    (h : wrote s ∈ Batch.report style text events ++ (dumped ++ drawn)) :
    wrote s ∈ dumped ∨ wrote s ∈ drawn := by
  obtain h | h := List.mem_append.1 h
  · exact absurd h (wrote_notMem_report s style text events)
  · exact List.mem_append.1 h

/-- What is said about files. Where the dump is said to be, it is, unless the drawing went through
the same place or to it. Where the drawing is said to be, it is if the format was given in lower
case; else it is where the format in lower case puts it, and another name was said. -/
theorem Batch.run_messages {setup : Setup} {g : Grammar} (hg : setup.grammar = .ok g)
    (style : BatchStyle) (text : String) (w : Workspace) :
    ∃ run, setup.Runs text run ∧
      let done := Batch.run Workspace.disk setup style text w
      let trees := Event.nodes run.events
      done.1.result = .ok (Event.outcomes run.events) ∧
      (∀ path, Print.line .diagnostics s!"Wrote AST JSON to {path}" ∈ done.1.prints →
        ∃ q, done.2.tree.locate path = .ok q ∧
          ((∀ drawing, DrawsAt style.drawingPath style.drawingFormat drawing →
              done.2.tree.locate drawing ≠ .ok q) →
            done.2.tree.read path = .ok (.text (dumpDocument trees).json))) ∧
      ∀ file, Print.line .diagnostics s!"Wrote AST visualization to {file}" ∈ done.1.prints →
        ∃ base f lower q, wanted style.drawingPath = some base ∧ style.drawingFormat = some f ∧
          readFormat f = .ok lower ∧ file = Path.extended base f ∧
          (file = Path.extended base lower ↔ f = lower) ∧
          done.2.tree.locate (Path.extended base lower) = .ok q ∧
          (done.2.tree.find? q ≠ some .directory →
            done.2.tree.read (Path.extended base lower) =
              .ok (Workspace.picture base lower (drawingText trees))) := by
  obtain ⟨run, dumped, w₁, drawn, w₂, hrun, hdumped, hdrawn, heq⟩ := run_spec hg style text w
  refine ⟨run, hrun, ?_⟩
  rw [heq]
  refine ⟨rfl, fun path hpath => ?_, fun file hfile => ?_⟩
  · rw [json_message] at hpath
    obtain hdump | hdraw := wrote_mem_run hpath
    · obtain ⟨path', q, hmessage, hloc, hrevised⟩ := hdumped.wrote_mem hdump
      rw [String.append_right_inj] at hmessage
      subst hmessage
      have hloc₂ := FileTree.locate_of_directories hdrawn.confined.directory hloc
      refine ⟨q, hloc₂, fun hother => FileTree.read_of_fileAt? hloc₂ ?_⟩
      rw [hdrawn.confined.file q hother, hrevised.file]
      simp
    · obtain ⟨_, _, _, _, _, _, _, hmessage, -⟩ := hdrawn.wrote_mem hdraw
      exact absurd hmessage (json_ne_drawing _ _)
  · rw [drawing_message] at hfile
    obtain hdump | hdraw := wrote_mem_run hfile
    · obtain ⟨_, _, hmessage, -⟩ := hdumped.wrote_mem hdump
      exact absurd hmessage.symm (json_ne_drawing _ _)
    · obtain ⟨base, f, lower, q, hgiven, hformat, hf, hmessage, hloc, hdrawing⟩ :=
        hdrawn.wrote_mem hdraw
      rw [String.append_right_inj] at hmessage
      subst hmessage
      refine ⟨base, f, lower, q, hgiven, hformat, hf, rfl, ?_, hloc, fun hdir => ?_⟩
      · simp [Path.extended]
      · exact FileTree.read_of_fileAt? hloc (hdrawing.resolve_left hdir)

theorem run_messages_png :
    let style : BatchStyle :=
      { dumpPath := some "j", drawingPath := some "d/v", drawingFormat := some "PNG" }
    let done := Batch.run Workspace.disk {} style "1" { tree := {}, program := .works }
    ({} : Setup).grammar = .ok {} ∧
    Print.line .diagnostics "Wrote AST JSON to j" ∈ done.1.prints ∧
    Print.line .diagnostics "Wrote AST visualization to d/v.PNG" ∈ done.1.prints ∧
    ∃ run, ({} : Setup).Runs "1" run ∧
      done.2.tree.read "j" = .ok (.text (dumpDocument (Event.nodes run.events)).json) ∧
      done.2.tree.read "d/v.png" =
        .ok (Workspace.picture "d/v" "png" (drawingText (Event.nodes run.events))) := by
  intro style done
  have hdone : done = Batch.run Workspace.disk {} style "1" { tree := {}, program := .works } := rfl
  have hg : ({} : Setup).grammar = .ok {} := rfl
  have hformat : readFormat "PNG" = .ok "png" := by decide +kernel
  obtain ⟨run, hrun, -, hjson, hpicture⟩ :=
    Batch.run_messages hg style "1" { tree := {}, program := .works }
  rw [hdone]
  refine ⟨hg, by decide +kernel, by decide +kernel, run, hrun, ?_, ?_⟩
  · obtain ⟨q, hq, hread⟩ := hjson "j" (by decide +kernel)
    refine hread ?_
    rintro path ⟨base, hbase, rfl | ⟨f, lower, hf, hlower, rfl⟩⟩ hloc
    · cases hbase
      rw [← hq] at hloc
      exact absurd hloc (by decide +kernel)
    · cases hbase
      cases hf
      cases hformat.symm.trans hlower
      rw [← hq] at hloc
      exact absurd hloc (by decide +kernel)
  · obtain ⟨base, f, lower, q, hbase, hf, hlower, -, -, hq, hread⟩ :=
      hpicture "d/v.PNG" (by decide +kernel)
    cases hbase
    cases hf
    cases hformat.symm.trans hlower
    refine hread fun hdir => ?_
    have hplace : Except.ok q = Except.ok ["d", "v.png"] := hq.symm.trans (by decide +kernel)
    cases hplace
    exact absurd hdir (by decide +kernel)

/-- Not every file that a drawing is said to be written to is there: the format is said as it was
given, and used in lower case. -/
theorem not_read_drawing :
    ¬ ∀ (setup : Setup) (g : Grammar), setup.grammar = .ok g →
      ∀ (style : BatchStyle) (text : String) (w : Workspace) (file : String),
        let done := Batch.run Workspace.disk setup style text w
        Print.line .diagnostics s!"Wrote AST visualization to {file}" ∈ done.1.prints →
          ∃ c, done.2.tree.read file = .ok c := by
  intro h
  let style : BatchStyle :=
    { report := ⟨false, false⟩, drawingPath := some "v", drawingFormat := some "SVG" }
  obtain ⟨c, hread⟩ := h {} {} rfl style "1" { tree := {}, program := .works } "v.SVG"
    (by decide +kernel)
  have hmissing : (Batch.run Workspace.disk {} style "1"
      { tree := {}, program := .works }).2.tree.read "v.SVG" = .error ⟨.missing, "v.SVG"⟩ := by
    decide +kernel
  cases hmissing.symm.trans hread

end Kaleidoscope
