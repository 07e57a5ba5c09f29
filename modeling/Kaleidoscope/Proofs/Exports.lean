import Kaleidoscope.Proofs.Decoding
import Kaleidoscope.Proofs.Invocation
import Kaleidoscope.Proofs.Revisions

/-! What exports do to the files. The dump is one file, where its path leads. A drawing goes through
a file at the path that it was given, without the extension, and only a program that works turns
that file into the one beside it. -/

set_option autoImplicit false

namespace Kaleidoscope

open FileTree (Revised fileAt? Change)

namespace Workspace

variable {w : Workspace} {path text lower : String} {place : Place}

theorem createParents_spec (path : String) (w : Workspace) :
    ∃ tree, Revised w.tree [] tree ∧ (disk.createParents path w = (.ok (), { w with tree }) ∨
      ∃ e, disk.createParents path w = (.error e, { w with tree })) := by
  have hrevised := FileTree.revised_createParents path w.tree
  simp only [disk, createParents]
  cases h : FileTree.createParents path w.tree with
  | ok _ tree =>
    rw [h] at hrevised
    exact ⟨tree, hrevised, .inl rfl⟩
  | error e tree =>
    rw [h] at hrevised
    exact ⟨tree, hrevised, .inr ⟨e, rfl⟩⟩

theorem write_spec (path text : String) (w : Workspace) :
    (∃ e, disk.write path text w = (.error e, w)) ∨
      ∃ place tree, w.tree.locate path = .ok place ∧
        Revised w.tree [(place, some (.text text))] tree ∧
        disk.write path text w = (.ok (), { w with tree }) := by
  simp only [disk, update]
  cases h : w.tree.write path text with
  | error e => exact .inl ⟨e, rfl⟩
  | ok tree =>
    obtain ⟨place, hloc, -, hrevised⟩ := FileTree.revised_write h
    exact .inr ⟨place, tree, hloc, hrevised, rfl⟩

theorem remove_spec {c : Contents} (hloc : w.tree.locate path = .ok place)
    (hfile : w.tree.fileAt? place = some c) :
    ∃ tree, Revised w.tree [(place, none)] tree ∧
      disk.remove path w = (.ok (), { w with tree }) := by
  refine ⟨_, FileTree.revised_erase (FileTree.find?_of_fileAt? hfile), ?_⟩
  simp only [disk, update, FileTree.remove_of_fileAt? hloc hfile]

theorem draw_failing (order : DrawingOrder) (h : w.program ≠ .works) :
    ∃ e, (e.complaint = "" ∨ e.complaint = "dot: boom\n") ∧
      disk.draw order w = (.error e, w) := by
  simp only [disk, draw]
  cases hprogram : w.program with
  | absent => exact ⟨_, .inl rfl, rfl⟩
  | fails => exact ⟨_, .inr rfl, rfl⟩
  | works => exact absurd hprogram h

def picture (path lower dot : String) : Contents := .text (drawn ⟨path, lower⟩ dot)

theorem draw_working (h : w.program = .works) (hext : Path.IsExtension lower) {dot : String}
    (hloc : w.tree.locate path = .ok place)
    (hfile : w.tree.fileAt? place = some (.text dot)) :
    ∃ beside tree, w.tree.locate (Path.extended path lower) = .ok beside ∧ beside ≠ place ∧
      (Revised w.tree [(beside, some (picture path lower dot))] tree ∨
        tree = w.tree ∧ w.tree.find? beside = some .directory) ∧
      disk.draw ⟨path, lower⟩ w = (.ok (), { w with tree }) := by
  obtain ⟨beside, hbeside, hne⟩ := FileTree.locate_extended hext hloc
  have hdraw : disk.draw ⟨path, lower⟩ w = (.ok (), { w with
      tree := (w.tree.write (Path.extended path lower)
        (drawn ⟨path, lower⟩ dot)).toOption.getD w.tree }) := by
    simp only [disk, draw, h, FileTree.read_of_fileAt? hloc hfile]
    rfl
  refine ⟨beside, _, hbeside, hne, ?_, hdraw⟩
  cases hwrite : w.tree.write (Path.extended path lower) (drawn ⟨path, lower⟩ dot) with
  | error e =>
    refine .inr ⟨rfl, ?_⟩
    by_contra hdir
    obtain ⟨tree, htree⟩ := FileTree.write_extended hext hbeside hdir
    rw [hwrite] at htree
    cases htree
  | ok tree =>
    obtain ⟨place', hplace', -, hrevised⟩ := FileTree.revised_write hwrite
    rw [hbeside] at hplace'
    cases hplace'
    exact .inl hrevised

theorem draw_remove (h : w.program = .works) (hext : Path.IsExtension lower) {dot : String}
    (hloc : w.tree.locate path = .ok place) (hfile : w.tree.fileAt? place = some (.text dot)) :
    ∃ beside tree w₁, tree.locate path = .ok place ∧
      tree.locate (Path.extended path lower) = .ok beside ∧ beside ≠ place ∧
      (Revised w.tree [(place, none), (beside, some (picture path lower dot))] tree ∨
        tree.find? beside = some .directory ∧ Revised w.tree [(place, none)] tree) ∧
      disk.draw ⟨path, lower⟩ w = (.ok (), w₁) ∧
      disk.remove path w₁ = (.ok (), { w with tree }) := by
  obtain ⟨beside, tree₁, hbeside, hne, h₁, hdraw⟩ := draw_working h hext hloc hfile
  obtain h₁ | ⟨rfl, hdir⟩ := h₁
  · have hkept : tree₁.fileAt? place = some (.text dot) := by
      simp [h₁.file, List.lookup_cons, beq_false_of_ne hne.symm, hfile]
    obtain ⟨tree, h₂, hremove⟩ := remove_spec (w := { w with tree := tree₁ }) (h₁.locate hloc) hkept
    exact ⟨beside, tree, _, h₂.locate (h₁.locate hloc), h₂.locate (h₁.locate hbeside), hne,
      .inl (h₁.trans h₂), hdraw, hremove⟩
  · obtain ⟨tree, h₂, hremove⟩ := remove_spec hloc hfile
    exact ⟨beside, tree, _, h₂.locate hloc, h₂.locate hbeside, hne,
      .inr ⟨h₂.directory _ hdir, h₂⟩, hdraw, hremove⟩

end Workspace

/-- What asking for a dump prints and does. -/
inductive Dumped (given : Option String) (trees : List Node) (w : Workspace) :
    List Print → Workspace → Prop where
  | unasked : Batch.wanted given = none → Dumped given trees w [] w
  | failed {path : String} {e : PathError} : Batch.wanted given = some path →
      Dumped given trees w [dumpReport path (.error e)] w
  | written {path : String} {place : Place} {tree : FileTree} :
      Batch.wanted given = some path → tree.locate path = .ok place →
      Revised w.tree [(place, some (.text (dumpDocument trees).json))] tree →
      Dumped given trees w [dumpReport path (.ok ())] { w with tree }

/-- What asking for a drawing prints and does. It may be refused before a file is touched; or the
DOT text is written, and stays if there is no drawing of it. -/
inductive Drawn (given format : Option String) (trees : List Node) (w : Workspace) :
    List Print → Workspace → Prop where
  | unasked : Batch.wanted given = none → Drawn given format trees w [] w
  | refused {path : String} {e : ExportError} {tree : FileTree} :
      Batch.wanted given = some path → (∀ d, e ≠ .drawing d) → Revised w.tree [] tree →
      Drawn given format trees w (drawingFailure path e) { w with tree }
  | undrawn {path : String} {e : DrawingError} {place : Place} {tree : FileTree} :
      Batch.wanted given = some path → w.program ≠ .works →
      e.complaint = "" ∨ e.complaint = "dot: boom\n" → tree.locate path = .ok place →
      Revised w.tree [(place, some (.text (drawingText trees)))] tree →
      Drawn given format trees w (drawingFailure path (.drawing e)) { w with tree }
  | drawn {path f lower : String} {place beside : Place} {tree : FileTree} :
      Batch.wanted given = some path → format = some f → readFormat f = .ok lower →
      w.program = .works → tree.locate path = .ok place →
      tree.locate (Path.extended path lower) = .ok beside → beside ≠ place →
      Revised w.tree [(place, none),
        (beside, some (Workspace.picture path lower (drawingText trees))),
        (place, some (.text (drawingText trees)))] tree →
      Drawn given format trees w
        [.line .diagnostics s!"Wrote AST visualization to {path}.{f}"] { w with tree }
  | obstructed {path f lower : String} {place beside : Place} {tree : FileTree} :
      Batch.wanted given = some path → format = some f → readFormat f = .ok lower →
      w.program = .works → tree.locate path = .ok place →
      tree.locate (Path.extended path lower) = .ok beside → beside ≠ place →
      tree.find? beside = some .directory →
      Revised w.tree [(place, none), (place, some (.text (drawingText trees)))] tree →
      Drawn given format trees w
        [.line .diagnostics s!"Wrote AST visualization to {path}.{f}"] { w with tree }

section

variable {σ ε α : Type} {x : StateM σ (Except ε Unit)} {wrap : ε → ExportError} {s s' : σ}

theorem orThrow_bind (x : StateM σ (Except ε Unit)) (wrap : ε → ExportError)
    (rest : ExceptT ExportError (StateM σ) α) (s : σ) :
    (do (liftM x : ExceptT ExportError (StateM σ) _) >>= drawTo.orThrow wrap; rest).run s =
      match x s with
      | (.ok (), s') => rest.run s'
      | (.error e, s') => (.error (wrap e), s') := by
  simp only [bind, ExceptT.bind, ExceptT.mk, ExceptT.run, StateT.bind, liftM, monadLift,
    MonadLift.monadLift, ExceptT.lift, Functor.map, StateT.map]
  rcases x s with ⟨e | ⟨⟩, s'⟩ <;> rfl

theorem orThrow_bind_ok (hx : x s = (.ok (), s')) (rest : ExceptT ExportError (StateM σ) α) :
    (do (liftM x : ExceptT ExportError (StateM σ) _) >>= drawTo.orThrow wrap; rest).run s =
      rest.run s' := by
  rw [orThrow_bind, hx]

theorem orThrow_bind_error {e : ε} (hx : x s = (.error e, s'))
    (rest : ExceptT ExportError (StateM σ) α) :
    (do (liftM x : ExceptT ExportError (StateM σ) _) >>= drawTo.orThrow wrap; rest).run s =
      (.error (wrap e), s') := by
  rw [orThrow_bind, hx]

theorem orThrow_ok (hx : x s = (.ok (), s')) :
    ((liftM x : ExceptT ExportError (StateM σ) _) >>= drawTo.orThrow wrap).run s =
      (.ok (), s') := by
  rw [← bind_pure (liftM x >>= drawTo.orThrow wrap)]
  exact orThrow_bind_ok hx (pure ())

variable {disk : Disk (StateM σ)} {path f : String} {trees : List Node}

theorem draw_of_ok (h : (drawTo disk path f trees).run s = (.ok (), s')) :
    draw disk path (some f) trees s =
      ([.line .diagnostics s!"Wrote AST visualization to {path}.{f}"], s') := by
  simp only [draw, bind, StateT.bind, h]
  rfl

theorem draw_of_error {e : ExportError} (h : (drawTo disk path f trees).run s = (.error e, s')) :
    draw disk path (some f) trees s = (drawingFailure path e, s') := by
  simp only [draw, bind, StateT.bind, h]
  rfl

end

open Workspace in
theorem draw_spec {given : Option String} {path : String} (hgiven : Batch.wanted given = some path)
    (f : String) (trees : List Node) (w : Workspace) :
    ∃ prints w', Drawn given (some f) trees w prints w' ∧
      draw disk path (some f) trees w = (prints, w') := by
  -- one case for each operation that may fail; what was done before it stays
  cases hf : readFormat f with
  | error e =>
    have hrun : (drawTo disk path f trees).run w = (.error (.format e), w) := by
      rw [drawTo, hf]
      rfl
    refine ⟨_, w, .refused hgiven ?_ (.refl w.tree), draw_of_error hrun⟩
    simp
  | ok lower =>
  have hext := isExtension_of_readFormat hf
  obtain ⟨tree₁, h₁, hparents | ⟨e, hparents⟩⟩ := createParents_spec path w
  case inr =>
    have hrun : (drawTo disk path f trees).run w =
        (.error (.path e), { w with tree := tree₁ }) := by
      rw [drawTo, hf]
      exact orThrow_bind_error hparents _
    refine ⟨_, _, .refused hgiven ?_ h₁, draw_of_error hrun⟩
    simp
  obtain ⟨e, hwrite⟩ | ⟨place, tree₂, hloc, h₂, hwrite⟩ :=
    write_spec path (drawingText trees) { w with tree := tree₁ }
  · have hrun : (drawTo disk path f trees).run w =
        (.error (.path e), { w with tree := tree₁ }) := by
      rw [drawTo, hf]
      exact (orThrow_bind_ok hparents _).trans (orThrow_bind_error hwrite _)
    refine ⟨_, _, .refused hgiven ?_ h₁, draw_of_error hrun⟩
    simp
  have h₁₂ := h₁.trans h₂
  replace hloc := h₂.locate hloc
  by_cases hprogram : w.program = .works
  · have hfile : tree₂.fileAt? place = some (.text (drawingText trees)) := by
      simp [h₁₂.file]
    obtain ⟨beside, tree, w₃, hloc, hbeside, hne, h₃, hdraw, hremove⟩ :=
      draw_remove (w := { w with tree := tree₂ }) hprogram hext hloc hfile
    have hrun : (drawTo disk path f trees).run w = (.ok (), { w with tree }) := by
      rw [drawTo, hf]
      exact (orThrow_bind_ok hparents _).trans ((orThrow_bind_ok hwrite _).trans
        ((orThrow_bind_ok hdraw _).trans (orThrow_ok hremove)))
    refine ⟨_, { w with tree }, ?_, draw_of_ok hrun⟩
    obtain h₃ | ⟨hdir, h₃⟩ := h₃
    · exact .drawn hgiven rfl hf hprogram hloc hbeside hne (h₁₂.trans h₃)
    · exact .obstructed hgiven rfl hf hprogram hloc hbeside hne hdir (h₁₂.trans h₃)
  · obtain ⟨e, he, hdraw⟩ := draw_failing (w := { w with tree := tree₂ }) ⟨path, lower⟩ hprogram
    have hrun : (drawTo disk path f trees).run w =
        (.error (.drawing e), { w with tree := tree₂ }) := by
      rw [drawTo, hf]
      exact (orThrow_bind_ok hparents _).trans
        ((orThrow_bind_ok hwrite _).trans (orThrow_bind_error hdraw _))
    exact ⟨_, _, .undrawn hgiven hprogram he hloc h₁₂, draw_of_error hrun⟩

namespace Batch

section

variable {m : Type → Type} [Monad m]

def dumpAsked (disk : Disk m) (given : Option String) (trees : List Node) : m (List Print) :=
  match wanted given with
  | some path => do return [← dump disk path trees]
  | none => pure []

def drawAsked (disk : Disk m) (given format : Option String) (trees : List Node) :
    m (List Print) :=
  match wanted given with
  | some path => draw disk path format trees
  | none => pure []

theorem exports_eq [LawfulMonad m] (disk : Disk m) (style : BatchStyle) (trees : List Node) :
    exports disk style trees = (do
      let dumped ← dumpAsked disk style.dumpPath trees
      let drawn ← drawAsked disk style.drawingPath style.drawingFormat trees
      return dumped ++ drawn) := by
  unfold exports dumpAsked drawAsked
  cases wanted style.dumpPath <;> cases wanted style.drawingPath <;> simp

end

theorem drawAsked_spec (given format : Option String) (trees : List Node) (w : Workspace) :
    ∃ prints w', Drawn given format trees w prints w' ∧
      drawAsked Workspace.disk given format trees w = (prints, w') := by
  unfold drawAsked
  cases hgiven : wanted given with
  | none => exact ⟨[], w, .unasked hgiven, rfl⟩
  | some path =>
    cases format with
    | none =>
      refine ⟨_, w, .refused hgiven ?_ (.refl w.tree), rfl⟩
      simp
    | some f => exact draw_spec hgiven f trees w

theorem dumpAsked_spec (given : Option String) (trees : List Node) (w : Workspace) :
    ∃ prints w', Dumped given trees w prints w' ∧
      dumpAsked Workspace.disk given trees w = (prints, w') := by
  unfold dumpAsked
  cases hgiven : wanted given with
  | none => exact ⟨[], w, .unasked hgiven, rfl⟩
  | some path =>
    obtain ⟨e, hwrite⟩ | ⟨place, tree, hloc, hrevised, hwrite⟩ :=
      Workspace.write_spec path (dumpDocument trees).json w
    · refine ⟨[dumpReport path (.error e)], w, .failed hgiven, ?_⟩
      simp only [dump_eq, bind, StateT.bind, hwrite]
      rfl
    · refine ⟨_, _, .written hgiven (hrevised.locate hloc) hrevised, ?_⟩
      simp only [dump_eq, bind, StateT.bind, hwrite]
      rfl

/-- A batch runs the whole text, and then it dumps and draws what parsed. -/
theorem run_spec {setup : Setup} {g : Grammar} (hg : setup.grammar = .ok g)
    (style : BatchStyle) (text : String) (w : Workspace) :
    ∃ run dumped w₁ drawn w₂, setup.Runs text run ∧
      Dumped style.dumpPath (Event.nodes run.events) w dumped w₁ ∧
      Drawn style.drawingPath style.drawingFormat (Event.nodes run.events) w₁ drawn w₂ ∧
      Batch.run Workspace.disk setup style text w =
        (⟨report style text run.events ++ (dumped ++ drawn), .ok (Event.outcomes run.events)⟩,
          w₂) := by
  obtain ⟨run, hrun⟩ := Setup.exists_runs hg text
  obtain ⟨dumped, w₁, hdumped, hdump⟩ := dumpAsked_spec style.dumpPath (Event.nodes run.events) w
  obtain ⟨drawn, w₂, hdrawn, hdraw⟩ :=
    drawAsked_spec style.drawingPath style.drawingFormat (Event.nodes run.events) w₁
  refine ⟨run, dumped, w₁, drawn, w₂, hrun, hdumped, hdrawn, ?_⟩
  rw [run_of_ok Workspace.disk hrun.1, exports_eq]
  simp only [Functor.map, StateT.map, bind, StateT.bind, hdump, hdraw]
  rfl

end Batch

end Kaleidoscope
