import Kaleidoscope.Files.Disk

/-! What operations do to a directory tree: some files change, each at the place that its path leads
to, directories may come and none goes. So a path that leads to a place goes on leading there. -/

set_option autoImplicit false

namespace Kaleidoscope

namespace FileTree

variable {tree tree' tree'' : FileTree} {place q : Place} {c : Contents}

def fileAt? (tree : FileTree) (place : Place) : Option Contents :=
  match tree.find? place with
  | some (.file c) => some c
  | _ => none

theorem find?_of_fileAt? (h : tree.fileAt? place = some c) :
    tree.find? place = some (.file c) := by
  unfold fileAt? at h
  split at h
  next hfile => rw [hfile, Option.some.inj h]
  next => cases h

/-- A change of a file: what it holds afterwards, or nothing if it is gone. -/
abbrev Change := Place × Option Contents

/-- Changes of files lead from a tree to another, the last change given first. -/
structure Revised (tree : FileTree) (changes : List Change) (tree' : FileTree) : Prop where
  directory : ∀ q, tree.find? q = some .directory → tree'.find? q = some .directory
  file : ∀ q, tree'.fileAt? q = (changes.lookup q).getD (tree.fileAt? q)

theorem Revised.refl (tree : FileTree) : Revised tree [] tree := ⟨fun _ h => h, fun _ => rfl⟩

theorem Revised.trans {old new : List Change} (h : Revised tree old tree')
    (h' : Revised tree' new tree'') : Revised tree (new ++ old) tree'' := by
  refine ⟨fun q hq => h'.directory q (h.directory q hq), fun q => ?_⟩
  rw [h'.file, h.file, List.lookup_append]
  cases new.lookup q <;> rfl

theorem Revised.file_eq {changes : List Change} (h : Revised tree changes tree')
    (hq : ∀ change ∈ changes, change.1 ≠ q) : tree'.fileAt? q = tree.fileAt? q := by
  have hnone : changes.lookup q = none := by
    rw [List.lookup_eq_none_iff]
    intro change hmem
    simpa using (hq change hmem).symm
  rw [h.file, hnone]
  rfl

theorem isUp_eq_false (h : tree.find? place ≠ some .directory) : isUp place = false := by
  rw [find?] at h
  cases hup : isUp place with
  | false => rfl
  | true => exact absurd (if_pos hup) h

theorem revised_put (h : tree.find? place ≠ some .directory) (c : Contents) :
    Revised tree [(place, some c)] (tree.put place (.file c)) := by
  have hfind := fun q => find?_put tree (.file c) q (isUp_eq_false h)
  constructor
  · intro q hq
    have hne : q ≠ place := fun e => h (e ▸ hq)
    rw [hfind, if_neg hne, hq]
  · intro q
    by_cases hq : q = place
    · simp [fileAt?, hfind, hq]
    · simp [fileAt?, hfind, hq, List.lookup_cons, beq_false_of_ne hq]

theorem revised_put_directory (h : tree.find? place = none) :
    Revised tree [] (tree.put place .directory) := by
  have hdir : tree.find? place ≠ some .directory := by simp [h]
  have hfind := fun q => find?_put tree .directory q (isUp_eq_false hdir)
  constructor
  · intro q hq
    rw [hfind, hq, ite_self]
  · intro q
    by_cases hq : q = place
    · simp [fileAt?, hfind, hq, h]
    · simp [fileAt?, hfind, hq]

theorem revised_erase (h : tree.find? place = some (.file c)) :
    Revised tree [(place, none)] (tree.erase place) := by
  have hdir : tree.find? place ≠ some .directory := by simp [h]
  have hfind := fun q => find?_erase tree q (isUp_eq_false hdir)
  constructor
  · intro q hq
    have hne : q ≠ place := by
      rintro rfl
      simp [h] at hq
    rw [hfind, if_neg hne, hq]
  · intro q
    by_cases hq : q = place
    · simp [fileAt?, hfind, hq]
    · simp [fileAt?, hfind, hq, List.lookup_cons, beq_false_of_ne hq]

theorem walk_of_directories (h : ∀ q, tree.find? q = some .directory →
    tree'.find? q = some .directory) {start : Place} {parts : List String}
    (hwalk : tree.walk start parts = .ok place) : tree'.walk start parts = .ok place := by
  induction parts generalizing start with
  | nil => exact hwalk
  | cons part parts ih =>
    rw [walk] at hwalk ⊢
    split at hwalk
    next hdir =>
      rw [h _ hdir]
      exact ih hwalk
    next => cases hwalk
    next => cases hwalk

theorem locate_of_directories (h : ∀ q, tree.find? q = some .directory →
    tree'.find? q = some .directory) {path : String} (hloc : tree.locate path = .ok place) :
    tree'.locate path = .ok place := by
  unfold locate at hloc ⊢
  split at hloc
  · cases hloc
  next hnul =>
  rw [if_neg hnul]
  split at hloc
  · cases hloc
  next habs =>
  rw [if_neg habs]
  exact walk_of_directories h hloc

theorem Revised.locate {changes : List Change} (h : Revised tree changes tree') {path : String}
    (hloc : tree.locate path = .ok place) : tree'.locate path = .ok place :=
  locate_of_directories h.directory hloc

theorem dropWhile_reverse_eq {cs : List Char} {p : Char → Bool}
    (h : cs.length ≤ (cs.reverse.dropWhile p).reverse.length) :
    (cs.reverse.dropWhile p).reverse = cs := by
  have hsuffix := List.dropWhile_suffix p (l := cs.reverse)
  rw [List.length_reverse] at h
  rw [hsuffix.eq_of_length_le (by simpa using h), List.reverse_reverse]

theorem revised_write {path text : String} (h : tree.write path text = .ok tree') :
    ∃ place, tree.locate path = .ok place ∧ tree.find? place ≠ some .directory ∧
      Revised tree [(place, some (.text text))] tree' := by
  unfold write at h
  simp only at h
  split at h
  · cases h
  next place hloc =>
  split at h
  · cases h
  next hlen =>
  rw [← String.length_toList] at hlen
  have hname : (path.toList.reverse.dropWhile (· == '/')).reverse = path.toList :=
    dropWhile_reverse_eq (Nat.not_lt.1 hlen)
  rw [hname, String.ofList_toList] at hloc
  refine ⟨place, hloc, ?_⟩
  unfold writeAt at h
  split at h
  · cases h
  next hdir =>
  cases h
  exact ⟨hdir, revised_put hdir _⟩

theorem read_of_fileAt? {path : String} (hloc : tree.locate path = .ok place)
    (hfile : tree.fileAt? place = some c) : tree.read path = .ok c := by
  rw [read, hloc]
  simp only [readAt, find?_of_fileAt? hfile]
  rfl

theorem remove_of_fileAt? {path : String} (hloc : tree.locate path = .ok place)
    (hfile : tree.fileAt? place = some c) : tree.remove path = .ok (tree.erase place) := by
  rw [remove, hloc]
  simp only [readAt, find?_of_fileAt? hfile]

def left : EStateM.Result PathError FileTree Unit → FileTree
  | .ok _ tree => tree
  | .error _ tree => tree

theorem find?_newPlace {parts : List String} (h : tree.newPlace parts = .ok place) :
    tree.find? place = none := by
  unfold newPlace at h
  cases hwalk : tree.walk [] parts.dropLast with
  | error f => rw [hwalk] at h; cases h
  | ok parent =>
    rw [hwalk] at h
    simp only [bind, Except.bind] at h
    split at h
    · cases h
    · cases h
    · split at h
      · cases h
      next hnew =>
      cases h
      simp only [Bool.or_eq_true, not_or] at hnew
      simpa using hnew.2

theorem revised_createDirectory (path : String) (tree : FileTree) :
    Revised tree [] (left (createDirectory path tree)) := by
  unfold createDirectory
  simp only
  split
  next place hplace =>
    refine revised_put_directory ?_
    split at hplace
    · cases hplace
    split at hplace
    · cases hplace
    exact find?_newPlace hplace
  next =>
    split <;> exact .refl tree

theorem revised_createDirectories (parts : List String) (tree : FileTree) :
    Revised tree [] (left (createDirectories parts tree)) := by
  induction parts generalizing tree with
  | nil => exact .refl tree
  | cons part parts ih =>
    by_cases hpart : part = ""
    · have hskip : createDirectories (part :: parts) = createDirectories parts := if_pos hpart
      rw [hskip]
      exact ih tree
    have hmake : createDirectories (part :: parts) = _ := if_neg hpart
    rw [hmake]
    simp only
    split
    · exact revised_createDirectory _ tree
    -- the last part is made in a tree that the parts before it have left
    have hcreate : ∀ t, Revised t [] (left ((if part = "." then pure ()
        else createDirectory (Path.ofParts (part :: parts).reverse) :
          EStateM PathError FileTree Unit) t)) := by
      intro t
      split
      · exact .refl t
      · exact revised_createDirectory _ t
    have hparents := ih tree
    split
    next t ht =>
      rw [ht] at hparents
      exact hparents.trans (hcreate t)
    next e t ht =>
      rw [ht] at hparents
      split
      · exact hparents.trans (hcreate t)
      · exact hparents

theorem revised_createParents (path : String) (tree : FileTree) :
    Revised tree [] (left (createParents path tree)) :=
  revised_createDirectories _ tree

end FileTree

namespace Path

theorem splitSlashes_of_notMem {cs : List Char} (h : '/' ∉ cs) : splitSlashes cs = [cs] := by
  induction cs with
  | nil => rfl
  | cons c cs ih =>
    rw [List.mem_cons, not_or] at h
    rw [splitSlashes, ih h.2]
    simp [Ne.symm h.1]

theorem splitSlashes_append (cs : List Char) {ext : List Char} (h : '/' ∉ ext) :
    ∃ init last, splitSlashes cs = init ++ [last] ∧
      splitSlashes (cs ++ ext) = init ++ [last ++ ext] := by
  induction cs with
  | nil => exact ⟨[], [], rfl, splitSlashes_of_notMem h⟩
  | cons c cs ih =>
    obtain ⟨init, last, hcs, hext⟩ := ih
    rw [List.cons_append, splitSlashes, splitSlashes, hcs, hext]
    by_cases hc : c = '/'
    · refine ⟨[] :: init, last, ?_, ?_⟩ <;> cases init <;> simp [hc]
    · cases init with
      | nil => exact ⟨[], c :: last, by simp [hc], by simp [hc]⟩
      | cons part parts => exact ⟨(c :: part) :: parts, last, by simp [hc], by simp [hc]⟩

def extended (path ext : String) : String := path ++ "." ++ ext

/-- An extension of a name: at least two characters, all of the same part, and none of them nul. -/
def IsExtension (ext : String) : Prop :=
  2 ≤ ext.length ∧ '/' ∉ ext.toList ∧ '\x00' ∉ ext.toList

theorem toList_extended (path ext : String) :
    (extended path ext).toList = path.toList ++ '.' :: ext.toList := by
  simp [extended]

variable {path ext : String}

theorem parts_extended (path : String) (h : IsExtension ext) :
    ∃ init last, parts path = init ++ [last] ∧
      parts (extended path ext) = init ++ [extended last ext] := by
  obtain ⟨-, hslash, -⟩ := h
  have hdot : '/' ∉ '.' :: ext.toList := by simp [hslash]
  obtain ⟨init, last, hpath, hext⟩ := splitSlashes_append path.toList hdot
  refine ⟨init.map String.ofList, String.ofList last, by simp [parts, hpath], ?_⟩
  have hlast : String.ofList (last ++ '.' :: ext.toList) = extended (String.ofList last) ext := by
    apply String.toList_injective
    simp [toList_extended]
  simp [parts, toList_extended, hext, hlast]

theorem isMalformed_extended (h : IsExtension ext) :
    isMalformed (extended path ext) = isMalformed path := by
  simp [isMalformed, toList_extended, h.2.2]

theorem isAbsolute_extended : isAbsolute (extended path ext) = isAbsolute path := by
  cases hpath : path.toList with
  | nil => simp [isAbsolute, toList_extended, hpath]
  | cons c cs => simp [isAbsolute, toList_extended, hpath]

theorem length_extended : (extended path ext).length = path.length + 1 + ext.length := by
  have hdot : ".".length = 1 := rfl
  simp [extended, hdot]

end Path

namespace FileTree

variable {tree : FileTree} {place start : Place} {path ext : String}

theorem walk_append_singleton {parts : List String} {part : String}
    (h : tree.walk start (parts ++ [part]) = .ok place) :
    ∃ parent, tree.walk start parts = .ok parent ∧ tree.find? parent = some .directory ∧
      place = step parent part := by
  induction parts generalizing start with
  | nil =>
    rw [List.nil_append, walk] at h
    split at h
    next hdir => exact ⟨start, rfl, hdir, (Except.ok.inj h).symm⟩
    next => cases h
    next => cases h
  | cons p parts ih =>
    rw [List.cons_append, walk] at h
    rw [walk]
    split at h
    next => exact ih h
    next => cases h
    next => cases h

theorem walk_singleton {parts : List String} {parent : Place} {part : String}
    (hwalk : tree.walk start parts = .ok parent) (hdir : tree.find? parent = some .directory) :
    tree.walk start (parts ++ [part]) = .ok (step parent part) := by
  induction parts generalizing start with
  | nil =>
    cases hwalk
    rw [List.nil_append, walk, hdir, walk]
  | cons p parts ih =>
    rw [walk] at hwalk
    rw [List.cons_append, walk]
    split at hwalk
    next => exact ih hwalk
    next => cases hwalk
    next => cases hwalk

theorem step_of_two_lt {part : String} (parent : Place) (h : 2 < part.length) :
    step parent part = parent ++ [part] := by
  have hempty : part ≠ "" := by rintro rfl; exact absurd h (by decide)
  have hdot : part ≠ "." := by rintro rfl; exact absurd h (by decide)
  have hdots : part ≠ ".." := by rintro rfl; exact absurd h (by decide)
  simp [step, hempty, hdot, hdots]

theorem step_ne_append {parent : Place} {part name : String} (hlong : 2 < name.length)
    (hname : part.length < name.length) : step parent part ≠ parent ++ [name] := by
  have hdots : ".." ≠ name := by rintro rfl; exact absurd hlong (by decide)
  have hpart : part ≠ name := by rintro rfl; exact absurd hname (Nat.lt_irrefl _)
  unfold step
  split
  · simp
  split
  · split
    · simpa using hdots
    · intro h
      have hlen := congrArg List.length h
      simp at hlen
  · simpa using hpart

/-- Where a path leads to a place, the file beside it has a place too, and another one. -/
theorem locate_extended (hext : Path.IsExtension ext) (h : tree.locate path = .ok place) :
    ∃ beside, tree.locate (Path.extended path ext) = .ok beside ∧ beside ≠ place := by
  obtain ⟨init, last, hparts, hbeside⟩ := Path.parts_extended path hext
  unfold locate at h ⊢
  rw [Path.isMalformed_extended hext, Path.isAbsolute_extended, hbeside]
  rw [hparts] at h
  split at h
  · cases h
  next hnul =>
  rw [if_neg hnul]
  split at h
  · cases h
  next habs =>
  rw [if_neg habs]
  obtain ⟨parent, hwalk, hdir, hplace⟩ := walk_append_singleton h
  have hlen : 2 < (Path.extended last ext).length := by
    rw [Path.length_extended]
    have := hext.1
    omega
  have hlast : last.length < (Path.extended last ext).length := by
    rw [Path.length_extended]
    omega
  refine ⟨_, walk_singleton hwalk hdir, ?_⟩
  rw [step_of_two_lt parent hlen, hplace]
  exact (step_ne_append hlen hlast).symm

theorem write_extended (hext : Path.IsExtension ext) {text : String}
    (hloc : tree.locate (Path.extended path ext) = .ok place)
    (hdir : tree.find? place ≠ some .directory) :
    ∃ tree', tree.write (Path.extended path ext) text = .ok tree' := by
  obtain ⟨hlen, hslash, -⟩ := hext
  have hrev : ((Path.extended path ext).toList.reverse.dropWhile (· == '/')).reverse =
      (Path.extended path ext).toList := by
    rw [Path.toList_extended, List.reverse_append, List.reverse_cons, List.append_assoc]
    have hnone : ∀ c ∈ ext.toList.reverse, c ≠ '/' := by
      rintro c hc rfl
      exact hslash (List.mem_reverse.1 hc)
    cases hcs : ext.toList.reverse with
    | nil => simp [← String.length_toList, List.reverse_eq_nil_iff.1 hcs] at hlen
    | cons c cs =>
      have hc : c ≠ '/' := hnone c (by simp [hcs])
      have hback : ext.toList = cs.reverse ++ [c] := by simpa using congrArg List.reverse hcs
      simp [hc, hback]
  unfold write
  simp only [hrev, String.ofList_toList, hloc, writeAt, String.length_toList, Nat.lt_irrefl,
    if_false]
  exact ⟨_, rfl⟩

end FileTree

theorem isExtension_of_readFormat {format lower : String} (h : readFormat format = .ok lower) :
    Path.IsExtension lower := by
  have hall : ∀ f ∈ diagramFormats, 2 ≤ f.length ∧ '/' ∉ f.toList ∧ '\x00' ∉ f.toList := by decide
  unfold readFormat at h
  simp only at h
  split at h
  next hmem =>
    cases h
    exact hall _ (List.contains_iff_mem.1 hmem)
  next => cases h

end Kaleidoscope
