import Kaleidoscope.Files.Path
import Kaleidoscope.Text.Utf8

/-! Directory trees. A file is known by the names on the way to it from the top; a path is a way
of asking for one, with empty parts, dots and double dots allowed. Above the top there are only
directories, known by double dots, until something is written there. -/

set_option autoImplicit false

namespace Kaleidoscope

inductive Contents where
  | text (s : String)
  | bytes (b : List UInt8)
  deriving DecidableEq, Repr

def Contents.decode : Contents → Except Text.Utf8Error String
  | .text s => .ok s
  | .bytes b => Text.decodeUtf8 b

inductive Entry where
  | directory
  | file (c : Contents)
  deriving DecidableEq, Repr

abbrev Place := List String

structure FileTree where
  entries : List (Place × Entry) := []
  deriving DecidableEq, Repr

namespace FileTree

/-- Is this the top or above it? -/
def isUp (place : Place) : Bool := place.all (· == "..")

def find? (tree : FileTree) (place : Place) : Option Entry :=
  if isUp place then some .directory else tree.entries.lookup place

def putEntry (place : Place) (entry : Entry) : List (Place × Entry) → List (Place × Entry)
  | [] => [(place, entry)]
  | e :: es => if e.1 = place then (place, entry) :: es else e :: putEntry place entry es

def put (tree : FileTree) (place : Place) (entry : Entry) : FileTree :=
  ⟨putEntry place entry tree.entries⟩

def erase (tree : FileTree) (place : Place) : FileTree :=
  ⟨tree.entries.filter (·.1 != place)⟩

theorem find?_put (tree : FileTree) {place : Place} (entry : Entry) (q : Place)
    (h : isUp place = false) :
    (tree.put place entry).find? q = if q = place then some entry else tree.find? q := by
  obtain ⟨entries⟩ := tree
  by_cases hq : isUp q = true
  · have : q ≠ place := fun e => by simp [e, h] at hq
    simp [find?, hq, this]
  · simp only [find?, put, hq, Bool.false_eq_true, if_false]
    induction entries with
    | nil =>
      by_cases e : q = place
      · subst e; simp [putEntry]
      · simp [putEntry, List.lookup_cons, beq_false_of_ne e, e]
    | cons x xs ih =>
      obtain ⟨k, v⟩ := x
      by_cases hk : k = place
      · subst hk
        by_cases e : q = k
        · subst e; simp [putEntry]
        · simp [putEntry, List.lookup_cons, beq_false_of_ne e, e]
      · simp only [putEntry, hk, if_false, List.lookup_cons]
        by_cases e : q = k
        · subst e; simp [hk]
        · simp [beq_false_of_ne e, ih]

theorem find?_erase (tree : FileTree) {place : Place} (q : Place) (h : isUp place = false) :
    (tree.erase place).find? q = if q = place then none else tree.find? q := by
  obtain ⟨entries⟩ := tree
  by_cases hq : isUp q = true
  · have : q ≠ place := fun e => by simp [e, h] at hq
    simp [find?, hq, this]
  · simp only [find?, erase, hq, Bool.false_eq_true, if_false]
    induction entries with
    | nil => simp
    | cons x xs ih =>
      obtain ⟨k, v⟩ := x
      by_cases hk : k = place
      · have : (k != place) = false := by simp [hk]
        simp only [List.filter_cons, this, List.lookup_cons]
        by_cases e : q = place
        · simpa [e] using ih
        · subst hk; simpa [beq_false_of_ne e, e] using ih
      · have : (k != place) = true := by simp [hk]
        simp only [List.filter_cons, this, if_true, List.lookup_cons]
        by_cases e : q = k
        · subst e; simp [hk]
        · simp [beq_false_of_ne e, ih]

def step (place : Place) (part : String) : Place :=
  if part = "" ∨ part = "." then place
  else if part = ".." then if isUp place then place ++ [".."] else place.dropLast
  else place ++ [part]

/-- Follows the parts of a path. Each one has to be asked of a directory. -/
def walk (tree : FileTree) (place : Place) : List String → Except PathFault Place
  | [] => .ok place
  | part :: parts =>
    match tree.find? place with
    | some .directory => walk tree (step place part) parts
    | some (.file _) => .error .notDirectory
    | none => .error .missing

/-- Nothing outside the tree is known. -/
def locate (tree : FileTree) (path : String) : Except PathFault Place :=
  if Path.isMalformed path then .error .malformed
  else if Path.isAbsolute path then .error .missing
  else tree.walk [] (Path.parts path)

def readAt (tree : FileTree) (place : Place) : Except PathFault Contents :=
  match tree.find? place with
  | some (.file c) => .ok c
  | some .directory => .error .isDirectory
  | none => .error .missing

def read (tree : FileTree) (path : String) : Except PathError Contents :=
  match tree.locate path with
  | .error f => .error ⟨f, path⟩
  | .ok place => (tree.readAt place).mapError (⟨·, path⟩)

def writeAt (tree : FileTree) (place : Place) (text : String) : Except PathFault FileTree :=
  match tree.find? place with
  | some .directory => .error .isDirectory
  | _ => .ok (tree.put place (.file (.text text)))

/-- A path that ends in a slash asks for a directory, whether there is one or not. -/
def write (tree : FileTree) (path text : String) : Except PathError FileTree :=
  let name := (path.toList.reverse.dropWhile (· == '/')).reverse
  match tree.locate (String.ofList name) with
  | .error f => .error ⟨f, path⟩
  | .ok place =>
    if name.length < path.length then .error ⟨.isDirectory, path⟩
    else (tree.writeAt place text).mapError (⟨·, path⟩)

def remove (tree : FileTree) (path : String) : Except PathError FileTree :=
  match tree.locate path with
  | .error f => .error ⟨f, path⟩
  | .ok place =>
    match tree.readAt place with
    | .error f => .error ⟨f, path⟩
    | .ok _ => .ok (tree.erase place)

def entryAt? (tree : FileTree) (path : String) : Option Entry :=
  (tree.locate path).toOption.bind tree.find?

/-- The place where the last of the given parts would be made. Dots stand for what is there. -/
def newPlace (tree : FileTree) (parts : List String) : Except PathFault Place := do
  let parent ← tree.walk [] parts.dropLast
  match tree.find? parent with
  | none => throw .missing
  | some (.file _) => throw .notDirectory
  | some .directory =>
    let place := parent ++ [parts.getLast?.getD "."]
    if ["", ".", ".."].contains (parts.getLast?.getD ".") || (tree.find? place).isSome then
      throw .present
    return place

/-- Makes one directory, or finds it there already. -/
def createDirectory (path : String) : EStateM PathError FileTree Unit := fun tree =>
  let place :=
    if Path.isMalformed path then .error .malformed
    else if Path.isAbsolute path then .error .missing
    else tree.newPlace (Path.parts path)
  match place with
  | .ok place => .ok () (tree.put place .directory)
  | .error fault =>
    if tree.entryAt? path = some .directory then .ok () tree
    else .error ⟨fault, path⟩ tree

/-- Makes the directory with the given parts, the last one first, and before it the directories on
the way, unless they are there. A file in the way is passed over until something is made in it. -/
def createDirectories : List String → EStateM PathError FileTree Unit
  | [] => pure ()
  | part :: parts =>
    if part = "" then createDirectories parts
    else fun tree =>
      let path := Path.ofParts (part :: parts).reverse
      let parent := Path.ofParts (parts.dropWhile (·.isEmpty)).reverse
      if parent = "" ∨ (tree.entryAt? parent).isSome then createDirectory path tree
      else
        let create : EStateM PathError FileTree Unit :=
          if part = "." then pure () else createDirectory path
        match createDirectories parts tree with
        | .ok () tree => create tree
        | .error e tree => if e.fault = .present then create tree else .error e tree

def createParents (path : String) : EStateM PathError FileTree Unit :=
  createDirectories (Path.parts path).reverse.tail

def build (files : List (String × Contents)) (directories : List String) : FileTree :=
  let create (parts : List String) (tree : FileTree) : FileTree :=
    match createDirectories parts.reverse tree with
    | .ok () tree => tree
    | .error _ tree => tree
  let addFile (tree : FileTree) (file : String × Contents) : FileTree :=
    (create (Path.parts file.1).dropLast tree).put (Path.parts file.1) (.file file.2)
  files.foldl addFile (directories.foldl (fun tree path => create (Path.parts path) tree) {})

def files (tree : FileTree) : List (String × Contents) :=
  (tree.entries.filter (·.1.head? != some "..")).filterMap fun (place, entry) =>
    match entry with
    | .file c => some (Path.ofParts place, c)
    | .directory => none

/-- The files that an earlier tree lacks, or holds with another text. -/
def changes (before after : FileTree) : List (String × Contents) :=
  after.files.filter fun (path, c) =>
    match before.read path with
    | .ok old => old.decode.toOption != c.decode.toOption
    | .error _ => true

end FileTree

end Kaleidoscope
