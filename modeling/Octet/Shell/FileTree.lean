import Octet.Shell.Path

/-!
The files of a system and how paths lead to them. A path is followed name by
name, from the root if it is absolute and from the working folder if it is not.
Every name before the last has to lead to a folder. Two dots lead to the folder
around, and the root is around itself. There are no links.

The system may also refuse to look into a folder, to read a file or to write
one, and then gives a reason of its own. Nothing is read or written in part.
-/

namespace Octet

/-- Why a file cannot be read or written. -/
inductive FileError where
  | notFound
  | notDirectory
  | isDirectory
  /-- The bytes of the file are not a text. -/
  | invalidText
  /-- The system refuses, for this reason. -/
  | refused (reason : String)
  deriving DecidableEq, Repr

def FileError.message : FileError → String
  | notFound => "No such file or directory (os error 2)"
  | notDirectory => "Not a directory (os error 20)"
  | isDirectory => "Is a directory (os error 21)"
  | invalidText => "stream did not contain valid UTF-8"
  | refused reason => reason

/-- Reading and writing texts at paths. -/
structure Files (m : Type → Type) where
  read : String → m (Except FileError String)
  write : String → String → m (Except FileError Unit)

inductive Entry where
  | folder
  | file (contents : List UInt8)
  deriving DecidableEq

def Entry.textOf (contents : List UInt8) : Except FileError String :=
  match String.fromUTF8? ⟨contents.toArray⟩ with
  | some text => .ok text
  | none => .error .invalidText

def Entry.bytesOf (text : String) : List UInt8 := text.toUTF8.data.toList

inductive Access where
  | search
  | read
  | write
  deriving DecidableEq, Repr

/-- Places are given by the names that lead to them from the root. -/
structure FileTree where
  entries : List (List String × Entry)
  /-- The place where paths start that are not absolute. -/
  working : List String
  /-- Why the system refuses access to a place, if it does. -/
  refusal? : Access → List String → Option String := fun _ _ => none

namespace FileTree

/-- What is at a place. The root is always there. -/
def find? (place : List String) (t : FileTree) : Option Entry :=
  if place = [] then some .folder else t.entries.lookup place

/-- Puts something at a place, instead of what was there. -/
def insert (place : List String) (entry : Entry) (t : FileTree) : FileTree :=
  { t with entries := (place, entry) :: t.entries.filter (·.1 ≠ place) }

def allow (t : FileTree) (access : Access) (place : List String) : Except FileError Unit :=
  match t.refusal? access place with
  | some reason => .error (.refused reason)
  | none => .ok ()

/-- Only from folders does a way go on. -/
def enter (t : FileTree) (place : List String) : Except FileError Unit :=
  match t.find? place with
  | none => .error .notFound
  | some (.file _) => .error .notDirectory
  | some .folder => t.allow .search place

/-- Follows one name from a place. -/
def step (t : FileTree) (here : List String) (name : String) :
    Except FileError (List String) := do
  t.enter here
  if name = "." then return here
  else if name = ".." then return here.dropLast
  else if (t.find? (here ++ [name])).isSome then return here ++ [name]
  else throw .notFound

def start (t : FileTree) (path : String) : List String :=
  if Path.isAbsolute path then [] else t.working

/-- Follows names from where a path starts. -/
def walk (t : FileTree) (path : String) (names : List String) : Except FileError (List String) :=
  names.foldlM t.step (t.start path)

def read (path : String) (t : FileTree) : Except FileError String := do
  if path = "" then throw .notFound
  let place ← t.walk path (Path.names path)
  match t.find? place with
  | some (.file contents) =>
      if Path.endsInSlash path then throw .notDirectory
      t.allow .read place
      Entry.textOf contents
  | _ =>
      t.allow .read place
      throw .isDirectory

/-- Writes a text to the file that a path leads to, which need not exist. -/
def write (path text : String) (t : FileTree) : Except FileError FileTree := do
  match (Path.names path).getLast? with
  | none => throw (if path = "" then .notFound else .isDirectory)
  | some name =>
      let here ← t.walk path (Path.names path).dropLast
      t.enter here
      if name = "." ∨ name = ".." ∨ Path.endsInSlash path then throw .isDirectory
      if t.find? (here ++ [name]) = some .folder then throw .isDirectory
      t.allow .write (here ++ [name])
      return t.insert (here ++ [name]) (.file (Entry.bytesOf text))

/-- A failure leaves the tree as it is. -/
def files : Files (StateM FileTree) where
  read path := modifyGet fun t => (t.read path, t)
  write path text := modifyGet fun t =>
    match t.write path text with
    | .ok after => (.ok (), after)
    | .error e => (.error e, t)

/-- Follows one name from a place, and puts a folder there if there is
nothing. -/
def makeFolder (t : FileTree) (here : List String) (name : String) : FileTree × List String :=
  if name = "." then (t, here)
  else if name = ".." then (t, here.dropLast)
  else
    let place := here ++ [name]
    (if (t.find? place).isSome then t else t.insert place .folder, place)

/-- Follows names, and puts a folder wherever there is nothing. -/
def makeFolders (names here : List String) (t : FileTree) : FileTree × List String :=
  names.foldl (fun (t, here) name => t.makeFolder here name) (t, here)

/-- Puts a file where a path leads, and the folders on the way. -/
def putFile (path : String) (contents : List UInt8) (t : FileTree) : FileTree :=
  let (t, here) := t.makeFolders (Path.names path).dropLast (t.start path)
  match (Path.names path).getLast? with
  | some name =>
      if name = "." ∨ name = ".." then t else t.insert (here ++ [name]) (.file contents)
  | none => t

/-- A tree with folders and files at paths. Of two files at one place the later
one is there. -/
def ofListing (working folders : List String) (files : List (String × List UInt8)) : FileTree :=
  let (bare, _) := makeFolders working [] { entries := [], working }
  let withFolders := folders.foldl
    (fun t path => (t.makeFolders (Path.names path) (t.start path)).1) bare
  files.foldl (fun t (path, contents) => t.putFile path contents) withFolders

/-- The files in the working folder, and in the folders in it, that are new or
hold other bytes than before. -/
def changes (before after : FileTree) : List (String × List UInt8) :=
  after.entries.filterMap fun (place, entry) =>
    match entry with
    | .folder => none
    | .file contents =>
        if before.find? place = some entry ∨ ¬ after.working.isPrefixOf place then none
        else some ("/".intercalate (place.drop after.working.length), contents)

end FileTree

end Octet
