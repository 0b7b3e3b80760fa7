import ProvenanceTrail.Hosting.Services
/-!
# Folders of bundles

The bundles that a service hosts itself are files of a folder: every entry whose name ends in `.json`,
with something before that, in ascending order of names.
-/

namespace ProvenanceTrail

/-- An entry of a folder: a file with its text, or a folder. -/
inductive FolderEntry where
  | file (text : String)
  | folder (entries : List (String × FolderEntry))

/-- The entries of a folder, by name. -/
abbrev Folder := List (String × FolderEntry)

/-- Why files could not be loaded: the entry of a name cannot be read, or is not what it should be. -/
inductive LoadError where
  | unreadable (name : String)
  | malformed (name : String)
deriving DecidableEq, Repr

namespace Folder

/-- The part of a name after its last point, if something stands before that. -/
def extension? (name : String) : Option String :=
  let backwards := name.toList.reverse
  let ending := backwards.takeWhile (· != '.')
  match backwards.drop ending.length with
  | '.' :: _ :: _ => some (String.ofList ending.reverse)
  | _ => none

/-- The entries that should hold bundles, in ascending order of names. -/
def bundleEntries (f : Folder) : Folder :=
  (f.filter fun e => extension? e.1 == some "json").mergeSort fun a b => !(b.1 < a.1)

/-- Reads the bundle of an entry. -/
def loadEntry (entry : String × FolderEntry) : Except LoadError HostedBundle :=
  match entry.2 with
  | .folder _ => .error (.unreadable entry.1)
  | .file text =>
    match Json.readText? HostedBundle.form HostedBundle.ofJson? text with
    | some bundle => .ok bundle
    | none => .error (.malformed entry.1)

/-- Reads the bundles of a folder, up to the first that fails. -/
def loadBundles (f : Folder) : Except LoadError (List HostedBundle) :=
  (bundleEntries f).mapM loadEntry

/-- Follows the steps of a path from an entry, below other entries. An empty step and `.` stay, `..`
goes up, a name goes down. Nothing is below a file. -/
def walk (above : List FolderEntry) (here : FolderEntry) : List String → Option FolderEntry
  | [] => some here
  | step :: rest =>
    match here with
    | .file _ => none
    | .folder entries =>
      if step == "" || step == "." then walk above here rest
      else if step == ".." then
        match above with
        | [] => none
        | parent :: above => walk above parent rest
      else
        match Text.meaning? entries step with
        | none => none
        | some entry => walk (here :: above) entry rest

/-- The steps of a path. -/
def steps (path : String) : List String := (path.toList.splitOn '/').map String.ofList

/-- The name of what a path leads to. -/
def nameOf (path : String) : String :=
  ((steps path).filter fun s => s != "" && s != ".").getLastD ""

/-- The folder that a path leads to. -/
def folder? (f : Folder) (path : String) : Except LoadError Folder :=
  match walk [] (.folder f) (steps path) with
  | some (.folder entries) => .ok entries
  | _ => .error (.unreadable (nameOf path))

/-- The text of the file that a path leads to. -/
def text? (f : Folder) (path : String) : Except LoadError String :=
  match walk [] (.folder f) (steps path) with
  | some (.file text) => .ok text
  | _ => .error (.unreadable (nameOf path))

end Folder

end ProvenanceTrail
