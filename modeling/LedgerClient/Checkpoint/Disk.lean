import LedgerClient.Bytes

/-!
# A disk

Files and folders under their paths. A path with a slash needs the folder before its last slash.
A file is written or renamed only where no folder stands in its way.
-/

namespace LedgerClient

/-- What stands under a path. -/
inductive Node where
  | file (content : Bytes)
  | folder
  deriving DecidableEq, Repr

structure Disk where
  nodes : List (String × Node)
  deriving DecidableEq, Repr

namespace Disk

/-- Nothing on it. -/
def blank : Disk := ⟨[]⟩

/-- What stands under a path. -/
def node? (d : Disk) (path : String) : Option Node := (d.nodes.find? (·.1 = path)).map (·.2)

/-- Puts a node under a path, in place of what was there. -/
def put (d : Disk) (path : String) (n : Node) : Disk :=
  ⟨d.nodes.filter (·.1 ≠ path) ++ [(path, n)]⟩

/-- Takes away what stands under a path. -/
def erase (d : Disk) (path : String) : Disk := ⟨d.nodes.filter (·.1 ≠ path)⟩

/-- The folder that a path lies in, if it names one. -/
def parent? (path : String) : Option String :=
  match (path.toList.reverse.dropWhile (· ≠ '/')) with
  | [] => none
  | _ :: rest => some (String.ofList rest.reverse)

/-- Whether the folder that a path lies in is there. -/
def hasParent (d : Disk) (path : String) : Bool :=
  match parent? path with
  | none => true
  | some folder => d.node? folder = some .folder

/-- The folders that a path lies in, outermost first: what stands before each of its slashes. -/
def ancestors (path : String) : List String :=
  let cs := path.toList
  ((List.range cs.length).filter fun i => cs[i]? = some '/').map fun i => String.ofList (cs.take i)

/-- Whether a file stands where a path needs a folder. -/
def isBlocked (d : Disk) (path : String) : Bool :=
  (ancestors path).any fun folder =>
    match d.node? folder with
    | some (.file _) => true
    | _ => false

def write? (d : Disk) (path : String) (content : Bytes) : Option Disk :=
  if d.hasParent path && d.node? path ≠ some .folder then some (d.put path (.file content))
  else none

/-- Moves a file to another path, in place of a file that is there. -/
def rename? (d : Disk) (path target : String) : Option Disk :=
  match d.node? path with
  | some (.file content) => (d.erase path).write? target content
  | _ => none

/-- Makes a folder where nothing stands. -/
def makeFolder? (d : Disk) (path : String) : Option Disk :=
  if d.hasParent path && (d.node? path).isNone then some (d.put path .folder) else none

def delete? (d : Disk) (path : String) : Option Disk :=
  match d.node? path with
  | some (.file _) => some (d.erase path)
  | _ => none

/-- The names at the top, in order. -/
def topNames (d : Disk) : List String :=
  ((d.nodes.map (·.1)).filter fun p => (parent? p).isNone).mergeSort fun a b => a ≤ b

end Disk

end LedgerClient
