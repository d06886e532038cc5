import Mathlib.Data.List.Sort
import LlmkubeRuntimes.Lib.Text

/-!
# The sysfs tree

What the exporter sees of `/sys`: files, directories and symbolic links.

* `Node`, `Entries`: a tree. In a well-formed one, the entries of every
  directory are in the order of their distinct names;
* `Node.find`: the node at a path, through links;
* `readTextFile`, `readDir`: `os.ReadFile` and `os.ReadDir` on a path;
* `Node.walk`: the leaves `filepath.WalkDir` visits; it does not follow links.
-/

namespace LlmkubeRuntimes.Exporter

mutual

inductive Node where
  /-- A file; `none` if it cannot be read. -/
  | file (content : Option String)
  /-- A directory; `listable` is whether its entries can be listed. -/
  | dir (listable : Bool) (entries : Entries)
  /-- A symbolic link, with what it leads to. -/
  | link (target : Node)
  /-- A symbolic link that leads nowhere. -/
  | broken

inductive Entries where
  | nil
  | cons (name : String) (node : Node) (rest : Entries)

end

namespace Entries

def names : Entries → List String
  | .nil => []
  | .cons name _ rest => name :: rest.names

def find? (name : String) : Entries → Option Node
  | .nil => none
  | .cons name' node rest => if name = name' then some node else rest.find? name

end Entries

mutual

def Node.WellFormed : Node → Prop
  | .file _ => True
  | .dir _ entries => entries.names.Pairwise (· < ·) ∧ entries.WellFormed
  | .link target => target.WellFormed
  | .broken => True

def Entries.WellFormed : Entries → Prop
  | .nil => True
  | .cons _ node rest => node.WellFormed ∧ rest.WellFormed

end

/-! ## Paths -/

/-- Why a path cannot be followed or listed; `os.IsNotExist` tells the two apart. -/
inductive PathError where
  | notExist
  | other
  deriving DecidableEq, Repr

namespace Node

/-- What a node is once its links are followed. -/
def resolve : Node → Node
  | .link target => target.resolve
  | .file content => .file content
  | .dir listable entries => .dir listable entries
  | .broken => .broken

/-- The node at a path below this one. -/
def find (node : Node) : List String → Except PathError Node
  | [] => .ok node
  | name :: path =>
    match node.resolve with
    | .dir _ entries =>
      match entries.find? name with
      | some child => child.find path
      | none => .error .notExist
    | .broken => .error .notExist
    | _ => .error .other

/-- `os.ReadFile` on the node itself. -/
def read (node : Node) : Option String :=
  match node.resolve with
  | .file content => content
  | _ => none

end Node

/-- The tree the exporter reads, and the last component of the resolved path of
each card's `device`. -/
structure Sysfs where
  root : Node
  slot : String → String
  wellFormed : root.WellFormed

namespace Sysfs

def readTextFile (fs : Sysfs) (path : List String) : Option String :=
  match fs.root.find path with
  | .ok node => node.read
  | .error _ => none

/-- The names in a directory, sorted. -/
def readDir (fs : Sysfs) (path : List String) : Except PathError (List String) :=
  match fs.root.find path with
  | .ok node =>
    match node.resolve with
    | .dir true entries => .ok entries.names
    | .broken => .error .notExist
    | _ => .error .other
  | .error e => .error e

end Sysfs

/-! ## Walking -/

mutual

/-- The leaves below a node of the given name, with what reading them gives. -/
def Node.walk (name : String) : Node → List (String × Option String)
  | .file content => [(name, content)]
  | .link target => [(name, target.read)]
  | .broken => [(name, none)]
  | .dir true entries => entries.walk
  | .dir false _ => []

def Entries.walk : Entries → List (String × Option String)
  | .nil => []
  | .cons name node rest => node.walk name ++ rest.walk

end

/-- The leaves below a path whose last component is `name`. -/
def Sysfs.walkDir (fs : Sysfs) (path : List String) (name : String) :
    List (String × Option String) :=
  match fs.root.find (path ++ [name]) with
  | .ok node => node.walk name
  | .error _ => []

/-! ## Well-formed trees -/

theorem Entries.WellFormed.find? {name : String} {node : Node} : ∀ {entries : Entries},
    entries.WellFormed → entries.find? name = some node → node.WellFormed
  | .nil, _, hf => by cases hf
  | .cons name' node' rest, h, hf => by
    rw [Entries.find?] at hf
    split at hf
    · cases hf
      exact h.1
    · exact Entries.WellFormed.find? h.2 hf

theorem Node.wellFormed_resolve : ∀ node : Node, node.WellFormed → node.resolve.WellFormed
  | .file _, _ => trivial
  | .dir _ _, h => h
  | .link target, h => Node.wellFormed_resolve target h
  | .broken, _ => trivial

theorem Node.WellFormed.find {node node' : Node} (h : node.WellFormed) {path : List String}
    (hf : node.find path = .ok node') : node'.WellFormed := by
  induction path generalizing node with
  | nil =>
    cases hf
    exact h
  | cons name path ih =>
    have hr := node.wellFormed_resolve h
    rw [Node.find] at hf
    split at hf
    next entries heq =>
      rw [heq] at hr
      split at hf
      next child hchild => exact ih (hr.2.find? hchild) hf
      next => cases hf
    next => cases hf
    next => cases hf

/-- **The names in a directory are distinct.** -/
theorem Sysfs.readDir_nodup (fs : Sysfs) {path : List String} {names : List String}
    (h : fs.readDir path = .ok names) : names.Nodup := by
  unfold Sysfs.readDir at h
  split at h
  next node hnode =>
    have hr := node.wellFormed_resolve (fs.wellFormed.find hnode)
    split at h
    next entries heq =>
      rw [heq] at hr
      cases h
      refine hr.1.imp fun {a b} hlt hab => ?_
      rw [hab] at hlt
      exact String.lt_irrefl b hlt
    next => cases h
    next => cases h
  next => cases h

end LlmkubeRuntimes.Exporter
