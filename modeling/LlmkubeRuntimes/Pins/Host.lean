import Mathlib.Data.Finmap
import LlmkubeRuntimes.Pins.Series

/-!
# What the pins gate asks of git

* `Files`, `Checkout`: a tree of files, and a git checkout;
* `StatusRecord`, `statusText`: the records of `git status --porcelain -z`, and
  the text they are printed as;
* `statusPaths`: `_status_paths` on that text, which `subprocess` reads with its line
  ends translated;
* `Host`: the programs and functions the gate calls. `Host.Documented` is what
  it relies on of them.
-/

namespace LlmkubeRuntimes.Pins

open LlmkubeRuntimes.Lib

abbrev Bytes := List UInt8

/-- What can be the path of a file. -/
def IsPath (path : Line) : Prop := path ≠ [] ∧ nul ∉ path

instance (path : Line) : Decidable (IsPath path) := by unfold IsPath; infer_instance

/-- Regular files by path. -/
@[ext]
structure Files where
  map : Finmap fun _ : Line => Bytes
  isPath : ∀ path ∈ map, IsPath path
  deriving DecidableEq

namespace Files

def lookup (path : Line) (files : Files) : Option Bytes := files.map.lookup path

instance : Membership Line Files := ⟨fun files path => path ∈ files.map⟩

instance (path : Line) (files : Files) : Decidable (path ∈ files) :=
  inferInstanceAs (Decidable (path ∈ files.map))

theorem lookup_eq_none {path : Line} {files : Files} : files.lookup path = none ↔ path ∉ files :=
  Finmap.lookup_eq_none

theorem ext_lookup {files files' : Files} (h : ∀ path, files.lookup path = files'.lookup path) :
    files = files' :=
  Files.ext (Finmap.ext_lookup h)

end Files

/-- A git checkout: the commit at `HEAD`, the URL of `origin`, the index and the work
tree. -/
structure Checkout where
  head : String
  origin : String
  index : Files
  files : Files
  deriving DecidableEq

/-! ## `git status` -/

/-- A record: the states in the index and in the work tree, the path and, for a rename
or a copy, the path it comes from. -/
structure StatusRecord where
  x : Char
  y : Char
  path : Line
  source : Option Line
  deriving DecidableEq, Repr

/-- The states of `git status --porcelain`. -/
def statusCodes : List Char := [' ', 'M', 'T', 'A', 'D', 'R', 'C', 'U', '?', '!']

namespace StatusRecord

/-- The entries a record is printed as. -/
def entries (r : StatusRecord) : List Line := (r.x :: r.y :: ' ' :: r.path) :: r.source.toList

/-- A record of the format: its states are letters of it, its paths have no NUL, and it has a
source exactly if one of the states is a rename or a copy. -/
def Written (r : StatusRecord) : Prop :=
  r.x ∈ statusCodes ∧ r.y ∈ statusCodes ∧ nul ∉ r.path ∧ (∀ s ∈ r.source, nul ∉ s) ∧
    (r.source.isSome ↔ r.x ∈ ['R', 'C'] ∨ r.y ∈ ['R', 'C'])

/-- A record git prints: its path names a file. -/
def Printed (r : StatusRecord) : Prop := r.Written ∧ r.path ≠ []

/-- A rename or copy in the work tree of a path whose index state is another. -/
def WorkTreeRename (r : StatusRecord) : Prop := r.y ∈ ['R', 'C'] ∧ r.x ∉ ['R', 'C']

end StatusRecord

/-- Standard output of `git status --porcelain -z`: every entry ends in a NUL. -/
def statusText (records : List StatusRecord) : List Char :=
  terminated (records.flatMap (·.entries))

/-- The loop over entries; `skip` is whether the next one is skipped. -/
def entryPaths : Bool → List Line → List Line
  | _, [] => []
  | true, _ :: entries => entryPaths false entries
  | false, entry :: entries =>
    if 3 < entry.length then
      entry.drop 3 :: entryPaths (entry.head? = some 'R' ∨ entry.head? = some 'C') entries
    else entryPaths false entries

/-- `_status_paths`, as a list. -/
def statusPaths (stdout : List Char) : List Line :=
  entryPaths false ((universalNewlines stdout).splitOn nul)

theorem ne_of_mem_statusCodes {c : Char} (h : c ∈ statusCodes) : c ≠ nul ∧ c ≠ '\r' := by
  constructor <;> rintro rfl <;> revert h <;> decide

/-- Only the path of a record can be read otherwise than it is printed. -/
theorem universalNewlines_entry {r : StatusRecord} (h : r.Written) :
    universalNewlines (r.x :: r.y :: ' ' :: r.path) =
      r.x :: r.y :: ' ' :: universalNewlines r.path := by
  rw [universalNewlines_cons (ne_of_mem_statusCodes h.1).2,
    universalNewlines_cons (ne_of_mem_statusCodes h.2.1).2, universalNewlines_cons (by decide)]

theorem nul_notMem_entries {records : List StatusRecord} (h : ∀ r ∈ records, r.Written) :
    ∀ e ∈ records.flatMap (·.entries), nul ∉ e := by
  intro e he
  obtain ⟨r, hr, he⟩ := List.mem_flatMap.1 he
  obtain ⟨hx, hy, hpath, hsource, -⟩ := h r hr
  simp only [StatusRecord.entries, List.mem_cons, Option.mem_toList] at he
  rcases he with rfl | he
  · have hspace : nul ≠ ' ' := by decide
    simp [(ne_of_mem_statusCodes hx).1.symm, (ne_of_mem_statusCodes hy).1.symm, hpath, hspace]
  · exact hsource e he

theorem statusPaths_eq {records : List StatusRecord} (h : ∀ r ∈ records, r.Written) :
    statusPaths (statusText records) =
      entryPaths false ((records.flatMap (·.entries)).map universalNewlines ++ [[]]) := by
  rw [statusPaths, statusText, universalNewlines_terminated, splitOn_terminated]
  intro e he
  obtain ⟨e', he', rfl⟩ := List.mem_map.1 he
  exact fun hnul => nul_notMem_entries h e' he' (nul_mem_universalNewlines.1 hnul)

/-- The entries of a record as they are read. -/
theorem map_entries {r : StatusRecord} (h : r.Written) : r.entries.map universalNewlines =
    (r.x :: r.y :: ' ' :: universalNewlines r.path) :: (r.source.map universalNewlines).toList := by
  rw [StatusRecord.entries, List.map_cons, universalNewlines_entry h]
  cases r.source <;> rfl

/-- No record goes unnoticed if there is one. -/
theorem statusPaths_eq_nil {records : List StatusRecord} (h : ∀ r ∈ records, r.Printed)
    (hnil : statusPaths (statusText records) = []) : records = [] := by
  rw [statusPaths_eq fun r hr => (h r hr).1] at hnil
  cases records with
  | nil => rfl
  | cons r records =>
    obtain ⟨hwritten, hpath⟩ := h r List.mem_cons_self
    have hlen : 0 < (universalNewlines r.path).length :=
      List.length_pos_of_ne_nil (mt universalNewlines_eq_nil.1 hpath)
    rw [List.flatMap_cons, List.map_append, map_entries hwritten] at hnil
    simp [entryPaths, hlen] at hnil

/-- A record whose rename, if it is one, is in the index is read as its path. -/
theorem entryPaths_entries {r : StatusRecord} (h : r.Printed) (hr : ¬ r.WorkTreeRename)
    (rest : List Line) : entryPaths false (r.entries.map universalNewlines ++ rest) =
      universalNewlines r.path :: entryPaths false rest := by
  obtain ⟨hwritten, hpath⟩ := h
  have hlen : 0 < (universalNewlines r.path).length :=
    List.length_pos_of_ne_nil (mt universalNewlines_eq_nil.1 hpath)
  have hrc : r.source.isSome ↔ r.x = 'R' ∨ r.x = 'C' := by
    have hy : r.y ∈ ['R', 'C'] → r.x ∈ ['R', 'C'] := fun hy => not_not.1 fun hx => hr ⟨hy, hx⟩
    rw [hwritten.2.2.2.2, or_iff_left_of_imp hy]
    simp
  rw [map_entries hwritten]
  cases hs : r.source with
  | none =>
    have hx : ¬ (r.x = 'R' ∨ r.x = 'C') := by simpa [hs] using hrc
    simp [entryPaths, hlen, hx]
  | some source =>
    have hx : r.x = 'R' ∨ r.x = 'C' := by simpa [hs] using hrc
    simp [entryPaths, hlen, hx]

/-- The paths of the records are read if no rename is in the work tree alone, each with its
line ends translated. -/
theorem statusPaths_records {records : List StatusRecord} (h : ∀ r ∈ records, r.Printed)
    (hrename : ∀ r ∈ records, ¬ r.WorkTreeRename) :
    statusPaths (statusText records) = records.map fun r => universalNewlines r.path := by
  rw [statusPaths_eq fun r hr => (h r hr).1]
  induction records with
  | nil => rfl
  | cons r records ih =>
    rw [List.flatMap_cons, List.map_append, List.append_assoc,
      entryPaths_entries (h r List.mem_cons_self) (hrename r List.mem_cons_self),
      ih (fun r' hr' => h r' (List.mem_cons_of_mem r hr'))
        fun r' hr' => hrename r' (List.mem_cons_of_mem r hr'), List.map_cons]

/-! ## The host -/

/-- What the gate calls: git, a hash and a decoder. -/
structure Host where
  /-- The files of a commit. -/
  tree : String → Files
  /-- Whether git ignores a path in a work tree, when it is not in the index. -/
  ignored : Files → Line → Bool
  /-- The paths a patch names: it reads and writes no others. -/
  names : Bytes → List Line
  /-- `git apply` -/
  apply : Bytes → Files → Except String Files
  /-- `git apply -R` -/
  applyR : Bytes → Files → Except String Files
  /-- `git reset -q` -/
  reset : Checkout → Except String Checkout
  /-- `git status --porcelain -z --untracked-files=all` -/
  status : Checkout → List StatusRecord
  /-- Standard output of `git status --porcelain --untracked-files=no`. -/
  statusTracked : Checkout → List Char
  /-- Whether `<name>/*.py` matches a path. -/
  pathspec : String → Line → Bool
  /-- The paths of `git ls-files -z -- <name>/*.py`, as git prints them. -/
  lsFiles : Checkout → String → List Line
  sha256 : Bytes → String
  /-- `bytes.decode(errors="replace")`, line ends translated. -/
  decode : Bytes → List Char

/-- What the gate relies on. -/
structure Host.Documented (host : Host) : Prop where
  /-- A reversed patch applies again, and gives back what it was reversed on. -/
  apply_applyR : ∀ p files files', host.applyR p files = .ok files' → host.apply p files' = .ok files
  /-- A patch changes only files it names. -/
  apply_frame : ∀ p files files', host.apply p files = .ok files' →
    ∀ path ∉ host.names p, files'.lookup path = files.lookup path
  /-- A patch does on the files it names the same without other files. -/
  apply_local : ∀ p (files sub files' : Files),
    (∀ path, sub.lookup path = files.lookup path ∨ sub.lookup path = none) →
    (∀ path ∈ host.names p, sub.lookup path = files.lookup path) →
    host.apply p files = .ok files' →
    ∃ sub', host.apply p sub = .ok sub' ∧
      ∀ path ∈ host.names p, sub'.lookup path = files'.lookup path
  /-- A reset moves the index to the commit. -/
  reset_eq : ∀ c c', host.reset c = .ok c' → c' = { c with index := host.tree c.head }
  printed : ∀ c, ∀ r ∈ host.status c, r.Printed
  /-- Status lists what differs between the commit, the index and the work tree. -/
  status_tracked : ∀ c path,
    c.index.lookup path ≠ (host.tree c.head).lookup path ∨
      path ∈ c.index ∧ c.files.lookup path ≠ c.index.lookup path →
    ∃ r ∈ host.status c, r.path = path ∨ r.source = some path
  /-- Status lists every untracked file that is not ignored. -/
  status_untracked : ∀ c path, path ∉ c.index → path ∈ c.files → host.ignored c.files path = false →
    ∃ r ∈ host.status c, r.path = path
  /-- So does status without untracked files. -/
  statusTracked_ne_nil : ∀ c path,
    c.index.lookup path ≠ (host.tree c.head).lookup path ∨
      path ∈ c.index ∧ c.files.lookup path ≠ c.index.lookup path →
    strip (host.statusTracked c) ≠ []
  lsFiles_mem : ∀ c name path, path ∈ host.lsFiles c name ↔
    path ∈ c.index ∧ host.pathspec name path = true

end LlmkubeRuntimes.Pins
