import Mathlib.Data.Char
import Mathlib.Data.List.DropRight
import Mathlib.Data.List.Lex
import Mathlib.Data.List.Sort
import LlmkubeRuntimes.Lib.PyText

/-!
# Carried patches

The patch directory of a pin, and the two programs that put its patches in
order.

* `PatchDir`, `SeriesDir`, `File`: `patches/<name>` and what lies in it;
* `PatchDir.applyCarriedPatches`: `apply_carried_patches.sh`, in the C locale
  and with every `git apply` succeeding: the files it applies, in order, or
  `none` if it exits with an error;
* `PatchDir.carriedPatches`: `carried_patches` of the pins gate: its errors and
  its list of patches.

File names and series texts are sequences of characters. A list of patches
holds paths as `pathlib` normalises them, so that `./a.patch` and `a.patch` are
one file.
-/

namespace LlmkubeRuntimes.Pins

open LlmkubeRuntimes.Lib (isLineBreak isPySpace)

/-- A line of text, or a name in one. -/
abbrev Line := List Char

instance : LawfulBEq Line := inferInstance

/-- A file as it is named from a patch directory. -/
inductive File where
  /-- `<pdir>/<name>` -/
  | own (name : String)
  /-- `<pdir>/<dir>/<path>`, with `dir` a series directory -/
  | series (dir : String) (path : Line)
  | absolute (path : Line)
  deriving DecidableEq, Repr

/-- A subdirectory that holds a `series` file, with the text of that file. -/
structure SeriesDir where
  name : String
  series : String
  deriving DecidableEq, Repr

/-- The directory `patches/<name>`. -/
structure PatchDir where
  name : String
  /-- The subdirectories with a series, in any order. -/
  subdirs : List SeriesDir
  /-- The names in a subdirectory, in any order; those in the patch directory
  itself are `ls ""`. -/
  ls : String → List String
  /-- `[ -e … ]` -/
  there : File → Bool
  /-- `[ -f … ]`, `Path.is_file` -/
  isFile : File → Bool
  nodup : (subdirs.map (·.name)).Nodup
  noSlash : ∀ d ∈ subdirs, '/' ∉ d.name.toList

/-- Whether a name matches `*.patch`, a hidden one too. -/
def isPatch (name : String) : Bool := ".patch".toList.isSuffixOf name.toList

/-- Whether a shell pattern that starts with `*` can match the name. -/
def visible (name : String) : Bool := name.toList.head? ≠ some '.'

/-- A path without its empty and `.` components. -/
def normal (path : Line) : Line :=
  ['/'].intercalate ((path.splitOn '/').filter fun part => part ≠ [] ∧ part ≠ ['.'])

def File.normal : File → File
  | own name => own name
  | series dir path => series dir (Pins.normal path)
  | absolute path => absolute (Pins.normal path)

def sortNames (names : List String) : List String := names.insertionSort (· ≤ ·)

/-! ## The script -/

/-- What a command substitution keeps of a command's output: it drops NULs and
the newlines at the end. -/
def substitute (text : List Char) : List Char :=
  (text.filter (·.toNat ≠ 0)).rdropWhile (· = '\n')

/-- `[[:space:]]` in the C locale. -/
def isCSpace (c : Char) : Bool := (9 ≤ c.toNat && c.toNat ≤ 13) || c = ' '

/-- `s/#.*//` and then `s/[[:space:]]*$//` on one line. -/
def sed (line : Line) : Line := (line.takeWhile (· ≠ '#')).rdropWhile isCSpace

/-- `read -r f` on one line. -/
def read (line : Line) : Line := Lib.trim (fun c => c = ' ' || c = '\t') line

namespace SeriesDir

/-- `$sdir`, and `$sname` after it. -/
def sdir (d : SeriesDir) : String := String.ofList (substitute d.name.toList)

/-- The lines of `$listed`. -/
def listed (d : SeriesDir) : List Line :=
  ((((d.series.toList.splitOn '\n').map sed).filter (· ≠ [])).map
    (·.filter (·.toNat ≠ 0))).rdropWhile (· = [])

/-- The lines that `printf '%s\n' "$listed"` prints. -/
def printed (d : SeriesDir) : List Line := if d.listed = [] then [[]] else d.listed

/-- `sort | uniq -d` on the printed lines, up to order; blank lines leave `$dups`
empty. -/
def dups (d : SeriesDir) : List Line :=
  d.printed.filter fun line => 1 < d.printed.count line ∧ line ≠ []

/-- `grep -qxF -- "$(basename "$p")"` on the printed lines: every line of the
pattern is a pattern of its own. -/
def mentions (d : SeriesDir) (p : String) : Bool :=
  ((substitute p.toList).splitOn '\n').any (· ∈ d.printed)

/-- `$sdir/$f` for a line of the series. -/
def target (d : SeriesDir) (line : Line) : File := .series d.sdir (read line)

/-- The path by which the shell sorts the matches of `*/series`. -/
def globbed (d : SeriesDir) : String := d.name ++ "/series"

end SeriesDir

namespace PatchDir

/-- The files `<dir>/*.patch` that exist. -/
def globPatches (D : PatchDir) (dir : String) (file : String → File) : List String :=
  (sortNames ((D.ls dir).filter fun p => visible p && isPatch p)).filter fun p => D.there (file p)

/-- The body of the loop over series directories. -/
def applySeries (D : PatchDir) (d : SeriesDir) : Option (List File) :=
  if d.dups ≠ [] then none
  else if ∃ p ∈ D.globPatches d.sdir fun p => .series d.sdir p.toList, ¬ d.mentions p then none
  else d.listed.mapM fun line =>
    if D.isFile (d.target line) then some (d.target line).normal else none

/-- The series directories in the order the script visits them. -/
def globSeries (D : PatchDir) : List SeriesDir :=
  (D.subdirs.filter fun d => visible d.name).insertionSort fun d e => d.globbed ≤ e.globbed

/-- `apply_carried_patches.sh`. -/
def applyCarriedPatches (D : PatchDir) : Option (List File) :=
  (D.globSeries.mapM D.applySeries).map fun series =>
    (D.globPatches "" .own).map .own ++ series.flatten

end PatchDir

/-! ## The gate -/

namespace SeriesDir

/-- `_series_names`. A `\r\n` ends two lines here, and the empty one is dropped. -/
def seriesNames (d : SeriesDir) : List Line :=
  ((d.series.toList.splitOnP isLineBreak).map fun line =>
    Lib.trim isPySpace (line.takeWhile (· ≠ '#'))).filter (· ≠ [])

/-- `sdir / n`. -/
def child (d : SeriesDir) (n : Line) : File :=
  if n.head? = some '/' then (File.absolute n).normal else (File.series d.name n).normal

end SeriesDir

namespace PatchDir

/-- The files `<dir>/*.patch`, hidden ones too. -/
def patches (D : PatchDir) (dir : String) : List String := sortNames ((D.ls dir).filter isPatch)

/-- The body of the loop over series directories: the errors it adds and the
patches it adds. -/
def checkSeries (name : String) (D : PatchDir) (d : SeriesDir) : List String × List File :=
  let names := d.seriesNames
  let rel := s!"{D.name}/{d.name}/series"
  let dups := sortNames (((names.filter fun n => 1 < names.count n).eraseDups).map String.ofList)
  let unlisted := (D.patches d.name).filter fun p => p.toList ∉ names
  let missing := names.eraseDups.filter fun n => !D.isFile (d.child n)
  let present := names.eraseDups.filter fun n => D.isFile (d.child n)
  ((dups.map fun dup => s!"{name}: {rel} lists {dup} more than once") ++
    (unlisted.map fun p => s!"{name}: {d.name}/{p} is not listed in {rel}") ++
    missing.map fun n =>
      s!"{name}: {rel} lists {String.ofList n}, which is not in {d.name}/",
   present.map d.child)

/-- The series directories in the order the gate visits them. -/
def sortedSeries (D : PatchDir) : List SeriesDir :=
  D.subdirs.insertionSort fun d e => d.name ≤ e.name

/-- `carried_patches`. -/
def carriedPatches (name : String) (D : PatchDir) : List String × List File :=
  let checks := D.sortedSeries.map (checkSeries name D)
  (checks.flatMap (·.1), (D.patches "").map .own ++ checks.flatMap (·.2))

end PatchDir

end LlmkubeRuntimes.Pins
