import Mathlib.Data.List.Infix
import LlmkubeRuntimes.Lib.Steps
import LlmkubeRuntimes.Pins.Host

/-!
# The pins gate

`check_commits` of `pins_gate.py`, with what it calls.

* `Patches`: a patch directory with the contents of its files;
* `Image`: the pin file, the patch directories, the checkouts and the installed
  files the gate looks at;
* `Host.checkPatches`: `check_patches`;
* `Host.checkCommits`: `check_commits`.

A result is `none` if the source raises an exception that ends the gate.
-/

namespace LlmkubeRuntimes.Pins

open LlmkubeRuntimes.Lib (baseName isPySpace nul splitLines strip universalNewlines words)

def str (line : Line) : String := String.ofList line

/-- `sorted` of a set of paths. -/
def sortPaths (paths : List Line) : List String := sortNames (paths.eraseDups.map str)

/-- The quoted text of `repr`; characters that are not printed are kept as they are. -/
def repr (text : List Char) : String :=
  let quote := if '\'' ∈ text ∧ '"' ∉ text then '"' else '\''
  let body := text.flatMap fun c => if c = '\\' ∨ c = quote then ['\\', c] else [c]
  str (quote :: body ++ [quote])

/-! ## Patch directories with their contents -/

/-- `patches/<name>`: the directory, the contents of the files in it and the text of
every `APPLIED.md`, by the directory it is in. -/
structure Patches where
  dir : PatchDir
  read : File → Option Bytes
  applied : Line → Option (List Char)

/-- `p.relative_to(pdir)`. -/
def File.label : File → Option Line
  | own name => some name.toList
  | series dir path => some (dir.toList ++ '/' :: path)
  | absolute _ => none

/-- The directory part of a relative path. -/
def parentOf (path : Line) : Line := ['/'].intercalate (path.splitOn '/').dropLast

/-- A row of an `APPLIED.md`, less its `upstream`. -/
structure AppliedRow where
  file : Line
  marker : Line
  sha256 : String
  deriving DecidableEq, Repr

def appliedRow (line : Line) : Option AppliedRow :=
  match ((Lib.trim (· = '|') (strip line)).splitOn '|').map strip with
  | [file, _, _, _, _, _, marker, sha] =>
    if isPatch (str file) then some ⟨file, marker, str sha⟩ else none
  | _ => none

/-- `_applied_rows`; of two rows for one file the later one counts. -/
def appliedRows (text : List Char) : List AppliedRow :=
  ((splitLines text).filterMap appliedRow).reverse

def Patches.row (P : Patches) (label : Line) : Option AppliedRow :=
  match P.applied (parentOf label) with
  | some text => (appliedRows text).find? fun row => row.file = baseName label
  | none => none

/-- `DIFF_GIT` on one line: the second path. -/
def diffGit (line : Line) : Option Line :=
  if "diff --git a/".toList.isPrefixOf line then
    let rest := line.drop "diff --git a/".length
    let a := rest.takeWhile fun c => !isPySpace c
    let b := rest.drop (a.length + " b/".length)
    if a ≠ [] ∧ (rest.drop a.length).take " b/".length = " b/".toList ∧ b ≠ [] ∧ ¬ b.any isPySpace
    then some b else none
  else none

/-- The second paths of `DIFF_GIT.findall`. -/
def diffPaths (text : List Char) : List Line := (text.splitOn '\n').filterMap diffGit

namespace Host

variable (host : Host)

/-- What the loop over the patches takes from one of them. -/
structure Noted where
  errors : List String
  /-- The paths it touches, with its label. -/
  touched : List (Line × Line)
  markers : List Line
  shas : List String
  deriving DecidableEq

/-- The body of the loop over the patches. -/
def note (name : String) (P : Patches) (p : File) : Option Noted :=
  p.label.bind fun label =>
    match P.row label with
    | none =>
      let dir := str (parentOf (P.dir.name.toList ++ '/' :: label))
      some ⟨[s!"{name}: {str label} has no row in {dir}/APPLIED.md"], [], [], []⟩
    | some row => (P.read p).map fun bytes =>
      let got := host.sha256 bytes
      { errors :=
          if got ≠ row.sha256 then
            [s!"{name}: {str label} sha256 {got}, APPLIED.md records {row.sha256}"]
          else []
        touched := (diffPaths (host.decode bytes)).map fun path => (path, label)
        markers := [row.marker]
        shas := [got] }

/-- `git apply -R` of a patch file. -/
def reverse (P : Patches) (p : File) (files : Files) : Except String Files :=
  match P.read p with
  | some bytes => host.applyR bytes files
  | none => .error "git apply -R"

/-- The copy of the checkout once it is reset and the patches are reversed. -/
def restored (P : Patches) (patches : List File) (c : Checkout) : Except String Checkout :=
  match host.reset c with
  | .error e => .error e
  | .ok copy =>
    match Lib.applyAll (host.reverse P) patches.reverse copy.files with
    | .error e => .error e
    | .ok files => .ok { copy with files := files }

/-- `_status_paths`. -/
def changedPaths (c : Checkout) : List Line := statusPaths (statusText (host.status c))

def restoreErrors (name : String) (P : Patches) (patches : List File) (c : Checkout) :
    List String :=
  match host.restored P patches c with
  | .error e => [s!"{name}: reversing the carried patches does not restore the pin ({e})"]
  | .ok copy =>
    let left := " ".intercalate (sortPaths (host.changedPaths copy))
    if host.changedPaths copy ≠ [] then
      [s!"{name}: after reversing the carried patches, {left} still differ from the pin"]
    else []

/-- `check_patches`, on the checkout at `at`. -/
def checkPatches (name pdir checkout : String) (P : Patches) (c : Checkout) : Option Noted :=
  let carried := P.dir.carriedPatches name
  (carried.2.mapM (host.note name P)).map fun noted =>
    let touched := noted.flatMap (·.touched)
    let changed := host.changedPaths c
    let stray := sortPaths (changed.filter (· ∉ touched.map (·.1)))
    let absent := sortPaths ((touched.map (·.1)).filter (· ∉ changed))
    { errors := carried.1 ++ noted.flatMap (·.errors) ++
        (stray.map fun path =>
          s!"{name}: {checkout} changes {path}, which no carried patch in {pdir} touches") ++
        (absent.map fun path =>
          let source := ((touched.lookup path.toList).map str).getD "a recorded patch"
          s!"{name}: {checkout} does not carry {path}, which {source} changes") ++
        host.restoreErrors name P carried.2 c
      touched
      markers := noted.flatMap (·.markers)
      shas := noted.flatMap (·.shas) }

end Host

/-! ## The image -/

/-- What the gate looks at. -/
structure Image where
  /-- The paths of the patch, source and package trees. -/
  root : String
  src : String
  sitePath : String
  /-- The text of `UPSTREAM_COMMITS.txt`. -/
  pins : List Char
  /-- An environment variable; empty if it is not set. -/
  env : String → String
  /-- `patches/<name>`, if it is a directory. -/
  patches : String → Option Patches
  /-- `<src>/<name>`; an error if it is not a usable git checkout. -/
  checkout : String → Except String Checkout
  /-- The text of `<name>-build.txt`, if it is a file. -/
  build : String → Option (List Char)
  /-- The installed files. -/
  site : Files

/-- The patch directory of a pin that carries patches. -/
def Image.carried (img : Image) (name : String) : Option Patches :=
  (img.patches name).filter fun P => P.dir.patches "" ≠ [] ∨ P.dir.subdirs ≠ []

/-- `_rows`. -/
def rows (text : List Char) : List (List Line) :=
  ((splitLines text).filter fun line =>
    strip line ≠ [] ∧ (line.dropWhile isPySpace).head? ≠ some '#').map words

def isHex (n : Nat) (text : Line) : Bool :=
  text.length = n && text.all fun c => c.isDigit || ('a' ≤ c && c ≤ 'f')

/-- `COMMIT_ENV.get` -/
def commitEnv (name : String) : Option String :=
  if name = "vllm" then some "VLLM_FORK_COMMIT"
  else if name = "b12x" then some "B12X_COMMIT"
  else if name = "nccl" then some "NCCL_COMMIT"
  else none

def requiredCommits : List String := ["vllm", "b12x", "nccl"]

/-- `NATIVE.get` -/
def native (name : String) : Option String :=
  if name = "nccl" then some "nvidia/nccl/lib/libnccl.so.2" else none

/-- `origin_matches`. -/
def originMatches (origin repo : String) : Bool :=
  let o := (strip origin.toList).rdropWhile (· = '/')
  let o := if ".git".toList.isSuffixOf o then o.take (o.length - ".git".length) else o
  let prefixes := ["https://github.com/", "git@github.com:", "ssh://git@github.com/"]
  match prefixes.find? fun p => p.toList.isPrefixOf o with
  | some p => (o.drop p.length).map Char.toLower = repo.toList.map Char.toLower
  | none => false

namespace Host

variable (host : Host)

/-- `line.split(None, 1)` when it has two parts. -/
def field (line : Line) : Option (Line × Line) :=
  let line := line.dropWhile isPySpace
  let key := line.takeWhile fun c => !isPySpace c
  let value := (line.dropWhile fun c => !isPySpace c).dropWhile isPySpace
  if value = [] then none else some (key, value)

/-- `check_native_build`. -/
def checkNativeBuild (img : Image) (name lib commit : String) (shas : List String) :
    List String :=
  let record := s!"{img.root}/{name}-build.txt"
  match img.build name with
  | none => [s!"{name}: {record} missing; the {name}-build stage did not record what it built"]
  | some text =>
    -- of two lines with one key the later one counts
    let fields := ((splitLines text).filterMap field).reverse
    let get (key : String) : Option String := (fields.lookup key.toList).map str
    let shown (key : String) : String := (get key).getD "None"
    let recorded := shown "commit"
    let patches := shown "patches"
    let want := if shas = [] then "none" else ",".intercalate shas
    let errors :=
      (if get "commit" ≠ some commit then
        [s!"{name}: {record} records commit {recorded}, UPSTREAM_COMMITS pins {commit}"] else []) ++
      (if get "patches" ≠ some want then
        [s!"{name}: {record} records patches {patches}, patches/{name} carries {want}"] else [])
    let libSha := (get "lib").getD ""
    let short := libSha.toList.take 12
    if isHex 64 libSha.toList then
      errors ++ match img.site.lookup lib.toList with
        | none => [s!"{name}: {img.sitePath}/{lib} is not installed"]
        | some bytes =>
          if host.sha256 bytes ≠ libSha then
            [s!"{name}: installed {lib} is not the library the {name}-build stage recorded ({str short})"]
          else []
    else errors ++ [s!"{name}: {record} has no lib sha256"]

/-- Whether one of the files holds the marker. -/
def marked (files : Files) (paths : List Line) (marker : Line) : Bool :=
  paths.any fun path =>
    match files.lookup path with
    | some bytes => marker <:+: host.decode bytes
    | none => false

/-- The errors about one tracked path of the checkout. -/
def compare (img : Image) (name commit : String) (patched : Bool) (c : Checkout) (path : Line) :
    List String :=
  let short := str (commit.toList.take 12)
  match c.files.lookup path with
  | none => []
  | some bytes =>
    match img.site.lookup path with
    | none => [s!"{name}: {str path} is tracked at {short} but not installed in {img.sitePath}"]
    | some installed =>
      let suffix := if patched then " + carried patches" else ""
      if installed ≠ bytes then [s!"{name}: installed {str path} differs from {short}{suffix}"]
      else []

/-- `check_patches` if the pin carries patches, and otherwise only the check that no
tracked file is modified. -/
def checkCarried (img : Image) (name : String) (c : Checkout) : Option Noted :=
  let checkout := s!"{img.src}/{name}"
  match img.carried name with
  | some P => host.checkPatches name s!"{img.root}/patches/{name}" checkout P c
  | none =>
    let dirty := strip (host.statusTracked c)
    let list := " ".intercalate ((words dirty).map str)
    some
      { errors :=
          if dirty ≠ [] then [s!"{name}: {checkout} has modified tracked files: {list}"] else []
        touched := []
        markers := []
        shas := [] }

/-- The paths `_git` gives of `git ls-files`. -/
def trackedPaths (c : Checkout) (name : String) : List Line :=
  ((strip (universalNewlines (Lib.terminated (host.lsFiles c name)))).splitOn nul).filter (· ≠ [])

/-- The checks of an installed package against its checkout. -/
def checkInstalled (img : Image) (name commit : String) (c : Checkout) (carried : Noted) :
    List String :=
  let patched := carried.touched.map (·.1)
  let ours := patched.filter fun path => (name ++ "/").toList.isPrefixOf path
  let tracked := ((host.trackedPaths c name ++ ours).eraseDups).insertionSort fun a b => str a ≤ str b
  (if tracked = [] then
    [s!"{name}: no tracked {name}/*.py in {img.src}/{name}; the package layout changed"] else []) ++
  tracked.flatMap (compare img name commit (patched ≠ []) c) ++
  (carried.markers.filter fun marker => !host.marked img.site patched marker).map fun marker =>
    s!"{name}: carried patch marker {repr marker} is in none of the installed patched files"

/-- The checks of a native library against its build record. -/
def checkNative (img : Image) (name lib commit : String) (c : Checkout) (carried : Noted) :
    List String :=
  let patched := carried.touched.map (·.1)
  ((carried.markers.filter fun marker => !host.marked c.files patched marker).map fun marker =>
    s!"{name}: carried patch marker {repr marker} is in none of the patched source files") ++
  host.checkNativeBuild img name lib commit carried.shas

/-- The body of the loop over the rows of the pin file, for a well-formed row. -/
def checkPin (img : Image) (name repo commit : String) : Option (List String) :=
  let checkout := s!"{img.src}/{name}"
  let envErrors :=
    match commitEnv name with
    | some env =>
      let value := img.env env
      if value ≠ "" ∧ value ≠ commit then
        [s!"{name}: build ARG {env}={value} disagrees with UPSTREAM_COMMITS {commit}"]
      else []
    | none => []
  match img.checkout name with
  | .error e => some (envErrors ++ [s!"{name}: {checkout} is not a usable git checkout ({e})"])
  | .ok c =>
    if c.head ≠ commit then
      some (envErrors ++
        [s!"{name}: {checkout} is at {c.head}, UPSTREAM_COMMITS pins {commit} ({repo})"])
    else
      let originErrors :=
        if originMatches c.origin repo then []
        else [s!"{name}: {checkout} origin is {c.origin}, UPSTREAM_COMMITS pins repo {repo}"]
      (host.checkCarried img name c).map fun carried =>
        envErrors ++ originErrors ++ carried.errors ++
          match native name with
          | some lib => host.checkNative img name lib commit c carried
          | none => host.checkInstalled img name commit c carried

/-- The loop over the rows: its errors, and the pins in it. -/
def checkRow (img : Image) (row : List Line) : Option (List String × List (String × String)) :=
  match row with
  | [name, repo, commit] =>
    if isHex 40 commit then
      (host.checkPin img (str name) (str repo) (str commit)).map fun errors =>
        (errors, [(str name, str commit)])
    else some ([malformed row], [])
  | _ => some ([malformed row], [])
where
  malformed (row : List Line) : String :=
    let name := str (row.headD [])
    let line := repr ([' '].intercalate row)
    s!"{name}: malformed UPSTREAM_COMMITS line {line} (want: name repo <40-hex commit>)"

/-- `check_commits`. -/
def checkCommits (img : Image) : Option (List String × List (String × String)) :=
  ((rows img.pins).mapM (host.checkRow img)).map fun checked =>
    let pins := checked.flatMap (·.2)
    let missing := requiredCommits.filter fun name => name ∉ pins.map (·.1)
    (checked.flatMap (·.1) ++ missing.map fun name =>
      s!"{name}: no entry in UPSTREAM_COMMITS.txt; the image cannot be checked against a pin", pins)

end Host

end LlmkubeRuntimes.Pins
