import LlmkubeRuntimes.Lib.Traverse
import LlmkubeRuntimes.Pins.Gate

/-!
# What a clean verdict of the pins gate means

When `check_commits` returns no errors.

* `Host.FromPin`: the checkout of a pin comes from the commit by the carried
  patches;
* `Host.Installed`: the installed files are those of the checkout.
-/

namespace LlmkubeRuntimes.Pins

open LlmkubeRuntimes.Lib

theorem sortPaths_eq_nil {paths : List Line} : sortPaths paths = [] ↔ paths = [] := by
  unfold sortPaths sortNames
  rw [← List.length_eq_zero_iff, List.length_insertionSort, List.length_eq_zero_iff,
    List.map_eq_nil_iff]
  cases paths with
  | nil => simp
  | cons path paths => simp [List.eraseDups_cons]

namespace Host

variable (host : Host)

/-- `git apply` of a patch file. -/
def applyFile (P : Patches) (p : File) (files : Files) : Except String Files :=
  match P.read p with
  | some bytes => host.apply bytes files
  | none => .error "git apply"

/-- The carried patches applied to a tree, in order. -/
def applyStack (P : Patches) (name : String) (files : Files) : Except String Files :=
  Lib.applyAll (host.applyFile P) (P.dir.carriedPatches name).2 files

/-- The files of `tree`, and others that git ignores. -/
def Extends (base tree : Files) : Prop :=
  ∀ path, base.lookup path = tree.lookup path ∨
    path ∉ tree ∧ host.ignored base path = true

/-- The paths the carried patches touch. -/
def Touched (P : Patches) (name : String) (path : Line) : Prop :=
  ∃ p ∈ (P.dir.carriedPatches name).2, ∃ bytes, P.read p = some bytes ∧
    path ∈ diffPaths (host.decode bytes)

variable {host} (hd : host.Documented)
include hd

theorem applyFile_reverse {P : Patches} {p : File} {files files' : Files}
    (h : host.reverse P p files = .ok files') : host.applyFile P p files' = .ok files := by
  unfold reverse at h
  unfold applyFile
  cases hread : P.read p with
  | none =>
    rw [hread] at h
    cases h
  | some bytes =>
    rw [hread] at h
    exact hd.apply_applyR _ _ _ h

/-- If the reversed patches leave a checkout on which status finds nothing, the patches
lead from the commit, with ignored files beside it, to the checkout. -/
theorem restored_clean {P : Patches} {name : String} {c copy : Checkout}
    (h : host.restored P (P.dir.carriedPatches name).2 c = .ok copy)
    (hclean : host.changedPaths copy = []) :
    host.Extends copy.files (host.tree c.head) ∧
      host.applyStack P name copy.files = .ok c.files := by
  unfold restored at h
  split at h
  · cases h
  · rename_i reset hreset
    obtain rfl := hd.reset_eq _ _ hreset
    split at h
    · cases h
    · rename_i files hfiles
      cases h
      have hnil := statusPaths_eq_nil (hd.printed _) hclean
      have htracked := hd.status_tracked { c with index := host.tree c.head, files := files }
      have huntracked := hd.status_untracked { c with index := host.tree c.head, files := files }
      refine ⟨fun path => ?_, ?_⟩
      · by_cases hpath : path ∈ host.tree c.head
        · refine .inl (by_contra fun hne => ?_)
          obtain ⟨r, hr, -⟩ := htracked path (.inr ⟨hpath, hne⟩)
          rw [hnil] at hr
          cases hr
        by_cases hfile : path ∈ files
        · refine .inr ⟨hpath, ?_⟩
          by_contra hignored
          obtain ⟨r, hr, -⟩ := huntracked path hpath hfile (by simpa using hignored)
          rw [hnil] at hr
          cases hr
        · rw [← Files.lookup_eq_none] at hpath hfile
          exact .inl (hfile.trans hpath.symm)
      · have hback : ∀ p ∈ (P.dir.carriedPatches name).2, ∀ files files',
            host.reverse P p files = .ok files' → host.applyFile P p files' = .ok files :=
          fun _ _ _ _ => applyFile_reverse hd
        exact Lib.applyAll_of_undoAll hback hfiles

/-- The stack does to the commit's own files what it does to the commit with ignored files
beside it, if no patch names one of those. -/
theorem applyStack_local {P : Patches} {name : String} {base tree files : Files}
    (hbase : host.Extends base tree)
    (hnames : ∀ p ∈ (P.dir.carriedPatches name).2, ∀ bytes, P.read p = some bytes →
      ∀ path ∈ host.names bytes, path ∈ base → path ∈ tree)
    (h : host.applyStack P name base = .ok files) :
    ∃ patched, host.applyStack P name tree = .ok patched ∧
      ∀ path, files.lookup path = patched.lookup path ∨
        path ∉ patched ∧ path ∉ tree ∧ host.ignored base path = true := by
  let Extra (path : Line) : Prop := path ∈ base ∧ path ∉ tree ∧ host.ignored base path = true
  let r (files sub : Files) : Prop := ∀ path,
    sub.lookup path = files.lookup path ∨ sub.lookup path = none ∧ Extra path
  have hstart : r base tree := by
    intro path
    rcases hbase path with heq | ⟨htree, hignored⟩
    · exact .inl heq.symm
    · by_cases hpath : path ∈ base
      · exact .inr ⟨Files.lookup_eq_none.2 htree, hpath, htree, hignored⟩
      · exact .inl (by rw [Files.lookup_eq_none.2 htree, Files.lookup_eq_none.2 hpath])
  have hstep : ∀ p ∈ (P.dir.carriedPatches name).2, ∀ files sub files', r files sub →
      host.applyFile P p files = .ok files' →
      ∃ sub', host.applyFile P p sub = .ok sub' ∧ r files' sub' := by
    intro p hp files sub files' hr happly
    unfold applyFile at happly ⊢
    cases hread : P.read p with
    | none =>
      rw [hread] at happly
      cases happly
    | some bytes =>
      rw [hread] at happly
      -- what the patch names is not an extra file, so both trees have it alike
      have hnamed : ∀ path ∈ host.names bytes, sub.lookup path = files.lookup path := by
        intro path hpath
        rcases hr path with heq | ⟨-, hbase, htree, -⟩
        · exact heq
        · exact absurd (hnames p hp bytes hread path hpath hbase) htree
      obtain ⟨sub', hsub, hsame⟩ := hd.apply_local bytes files sub files'
        (fun path => (hr path).imp id And.left) hnamed happly
      refine ⟨sub', hsub, fun path => ?_⟩
      by_cases hpath : path ∈ host.names bytes
      · exact .inl (hsame path hpath)
      · rw [hd.apply_frame _ _ _ hsub path hpath, hd.apply_frame _ _ _ happly path hpath]
        exact hr path
  obtain ⟨patched, hpatched, hr⟩ := Lib.applyAll_simulates hstep hstart h
  refine ⟨patched, hpatched, fun path => (hr path).imp Eq.symm ?_⟩
  rintro ⟨hnone, -, htree, hignored⟩
  exact ⟨Files.lookup_eq_none.1 hnone, htree, hignored⟩

omit hd in
/-- A patch whose notes have no error is readable, and its paths are noted. -/
theorem note_clean {name : String} {P : Patches} {p : File} {noted : Noted}
    (h : host.note name P p = some noted) (hclean : noted.errors = []) :
    ∃ bytes, P.read p = some bytes ∧
      ∀ path ∈ diffPaths (host.decode bytes), path ∈ noted.touched.map (·.1) := by
  unfold note at h
  obtain ⟨label, -, h⟩ := Option.bind_eq_some_iff.1 h
  split at h
  · cases h
    cases hclean
  · obtain ⟨bytes, hread, rfl⟩ := Option.map_eq_some_iff.1 h
    exact ⟨bytes, hread, fun path hpath => by simpa using hpath⟩

omit hd in
/-- What `check_patches` has checked when it has no errors. -/
theorem checkPatches_clean {name pdir checkout : String} {P : Patches} {c : Checkout}
    {noted : Noted} (h : host.checkPatches name pdir checkout P c = some noted)
    (hclean : noted.errors = []) :
    (∀ path, host.Touched P name path → path ∈ noted.touched.map (·.1)) ∧
      (∀ path ∈ host.changedPaths c, path ∈ noted.touched.map (·.1)) ∧
      ∃ copy, host.restored P (P.dir.carriedPatches name).2 c = .ok copy ∧
        host.changedPaths copy = [] := by
  obtain ⟨notes, hnotes, rfl⟩ := Option.map_eq_some_iff.1 h
  simp only [List.append_eq_nil_iff, List.map_eq_nil_iff, sortPaths_eq_nil,
    List.flatMap_eq_nil_iff] at hclean
  obtain ⟨⟨⟨⟨-, hnoted⟩, hstray⟩, -⟩, hrestore⟩ := hclean
  refine ⟨?_, ?_, ?_⟩
  · rintro path ⟨p, hp, bytes, hread, hpath⟩
    obtain ⟨note, hmem, hnote⟩ := mem_of_mapM hnotes hp
    obtain ⟨bytes', hread', htouched⟩ := note_clean hnote (hnoted note hmem)
    obtain rfl : bytes = bytes' := Option.some.inj (hread.symm.trans hread')
    obtain ⟨entry, hentry, rfl⟩ := List.mem_map.1 (htouched path hpath)
    exact List.mem_map_of_mem (List.mem_flatMap.2 ⟨note, hmem, hentry⟩)
  · intro path hpath
    simpa using List.filter_eq_nil_iff.1 hstray path hpath
  · unfold restoreErrors at hrestore
    split at hrestore
    · cases hrestore
    · rename_i copy hcopy
      refine ⟨copy, hcopy, ?_⟩
      by_contra hleft
      rw [if_pos hleft] at hrestore
      cases hrestore

end Host

/-! ## The verdict -/

namespace Host

/-- The checkout comes from the commit by the carried patches: they lead to it from the
commit with ignored files beside it and, if they name none of these, from the commit alone, up
to ignored files. Without carried patches, it has the files of the commit. -/
def FromPin (host : Host) (img : Image) (name commit : String) (c : Checkout) : Prop :=
  match img.carried name with
  | none => ∀ path bytes, (host.tree commit).lookup path = some bytes →
      c.files.lookup path = some bytes
  | some P => ∃ base, host.Extends base (host.tree commit) ∧
      host.applyStack P name base = .ok c.files ∧
      ((∀ p ∈ (P.dir.carriedPatches name).2, ∀ bytes, P.read p = some bytes →
          ∀ path ∈ host.names bytes, path ∈ base → path ∈ host.tree commit) →
        ∃ patched, host.applyStack P name (host.tree commit) = .ok patched ∧
          ∀ path, c.files.lookup path = patched.lookup path ∨
            path ∉ patched ∧ path ∉ host.tree commit ∧ host.ignored base path = true)

/-- The paths the gate compares: what a carried patch touches under `<name>/`, and the tracked
`<name>/**/*.py` whose path has no carriage return. A file of the commit counts as tracked, even
if the index has lost it, unless git reports it as the source of a rename, or a rename in the
work tree. -/
def Compared (host : Host) (img : Image) (name commit : String) (c : Checkout) (path : Line) :
    Prop :=
  (name ++ "/").toList <+: path ∧
    ((∃ P, img.carried name = some P ∧ host.Touched P name path) ∨
      '\r' ∉ path ∧ host.pathspec name path = true ∧
        (path ∈ c.index ∨ path ∈ host.tree commit ∧
          ∀ r ∈ host.status c, r.source ≠ some path ∧ ¬ r.WorkTreeRename))

/-- The installed files have the content of the checkout. -/
def Installed (host : Host) (img : Image) (name commit : String) (c : Checkout) : Prop :=
  ∀ path, host.Compared img name commit c path → ∀ bytes, c.files.lookup path = some bytes →
    img.site.lookup path = some bytes

/-- What the verdict seems to say: up to ignored files, the checkout is the commit's tree with
the carried patches applied in order, and the installed files are that tree's, on the tracked
`<name>/**/*.py` and on what the patches touch under `<name>/`. -/
def Exact (host : Host) (img : Image) (name commit : String) : Prop :=
  ∃ c patched, img.checkout name = .ok c ∧
    (match img.carried name with
      | none => patched = host.tree commit
      | some P => host.applyStack P name (host.tree commit) = .ok patched) ∧
    (∀ path, host.ignored c.files path = false → c.files.lookup path = patched.lookup path) ∧
    ∀ path, path ∈ host.tree commit ∧ host.pathspec name path = true ∨
        (name ++ "/").toList <+: path ∧
          (∃ P, img.carried name = some P ∧ host.Touched P name path) →
      img.site.lookup path = patched.lookup path

variable {host : Host}

theorem compare_clean {img : Image} {name commit : String} {patched : Bool} {c : Checkout}
    {path : Line} (h : compare img name commit patched c path = []) {bytes : Bytes}
    (hfile : c.files.lookup path = some bytes) : img.site.lookup path = some bytes := by
  unfold compare at h
  rw [hfile] at h
  cases hsite : img.site.lookup path with
  | none =>
    rw [hsite] at h
    cases h
  | some installed =>
    rw [hsite] at h
    by_cases heq : installed = bytes
    · rw [heq]
    · simp only [ne_eq, heq, not_false_eq_true, if_true] at h
      cases h

theorem checkInstalled_clean {img : Image} {name commit : String} {c : Checkout}
    {carried : Noted} (h : host.checkInstalled img name commit c carried = []) {path : Line}
    (hpath : path ∈ host.trackedPaths c name ∨
      path ∈ carried.touched.map (·.1) ∧ (name ++ "/").toList <+: path)
    {bytes : Bytes} (hfile : c.files.lookup path = some bytes) :
    img.site.lookup path = some bytes := by
  unfold checkInstalled at h
  simp only [List.append_eq_nil_iff, List.flatMap_eq_nil_iff, List.mem_insertionSort,
    List.mem_eraseDups, List.mem_append, List.mem_filter, List.isPrefixOf_iff_prefix] at h
  exact compare_clean (h.1.2 path hpath) hfile

/-- Without carried patches, index and work tree are those of the commit. -/
theorem checkCarried_none {img : Image} {name : String} {c : Checkout} {carried : Noted}
    (hd : host.Documented) (hnone : img.carried name = none)
    (h : host.checkCarried img name c = some carried) (hclean : carried.errors = []) (path : Line) :
    c.index.lookup path = (host.tree c.head).lookup path ∧
      (path ∈ c.index → c.files.lookup path = c.index.lookup path) := by
  unfold checkCarried at h
  rw [hnone] at h
  cases h
  by_contra hdiffers
  have hdirty : strip (host.statusTracked c) ≠ [] := by
    refine hd.statusTracked_ne_nil c path ?_
    by_cases hindex : c.index.lookup path = (host.tree c.head).lookup path
    · exact .inr (by simpa [hindex] using hdiffers)
    · exact .inl hindex
  simp only [if_pos hdirty] at hclean
  cases hclean

theorem fromPin_of_clean {img : Image} {name : String} {c : Checkout} {carried : Noted}
    (hd : host.Documented) (h : host.checkCarried img name c = some carried)
    (hclean : carried.errors = []) : host.FromPin img name c.head c := by
  unfold FromPin
  cases hcarried : img.carried name with
  | none =>
    intro path bytes hpath
    obtain ⟨hindex, hfiles⟩ := checkCarried_none hd hcarried h hclean path
    rw [← hindex] at hpath
    exact (hfiles (Finmap.mem_of_lookup_eq_some hpath)).trans hpath
  | some P =>
    unfold checkCarried at h
    rw [hcarried] at h
    obtain ⟨-, -, copy, hcopy, hleft⟩ := checkPatches_clean h hclean
    obtain ⟨hextends, happly⟩ := restored_clean hd hcopy hleft
    exact ⟨copy.files, hextends, happly, fun hnames => applyStack_local hd hextends hnames happly⟩

/-- The gate reads the tracked paths under `<name>/` that have no carriage return. -/
theorem mem_trackedPaths {c : Checkout} {name : String} {path : Line} (hd : host.Documented)
    (hname : ∀ ch ∈ name.toList, isPySpace ch = false) (hunder : (name ++ "/").toList <+: path)
    (hcr : '\r' ∉ path) (hindex : path ∈ c.index) (hspec : host.pathspec name path = true) :
    path ∈ host.trackedPaths c name := by
  have hls : path ∈ host.lsFiles c name := (hd.lsFiles_mem c name path).2 ⟨hindex, hspec⟩
  have hread : universalNewlines path = path := universalNewlines_of_notMem hcr
  have hne : path ≠ [] := (c.index.isPath path hindex).1
  refine List.mem_filter.2 ⟨?_, by simpa using hne⟩
  rw [universalNewlines_terminated]
  refine mem_splitOn_strip (fun e he => ?_) (List.mem_map.2 ⟨path, hls, hread⟩) fun ch hch => ?_
  · obtain ⟨e', he', rfl⟩ := List.mem_map.1 he
    have hprinted := (c.index.isPath e' ((hd.lsFiles_mem c name e').1 he').1).2
    exact fun hnul => hprinted (nul_mem_universalNewlines.1 hnul)
  · -- it starts as the name or, if that is empty, with a slash
    obtain ⟨rest, rfl⟩ := hunder
    rw [String.toList_append] at hch
    cases hchars : name.toList with
    | nil =>
      rw [hchars] at hch
      cases hch
      decide
    | cons first chars =>
      rw [hchars] at hch
      cases hch
      exact hname _ (hchars ▸ List.mem_cons_self)

theorem installed_of_clean {img : Image} {name : String} {c : Checkout} {carried : Noted}
    (hd : host.Documented) (hname : ∀ ch ∈ name.toList, isPySpace ch = false)
    (h : host.checkCarried img name c = some carried) (hclean : carried.errors = [])
    (hinstalled : host.checkInstalled img name c.head c carried = []) :
    host.Installed img name c.head c := by
  rintro path hpath bytes hfile
  refine checkInstalled_clean hinstalled ?_ hfile
  obtain ⟨hunder, ⟨P, hP, htouched⟩ | ⟨hcr, hspec, htracked⟩⟩ := hpath
  · unfold checkCarried at h
    rw [hP] at h
    exact .inr ⟨(checkPatches_clean h hclean).1 path htouched, hunder⟩
  by_cases hindex : path ∈ c.index
  · exact .inl (mem_trackedPaths hd hname hunder hcr hindex hspec)
  obtain ⟨htree, hrename⟩ := htracked.resolve_left hindex
  -- a file of the commit that the index has lost is a change, so a carried patch touches it
  have hlost : c.index.lookup path ≠ (host.tree c.head).lookup path := by
    rw [Files.lookup_eq_none.2 hindex]
    exact fun h => Files.lookup_eq_none.1 h.symm htree
  cases hcarried : img.carried name with
  | none => exact absurd (checkCarried_none hd hcarried h hclean path).1 hlost
  | some P =>
    unfold checkCarried at h
    rw [hcarried] at h
    obtain ⟨r, hr, hpath⟩ := hd.status_tracked c path (.inl hlost)
    obtain rfl : r.path = path := hpath.resolve_right (hrename r hr).1
    refine .inr ⟨(checkPatches_clean h hclean).2.1 r.path ?_, hunder⟩
    rw [changedPaths, statusPaths_records (hd.printed c) fun r hr => (hrename r hr).2]
    exact List.mem_map.2 ⟨r, hr, universalNewlines_of_notMem hcr⟩

theorem checkPin_clean {img : Image} {name repo commit : String} (hd : host.Documented)
    (hname : ∀ ch ∈ name.toList, isPySpace ch = false)
    (h : host.checkPin img name repo commit = some []) (hnative : native name = none) :
    ∃ c, img.checkout name = .ok c ∧ c.head = commit ∧ host.FromPin img name commit c ∧
      host.Installed img name commit c := by
  unfold checkPin at h
  cases hco : img.checkout name with
  | error e =>
    simp [hco] at h
  | ok c =>
    simp only [hco] at h
    split at h
    · simp at h
    · rename_i hhead
      obtain rfl := not_not.1 hhead
      obtain ⟨carried, hcarried, hnil⟩ := Option.map_eq_some_iff.1 h
      simp only [hnative, List.append_eq_nil_iff] at hnil
      obtain ⟨⟨-, hclean⟩, hinstalled⟩ := hnil
      exact ⟨c, rfl, rfl, fromPin_of_clean hd hcarried hclean,
        installed_of_clean hd hname hcarried hclean hinstalled⟩

/-- A word of the pin file has no space in it. -/
theorem not_space_of_row {text : List Char} {row : List Line} (h : row ∈ rows text) {word : Line}
    (hword : word ∈ row) {ch : Char} (hch : ch ∈ word) : isPySpace ch = false := by
  obtain ⟨line, -, rfl⟩ := List.mem_map.1 h
  exact (Lib.mem_part (List.mem_of_mem_filter hword) ch hch).2

/-- **If `check_commits` finds no error, then the checkout of every pin that is not a native
library comes from its commit by the carried patches, and what the gate compares is installed
with the content it has in the checkout.** -/
theorem gate_sound (hd : host.Documented) {img : Image} {pins : List (String × String)}
    (h : host.checkCommits img = some ([], pins)) {name repo commit : Line}
    (hrow : [name, repo, commit] ∈ rows img.pins) (hnative : native (str name) = none) :
    ∃ c, img.checkout (str name) = .ok c ∧ c.head = str commit ∧
      host.FromPin img (str name) (str commit) c ∧
      host.Installed img (str name) (str commit) c := by
  obtain ⟨checked, hchecked, hnil⟩ := Option.map_eq_some_iff.1 h
  simp only [Prod.mk.injEq, List.append_eq_nil_iff, List.flatMap_eq_nil_iff] at hnil
  obtain ⟨row, hmem, hcheck⟩ := mem_of_mapM hchecked hrow
  have hclean : row.1 = [] := hnil.1.1 row hmem
  by_cases hhex : isHex 40 commit
  · simp only [checkRow, if_pos hhex] at hcheck
    obtain ⟨errors, herrors, rfl⟩ := Option.map_eq_some_iff.1 hcheck
    obtain rfl : errors = [] := hclean
    exact checkPin_clean hd (fun ch hch => not_space_of_row hrow List.mem_cons_self
      (by simpa [str] using hch)) herrors hnative
  · simp only [checkRow, if_neg hhex] at hcheck
    obtain rfl := Option.some.inj hcheck
    cases hclean

end Host

/-! ## A host with one patch -/

namespace Files

/-- One file written, or removed. -/
def set (path : Line) (h : IsPath path) (content : Option Bytes) (files : Files) : Files :=
  match content with
  | some bytes =>
    { map := files.map.insert path bytes
      isPath := fun path' hmem => by
        rcases Finmap.mem_insert.1 hmem with rfl | hmem
        · exact h
        · exact files.isPath path' hmem }
  | none =>
    { map := files.map.erase path
      isPath := fun path' hmem => files.isPath path' (Finmap.mem_erase.1 hmem).2 }

theorem lookup_set_self {path : Line} {h : IsPath path} {content : Option Bytes} {files : Files} :
    (files.set path h content).lookup path = content := by
  cases content with
  | none => exact Finmap.lookup_erase path files.map
  | some bytes => exact Finmap.lookup_insert files.map

theorem lookup_set_of_ne {path path' : Line} {h : IsPath path} {content : Option Bytes}
    {files : Files} (hne : path' ≠ path) :
    (files.set path h content).lookup path' = files.lookup path' := by
  cases content with
  | none => exact Finmap.lookup_erase_ne hne
  | some bytes => exact Finmap.lookup_insert_of_ne files.map hne

/-- The paths of the files, in order. -/
def paths (files : Files) : List Line :=
  Quot.liftOn files.map.keys.val (fun l => l.insertionSort (· ≤ ·)) fun l l' (h : l.Perm l') =>
    List.Perm.eq_of_pairwise' (List.pairwise_insertionSort _ l) (List.pairwise_insertionSort _ l')
      (((List.perm_insertionSort _ l).trans h).trans (List.perm_insertionSort _ l').symm)

theorem mem_paths {files : Files} {path : Line} : path ∈ files.paths ↔ path ∈ files := by
  unfold paths
  change _ ↔ path ∈ files.map
  rw [← Finmap.mem_keys, ← Finset.mem_val]
  generalize files.map.keys.val = s
  induction s using Quot.inductionOn with
  | h l => exact List.mem_insertionSort _

end Files

/-- A patch that changes one file, and the paths git ignores. -/
structure Edit where
  path : Line
  isPath : IsPath path
  before : Option Bytes
  after : Option Bytes
  ignored : List Line
  /-- The ignored file that git takes the changed one to be renamed from. -/
  source : Option Line

namespace Edit

variable (e : Edit) (tree : String → Files)

/-- The status of one path: changed, untracked or neither. -/
def record (c : Checkout) (path : Line) : Option StatusRecord :=
  if path ∈ c.index ∨ path ∈ tree c.head then
    if c.index.lookup path = (tree c.head).lookup path ∧
        (path ∈ c.index → c.files.lookup path = c.index.lookup path) then none
    else some ⟨'M', ' ', path, none⟩
  else if path ∈ c.files ∧ path ∉ e.ignored then some ⟨'?', '?', path, none⟩
  else none

def records (c : Checkout) : List StatusRecord :=
  (c.index.paths ++ (tree c.head).paths ++ c.files.paths).filterMap (e.record tree c)

/-- Two changed files as the rename of one to the other. -/
def renamed (source : Line) (r : StatusRecord) : Option StatusRecord :=
  if r.path = e.path then some ⟨'R', ' ', e.path, some source⟩
  else if r.path = source then none
  else some r

def status (c : Checkout) : List StatusRecord :=
  match e.source with
  | none => e.records tree c
  | some source =>
    if IsPath source ∧ source ∈ e.ignored ∧ e.record tree c e.path = some ⟨'M', ' ', e.path, none⟩ ∧
        e.record tree c source = some ⟨'M', ' ', source, none⟩ then
      (e.records tree c).filterMap (e.renamed source)
    else e.records tree c

/-- A host whose only patch is the edit, with git's answers computed from the trees. -/
def host : Host where
  tree := tree
  ignored _ path := path ∈ e.ignored
  names _ := [e.path]
  apply _ files :=
    if files.lookup e.path = e.before then .ok (files.set e.path e.isPath e.after)
    else .error "patch does not apply"
  applyR _ files :=
    if files.lookup e.path = e.after then .ok (files.set e.path e.isPath e.before)
    else .error "patch does not apply"
  reset c := .ok { c with index := tree c.head }
  status := e.status tree
  statusTracked c := ((e.status tree c).filter (·.x ≠ '?')).flatMap fun r =>
    r.x :: r.y :: ' ' :: r.path ++ ['\n']
  pathspec name path := (name ++ "/").toList.isPrefixOf path && ".py".toList.isSuffixOf path
  lsFiles c name := c.index.paths.filter fun path =>
    (name ++ "/").toList.isPrefixOf path && ".py".toList.isSuffixOf path
  sha256 _ := String.ofList (List.replicate 64 '0')
  decode bytes := bytes.map fun b => Char.ofNat b.toNat

variable {e tree}

theorem record_cases {c : Checkout} {path : Line} {r : StatusRecord}
    (h : e.record tree c path = some r) : r = ⟨'M', ' ', path, none⟩ ∨ r = ⟨'?', '?', path, none⟩ := by
  unfold record at h
  split at h
  · split at h
    · cases h
    · exact .inl (Option.some.inj h).symm
  · split at h
    · exact .inr (Option.some.inj h).symm
    · cases h

theorem record_path {c : Checkout} {path : Line} {r : StatusRecord}
    (h : e.record tree c path = some r) : r.path = path := by
  rcases record_cases h with rfl | rfl <;> rfl

theorem mem_records {c : Checkout} {path : Line} {r : StatusRecord}
    (h : e.record tree c path = some r) : r ∈ e.records tree c := by
  refine List.mem_filterMap.2 ⟨path, ?_, h⟩
  simp only [List.mem_append, Files.mem_paths]
  unfold record at h
  split at h
  · rename_i hknown
    exact .inl hknown
  · split at h
    · rename_i hfile
      exact .inr hfile.1
    · cases h

theorem record_changed {c : Checkout} {path : Line}
    (h : c.index.lookup path ≠ (tree c.head).lookup path ∨
      path ∈ c.index ∧ c.files.lookup path ≠ c.index.lookup path) :
    e.record tree c path = some ⟨'M', ' ', path, none⟩ := by
  have hknown : path ∈ c.index ∨ path ∈ tree c.head := by
    rcases h with hne | ⟨hindex, -⟩
    · by_contra hnone
      rw [not_or, ← Files.lookup_eq_none, ← Files.lookup_eq_none] at hnone
      exact hne (hnone.1.trans hnone.2.symm)
    · exact .inl hindex
  rw [record, if_pos hknown, if_neg]
  rintro ⟨heq, hfiles⟩
  rcases h with hne | ⟨hindex, hne⟩
  · exact hne heq
  · exact hne (hfiles hindex)

/-- A record is printed, or it is one side of the rename that is. -/
theorem mem_status {c : Checkout} {r : StatusRecord} (h : r ∈ e.records tree c) :
    r ∈ e.status tree c ∨ ∃ source ∈ e.ignored, (r.path = e.path ∨ r.path = source) ∧
      ⟨'R', ' ', e.path, some source⟩ ∈ e.status tree c := by
  unfold status
  cases e.source with
  | none => exact .inl h
  | some source =>
    dsimp only
    split
    · rename_i hrename
      obtain ⟨-, hignored, hpath, -⟩ := hrename
      have hboth : ⟨'R', ' ', e.path, some source⟩ ∈
          (e.records tree c).filterMap (e.renamed source) :=
        List.mem_filterMap.2 ⟨_, mem_records hpath, by rw [renamed, if_pos rfl]⟩
      by_cases hr : r.path = e.path
      · exact .inr ⟨source, hignored, .inl hr, hboth⟩
      by_cases hsource : r.path = source
      · exact .inr ⟨source, hignored, .inr hsource, hboth⟩
      · exact .inl (List.mem_filterMap.2 ⟨r, h, by rw [renamed, if_neg hr, if_neg hsource]⟩)
    · exact .inl h

theorem of_mem_status {c : Checkout} {r : StatusRecord} (h : r ∈ e.status tree c) :
    r ∈ e.records tree c ∨ ∃ source, IsPath source ∧ r = ⟨'R', ' ', e.path, some source⟩ := by
  unfold status at h
  cases hsource : e.source with
  | none => exact .inl (by rwa [hsource] at h)
  | some source =>
    rw [hsource] at h
    dsimp only at h
    split at h
    · rename_i hrename
      obtain ⟨r', hr', hr⟩ := List.mem_filterMap.1 h
      unfold renamed at hr
      split at hr
      · exact .inr ⟨source, hrename.1, (Option.some.inj hr).symm⟩
      · split at hr
        · cases hr
        · exact .inl (Option.some.inj hr ▸ hr')
    · exact .inl h

theorem documented : (e.host tree).Documented where
  apply_applyR p files files' h := by
    simp only [host] at h ⊢
    split at h
    · rename_i hafter
      cases h
      rw [if_pos Files.lookup_set_self]
      congr 1
      refine Files.ext_lookup fun path => ?_
      by_cases hpath : path = e.path
      · rw [hpath, Files.lookup_set_self, hafter]
      · rw [Files.lookup_set_of_ne hpath, Files.lookup_set_of_ne hpath]
    · cases h
  apply_frame p files files' h path hpath := by
    simp only [host] at h hpath
    split at h
    · cases h
      exact Files.lookup_set_of_ne (by simpa using hpath)
    · cases h
  apply_local p files sub files' _ hnamed h := by
    simp only [host, List.mem_singleton, forall_eq] at h hnamed ⊢
    split at h
    · rename_i hbefore
      cases h
      rw [if_pos (hnamed.trans hbefore)]
      exact ⟨_, rfl, by rw [Files.lookup_set_self, Files.lookup_set_self]⟩
    · cases h
  reset_eq c c' h := by
    cases h
    rfl
  printed c r hr := by
    rcases of_mem_status hr with hr | ⟨source, hsource, rfl⟩
    · obtain ⟨path, hpath, hr⟩ := List.mem_filterMap.1 hr
      have hname : IsPath path := by
        simp only [List.mem_append, Files.mem_paths] at hpath
        rcases hpath with (hpath | hpath) | hpath
        · exact c.index.isPath _ hpath
        · exact (tree c.head).isPath _ hpath
        · exact c.files.isPath _ hpath
      rcases record_cases hr with rfl | rfl <;>
        exact ⟨⟨by simp [statusCodes], by simp [statusCodes], hname.2, by simp, by simp⟩, hname.1⟩
    · exact ⟨⟨by simp [statusCodes], by simp [statusCodes], e.isPath.2, by simpa using hsource.2,
        by simp⟩, e.isPath.1⟩
  status_tracked c path h := by
    rcases mem_status (mem_records (record_changed h)) with hr | ⟨source, -, hpath, hr⟩
    · exact ⟨_, hr, .inl rfl⟩
    · rcases hpath with rfl | rfl
      · exact ⟨_, hr, .inl rfl⟩
      · exact ⟨_, hr, .inr rfl⟩
  status_untracked c path hindex hfile hignored := by
    have hnot : path ∉ e.ignored := by simpa [host] using hignored
    obtain ⟨r, hr⟩ : ∃ r, e.record tree c path = some r := by
      by_cases htree : path ∈ tree c.head
      · refine ⟨_, record_changed (.inl fun heq => ?_)⟩
        rw [Files.lookup_eq_none.2 hindex] at heq
        exact Files.lookup_eq_none.1 heq.symm htree
      · exact ⟨⟨'?', '?', path, none⟩, by
          rw [record, if_neg (by simp [hindex, htree]), if_pos ⟨hfile, hnot⟩]⟩
    have hpath := record_path hr
    rcases mem_status (mem_records hr) with hmem | ⟨source, hsource, hside, hmem⟩
    · exact ⟨r, hmem, hpath⟩
    · rcases hside with hside | hside
      · exact ⟨_, hmem, hside.symm.trans hpath⟩
      · rw [hpath] at hside
        exact absurd (hside ▸ hsource) hnot
  statusTracked_ne_nil c path h htrim := by
    have hprinted : ∃ r ∈ e.status tree c, r.x = 'M' ∨ r.x = 'R' := by
      rcases mem_status (mem_records (record_changed h)) with hr | ⟨source, -, -, hr⟩
      · exact ⟨_, hr, .inl rfl⟩
      · exact ⟨_, hr, .inr rfl⟩
    obtain ⟨r, hr, hx⟩ := hprinted
    have htracked : r.x ≠ '?' := by
      rintro heq
      rw [heq] at hx
      revert hx
      decide
    have hspace := Lib.all_of_trim_eq_nil htrim r.x (List.mem_flatMap.2
      ⟨r, List.mem_filter.2 ⟨hr, by simpa using htracked⟩, List.mem_cons_self⟩)
    rcases hx with hx | hx <;> rw [hx] at hspace <;> revert hspace <;> decide
  lsFiles_mem c name path := by
    simp [host, Files.mem_paths]

end Edit

/-! ## Verdicts on sample images -/

namespace Sample

def bytesOf (text : List Char) : Bytes := text.map fun c => UInt8.ofNat c.toNat

def noFiles : Files := ⟨∅, fun _ h => absurd h Finmap.notMem_empty⟩

def sha (c : Char) : Line := List.replicate 40 c

def aPy : Line := "vllm/a.py".toList

/-- A path with a carriage return. -/
def crPy : Line := "vllm/c\r.py".toList

/-- The files of two sample commits of vllm, and of those of b12x and nccl. -/
def tree (commit : String) : Files :=
  if commit = str (sha 'a') then noFiles.set aPy (by decide) (some (bytesOf ['A']))
  else if commit = str (sha 'd') then
    (noFiles.set aPy (by decide) (some (bytesOf ['A']))).set crPy (by decide) (some (bytesOf ['A']))
  else if commit = str (sha 'b') then
    noFiles.set "b12x/b.py".toList (by decide) (some (bytesOf ['B']))
  else noFiles

/-- A patch directory with the edit as its only patch. -/
def patches (e : Edit) : Patches where
  dir :=
    { name := "vllm"
      subdirs := []
      ls := fun _ => ["0001-edit.patch"]
      there := fun _ => true
      isFile := fun _ => true
      nodup := by decide
      noSlash := by decide }
  read _ := some (bytesOf ("diff --git a/".toList ++ e.path ++ " b/".toList ++ e.path))
  applied _ := some ("0001-edit.patch||||||".toList ++ 'A' :: '|' :: List.replicate 64 '0')

def checkout (name : String) (commit : String) : Checkout where
  head := commit
  origin := s!"https://github.com/o/{name}"
  index := tree commit
  files := tree commit

/-- An image with a given commit, checkout and installed files of vllm. -/
def image (patches : Option Patches) (commit : Char) (index files site : Files) : Image where
  root := "/opt"
  src := "/src"
  sitePath := "/site"
  pins := "vllm o/vllm ".toList ++ sha commit ++ "\nb12x o/b12x ".toList ++ sha 'b' ++
    "\nnccl o/nccl ".toList ++ sha 'c'
  env _ := ""
  patches name := if name = "vllm" then patches else none
  checkout name :=
    .ok (if name = "vllm" then
        { checkout "vllm" (str (sha commit)) with index := index, files := files }
      else if name = "b12x" then checkout "b12x" (str (sha 'b'))
      else checkout "nccl" (str (sha 'c')))
  build _ := some ("commit ".toList ++ sha 'c' ++ "\npatches none\nlib ".toList ++
    List.replicate 64 '0')
  site := (site.set "b12x/b.py".toList (by decide) (some (bytesOf ['B']))).set
    "nvidia/nccl/lib/libnccl.so.2".toList (by decide) (some [])

def pins (commit : Char) : List (String × String) :=
  [("vllm", str (sha commit)), ("b12x", str (sha 'b')), ("nccl", str (sha 'c'))]

/-- `vllm/a.py` modified, in the checkout and where it is installed. -/
def modify : Edit :=
  ⟨aPy, by decide, some (bytesOf ['A']), some (bytesOf ['A', '2']), [], none⟩

def modified : Image :=
  let files := noFiles.set aPy (by decide) (some (bytesOf ['A', '2']))
  image (some (patches modify)) 'a' (tree (str (sha 'a'))) files files

theorem gate_sound_modified :
    ∃ c, modified.checkout "vllm" = .ok c ∧ c.head = str (sha 'a') ∧
      (modify.host tree).FromPin modified "vllm" (str (sha 'a')) c ∧
      (modify.host tree).Installed modified "vllm" (str (sha 'a')) c := by
  have hclean : (modify.host tree).checkCommits modified = some ([], pins 'a') := by decide +kernel
  have hrow : ["vllm".toList, "o/vllm".toList, sha 'a'] ∈ rows modified.pins := by decide +kernel
  exact Host.gate_sound Edit.documented hclean hrow (by decide)

/-- `vllm/a.py` deleted, but still installed. -/
def delete : Edit := ⟨aPy, by decide, some (bytesOf ['A']), none, [], none⟩

def deleted : Image :=
  image (some (patches delete)) 'a' (tree (str (sha 'a'))) noFiles (tree (str (sha 'a')))

/-- No carried patch, and an untracked file in the checkout. -/
def untracked : Image :=
  let files := (tree (str (sha 'a'))).set "vllm/b.py".toList (by decide) (some [])
  image none 'a' (tree (str (sha 'a'))) files (tree (str (sha 'a')))

/-- An ignored file modified by a patch. -/
def modifyIgnored : Edit :=
  ⟨"vllm/i.py".toList, by decide, some [], some (bytesOf ['A']), ["vllm/i.py".toList], none⟩

def ignoredFile : Image :=
  let files := (tree (str (sha 'a'))).set "vllm/i.py".toList (by decide) (some (bytesOf ['A']))
  image (some (patches modifyIgnored)) 'a' files files files

/-- A file created by a patch, which git takes to be renamed from an ignored one. -/
def create : Edit := ⟨"vllm/n.py".toList, by decide, none, some (bytesOf ['A']), [aPy], some aPy⟩

/-- The index has lost `vllm/a.py`, the work tree has not, and it is not installed. -/
def renamedAway : Image :=
  let created := noFiles.set create.path create.isPath create.after
  image (some (patches create)) 'a' created (created.set aPy (by decide) (some (bytesOf ['A'])))
    created

/-- The file with a carriage return in its path is not installed. -/
def carriageReturn : Image :=
  image none 'd' (tree (str (sha 'd'))) (tree (str (sha 'd'))) (tree (str (sha 'a')))

/-- The gate passes an image with a file of the commit that is in the checkout and is not
installed with its content. -/
def Misses (host : Host) (img : Image) (commit : Char) (path : Line) : Prop :=
  host.checkCommits img = some ([], pins commit) ∧
    (path ∈ host.tree (str (sha commit)) ∧ host.pathspec "vllm" path = true ∧
      ∃ c, img.checkout "vllm" = .ok c ∧ path ∈ c.files ∧ path ∉ img.site) ∧
    ¬ host.Exact img "vllm" (str (sha commit))

theorem renamedAway_misses : Misses (create.host tree) renamedAway 'a' aPy := by
  refine ⟨by decide +kernel, ⟨by decide +kernel, by decide +kernel, _, rfl, by decide +kernel,
    by decide +kernel⟩, ?_⟩
  rintro ⟨c, patched, -, hpatched, -, hsite⟩
  have hcarried : renamedAway.carried "vllm" = some (patches create) := rfl
  rw [hcarried] at hpatched
  have happly : (create.host tree).applyStack (patches create) "vllm" (tree (str (sha 'a'))) =
      .ok patched := hpatched
  have hkept : ((create.host tree).applyStack (patches create) "vllm"
      (tree (str (sha 'a')))).toOption.bind (·.lookup aPy) = some (bytesOf ['A']) := by
    decide +kernel
  rw [happly] at hkept
  have hstale := hsite aPy (.inl (by decide +kernel))
  rw [show patched.lookup aPy = some (bytesOf ['A']) from hkept] at hstale
  revert hstale
  decide +kernel

theorem carriageReturn_misses : Misses (delete.host tree) carriageReturn 'd' crPy := by
  refine ⟨by decide +kernel, ⟨by decide +kernel, by decide +kernel, _, rfl, by decide +kernel,
    by decide +kernel⟩, ?_⟩
  rintro ⟨c, patched, -, hpatched, -, hsite⟩
  have hcarried : carriageReturn.carried "vllm" = none := rfl
  rw [hcarried] at hpatched
  obtain rfl : patched = tree (str (sha 'd')) := hpatched
  have hstale := hsite crPy (.inl (by decide +kernel))
  revert hstale
  decide +kernel

/-- The gate passes five images that are not what the commit and the patches say. -/
theorem gate_unsound :
    (∀ e, (Edit.host e tree).Documented) ∧
    ((delete.host tree).checkCommits deleted = some ([], pins 'a') ∧
      ¬ (delete.host tree).Exact deleted "vllm" (str (sha 'a'))) ∧
    ((delete.host tree).checkCommits untracked = some ([], pins 'a') ∧
      ¬ (delete.host tree).Exact untracked "vllm" (str (sha 'a'))) ∧
    ((modifyIgnored.host tree).checkCommits ignoredFile = some ([], pins 'a') ∧
      ¬ (modifyIgnored.host tree).Exact ignoredFile "vllm" (str (sha 'a'))) ∧
    Misses (create.host tree) renamedAway 'a' aPy ∧
    Misses (delete.host tree) carriageReturn 'd' crPy := by
  refine ⟨fun _ => Edit.documented, ⟨by decide +kernel, ?_⟩, ⟨by decide +kernel, ?_⟩,
    ⟨by decide +kernel, ?_⟩, renamedAway_misses, carriageReturn_misses⟩
  · rintro ⟨c, patched, -, hpatched, -, hsite⟩
    have hcarried : deleted.carried "vllm" = some (patches delete) := rfl
    rw [hcarried] at hpatched
    have happly : (delete.host tree).applyStack (patches delete) "vllm" (tree (str (sha 'a'))) =
        .ok patched := hpatched
    have hgone : ((delete.host tree).applyStack (patches delete) "vllm"
        (tree (str (sha 'a')))).toOption.bind (·.lookup aPy) = none := by decide +kernel
    rw [happly] at hgone
    have hstale := hsite aPy (.inl (by decide +kernel))
    rw [show patched.lookup aPy = none from hgone] at hstale
    revert hstale
    decide +kernel
  · rintro ⟨c, patched, hc, hpatched, hfiles, -⟩
    have hcarried : untracked.carried "vllm" = none := rfl
    rw [hcarried] at hpatched
    obtain rfl : _ = c := Except.ok.inj hc
    obtain rfl : patched = tree (str (sha 'a')) := hpatched
    have hextra := hfiles "vllm/b.py".toList (by decide +kernel)
    revert hextra
    decide +kernel
  · rintro ⟨c, patched, -, hpatched, -, -⟩
    have hcarried : ignoredFile.carried "vllm" = some (patches modifyIgnored) := rfl
    rw [hcarried] at hpatched
    have happly : (modifyIgnored.host tree).applyStack (patches modifyIgnored) "vllm"
        (tree (str (sha 'a'))) = .ok patched := hpatched
    have hfails : ((modifyIgnored.host tree).applyStack (patches modifyIgnored) "vllm"
        (tree (str (sha 'a')))).toOption = none := by decide +kernel
    rw [happly] at hfails
    cases hfails

end Sample

end LlmkubeRuntimes.Pins
