import LlmkubeRuntimes.Lib.Sorted
import LlmkubeRuntimes.Lib.Traverse
import LlmkubeRuntimes.Pins.Series

/-!
# The patch stack of the script and of the gate

When `apply_carried_patches.sh` and `carried_patches` agree on a patch
directory.

* `InOrderScript`, `InOrderGate`: the rules each program holds a series to;
* `scriptStack`, `gateStack`: the files each takes when every series keeps them;
* `SameStack`: what makes the two lists equal.
-/

namespace LlmkubeRuntimes.Pins

/-- The directory of a file in a series. -/
def File.dir : File → String
  | series dir _ => dir
  | _ => ""

/-! ## The rules of a series -/

namespace PatchDir

/-- The rules the script holds a series to: no line twice, every visible patch
listed, every listed file there. -/
def InOrderScript (D : PatchDir) (d : SeriesDir) : Prop :=
  d.dups = [] ∧ (∀ p ∈ D.globPatches d.sdir fun p => .series d.sdir p.toList, d.mentions p) ∧
    ∀ line ∈ d.listed, D.isFile (d.target line)

/-- The same rules as the gate has them. -/
def InOrderGate (D : PatchDir) (d : SeriesDir) : Prop :=
  d.seriesNames.Nodup ∧ (∀ p ∈ D.patches d.name, p.toList ∈ d.seriesNames) ∧
    ∀ n ∈ d.seriesNames, D.isFile (d.child n)

instance (D : PatchDir) (d : SeriesDir) : Decidable (D.InOrderScript d) := by
  unfold InOrderScript; infer_instance

/-- What the script applies when every series is in order. -/
def scriptStack (D : PatchDir) : List File :=
  (D.globPatches "" .own).map .own ++
    D.globSeries.flatMap fun d => d.listed.map fun line => (d.target line).normal

/-- What the gate lists when every series is in order. -/
def gateStack (D : PatchDir) : List File :=
  (D.patches "").map .own ++ D.sortedSeries.flatMap fun d => d.seriesNames.map d.child

theorem applySeries_eq (D : PatchDir) (d : SeriesDir) :
    D.applySeries d =
      if D.InOrderScript d then some (d.listed.map fun line => (d.target line).normal) else none := by
  unfold applySeries
  rw [Lib.mapM_if (fun line => D.isFile (d.target line) = true)]
  by_cases hd : d.dups = []
  · by_cases hm : ∃ p ∈ D.globPatches d.sdir fun p => .series d.sdir p.toList, ¬ d.mentions p
    · obtain ⟨p, hp, hn⟩ := id hm
      rw [if_neg (not_not.2 hd), if_pos hm, if_neg fun h => hn (h.2.1 p hp)]
    · have hm' : ∀ p ∈ D.globPatches d.sdir fun p => .series d.sdir p.toList, d.mentions p := by
        simpa using hm
      rw [if_neg (not_not.2 hd), if_neg hm]
      by_cases hf : ∀ line ∈ d.listed, D.isFile (d.target line) = true
      · rw [if_pos hf, if_pos ⟨hd, hm', hf⟩]
      · rw [if_neg hf, if_neg fun h => hf h.2.2]
  · rw [if_pos hd, if_neg fun h => hd h.1]

/-- The script applies its stack if every series it visits is in order, and
fails otherwise. -/
theorem applyCarriedPatches_eq (D : PatchDir) :
    D.applyCarriedPatches =
      if ∀ d ∈ D.globSeries, D.InOrderScript d then some D.scriptStack else none := by
  unfold applyCarriedPatches
  rw [funext D.applySeries_eq, Lib.mapM_if]
  by_cases h : ∀ d ∈ D.globSeries, D.InOrderScript d
  · rw [if_pos h, if_pos h]
    simp [scriptStack, List.flatMap_def]
  · rw [if_neg h, if_neg h]
    rfl

theorem eraseDups_eq_self {l : List Line} (h : l.Nodup) : l.eraseDups = l := by
  induction l with
  | nil => rfl
  | cons a l ih =>
    rw [List.nodup_cons] at h
    rw [List.eraseDups_cons, List.filter_eq_self.2, ih h.2]
    intro b hb
    have : b ≠ a := fun hba => h.1 (hba ▸ hb)
    simpa using this

theorem sortNames_eq_nil {names : List String} : sortNames names = [] ↔ names = [] := by
  unfold sortNames
  rw [← List.length_eq_zero_iff, List.length_insertionSort, List.length_eq_zero_iff]

/-- The gate reports nothing about a series exactly if it is in order. -/
theorem checkSeries_errors (name : String) (D : PatchDir) (d : SeriesDir) :
    (D.checkSeries name d).1 = [] ↔ D.InOrderGate d := by
  have hdups : (d.seriesNames.filter fun n => 1 < d.seriesNames.count n).eraseDups = [] ↔
      d.seriesNames.Nodup := by
    rw [List.nodup_iff_count_le_one, List.eq_nil_iff_forall_not_mem]
    simp only [List.mem_eraseDups, List.mem_filter, decide_eq_true_eq, not_and, not_lt]
    refine ⟨fun h n => ?_, fun h n _ => h n⟩
    by_cases hn : n ∈ d.seriesNames
    · exact h n hn
    · rw [List.count_eq_zero_of_not_mem hn]
      exact Nat.zero_le 1
  simp only [checkSeries, List.append_eq_nil_iff, List.map_eq_nil_iff, sortNames_eq_nil, hdups,
    List.filter_eq_nil_iff, List.mem_eraseDups, InOrderGate, and_assoc]
  simp

theorem checkSeries_files (name : String) {D : PatchDir} {d : SeriesDir} (h : D.InOrderGate d) :
    (D.checkSeries name d).2 = d.seriesNames.map d.child := by
  simp only [checkSeries, eraseDups_eq_self h.1]
  rw [List.filter_eq_self.2 h.2.2]

theorem carriedPatches_errors (name : String) (D : PatchDir) :
    (D.carriedPatches name).1 = [] ↔ ∀ d ∈ D.sortedSeries, D.InOrderGate d := by
  simp only [carriedPatches, List.flatMap_map, List.flatMap_eq_nil_iff, checkSeries_errors]

theorem carriedPatches_files (name : String) {D : PatchDir}
    (h : ∀ d ∈ D.sortedSeries, D.InOrderGate d) : (D.carriedPatches name).2 = D.gateStack := by
  simp only [carriedPatches, gateStack, List.flatMap_def, List.map_map]
  congr 2
  exact List.map_congr_left fun d hd => checkSeries_files name (h d hd)

theorem mem_globSeries {D : PatchDir} {d : SeriesDir} :
    d ∈ D.globSeries ↔ d ∈ D.subdirs ∧ visible d.name := by
  simp [globSeries, List.mem_insertionSort]

theorem mem_sortedSeries {D : PatchDir} {d : SeriesDir} : d ∈ D.sortedSeries ↔ d ∈ D.subdirs := by
  simp [sortedSeries, List.mem_insertionSort]

theorem applyCarriedPatches_eq_some {D : PatchDir} {L : List File} :
    D.applyCarriedPatches = some L ↔
      (∀ d ∈ D.subdirs, visible d.name → D.InOrderScript d) ∧ D.scriptStack = L := by
  rw [applyCarriedPatches_eq]
  have hscript : (∀ d ∈ D.globSeries, D.InOrderScript d) ↔
      ∀ d ∈ D.subdirs, visible d.name → D.InOrderScript d := by
    simp [mem_globSeries]
  rw [← hscript]
  split <;> simp_all

theorem carriedPatches_eq_clean {name : String} {D : PatchDir} {L : List File} :
    D.carriedPatches name = ([], L) ↔ (∀ d ∈ D.subdirs, D.InOrderGate d) ∧ D.gateStack = L := by
  have hgate : (∀ d ∈ D.sortedSeries, D.InOrderGate d) ↔ ∀ d ∈ D.subdirs, D.InOrderGate d := by
    simp [mem_sortedSeries]
  rw [Prod.ext_iff, carriedPatches_errors, ← hgate]
  exact and_congr_right fun h => by rw [carriedPatches_files name h]

/-! ## One stack from two programs -/

/-- The paths the script takes from the directory `dir`, in order. -/
def scriptPaths (D : PatchDir) (dir : String) : List Line :=
  (D.globSeries.filter (·.sdir = dir)).flatMap fun d => d.listed.map fun line => normal (read line)

/-- The paths the gate takes from the directory `dir`, in order. -/
def gatePaths (D : PatchDir) (dir : String) : List Line :=
  (D.sortedSeries.filter (·.name = dir)).flatMap fun d => d.seriesNames.map normal

/-- The files the two programs take are the same, in the same order. -/
structure SameStack (D : PatchDir) : Prop where
  /-- No patch of the directory's own is hidden or a broken link. -/
  own : ∀ p ∈ D.ls "", isPatch p → visible p ∧ D.there (.own p)
  /-- No series lists an absolute path. -/
  relative : ∀ d ∈ D.subdirs, ∀ n ∈ d.seriesNames, n.head? ≠ some '/'
  /-- Both read the same paths from every series. -/
  paths : ∀ dir, D.scriptPaths dir = D.gatePaths dir
  /-- Sorted by path, the directories that list anything are in name order. -/
  order : D.globSeries.Pairwise fun d e => d.listed ≠ [] → e.listed ≠ [] → d.sdir ≤ e.sdir

/-- The files that a list of series directories contributes, under a name for each
directory. -/
def taken (label : SeriesDir → String) (paths : SeriesDir → List Line) (dirs : List SeriesDir) :
    List File :=
  dirs.flatMap fun d => (paths d).map (.series (label d))

theorem filter_taken (label : SeriesDir → String) (paths : SeriesDir → List Line)
    (dirs : List SeriesDir) (dir : String) :
    (taken label paths dirs).filter (·.dir = dir) =
      ((dirs.filter (label · = dir)).flatMap paths).map (.series dir) := by
  unfold taken
  rw [Lib.filter_flatMap_key (k := label) fun d file hfile => by
    obtain ⟨path, -, rfl⟩ := List.mem_map.1 hfile
    rfl]
  rw [List.map_flatMap]
  refine List.flatMap_congr fun d hd => ?_
  rw [show label d = dir by simpa using (List.mem_filter.1 hd).2]

theorem pairwise_taken (label : SeriesDir → String) (paths : SeriesDir → List Line)
    (dirs : List SeriesDir) :
    (taken label paths dirs).Pairwise (fun a b => a.dir ≤ b.dir) ↔
      dirs.Pairwise fun d e => paths d ≠ [] → paths e ≠ [] → label d ≤ label e := by
  unfold taken
  rw [List.pairwise_flatMap]
  have hself : ∀ d ∈ dirs, ((paths d).map (File.series (label d))).Pairwise
      fun a b => a.dir ≤ b.dir := fun d _ =>
    List.pairwise_map.2 (List.pairwise_of_forall fun _ _ => String.le_refl _)
  rw [and_iff_right hself]
  refine List.Pairwise.iff fun d e => ⟨fun h hd he => ?_, fun h a ha b hb => ?_⟩
  · obtain ⟨a, ha⟩ := List.exists_mem_of_ne_nil _ hd
    obtain ⟨b, hb⟩ := List.exists_mem_of_ne_nil _ he
    exact h _ (List.mem_map_of_mem ha) _ (List.mem_map_of_mem hb)
  · obtain ⟨path, hpath, rfl⟩ := List.mem_map.1 ha
    obtain ⟨path', hpath', rfl⟩ := List.mem_map.1 hb
    exact h (List.ne_nil_of_mem hpath) (List.ne_nil_of_mem hpath')

theorem taken_eq_iff {label label' : SeriesDir → String} {paths paths' : SeriesDir → List Line}
    {dirs dirs' : List SeriesDir} (hsorted : dirs'.Pairwise fun d e => label' d ≤ label' e) :
    taken label paths dirs = taken label' paths' dirs' ↔
      (∀ dir, (dirs.filter (label · = dir)).flatMap paths =
        (dirs'.filter (label' · = dir)).flatMap paths') ∧
      dirs.Pairwise fun d e => paths d ≠ [] → paths e ≠ [] → label d ≤ label e := by
  have hseries (dir : String) : Function.Injective (List.map (File.series dir)) :=
    List.map_injective_iff.2 fun a b h => by simpa using h
  have hsorted' : (taken label' paths' dirs').Pairwise fun a b => a.dir ≤ b.dir :=
    (pairwise_taken ..).2 (hsorted.imp fun h _ _ => h)
  rw [← pairwise_taken]
  constructor
  · intro h
    refine ⟨fun dir => hseries dir ?_, h ▸ hsorted'⟩
    rw [← filter_taken, ← filter_taken, h]
  · rintro ⟨hpaths, hpairwise⟩
    refine Lib.eq_of_sorted_of_filter File.dir (fun _ _ => String.le_antisymm) hpairwise hsorted'
      fun dir => ?_
    rw [filter_taken, filter_taken, hpaths]

/-- The glob misses no patch of a directory if none is hidden or a broken link. -/
theorem globPatches_eq_iff (D : PatchDir) (dir : String) (file : String → File) :
    D.globPatches dir file = D.patches dir ↔
      ∀ p ∈ D.ls dir, isPatch p → visible p ∧ D.there (file p) := by
  constructor
  · intro h p hp hpatch
    have hmem : p ∈ D.patches dir :=
      (List.mem_insertionSort _).2 (List.mem_filter.2 ⟨hp, hpatch⟩)
    rw [← h] at hmem
    obtain ⟨hsorted, hthere⟩ := List.mem_filter.1 hmem
    have := (List.mem_filter.1 ((List.mem_insertionSort _).1 hsorted)).2
    exact ⟨(Bool.and_eq_true_iff.1 this).1, hthere⟩
  · intro h
    have hvisible : ((D.ls dir).filter fun p => visible p && isPatch p) = (D.ls dir).filter isPatch :=
      List.filter_congr fun p hp => by
        by_cases hpatch : isPatch p
        · simp [hpatch, (h p hp hpatch).1]
        · simp [hpatch]
    unfold globPatches patches
    rw [hvisible, List.filter_eq_self]
    intro p hp
    obtain ⟨hls, hpatch⟩ := List.mem_filter.1 ((List.mem_insertionSort _).1 hp)
    exact (h p hls hpatch).2

theorem scriptSeries_eq (D : PatchDir) :
    (D.globSeries.flatMap fun d => d.listed.map fun line => (d.target line).normal) =
      taken SeriesDir.sdir (fun d => d.listed.map fun line => normal (read line)) D.globSeries := by
  simp only [taken, List.map_map]
  rfl

theorem gateSeries_eq {D : PatchDir}
    (h : ∀ d ∈ D.subdirs, ∀ n ∈ d.seriesNames, n.head? ≠ some '/') :
    (D.sortedSeries.flatMap fun d => d.seriesNames.map d.child) =
      taken SeriesDir.name (fun d => d.seriesNames.map normal) D.sortedSeries := by
  simp only [taken, List.map_map]
  refine List.flatMap_congr fun d hd => List.map_congr_left fun n hn => ?_
  rw [SeriesDir.child, if_neg (h d (mem_sortedSeries.1 hd) n hn)]
  rfl

theorem sortedSeries_pairwise (D : PatchDir) :
    D.sortedSeries.Pairwise fun d e => d.name ≤ e.name := by
  let r : SeriesDir → SeriesDir → Prop := fun d e => d.name ≤ e.name
  have : Std.Total r := ⟨fun d e => String.le_total d.name e.name⟩
  have : IsTrans SeriesDir r := ⟨fun _ _ _ => String.le_trans⟩
  exact List.pairwise_insertionSort r D.subdirs

/-- The gate's list can only be the script's if no series lists an absolute path. -/
theorem relative_of_eq {D : PatchDir}
    (h : (D.globSeries.flatMap fun d => d.listed.map fun line => (d.target line).normal) =
      D.sortedSeries.flatMap fun d => d.seriesNames.map d.child) :
    ∀ d ∈ D.subdirs, ∀ n ∈ d.seriesNames, n.head? ≠ some '/' := by
  intro d hd n hn hslash
  have hmem : d.child n ∈ D.sortedSeries.flatMap fun d => d.seriesNames.map d.child :=
    List.mem_flatMap.2 ⟨d, mem_sortedSeries.2 hd, List.mem_map_of_mem hn⟩
  rw [← h] at hmem
  obtain ⟨e, -, hfile⟩ := List.mem_flatMap.1 hmem
  obtain ⟨line, -, hline⟩ := List.mem_map.1 hfile
  rw [SeriesDir.child, if_pos hslash] at hline
  cases hline

theorem own_append_inj {own own' : List String} {series series' : List File}
    (h : ∀ name, .own name ∉ series) (h' : ∀ name, .own name ∉ series') :
    own.map .own ++ series = own'.map .own ++ series' ↔ own = own' ∧ series = series' := by
  induction own generalizing own' with
  | nil =>
    cases own' with
    | nil => simp
    | cons name own' =>
      refine iff_of_false (fun heq => h name ?_) (by simp)
      rw [List.map_nil, List.nil_append] at heq
      simp [heq]
  | cons name own ih =>
    cases own' with
    | nil =>
      refine iff_of_false (fun heq => h' name ?_) (by simp)
      rw [List.map_nil, List.nil_append] at heq
      simp [← heq]
    | cons name' own' => simp [ih, and_assoc]

/-- Two stacks are equal exactly if each part of them is. -/
theorem scriptStack_eq_iff (D : PatchDir) : D.scriptStack = D.gateStack ↔ D.SameStack := by
  have hscript : ∀ name, File.own name ∉
      D.globSeries.flatMap fun d => d.listed.map fun line => (d.target line).normal := by
    simp [SeriesDir.target, File.normal]
  have hgate : ∀ name, File.own name ∉ D.sortedSeries.flatMap fun d => d.seriesNames.map d.child := by
    intro name hmem
    obtain ⟨d, -, hd⟩ := List.mem_flatMap.1 hmem
    obtain ⟨n, -, hn⟩ := List.mem_map.1 hd
    unfold SeriesDir.child at hn
    split at hn <;> cases hn
  unfold scriptStack gateStack
  rw [own_append_inj hscript hgate, globPatches_eq_iff]
  constructor
  · rintro ⟨hown, hseries⟩
    have hrelative := relative_of_eq hseries
    rw [scriptSeries_eq, gateSeries_eq hrelative, taken_eq_iff D.sortedSeries_pairwise] at hseries
    exact ⟨hown, hrelative, hseries.1, by simpa using hseries.2⟩
  · intro h
    refine ⟨h.own, ?_⟩
    rw [scriptSeries_eq, gateSeries_eq h.relative, taken_eq_iff D.sortedSeries_pairwise]
    exact ⟨h.paths, by simpa using h.order⟩

/-! ## Agreement -/

/-- Two partial results are the same if neither or both exist, in the latter case with
one value. -/
theorem same_result_iff {α : Type} {p q : Prop} {a b : α} :
    (∀ c, (p ∧ a = c) ↔ (q ∧ b = c)) ↔ (¬ p ∧ ¬ q) ∨ (p ∧ q ∧ a = b) := by
  by_cases hp : p
  · by_cases hq : q
    · simp only [hp, hq, true_and, not_true, and_false, false_or]
      exact ⟨fun h => ((h _).1 rfl).symm, fun h c => by rw [h]⟩
    · simp only [hp, hq, true_and, false_and, iff_false, and_false, or_false]
      simp
  · by_cases hq : q
    · simp only [hp, hq, true_and, false_and, false_iff, or_false]
      simp
    · simp [hp, hq]

/-- The script exits 0 having applied `L` exactly if the gate has no errors and the
list `L`. -/
def Agree (D : PatchDir) (name : String) : Prop :=
  ∀ L, D.applyCarriedPatches = some L ↔ D.carriedPatches name = ([], L)

/-- **The script and the gate agree on a patch directory exactly if either each finds
a series out of order, or neither does and the parts of the two stacks are the same.** -/
theorem scripts_agree_iff (D : PatchDir) (name : String) :
    D.Agree name ↔
      ((∃ d ∈ D.subdirs, visible d.name ∧ ¬ D.InOrderScript d) ∧
        ∃ d ∈ D.subdirs, ¬ D.InOrderGate d) ∨
      ((∀ d ∈ D.subdirs, visible d.name → D.InOrderScript d) ∧
        (∀ d ∈ D.subdirs, D.InOrderGate d) ∧ D.SameStack) := by
  simp only [Agree, applyCarriedPatches_eq_some, carriedPatches_eq_clean, ← scriptStack_eq_iff]
  rw [same_result_iff]
  simp

end PatchDir

/-- Two series directories, the name of one the start of the other's. -/
def sAndSb : PatchDir where
  name := "vllm"
  subdirs := [⟨"s", "0001-a.patch\n"⟩, ⟨"s-b", "0002-b.patch\n"⟩]
  ls dir := if dir = "s" then ["0001-a.patch", "series"]
    else if dir = "s-b" then ["0002-b.patch", "series"] else ["s", "s-b"]
  there _ := true
  isFile _ := true
  nodup := by decide
  noSlash := by decide

/-- The script sorts `s-b/series` before `s/series`, and the gate `s` before `s-b`:
both accept the directory, with its two patches in opposite orders. -/
theorem sAndSb_order :
    let a := File.series "s" "0001-a.patch".toList
    let b := File.series "s-b" "0002-b.patch".toList
    sAndSb.applyCarriedPatches = some [b, a] ∧ sAndSb.carriedPatches "vllm" = ([], [a, b]) ∧
      ¬ sAndSb.Agree "vllm" := by
  have hscript : sAndSb.applyCarriedPatches = some [.series "s-b" "0002-b.patch".toList,
      .series "s" "0001-a.patch".toList] := by decide
  have hgate : sAndSb.carriedPatches "vllm" = ([], [.series "s" "0001-a.patch".toList,
      .series "s-b" "0002-b.patch".toList]) := by decide
  refine ⟨hscript, hgate, fun h => ?_⟩
  have := (h _).1 hscript
  rw [hgate] at this
  revert this
  decide

end LlmkubeRuntimes.Pins
