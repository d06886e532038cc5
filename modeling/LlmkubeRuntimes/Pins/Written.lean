import Mathlib.Data.List.Pairwise
import LlmkubeRuntimes.Pins.SeriesLine
import LlmkubeRuntimes.Pins.Stack

/-!
# Patch directories line by line

Where series files are written line by line, the disagreements of the script
and the gate can be read off the names.

* `Kept`: the rules of a series, on its lines;
* `SameNames`: what makes two accepted stacks the same;
* `agree_iff_written`: when the script and the gate agree.
-/

namespace LlmkubeRuntimes.Pins

open LlmkubeRuntimes.Lib (nul)

namespace PatchDir

/-- The rules of a series with the given lines: no `word` twice, every patch
that is `seen` listed by its word, every listed file there. -/
structure Kept (D : PatchDir) (d : SeriesDir) (lines : List SeriesLine) (word : SeriesLine → Line)
    (seen : String → Bool) (file : Line → File) : Prop where
  once : (lines.map word).Nodup
  listed : ∀ p ∈ D.ls d.name, isPatch p → seen p → ∃ l ∈ lines, word l = p.toList
  present : ∀ l ∈ lines, D.isFile (file l.name)

/-- To the script a word has its indentation, and a patch is seen if a glob matches it. -/
def KeptScript (D : PatchDir) (d : SeriesDir) (lines : List SeriesLine) : Prop :=
  D.Kept d lines SeriesLine.entry (fun p => visible p && D.there (.series d.name p.toList))
    (.series d.name)

/-- To the gate a word is a name, and all patches are seen. -/
def KeptGate (D : PatchDir) (d : SeriesDir) (lines : List SeriesLine) : Prop :=
  D.Kept d lines SeriesLine.name (fun _ => true) fun n =>
    if n.head? = some '/' then .absolute (normal n) else .series d.name (normal n)

/-- The lines of the series files, for names that are no trouble to the shell. -/
structure Written (D : PatchDir) (lines : SeriesDir → List SeriesLine) : Prop where
  series : ∀ d ∈ D.subdirs, d.series.toList = ['\n'].intercalate ((lines d).map (·.text))
  subdirs : ∀ d ∈ D.subdirs, '\n' ∉ d.name.toList ∧ nul ∉ d.name.toList
  patches : ∀ d ∈ D.subdirs, ∀ p ∈ D.ls d.name, isPatch p → '\n' ∉ p.toList ∧ nul ∉ p.toList

/-- The names by which two accepted stacks are the same. -/
structure SameNames (D : PatchDir) (lines : SeriesDir → List SeriesLine) : Prop where
  /-- No patch of the directory's own is hidden or a broken link. -/
  own : ∀ p ∈ D.ls "", isPatch p → visible p ∧ D.there (.own p)
  relative : ∀ d ∈ D.subdirs, ∀ l ∈ naming (lines d), l.name.head? ≠ some '/'
  /-- A hidden series lists nothing. -/
  hidden : ∀ d ∈ D.subdirs, ¬ visible d.name → naming (lines d) = []
  /-- No series that lists anything has the name of another followed by a character
  below `/`. -/
  order : ∀ d ∈ D.subdirs, ∀ e ∈ D.subdirs, naming (lines d) ≠ [] → naming (lines e) ≠ [] →
    ∀ c rest, e.name.toList = d.name.toList ++ c :: rest → '/' < c

/-! ## One directory -/

variable {D : PatchDir} {lines : SeriesDir → List SeriesLine} {d : SeriesDir}

namespace Written

/-- Directories with ordinary characters in their series are written line by line. -/
theorem of_ordinary (htext : ∀ d ∈ D.subdirs, ∀ c ∈ d.series.toList, c = '\n' ∨ Ordinary c)
    (hsubdirs : ∀ d ∈ D.subdirs, '\n' ∉ d.name.toList ∧ nul ∉ d.name.toList)
    (hpatches : ∀ d ∈ D.subdirs, ∀ p ∈ D.ls d.name, isPatch p → '\n' ∉ p.toList ∧ nul ∉ p.toList) :
    ∃ lines, D.Written lines := by
  choose! lines hlines using fun d hd => SeriesLine.exists_lines (htext d hd)
  exact ⟨lines, hlines, hsubdirs, hpatches⟩

theorem sdir_eq (h : D.Written lines) (hd : d ∈ D.subdirs) : d.sdir = d.name := by
  obtain ⟨hnewline, hnul⟩ := h.subdirs d hd
  rw [SeriesDir.sdir, SeriesDir.substitute_name hnewline hnul, String.ofList_toList]

theorem listed_eq (h : D.Written lines) (hd : d ∈ D.subdirs) :
    d.listed = (naming (lines d)).map (·.entry) :=
  SeriesDir.listed_eq (h.series d hd)

theorem seriesNames_eq (h : D.Written lines) (hd : d ∈ D.subdirs) :
    d.seriesNames = (naming (lines d)).map (·.name) :=
  SeriesDir.seriesNames_eq (h.series d hd)

/-- The script holds a series to its rules on the lines. -/
theorem inOrderScript_iff (h : D.Written lines) (hd : d ∈ D.subdirs) :
    D.InOrderScript d ↔ D.KeptScript d (naming (lines d)) := by
  have hlisted := h.listed_eq hd
  have hnil : [] ∉ d.listed := by
    rw [hlisted, List.mem_map]
    rintro ⟨l, hl, hnil⟩
    exact SeriesLine.entry_ne_nil.2 (of_decide_eq_true (List.mem_filter.1 hl).2) hnil
  have hmentions : (∀ p ∈ D.globPatches d.sdir fun p => .series d.sdir p.toList, d.mentions p) ↔
      ∀ p ∈ D.ls d.name, isPatch p → (visible p && D.there (.series d.name p.toList)) →
        ∃ l ∈ naming (lines d), l.entry = p.toList := by
    rw [h.sdir_eq hd]
    simp only [globPatches, List.mem_filter, sortNames, List.mem_insertionSort, Bool.and_eq_true,
      and_imp]
    refine forall₂_congr fun p hp => ?_
    rw [forall_comm]
    refine forall_congr' fun hpatch => forall₂_congr fun _ _ => ?_
    obtain ⟨hnewline, hnul⟩ := h.patches d hd p hp hpatch
    rw [SeriesDir.mentions_iff hnewline hnul hpatch, hlisted, List.mem_map]
  have hthere : (∀ line ∈ d.listed, D.isFile (d.target line)) ↔
      ∀ l ∈ naming (lines d), D.isFile (.series d.name l.name) := by
    rw [hlisted, List.forall_mem_map]
    refine forall₂_congr fun l _ => ?_
    rw [SeriesDir.target, h.sdir_eq hd, l.read_entry]
  rw [InOrderScript, SeriesDir.dups_eq_nil_iff hnil, hmentions, hthere, hlisted]
  exact ⟨fun hrules => ⟨hrules.1, hrules.2.1, hrules.2.2⟩,
    fun hkept => ⟨hkept.once, hkept.listed, hkept.present⟩⟩

/-- So does the gate. -/
theorem inOrderGate_iff (h : D.Written lines) (hd : d ∈ D.subdirs) :
    D.InOrderGate d ↔ D.KeptGate d (naming (lines d)) := by
  have hlisted : (∀ p ∈ D.patches d.name, p.toList ∈ d.seriesNames) ↔
      ∀ p ∈ D.ls d.name, isPatch p → true → ∃ l ∈ naming (lines d), l.name = p.toList := by
    simp only [PatchDir.patches, sortNames, List.mem_insertionSort, List.mem_filter, and_imp,
      h.seriesNames_eq hd, List.mem_map, forall_const]
  have hthere : (∀ n ∈ d.seriesNames, D.isFile (d.child n)) ↔ ∀ l ∈ naming (lines d), D.isFile
      (if l.name.head? = some '/' then .absolute (normal l.name)
        else .series d.name (normal l.name)) := by
    rw [h.seriesNames_eq hd, List.forall_mem_map]
    rfl
  rw [InOrderGate, hlisted, hthere, h.seriesNames_eq hd]
  exact ⟨fun hrules => ⟨hrules.1, hrules.2.1, hrules.2.2⟩,
    fun hkept => ⟨hkept.once, hkept.listed, hkept.present⟩⟩

end Written

/-! ## The order of the directories -/

/-- Putting the same character after two texts keeps their order, unless one continues the
other with a lower one. -/
theorem append_lt_append {x : Char} {l l' u v : List Char} (h : l < l')
    (hext : ∀ c rest, l' = l ++ c :: rest → x < c) : l ++ x :: u < l' ++ x :: v := by
  induction h with
  | nil => exact .rel (hext _ _ rfl)
  | rel hlt => exact .rel hlt
  | cons _ ih => exact .cons (ih fun c rest heq => hext c rest (by rw [heq]; rfl))

theorem globbed_lt {d e : SeriesDir} (h : d.name < e.name)
    (hext : ∀ c rest, e.name.toList = d.name.toList ++ c :: rest → '/' < c) :
    d.globbed < e.globbed := by
  rw [String.lt_iff, SeriesDir.globbed, SeriesDir.globbed, String.toList_append,
    String.toList_append]
  exact append_lt_append (String.lt_iff.1 h) hext

/-- A name that continues another with a character below `/` is sorted before it. -/
theorem globbed_lt_of_low {d e : SeriesDir} {c : Char} {rest : List Char}
    (h : e.name.toList = d.name.toList ++ c :: rest) (hc : c < '/') : e.globbed < d.globbed := by
  rw [String.lt_iff, SeriesDir.globbed, SeriesDir.globbed, String.toList_append,
    String.toList_append, h, List.append_assoc]
  exact List.append_left_lt (.rel hc)

theorem globSeries_pairwise (D : PatchDir) :
    D.globSeries.Pairwise fun d e => d.globbed ≤ e.globbed := by
  let r : SeriesDir → SeriesDir → Prop := fun d e => d.globbed ≤ e.globbed
  have : Std.Total r := ⟨fun d e => String.le_total d.globbed e.globbed⟩
  have : IsTrans SeriesDir r := ⟨fun _ _ _ => String.le_trans⟩
  exact List.pairwise_insertionSort r _

/-- Of the series the script visits, the one of a name is the gate's. -/
theorem globSeries_filter (D : PatchDir) (dir : String) :
    D.globSeries.filter (·.name = dir) =
      (D.sortedSeries.filter (·.name = dir)).filter fun d => visible d.name := by
  have hperm : D.globSeries.Perm (D.sortedSeries.filter fun d => visible d.name) :=
    (List.perm_insertionSort _ _).trans ((List.perm_insertionSort _ _).symm.filter _)
  have hnodup : (D.globSeries.map (·.name)).Nodup :=
    ((List.perm_insertionSort _ _).map _).nodup_iff.2 (D.nodup.sublist (List.filter_sublist.map _))
  rw [Lib.filter_key_eq_of_perm hperm hnodup, List.filter_comm]

theorem sortedSeries_filter (hd : d ∈ D.subdirs) : D.sortedSeries.filter (·.name = d.name) = [d] :=
  Lib.filter_key_eq_singleton (((List.perm_insertionSort _ _).map _).nodup_iff.2 D.nodup)
    (mem_sortedSeries.2 hd)

namespace Written

theorem listed_ne_nil (h : D.Written lines) (hd : d ∈ D.subdirs) :
    d.listed ≠ [] ↔ naming (lines d) ≠ [] := by
  rw [h.listed_eq hd, Ne, List.map_eq_nil_iff]

/-- The script and the gate take the same paths from every series, if it lists something only
where the script visits it. -/
theorem paths_iff (h : D.Written lines) : (∀ dir, D.scriptPaths dir = D.gatePaths dir) ↔
    ∀ d ∈ D.subdirs, ¬ visible d.name → naming (lines d) = [] := by
  have hscript (dir : String) : D.scriptPaths dir =
      ((D.sortedSeries.filter (·.name = dir)).filter fun d => visible d.name).flatMap fun d =>
        (naming (lines d)).map fun l => normal l.name := by
    have hsdir : D.globSeries.filter (·.sdir = dir) = D.globSeries.filter (·.name = dir) :=
      List.filter_congr fun d hd => by rw [h.sdir_eq (mem_globSeries.1 hd).1]
    rw [scriptPaths, hsdir, globSeries_filter]
    refine List.flatMap_congr fun d hd => ?_
    have hd := mem_sortedSeries.1 (List.mem_of_mem_filter (List.mem_of_mem_filter hd))
    rw [h.listed_eq hd, List.map_map]
    exact List.map_congr_left fun l _ => by rw [Function.comp_apply, l.read_entry]
  have hgate (dir : String) : D.gatePaths dir = (D.sortedSeries.filter (·.name = dir)).flatMap
      fun d => (naming (lines d)).map fun l => normal l.name := by
    rw [gatePaths]
    refine List.flatMap_congr fun d hd => ?_
    rw [h.seriesNames_eq (mem_sortedSeries.1 (List.mem_of_mem_filter hd)), List.map_map]
    rfl
  simp only [hscript, hgate]
  constructor
  · intro hpaths d hd hvisible
    simpa [sortedSeries_filter hd, hvisible] using (hpaths d.name).symm
  · intro hhidden dir
    have hall : ∀ d ∈ D.sortedSeries.filter (·.name = dir), d ∈ D.subdirs := fun d hd =>
      mem_sortedSeries.1 (List.mem_of_mem_filter hd)
    revert hall
    induction D.sortedSeries.filter (·.name = dir) with
    | nil => exact fun _ => rfl
    | cons d ds ih =>
      intro hall
      rw [List.forall_mem_cons] at hall
      by_cases hvisible : visible d.name
      · rw [List.filter_cons, if_pos hvisible, List.flatMap_cons, List.flatMap_cons, ih hall.2]
      · rw [List.filter_cons, if_neg hvisible, List.flatMap_cons, hhidden d hall.1 hvisible,
          ih hall.2]
        rfl

/-- Sorted by path, the directories that list anything are in name order exactly if no name
continues another with a low character. -/
theorem order_iff (h : D.Written lines)
    (hhidden : ∀ d ∈ D.subdirs, ¬ visible d.name → naming (lines d) = []) :
    (D.globSeries.Pairwise fun d e => d.listed ≠ [] → e.listed ≠ [] → d.sdir ≤ e.sdir) ↔
      ∀ d ∈ D.subdirs, ∀ e ∈ D.subdirs, naming (lines d) ≠ [] → naming (lines e) ≠ [] →
        ∀ c rest, e.name.toList = d.name.toList ++ c :: rest → '/' < c := by
  constructor
  · intro horder d hd e he hdne hene c rest hname
    by_contra hc
    have hslash : c ≠ '/' := by
      rintro rfl
      exact D.noSlash e he (hname ▸ List.mem_append_right _ List.mem_cons_self)
    have hlow : c < '/' := lt_of_le_of_ne (not_lt.1 hc) hslash
    have hlt : d.name < e.name := by
      have happend : d.name.toList ++ [] < d.name.toList ++ c :: rest := List.append_left_lt .nil
      rw [List.append_nil] at happend
      rwa [String.lt_iff, hname]
    have hmem {d : SeriesDir} (hd : d ∈ D.subdirs) (hne : naming (lines d) ≠ []) :
        d ∈ D.globSeries := mem_globSeries.2 ⟨hd, by_contra fun hv => hne (hhidden d hd hv)⟩
    -- the two lie one before the other in the sorted list
    let R : SeriesDir → SeriesDir → Prop := fun d e =>
      d.globbed ≤ e.globbed ∧ (d.listed ≠ [] → e.listed ≠ [] → d.sdir ≤ e.sdir)
    let S : SeriesDir → SeriesDir → Prop := fun d e => R d e ∨ R e d
    have : Std.Symm S := ⟨fun _ _ => Or.symm⟩
    have hpairwise : D.globSeries.Pairwise S := (D.globSeries_pairwise.and horder).imp Or.inl
    have hne : d ≠ e := by
      rintro rfl
      exact String.lt_irrefl _ hlt
    rcases hpairwise.forall (hmem hd hdne) (hmem he hene) hne with ⟨hle, -⟩ | ⟨-, hle⟩
    · exact absurd hle (String.not_le.2 (globbed_lt_of_low hname hlow))
    · have hle := hle ((h.listed_ne_nil he).2 hene) ((h.listed_ne_nil hd).2 hdne)
      rw [h.sdir_eq hd, h.sdir_eq he] at hle
      exact absurd hle (String.not_le.2 hlt)
  · intro hnames
    refine D.globSeries_pairwise.imp_of_mem fun {d e} hd he hle hdne hene => ?_
    have hd := (mem_globSeries.1 hd).1
    have he := (mem_globSeries.1 he).1
    rw [h.sdir_eq hd, h.sdir_eq he]
    by_contra hlt
    have hglobbed := globbed_lt (String.not_le.1 hlt)
      (hnames e he d hd ((h.listed_ne_nil he).1 hene) ((h.listed_ne_nil hd).1 hdne))
    exact absurd hle (String.not_le.2 hglobbed)

theorem sameStack_iff (h : D.Written lines) : D.SameStack ↔ D.SameNames lines := by
  constructor
  · intro hsame
    have hhidden := h.paths_iff.1 hsame.paths
    exact {
      own := hsame.own
      relative := fun d hd l hl => hsame.relative d hd l.name
        (h.seriesNames_eq hd ▸ List.mem_map_of_mem hl)
      hidden := hhidden
      order := (h.order_iff hhidden).1 hsame.order }
  · intro hsame
    exact {
      own := hsame.own
      relative := fun d hd n hn => by
        rw [h.seriesNames_eq hd, List.mem_map] at hn
        obtain ⟨l, hl, rfl⟩ := hn
        exact hsame.relative d hd l hl
      paths := h.paths_iff.2 hsame.hidden
      order := (h.order_iff hsame.hidden).2 hsame.order }

end Written

/-- **On series files as they are written, the script and the gate agree exactly if either each
finds a series that breaks its rules, or no series does and the names are no trouble.** -/
theorem agree_iff_written (h : D.Written lines) (name : String) :
    D.Agree name ↔
      ((∃ d ∈ D.subdirs, visible d.name ∧ ¬ D.KeptScript d (naming (lines d))) ∧
        ∃ d ∈ D.subdirs, ¬ D.KeptGate d (naming (lines d))) ∨
      ((∀ d ∈ D.subdirs, visible d.name → D.KeptScript d (naming (lines d))) ∧
        (∀ d ∈ D.subdirs, D.KeptGate d (naming (lines d))) ∧ D.SameNames lines) := by
  have hscript : (∀ d ∈ D.subdirs, visible d.name → D.InOrderScript d) ↔
      ∀ d ∈ D.subdirs, visible d.name → D.KeptScript d (naming (lines d)) :=
    forall₂_congr fun d hd => imp_congr_right fun _ => h.inOrderScript_iff hd
  have hgate : (∀ d ∈ D.subdirs, D.InOrderGate d) ↔
      ∀ d ∈ D.subdirs, D.KeptGate d (naming (lines d)) :=
    forall₂_congr fun d hd => h.inOrderGate_iff hd
  simp only [Agree, applyCarriedPatches_eq_some, carriedPatches_eq_clean, hscript, hgate]
  rw [same_result_iff, scriptStack_eq_iff, h.sameStack_iff]
  simp

end PatchDir

/-- A series with a comment, an empty line and a carriage return. -/
def commented : PatchDir where
  name := "vllm"
  subdirs := [⟨"s", "0002-b.patch # first\r\n\n0001-a.patch\n"⟩]
  ls dir := if dir = "s" then ["0001-a.patch", "0002-b.patch", "series"] else ["s"]
  there _ := true
  isFile _ := true
  nodup := by decide
  noSlash := by decide

def commentedLines : List SeriesLine :=
  [{ name := "0002-b.patch".toList, blanks := [' '], comment := "# first".toList,
      trailer := ['\r'] },
    {}, { name := "0001-a.patch".toList }, {}]

theorem commented_agree : commented.Agree "vllm" := by
  have hwritten : commented.Written fun _ => commentedLines := by
    constructor <;> decide
  refine (PatchDir.agree_iff_written hwritten "vllm").2 (.inr ⟨?script, ?gate, ?names⟩)
  case script =>
    intro d hd _
    obtain rfl := List.mem_singleton.1 hd
    constructor <;> decide
  case gate =>
    intro d hd
    obtain rfl := List.mem_singleton.1 hd
    constructor <;> decide
  case names =>
    refine ⟨by decide, by decide, by decide, fun d hd e he _ _ c rest heq => ?_⟩
    rw [List.mem_singleton.1 hd, List.mem_singleton.1 he] at heq
    exact absurd (congrArg List.length heq) (by simp)

end LlmkubeRuntimes.Pins
