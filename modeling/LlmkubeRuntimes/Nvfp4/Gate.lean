import LlmkubeRuntimes.Lib.Lines

/-!
# The dependency section of the NVFP4 gate

Section 3 of the image's gate compares what `pip check` reports in the image with
what it reported in the base, which the build wrote into a receipt.

* `Conflict`, `pipCheck`: what `pip check` reports, and how it prints it;
* `baseReceipt`: the receipt;
* `normalize`, `unexpected`: the pipelines of the section;
* `mem_unexpected`: a line is left over if it is in the live report, is not
  allowed and is not in the base, once versions are dropped.
-/

namespace LlmkubeRuntimes.Nvfp4

open LlmkubeRuntimes.Lib

/-! ## `pip check` -/

/-- A broken requirement of an installed package. -/
inductive Conflict where
  /-- `pkg ver` requires `req`, and `dep depVer` is installed. -/
  | unmet (pkg ver req dep depVer : ShellLine)
  /-- `pkg ver` requires `dep`, which is not installed. -/
  | missing (pkg ver dep : ShellLine)
  deriving DecidableEq, Repr

/-- The words of the two forms, from the space before them. -/
def hasRequirement : ShellLine := " has requirement ".toList

def butYouHave : ShellLine := ", but you have ".toList

def requires : ShellLine := " requires ".toList

def whichIsNotInstalled : ShellLine := ", which is not installed.".toList

def Conflict.line : Conflict → ShellLine
  | .unmet pkg ver req dep depVer =>
    pkg ++ ' ' :: ver ++ hasRequirement ++ req ++ butYouHave ++ dep ++ ' ' :: depVer ++ ['.']
  | .missing pkg ver dep => pkg ++ ' ' :: ver ++ requires ++ dep ++ whichIsNotInstalled

def noConflict : ShellLine := "No broken requirements found.".toList

/-- The output of `pip check`. -/
def pipCheck (conflicts : List Conflict) : List ShellLine :=
  if conflicts = [] then [noConflict] else conflicts.map (·.line)

/-! ## The receipt -/

def pipCheckHead : ShellLine := "### pip check (base, before any change)".toList

def versionsHead : ShellLine := "### versions (base, before any change)".toList

def receiptPackages : List String := ["b12x", "vllm", "torch", "nvidia-cutlass-dsl", "quack-kernels"]

/-- `/opt/llmkube/base-receipt.txt`: the report, and then versions. -/
def baseReceipt (check : List ShellLine) (version : String → ShellLine) (importable : ShellLine) :
    List ShellLine :=
  pipCheckHead :: check ++ versionsHead ::
    receiptPackages.map (fun pkg => pkg.toList ++ '=' :: version pkg) ++
      ["b12x-importable-path=".toList ++ importable]

/-! ## The section -/

/-- `[A-Za-z0-9._-]` -/
def isDistNameChar (c : Char) : Bool := c.isAlphanum || c == '.' || c == '_' || c == '-'

/-- `[[:space:]]` -/
def isSpaceChar (c : Char) : Bool := c == ' ' || (9 ≤ c.toNat && c.toNat ≤ 13)

/-- `/^[[:space:]]*$/` -/
def isBlank (line : ShellLine) : Bool := Lib.isBlank isSpaceChar line

/-- `s/^([A-Za-z0-9._-]+) [0-9][^ ]* has requirement /\1 has requirement /` -/
def stripVersion (line : ShellLine) : ShellLine :=
  match line.dropWhile isDistNameChar with
  | ' ' :: d :: rest =>
    if line.takeWhile isDistNameChar ≠ [] ∧ d.isDigit ∧
        hasRequirement <+: rest.dropWhile (· ≠ ' ') then
      line.takeWhile isDistNameChar ++ rest.dropWhile (· ≠ ' ')
    else line
  | _ => line

def normalize (text : List ShellLine) : List ShellLine :=
  sortUnique ((text.map stripVersion).filter fun line => !isBlank line)

/-- The names that `CUTLASS_FAMILY` alternates over. -/
def cutlassNames : List String :=
  ["nvidia-cutlass-dsl", "nvidia-cutlass-dsl-libs-base", "nvidia-cutlass-dsl-libs-core",
    "nvidia-cutlass-dsl-libs-cu12", "nvidia-cutlass-dsl-libs-cu13"]

/-- What stands before the names in `CUTLASS_FAMILY`. -/
def announcement : ShellLine := "has requirement ".toList

/-- What `CUTLASS_FAMILY` matches for one of the names. -/
def cutlassPattern (name : String) : ShellLine := announcement ++ name.toList ++ ['=', '=']

/-- `grep -E "$CUTLASS_FAMILY"` -/
def matchesCutlass (line : ShellLine) : Bool :=
  cutlassNames.any fun name => cutlassPattern name <:+: line

/-- `base_raw` -/
def baseRaw (receipt : List ShellLine) : List ShellLine :=
  capture ((range (fun line => "### pip check".toList <+: line)
    (fun line => "### versions".toList <+: line) false (emit receipt)).filter
      fun line => ¬ "###".toList <+: line)

/-- `live_rest` -/
def liveRest (liveRaw : List ShellLine) : List ShellLine :=
  let liveNorm := capture (normalize (emit liveRaw))
  capture ((emit liveNorm).filter fun line => !matchesCutlass line)

def unexpected (receipt liveRaw : List ShellLine) : List ShellLine :=
  let baseNorm := capture (normalize (emit (baseRaw receipt)))
  let diff := capture (comm13 (emit baseNorm) (sortUnique (emit (liveRest liveRaw))))
  capture ((emit diff).filter fun line => !isBlank line)

/-- The section fails: something unexpected is left over. -/
def Fails (receipt liveRaw : List ShellLine) : Prop := unexpected receipt liveRaw ≠ []

instance (receipt liveRaw : List ShellLine) : Decidable (Fails receipt liveRaw) := by
  unfold Fails
  infer_instance

/-! ## What is left over -/

theorem ne_nil_of_not_blank {line : ShellLine} (h : isBlank line = false) : line ≠ [] := by
  rintro rfl
  cases h

theorem mem_normalize {text : List ShellLine} {line : ShellLine} (h : isBlank line = false) :
    line ∈ capture (normalize (emit text)) ↔ ∃ l ∈ text, stripVersion l = line := by
  have hne := ne_nil_of_not_blank h
  rw [mem_capture hne, normalize, mem_sortUnique, List.mem_filter, List.mem_map]
  constructor
  · rintro ⟨⟨l, hl, hstrip⟩, -⟩
    have hl' : l ≠ [] := by
      rintro rfl
      exact hne hstrip.symm
    exact ⟨l, (mem_emit hl').1 hl, hstrip⟩
  · rintro ⟨l, hl, hstrip⟩
    have hl' : l ≠ [] := by
      rintro rfl
      exact hne hstrip.symm
    exact ⟨⟨l, (mem_emit hl').2 hl, hstrip⟩, by rw [h]; rfl⟩

theorem mem_liveRest {liveRaw : List ShellLine} {line : ShellLine} (h : isBlank line = false) :
    line ∈ liveRest liveRaw ↔
      (∃ l ∈ liveRaw, stripVersion l = line) ∧ matchesCutlass line = false := by
  have hne := ne_nil_of_not_blank h
  rw [liveRest, mem_capture hne, List.mem_filter, mem_emit hne, mem_normalize h,
    Bool.not_eq_true']

/-- **A line is left over** if the live report has it, it is not allowed and the base
has not got it. -/
theorem mem_unexpected {receipt liveRaw : List ShellLine} {line : ShellLine} :
    line ∈ unexpected receipt liveRaw ↔ isBlank line = false ∧ matchesCutlass line = false ∧
      (∃ l ∈ liveRaw, stripVersion l = line) ∧ ¬ ∃ l ∈ baseRaw receipt, stripVersion l = line := by
  by_cases h : isBlank line = false
  · have hne := ne_nil_of_not_blank h
    have hbase := pairwise_emit_capture (pairwise_sortUnique
      (((emit (baseRaw receipt)).map stripVersion).filter fun line => !isBlank line))
    rw [← normalize] at hbase
    have hdiff := mem_comm13 hbase (pairwise_sortUnique (emit (liveRest liveRaw))) (z := line)
    rw [unexpected, mem_capture hne, List.mem_filter, mem_emit hne, mem_capture hne]
    rw [hdiff, mem_sortUnique]
    rw [mem_emit hne, mem_emit hne, mem_liveRest h, mem_normalize h, Bool.not_eq_true']
    constructor
    · rintro ⟨⟨⟨hlive, hm⟩, hbase⟩, -⟩
      exact ⟨h, hm, hlive, hbase⟩
    · rintro ⟨-, hm, hlive, hbase⟩
      exact ⟨⟨⟨hlive, hm⟩, hbase⟩, h⟩
  · refine iff_of_false (fun hmem => h ?_) fun hand => h hand.1
    have hfilter := (capture_isPrefix _).subset hmem
    simpa using (List.mem_filter.1 hfilter).2

/-- The section fails exactly if a line of the live report is left over. -/
theorem fails_iff {receipt liveRaw : List ShellLine} :
    Fails receipt liveRaw ↔ ∃ l ∈ liveRaw, isBlank (stripVersion l) = false ∧
      matchesCutlass (stripVersion l) = false ∧
      ¬ ∃ b ∈ baseRaw receipt, stripVersion b = stripVersion l := by
  constructor
  · intro h
    obtain ⟨line, hline⟩ := List.exists_mem_of_ne_nil _ h
    obtain ⟨h1, h2, ⟨l, hl, rfl⟩, h3⟩ := mem_unexpected.1 hline
    exact ⟨l, hl, h1, h2, h3⟩
  · rintro ⟨l, hl, h1, h2, h3⟩
    exact List.ne_nil_of_mem (mem_unexpected.2 ⟨h1, h2, ⟨l, hl, rfl⟩, h3⟩)

/-- The lines of the receipt after the report. -/
def versionLines (version : String → ShellLine) (importable : ShellLine) : List ShellLine :=
  receiptPackages.map (fun pkg => pkg.toList ++ '=' :: version pkg) ++
    ["b12x-importable-path=".toList ++ importable]

theorem baseReceipt_eq (check : List ShellLine) (version : String → ShellLine) (importable : ShellLine) :
    baseReceipt check version importable =
      pipCheckHead :: (check ++ versionsHead :: versionLines version importable) := by
  simp [baseReceipt, versionLines]

/-- Only the two heads begin with `#`. -/
theorem versionLines_head {version : String → ShellLine} {importable line : ShellLine}
    (h : line ∈ versionLines version importable) : line.head? ≠ some '#' := by
  rcases List.mem_append.1 h with h | h
  · obtain ⟨pkg, hpkg, rfl⟩ := List.mem_map.1 h
    have hhead : ∀ pkg ∈ receiptPackages, pkg.toList ≠ [] ∧ pkg.toList.head? ≠ some '#' := by
      decide
    rw [List.head?_append_of_ne_nil _ (hhead pkg hpkg).1]
    exact (hhead pkg hpkg).2
  · rw [List.mem_singleton.1 h]
    exact fun hc => nomatch hc

/-- The report comes out of the receipt as it went in. -/
theorem mem_baseRaw {check : List ShellLine} (hcheck : ∀ line ∈ check, line.head? ≠ some '#')
    (version : String → ShellLine) (importable : ShellLine) {line : ShellLine} (hne : line ≠ []) :
    line ∈ baseRaw (capture (baseReceipt check version importable)) ↔ line ∈ check := by
  have hhash : ∀ {l p : ShellLine}, p.head? = some '#' → l.head? ≠ some '#' → decide (p <+: l) = false := by
    intro l p hp hl
    refine decide_eq_false ?_
    rintro ⟨t, rfl⟩
    obtain ⟨p', rfl⟩ := List.head?_eq_some_iff.1 hp
    exact hl rfl
  have hcapture : capture (baseReceipt check version importable) =
      baseReceipt check version importable :=
    capture_concat (List.append_ne_nil_of_left_ne_nil (by decide) _)
  have hrange : range (fun line => "### pip check".toList <+: line)
      (fun line => "### versions".toList <+: line) false (baseReceipt check version importable) =
        pipCheckHead :: (check ++ [versionsHead]) := by
    rw [baseReceipt_eq, range, if_pos (by decide),
      range_true (fun l hl => hhash (by decide) (hcheck l hl)) (by decide),
      range_false fun l hl => hhash (by decide) (versionLines_head hl)]
  rw [baseRaw, hcapture, emit_of_ne_nil (by rw [baseReceipt_eq]; exact List.cons_ne_nil _ _), hrange,
    mem_capture hne, List.mem_filter]
  constructor
  · rintro ⟨hmem, hkeep⟩
    rcases List.mem_cons.1 hmem with rfl | hmem
    · exact absurd hkeep (by decide)
    · rcases List.mem_append.1 hmem with hmem | hmem
      · exact hmem
      · rw [List.mem_singleton] at hmem
        subst hmem
        exact absurd hkeep (by decide)
  · intro hmem
    exact ⟨List.mem_cons_of_mem _ (List.mem_append_left _ hmem),
      by rw [decide_not, hhash (by decide) (hcheck line hmem)]; rfl⟩

end LlmkubeRuntimes.Nvfp4
