import Mathlib.Data.Finset.Union
import Mathlib.Data.Finset.SDiff
import LlmkubeRuntimes.Lib.Traverse
import LlmkubeRuntimes.Pins.Series

/-!
# New files of a carried patch

`apply_one` of `apply_carried_patches.sh`, on the paths of a checkout.

* `Change`: what a patch does to a path;
* `Git`: `git apply`, its summary, and what a pathspec stands for;
* `createdNames`: the `awk` program on the summary;
* `applyOne`: the patch applied and its new files recorded;
* `LastWord`, `Words`: the last words that the summary has for a change;
* `kept_iff`: when `git clean` keeps every path the patch brings into existence.
-/

namespace LlmkubeRuntimes.Pins

open LlmkubeRuntimes.Lib

/-! ## Patches -/

/-- The paths in the index and in the work tree of a checkout. -/
@[ext]
structure Paths where
  index : Finset Line
  files : Finset Line
  deriving DecidableEq

inductive Change where
  | create (mode name : Line)
  | delete (mode name : Line)
  | rename (old new : Line)
  | copy (old new : Line)
  | modify (name : Line)
  deriving DecidableEq, Repr

namespace Change

def removed : Change → Option Line
  | delete _ name => some name
  | rename old _ => some old
  | _ => none

def added : Change → Option Line
  | create _ name => some name
  | rename _ new => some new
  | copy _ new => some new
  | _ => none

end Change

/-- The work tree after `git apply`: paths are removed first and added then. -/
def applied (patch : List Change) (co : Paths) : Paths :=
  { co with files := co.files \ (patch.filterMap (·.removed)).toFinset ∪
      (patch.filterMap (·.added)).toFinset }

/-- What the script calls. -/
structure Git where
  /-- `git apply --check` -/
  accepts : List Change → Paths → Bool
  /-- How the summary goes on after ` rename ` or ` copy `. -/
  arrow : Line → Line → Line
  /-- The lines of the summary for a file that is modified. -/
  modified : Line → List Line
  /-- Whether `git add` takes a pathspec to stand for a path. It does not for an
  untracked path that is ignored. -/
  covers : Line → Line → Bool

def createMode : Line := " create mode ".toList

def renameHead : Line := " rename ".toList

def copyHead : Line := " copy ".toList

def deleteMode : Line := " delete mode ".toList

/-- `/ create mode /` -/
def saysCreated (line : Line) : Bool := createMode <:+: line

/-- A blank of `awk`, where a line has no line feed. -/
def isAwkBlank (c : Char) : Bool := c = ' ' || c = '\t'

/-- `$NF` -/
def lastField (line : Line) : Line := (line.rdropWhile isAwkBlank).rtakeWhile fun c => !isAwkBlank c

/-- `awk '/ create mode /{print $NF}'` -/
def createdNames (summary : List Char) : List Line :=
  ((summary.splitOn '\n').filter saysCreated).map lastField

/-- `git clean -fdxq` -/
def clean (co : Paths) : Paths := { co with files := co.files.filter (· ∈ co.index) }

namespace Git

variable (git : Git)

/-- The lines `git apply --summary` prints for a change. -/
def lines : Change → List Line
  | .create mode name => [createMode ++ mode ++ ' ' :: name]
  | .delete mode name => [deleteMode ++ mode ++ ' ' :: name]
  | .rename old new => [renameHead ++ git.arrow old new]
  | .copy old new => [copyHead ++ git.arrow old new]
  | .modify name => git.modified name

/-- `git apply --summary` -/
def summary (patch : List Change) : List Char := (patch.flatMap git.lines).flatMap (· ++ ['\n'])

/-- The index after pathspecs are added: a path that one of them stands for is in it
exactly if it is in the work tree. -/
def recorded (specs : List Line) (co : Paths) : Paths :=
  { co with index := (co.index ∪ co.files).filter fun path =>
      if specs.any (git.covers · path) then path ∈ co.files else path ∈ co.index }

/-- `git add -N -- "$f"` fails if the pathspec stands for nothing. -/
def addN (co : Paths) (spec : Line) : Option Paths :=
  if ∃ path ∈ co.index ∪ co.files, git.covers spec path then some (git.recorded [spec] co) else none

end Git

/-- `apply_one`. With `set -e`, a `git add` that fails ends the script. -/
def applyOne (git : Git) (patch : List Change) (co : Paths) : Option Paths :=
  if git.accepts patch co then
    (createdNames (git.summary patch)).foldlM git.addN (applied patch co)
  else none

/-! ## What the summary tells -/

theorem splitOn_flatMap (lines : List Line) :
    (lines.flatMap (· ++ ['\n'])).splitOn '\n' = lines.flatMap (·.splitOn '\n') ++ [[]] := by
  induction lines with
  | nil => rfl
  | cons line lines ih =>
    rw [List.flatMap_cons, List.append_assoc, List.singleton_append, List.splitOn_append_cons_self,
      ih, List.flatMap_cons, List.append_assoc]

/-- The names read off the summary, line by line. -/
theorem createdNames_flatMap (lines : List Line) :
    createdNames (lines.flatMap (· ++ ['\n'])) = lines.flatMap createdNames := by
  have hnil : saysCreated [] = false := by decide
  rw [createdNames, splitOn_flatMap, List.filter_append, List.filter_cons_of_neg (by simp [hnil]),
    List.filter_nil, List.append_nil, List.filter_flatMap, List.map_flatMap]
  rfl

theorem createdNames_summary (git : Git) (patch : List Change) :
    createdNames (git.summary patch) = patch.flatMap fun c => (git.lines c).flatMap createdNames := by
  rw [Git.summary, createdNames_flatMap, List.flatMap_assoc]

/-- A line that has the words gives its last field, and any other line nothing. -/
theorem createdNames_line {line : Line} (h : '\n' ∉ line) :
    createdNames line = if createMode <:+: line then [lastField line] else [] := by
  rw [createdNames, List.splitOn_eq_singleton h, List.filter_singleton, saysCreated]
  split
  next hwords => rw [decide_eq_true hwords]; rfl
  next hwords => rw [decide_eq_false hwords]; rfl

/-- The last word of a text, with nothing but blanks behind it. -/
structure LastWord (text word : Line) : Prop where
  split : ∃ front blanks, text = front ++ word ++ blanks ∧ (∀ c ∈ front.getLast?, isAwkBlank c) ∧
    ∀ c ∈ blanks, isAwkBlank c
  ne_nil : word ≠ []
  plain : ∀ c ∈ word, isAwkBlank c = false

theorem LastWord.lastField_eq {text word : Line} (h : LastWord text word) : lastField text = word := by
  obtain ⟨front, blanks, rfl, hfront, hblanks⟩ := h.split
  have hend : (front ++ word).rdropWhile isAwkBlank = front ++ word := by
    rw [List.rdropWhile_eq_self_iff]
    intro hl
    rw [List.getLast_append_of_ne_nil _ h.ne_nil, h.plain _ (List.getLast_mem h.ne_nil)]
    exact Bool.false_ne_true
  have hstop : front.reverse.takeWhile (fun c => !isAwkBlank c) = [] := by
    cases hrev : front.reverse with
    | nil => rfl
    | cons c rest =>
      have hlast : front.getLast? = some c := by rw [← List.head?_reverse, hrev]; rfl
      exact List.takeWhile_cons_of_neg (by rw [hfront c hlast]; decide)
  rw [lastField, rdropWhile_append_of_pos hblanks, hend, List.rtakeWhile, List.reverse_append,
    List.takeWhile_append_of_pos, hstop, List.append_nil, List.reverse_reverse]
  intro c hc
  rw [h.plain c (List.mem_reverse.1 hc)]
  rfl

/-- A text with a word has a last one. -/
theorem exists_lastWord {text : Line} (h : ∃ c ∈ text, isAwkBlank c = false) :
    ∃ word, LastWord text word := by
  let body := text.rdropWhile isAwkBlank
  have hbody : body ≠ [] := by
    intro hnil
    obtain ⟨c, hc, hblank⟩ := h
    rw [List.rdropWhile_eq_nil_iff.1 hnil c hc] at hblank
    cases hblank
  refine ⟨body.rtakeWhile fun c => !isAwkBlank c, ?_, fun hnil => ?_, fun c hc => ?_⟩
  · refine ⟨body.rdropWhile fun c => !isAwkBlank c, text.rtakeWhile isAwkBlank, ?_, fun c hc => ?_,
      fun c hc => List.mem_rtakeWhile_imp hc⟩
    · rw [List.rdropWhile_append_rtakeWhile, List.rdropWhile_append_rtakeWhile]
    · simpa using getLast?_rdropWhile hc
  · refine List.rtakeWhile_eq_nil_iff.1 hnil hbody ?_
    simpa using List.rdropWhile_last_not isAwkBlank text hbody
  · simpa using List.mem_rtakeWhile_imp hc

/-- Text with a blank at its end may be put before. -/
theorem LastWord.append {text word : Line} (h : LastWord text word) {before : Line}
    (hbefore : ∀ c ∈ before.getLast?, isAwkBlank c) : LastWord (before ++ text) word := by
  obtain ⟨front, blanks, rfl, hfront, hblanks⟩ := h.split
  refine ⟨⟨before ++ front, blanks, by simp only [List.append_assoc], fun c hc => ?_, hblanks⟩,
    h.ne_nil, h.plain⟩
  rw [List.getLast?_append, Option.mem_def, Option.or_eq_some_iff] at hc
  rcases hc with hc | ⟨-, hc⟩
  · exact hfront c hc
  · exact hbefore c hc

namespace Git

variable {git : Git}

/-- The words of a change: of a creation the last word behind ` create mode `, and otherwise
that of every line that has these words in it. -/
def Words (git : Git) : Change → List Line → Prop
  | .create mode name, words => ∃ word, LastWord (mode ++ ' ' :: name) word ∧ words = [word]
  | c, words => List.Forall₂ LastWord ((git.lines c).filter (createMode <:+: ·)) words

/-- The summary of a change has no line feed within a line. -/
def Lines (git : Git) (c : Change) : Prop := ∀ line ∈ git.lines c, '\n' ∉ line

theorem flatMap_createdNames {lines words : List Line} (hlines : ∀ line ∈ lines, '\n' ∉ line)
    (h : List.Forall₂ LastWord (lines.filter (createMode <:+: ·)) words) :
    lines.flatMap createdNames = words := by
  induction lines generalizing words with
  | nil => exact (List.forall₂_nil_left_iff.1 h).symm
  | cons line lines ih =>
    obtain ⟨hline, hlines⟩ := List.forall_mem_cons.1 hlines
    rw [List.flatMap_cons, createdNames_line hline]
    by_cases hwords : createMode <:+: line
    · rw [List.filter_cons, if_pos (decide_eq_true hwords), List.forall₂_cons_left_iff] at h
      obtain ⟨word, words, hword, hrest, rfl⟩ := h
      rw [if_pos hwords, hword.lastField_eq, ih hlines hrest]
      rfl
    · rw [List.filter_cons, if_neg (by simpa using hwords)] at h
      rw [if_neg hwords, ih hlines h]
      rfl

/-- The script reads the words of a change off its summary. -/
theorem Words.eq {c : Change} {words : List Line} (h : git.Words c words) (hlines : git.Lines c) :
    (git.lines c).flatMap createdNames = words := by
  cases c with
  | create mode name =>
    obtain ⟨word, hword, rfl⟩ := h
    refine flatMap_createdNames hlines ?_
    have hsays : createMode <:+: createMode ++ mode ++ ' ' :: name := by
      rw [List.append_assoc]
      exact (List.prefix_append _ _).isInfix
    rw [lines, List.filter_cons, if_pos (decide_eq_true hsays), List.filter_nil, List.append_assoc]
    exact .cons (hword.append (by decide)) .nil
  | delete mode name => exact flatMap_createdNames hlines h
  | rename old new => exact flatMap_createdNames hlines h
  | copy old new => exact flatMap_createdNames hlines h
  | modify name => exact flatMap_createdNames hlines h

/-- So it does with a whole patch. -/
theorem createdNames_of_words {patch : List Change} {words : List (List Line)}
    (h : List.Forall₂ git.Words patch words) (hlines : ∀ c ∈ patch, git.Lines c) :
    createdNames (git.summary patch) = words.flatten := by
  rw [createdNames_summary]
  induction h with
  | nil => rfl
  | cons hc _ ih =>
    obtain ⟨hfirst, hlines⟩ := List.forall_mem_cons.1 hlines
    rw [List.flatMap_cons, hc.eq hfirst, ih hlines, List.flatten_cons]

end Git

/-! ## What is recorded -/

namespace Git

variable {git : Git} {co : Paths}

theorem mem_recorded {specs : List Line} {path : Line} : path ∈ (git.recorded specs co).index ↔
    if specs.any (git.covers · path) then path ∈ co.files else path ∈ co.index := by
  rw [recorded, Finset.mem_filter, Finset.mem_union, and_iff_right_iff_imp]
  split
  · exact .inr
  · exact .inl

theorem recorded_cons (spec : Line) (specs : List Line) :
    git.recorded specs (git.recorded [spec] co) = git.recorded (spec :: specs) co := by
  refine Paths.ext (Finset.ext fun path => ?_) rfl
  rw [mem_recorded, mem_recorded, mem_recorded, List.any_cons, List.any_cons, List.any_nil,
    Bool.or_false]
  show (if specs.any (git.covers · path) then path ∈ co.files else _) ↔ _
  cases git.covers spec path <;> cases specs.any (git.covers · path) <;> rfl

/-- A pathspec stands for a path of the work tree, or for one of the index that none
before it stood for. -/
def Known (git : Git) (co : Paths) (before : List Line) (spec : Line) : Prop :=
  (∃ path ∈ co.files, git.covers spec path) ∨
    ∃ path ∈ co.index, git.covers spec path ∧ ∀ earlier ∈ before, git.covers earlier path = false

theorem known_nil {spec : Line} : git.Known co [] spec ↔
    ∃ path ∈ co.index ∪ co.files, git.covers spec path := by
  constructor
  · rintro (⟨path, hpath, hc⟩ | ⟨path, hpath, hc, -⟩)
    · exact ⟨path, Finset.mem_union_right _ hpath, hc⟩
    · exact ⟨path, Finset.mem_union_left _ hpath, hc⟩
  · rintro ⟨path, hpath, hc⟩
    rcases Finset.mem_union.1 hpath with hpath | hpath
    · exact .inr ⟨path, hpath, hc, fun _ h => absurd h List.not_mem_nil⟩
    · exact .inl ⟨path, hpath, hc⟩

theorem known_recorded {first spec : Line} {before : List Line} :
    git.Known (git.recorded [first] co) before spec ↔ git.Known co (first :: before) spec := by
  constructor
  · rintro (h | ⟨path, hpath, hc, hbefore⟩)
    · exact .inl h
    · rw [mem_recorded, List.any_cons, List.any_nil, Bool.or_false] at hpath
      cases hfirst : git.covers first path with
      | true =>
        rw [if_pos hfirst] at hpath
        exact .inl ⟨path, hpath, hc⟩
      | false =>
        rw [if_neg (by rw [hfirst]; exact Bool.false_ne_true)] at hpath
        exact .inr ⟨path, hpath, hc, List.forall_mem_cons.2 ⟨hfirst, hbefore⟩⟩
  · rintro (h | ⟨path, hpath, hc, hbefore⟩)
    · exact .inl h
    · obtain ⟨hfirst, hbefore⟩ := List.forall_mem_cons.1 hbefore
      refine .inr ⟨path, ?_, hc, hbefore⟩
      rw [mem_recorded, List.any_cons, List.any_nil, Bool.or_false,
        if_neg (by rw [hfirst]; exact Bool.false_ne_true)]
      exact hpath

/-- **All are added** if each is known in its turn. -/
theorem foldlM_addN {specs : List Line} {co' : Paths} :
    specs.foldlM git.addN co = some co' ↔
      (∀ before spec rest, specs = before ++ spec :: rest → git.Known co before spec) ∧
        co' = git.recorded specs co := by
  induction specs generalizing co with
  | nil =>
    have hnone : git.recorded [] co = co := by
      refine Paths.ext (Finset.ext fun path => ?_) rfl
      rw [mem_recorded]
      rfl
    rw [List.foldlM_nil, hnone]
    constructor
    · intro h
      refine ⟨fun before spec rest heq => ?_, (Option.some.inj h).symm⟩
      exact absurd (heq ▸ List.mem_append_right before List.mem_cons_self) List.not_mem_nil
    · rintro ⟨-, rfl⟩
      rfl
  | cons first specs ih =>
    rw [List.foldlM_cons, addN]
    by_cases hfirst : git.Known co [] first
    · rw [if_pos (known_nil.1 hfirst), ← recorded_cons first specs]
      show specs.foldlM git.addN (git.recorded [first] co) = some co' ↔ _
      rw [ih]
      refine and_congr_left fun _ => ⟨fun h before spec rest heq => ?_, fun h before spec rest heq => ?_⟩
      · cases before with
        | nil =>
          obtain ⟨rfl, -⟩ := List.cons.inj heq
          exact hfirst
        | cons b before =>
          obtain ⟨rfl, htail⟩ := List.cons.inj heq
          exact known_recorded.1 (h before spec rest htail)
      · exact known_recorded.2 (h (first :: before) spec rest (by rw [heq]; rfl))
    · rw [if_neg (fun h => hfirst (known_nil.2 h))]
      refine iff_of_false (fun h => nomatch h) fun h => hfirst (h.1 [] first specs rfl)

end Git

/-! ## What is kept -/

/-- The script goes through, and every path that the patch brings into existence is
recorded and kept. -/
def Kept (git : Git) (patch : List Change) (co : Paths) : Prop :=
  ∃ co', applyOne git patch co = some co' ∧
    ∀ path ∈ co'.files, path ∉ co.files → path ∈ co'.index ∧ path ∈ (clean co').files

/-- Every word stands for a path in its turn. -/
def Recognised (git : Git) (patch : List Change) (co : Paths) (words : List Line) : Prop :=
  ∀ before word rest, words = before ++ word :: rest → git.Known (applied patch co) before word

/-- Every new path is in the index already, or one of the words stands for it. -/
def Announced (git : Git) (patch : List Change) (co : Paths) (words : List Line) : Prop :=
  ∀ path ∈ (applied patch co).files, path ∉ co.files →
    path ∈ co.index ∨ ∃ word ∈ words, git.covers word path

section

variable {git : Git} {patch : List Change} {co : Paths} {words : List Line}

theorem applyOne_eq_some {co' : Paths} (h : git.accepts patch co)
    (hwords : createdNames (git.summary patch) = words) : applyOne git patch co = some co' ↔
      Recognised git patch co words ∧ co' = git.recorded words (applied patch co) := by
  rw [applyOne, if_pos h, hwords, Git.foldlM_addN]
  rfl

/-- A path of the work tree is recorded if it was, or if a word stands for it. -/
theorem mem_index_recorded {path : Line} (h : path ∈ (applied patch co).files) :
    path ∈ (git.recorded words (applied patch co)).index ↔
      path ∈ co.index ∨ ∃ word ∈ words, git.covers word path := by
  rw [Git.mem_recorded, ← List.any_eq_true]
  split
  next hany => exact iff_of_true h (.inr hany)
  next hany => exact (or_iff_left hany).symm

theorem Kept.announced (h : git.accepts patch co)
    (hwords : createdNames (git.summary patch) = words) (hkept : Kept git patch co) :
    Announced git patch co words := by
  obtain ⟨co', happly, hkept⟩ := hkept
  obtain ⟨-, rfl⟩ := (applyOne_eq_some h hwords).1 happly
  exact fun path hpath hnew => (mem_index_recorded hpath).1 (hkept path hpath hnew).1

theorem Announced.kept (h : git.accepts patch co)
    (hwords : createdNames (git.summary patch) = words) (hrec : Recognised git patch co words)
    (hann : Announced git patch co words) : Kept git patch co := by
  refine ⟨_, (applyOne_eq_some h hwords).2 ⟨hrec, rfl⟩, fun path hpath hnew => ?_⟩
  have hindex := (mem_index_recorded hpath).2 (hann path hpath hnew)
  exact ⟨hindex, Finset.mem_filter.2 ⟨hpath, hindex⟩⟩

end

/-- Every patch has words, if no mode is blank. -/
theorem Git.exists_words (git : Git) {patch : List Change}
    (h : ∀ c ∈ patch, ∀ mode name, c = .create mode name → ∃ ch ∈ mode, isAwkBlank ch = false) :
    ∃ words, List.Forall₂ git.Words patch words := by
  have hlines (lines : List Line) :
      ∃ words, List.Forall₂ LastWord (lines.filter (createMode <:+: ·)) words :=
    exists_forall₂ fun line hline => exists_lastWord
      ⟨'c', (of_decide_eq_true (List.mem_filter.1 hline).2).subset (by decide), rfl⟩
  refine exists_forall₂ fun c hc => ?_
  cases c with
  | create mode name =>
    obtain ⟨ch, hch, hblank⟩ := h _ hc mode name rfl
    have hwords : ∃ c ∈ mode ++ ' ' :: name, isAwkBlank c = false :=
      ⟨ch, List.mem_append_left _ hch, hblank⟩
    obtain ⟨word, hword⟩ := exists_lastWord hwords
    exact ⟨[word], word, hword, rfl⟩
  | delete mode name => exact hlines _
  | rename old new => exact hlines _
  | copy old new => exact hlines _
  | modify name => exact hlines _

/-- A name of one word. -/
def OneWord (name : Line) : Prop := name ≠ [] ∧ '\n' ∉ name ∧ ∀ c ∈ name, isAwkBlank c = false

instance (name : Line) : Decidable (OneWord name) := by unfold OneWord; infer_instance

/-- The change adds no path and does not speak of a creation, or creates a path that has one
word and stands for itself. -/
def Plain (git : Git) : Change → Prop
  | .create mode name => '\n' ∉ mode ∧ OneWord name ∧ git.covers name name
  | c => c.added = none ∧ ∀ line ∈ git.lines c, '\n' ∉ line ∧ ¬ createMode <:+: line

theorem lines_plain {git : Git} {c : Change} (h : Plain git c) : git.Lines c := by
  cases c with
  | create mode name =>
    intro line hline
    obtain rfl := List.mem_singleton.1 hline
    have hcreate : '\n' ∉ createMode := by decide
    simp [hcreate, h.1, h.2.1.2.1]
  | delete mode name => exact fun line hline => (h.2 line hline).1
  | rename old new => exact nomatch h.1
  | copy old new => exact nomatch h.1
  | modify name => exact fun line hline => (h.2 line hline).1

/-- The one word of a plain change is its new path. -/
theorem words_plain {git : Git} {c : Change} (h : Plain git c) : git.Words c c.added.toList := by
  have hnone (h : ∀ line ∈ git.lines c, '\n' ∉ line ∧ ¬ createMode <:+: line) :
      List.Forall₂ LastWord ((git.lines c).filter (createMode <:+: ·)) [] := by
    rw [List.filter_eq_nil_iff.2 fun line hline => by simpa using (h line hline).2]
    exact .nil
  cases c with
  | create mode name =>
    refine ⟨name, ⟨⟨mode ++ [' '], [], by simp, fun c hc => ?_, by simp⟩, h.2.1.1, h.2.1.2.2⟩, rfl⟩
    rw [List.getLast?_concat, Option.mem_some_iff] at hc
    rw [← hc]
    rfl
  | delete mode name => exact hnone h.2
  | rename old new => exact nomatch h.1
  | copy old new => exact nomatch h.1
  | modify name => exact hnone h.2

theorem covers_plain {git : Git} {c : Change} (h : Plain git c) {path : Line}
    (hpath : c.added = some path) : git.covers path path := by
  cases c with
  | create mode name =>
    obtain rfl := Option.some.inj hpath
    exact h.2.2
  | delete mode name => cases hpath
  | rename old new => exact nomatch h.1
  | copy old new => exact nomatch h.1
  | modify name => cases hpath

theorem mem_applied {patch : List Change} {co : Paths} {path : Line} (hnew : path ∉ co.files) :
    path ∈ (applied patch co).files ↔ ∃ c ∈ patch, c.added = some path := by
  simp [applied, hnew, List.mem_filterMap]

section

variable {git : Git} {patch : List Change}

/-- The script reads the new paths of a plain patch off its summary. -/
theorem createdNames_plain (h : ∀ c ∈ patch, Plain git c) :
    createdNames (git.summary patch) = patch.filterMap (·.added) := by
  have hwords : List.Forall₂ git.Words patch (patch.map (·.added.toList)) :=
    List.forall₂_map_right_iff.2 (List.forall₂_same.2 fun c hc => words_plain (h c hc))
  rw [git.createdNames_of_words hwords fun c hc => lines_plain (h c hc), ← List.flatMap_def]
  exact (List.filterMap_eq_flatMap_toList _ _).symm

/-- **Plain patches are announced**, whatever the checkout. -/
theorem announced_of_plain (h : ∀ c ∈ patch, Plain git c) (co : Paths) :
    Announced git patch co (patch.filterMap (·.added)) := by
  intro path hpath hnew
  obtain ⟨c, hc, hadded⟩ := (mem_applied hnew).1 hpath
  exact .inr ⟨path, List.mem_filterMap.2 ⟨c, hc, hadded⟩, covers_plain (h c hc) hadded⟩

theorem recognised_of_plain (h : ∀ c ∈ patch, Plain git c) (co : Paths) :
    Recognised git patch co (patch.filterMap (·.added)) := by
  intro before name rest heq
  have hmem : name ∈ patch.filterMap (·.added) :=
    heq ▸ List.mem_append_right before List.mem_cons_self
  obtain ⟨c, hc, hadded⟩ := List.mem_filterMap.1 hmem
  exact .inl ⟨name, Finset.mem_union_right _ (List.mem_toFinset.2 hmem),
    covers_plain (h c hc) hadded⟩

/-- A plain patch that applies is kept. -/
theorem kept_of_plain {co : Paths} (h : git.accepts patch co) (hplain : ∀ c ∈ patch, Plain git c) :
    Kept git patch co :=
  (announced_of_plain hplain co).kept h (createdNames_plain hplain) (recognised_of_plain hplain co)

end

/-- The calls of `apply_one` in a run. -/
def applyAll (git : Git) (patches : List (List Change)) (co : Paths) : Option Paths :=
  patches.foldlM (fun co patch => applyOne git patch co) co

/-- Every path that is not in `old` is recorded. -/
def Recorded (old co : Paths) : Prop := ∀ path ∈ co.files, path ∉ old.files → path ∈ co.index

theorem accepts_of_applyOne {git : Git} {patch : List Change} {co co' : Paths}
    (h : applyOne git patch co = some co') : git.accepts patch co := by
  by_contra hno
  rw [applyOne, if_neg hno] at h
  cases h

/-- One call keeps what is recorded, and records what it adds. -/
theorem Recorded.applyOne {git : Git} {patch : List Change} {old co co' : Paths}
    (hplain : ∀ c ∈ patch, Plain git c) (hold : Recorded old co)
    (h : applyOne git patch co = some co') : Recorded old co' := by
  obtain ⟨-, rfl⟩ := (applyOne_eq_some (accepts_of_applyOne h) (createdNames_plain hplain)).1 h
  intro path hpath hnew
  rw [mem_index_recorded hpath]
  by_cases hmem : path ∈ co.files
  · exact .inl (hold path hmem hnew)
  · exact announced_of_plain hplain co path hpath hmem

/-- **A run of plain patches** leaves nothing for `git clean` to remove but what was
untracked before. -/
theorem applyAll_kept {git : Git} {patches : List (List Change)} {co co' : Paths}
    (hplain : ∀ patch ∈ patches, ∀ c ∈ patch, Plain git c) (h : applyAll git patches co = some co')
    {path : Line} (hpath : path ∈ co'.files) (hnew : path ∉ co.files) : path ∈ (clean co').files := by
  have hrun : ∀ now, Recorded co now → applyAll git patches now = some co' → Recorded co co' := by
    clear h
    induction patches with
    | nil =>
      intro now hnow heq
      cases heq
      exact hnow
    | cons patch patches ih =>
      intro now hnow heq
      obtain ⟨hpatch, hplain⟩ := List.forall_mem_cons.1 hplain
      rw [applyAll, List.foldlM_cons] at heq
      obtain ⟨next, hstep, heq⟩ := Option.bind_eq_some_iff.1 heq
      exact ih hplain next (hnow.applyOne hpatch hstep) heq
  have hrec := hrun co (fun p hp hn => absurd hp hn) h
  exact Finset.mem_filter.2 ⟨hpath, hrec path hpath hnew⟩

end LlmkubeRuntimes.Pins
