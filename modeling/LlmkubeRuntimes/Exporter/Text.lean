import LlmkubeRuntimes.Exporter.Series
import LlmkubeRuntimes.Lib.Exposition
import LlmkubeRuntimes.Lib.Sorted
import Mathlib.Data.Finset.Sort
import Mathlib.Data.String.Basic

/-!
# The exposition decodes to the metrics

`writeText` is the text `writeMetrics` prints. Its lines are those of
`writeMetrics`, which come in one group for each name; the text is read back line
by line (`Exposition.parse_lines`).

* `FormatFloat`: what is known of `strconv.FormatFloat`;
* `Exposable`: a metric the format has a text for;
* `escapeLabel_eq`, `formatLabels_eq`: three replacements escape what has to be escaped;
* `writeLines_group`: the group of a name;
* `parse_writeText`: the text decodes to the metrics.
-/

namespace LlmkubeRuntimes.Exporter

open LlmkubeRuntimes.Lib
open LlmkubeRuntimes.Lib.Exposition

variable {V : Type}

/-! ## The text -/

/-- `strconv.FormatFloat(v, 'g', -1, 64)`, and what `strconv.ParseFloat` takes. -/
structure FormatFloat (floats : Floats V) where
  format : V → String
  parses : ∀ v, (floats.parse (format v)).isSome
  chars : ∀ s, (floats.parse s).isSome → ∀ c ∈ s.toList, isFloatChar c

/-- `strings.ReplaceAll` of a character. -/
def replaceAll (value : List Char) (old : Char) (new : List Char) : List Char :=
  value.flatMap fun c => if c = old then new else [c]

def escapeLabel (value : String) : List Char :=
  let value := replaceAll value.toList '\\' ['\\', '\\']
  let value := replaceAll value '\n' ['\\', 'n']
  replaceAll value '"' ['\\', '"']

def formatLabels (labels : Labels) : List Char :=
  let keys := labels.keys.sort (· ≤ ·)
  if keys = [] then []
  else
    let parts := keys.map fun key =>
      key.toList ++ ("=\"".toList ++ (escapeLabel ((labels.lookup key).getD "") ++ ['"']))
    ['{'] ++ (List.intercalate [','] parts ++ ['}'])

/-- A line without its line feed. -/
def Line.text (format : V → String) : Line V → List Char
  | .help name text =>
    '#' :: ' ' :: ("HELP".toList ++ ' ' :: (name.toList ++ ' ' :: text.toList))
  | .type name type_ =>
    '#' :: ' ' :: ("TYPE".toList ++ ' ' :: (name.toList ++ ' ' :: type_.toList))
  | .sample name labels value => name.toList ++ (formatLabels labels ++ ' ' :: (format value).toList)

def writeText (format : V → String) (metrics : List (Metric V)) : List Char :=
  (writeMetrics metrics).flatMap fun line => line.text format ++ ['\n']

/-! ## Labels -/

theorem escapeLabel_eq (value : String) : escapeLabel value = escape value.toList := by
  unfold escapeLabel replaceAll escape
  simp only [List.flatMap_assoc]
  refine List.flatMap_congr fun c _ => ?_
  unfold escapeChar
  by_cases hslash : c = '\\'
  · subst hslash
    rfl
  by_cases hline : c = '\n'
  · subst hline
    rfl
  · simp [hslash, hline]

/-- The labels in the order of their keys. -/
def labelList (labels : Labels) : List (String × String) :=
  (labels.keys.sort (· ≤ ·)).map fun key => (key, (labels.lookup key).getD "")

theorem formatLabels_eq (labels : Labels) : formatLabels labels = labelText (labelList labels) := by
  unfold formatLabels labelText labelList
  simp only [List.map_eq_nil_iff, List.map_map, escapeLabel_eq]
  rfl

theorem keys_labelList (labels : Labels) :
    (labelList labels).map Prod.fst = labels.keys.sort (· ≤ ·) := by
  rw [labelList, List.map_map]
  exact List.map_id _

theorem dlookup_map (f : String → String) (keys : List String) (a : String) :
    (keys.map fun key => (⟨key, f key⟩ : Sigma fun _ : String => String)).dlookup a =
      if a ∈ keys then some (f a) else none := by
  induction keys with
  | nil => rfl
  | cons key keys ih =>
    rw [List.map_cons]
    by_cases h : a = key
    · subst h
      rw [List.dlookup_cons_eq, if_pos List.mem_cons_self]
    · rw [List.dlookup_cons_ne _ _ h, ih]
      simp [h]

/-- The labels are those listed. -/
theorem toLabels_labelList (labels : Labels) : toLabels (labelList labels) = labels := by
  refine Finmap.ext_lookup fun a => ?_
  rw [toLabels, Finmap.dlookup_list_toFinmap, labelList, List.map_map]
  refine (dlookup_map (fun key => (labels.lookup key).getD "") _ a).trans ?_
  have hmem : a ∈ labels.keys.sort (· ≤ ·) ↔ (labels.lookup a).isSome := by
    rw [Finset.mem_sort, Finmap.mem_keys, Finmap.lookup_isSome]
  simp only [hmem]
  cases labels.lookup a <;> rfl

/-! ## Groups -/

def Line.name : Line V → String
  | .help name _ => name
  | .type name _ => name
  | .sample name _ _ => name

def Metric.sample (m : Metric V) : Line V := .sample (fullName m.name) m.labels m.value

theorem writeLines_congr {seen seen' : List String} (h : ∀ name, name ∈ seen ↔ name ∈ seen')
    (ms : List (Metric V)) : writeLines seen ms = writeLines seen' ms := by
  induction ms generalizing seen seen' with
  | nil => rfl
  | cons m ms ih =>
    have hcons : ∀ name, name ∈ fullName m.name :: seen ↔ name ∈ fullName m.name :: seen' :=
      fun name => by rw [List.mem_cons, List.mem_cons, h]
    simp only [writeLines, h, ih h, ih hcons]

theorem writeLines_append (seen : List String) (xs ys : List (Metric V)) :
    writeLines seen (xs ++ ys) =
      writeLines seen xs ++ writeLines (xs.map (fullName ·.name) ++ seen) ys := by
  induction xs generalizing seen with
  | nil => rfl
  | cons m xs ih =>
    rw [List.cons_append, writeLines, writeLines]
    split
    · rename_i hseen
      rw [ih, List.cons_append]
      refine congrArg (fun rest => _ :: (_ ++ rest)) (writeLines_congr (fun name => ?_) ys)
      simp only [List.map_cons, List.cons_append, List.mem_cons, List.mem_append]
      constructor
      · exact .inr
      · rintro (rfl | h)
        · exact .inr hseen
        · exact h
    · rw [ih]
      simp only [List.cons_append]
      refine congrArg (fun rest => _ :: _ :: _ :: (_ ++ rest)) (writeLines_congr (fun name => ?_) ys)
      simp only [List.map_cons, List.cons_append, List.mem_cons, List.mem_append]
      exact or_left_comm

/-- The lines of a metric, of which all but the last are left out where its name is seen. -/
def Metric.lines (m : Metric V) : List (Line V) :=
  [.help (fullName m.name) m.help, .type (fullName m.name) m.type_, m.sample]

theorem Metric.forall_mem_lines {m : Metric V} {P : Line V → Prop} :
    (∀ line ∈ m.lines, P line) ↔
      P (.help (fullName m.name) m.help) ∧ P (.type (fullName m.name) m.type_) ∧ P m.sample := by
  simp [Metric.lines]

theorem Metric.name_of_mem_lines {m : Metric V} : ∀ line ∈ m.lines, line.name = fullName m.name :=
  Metric.forall_mem_lines.2 ⟨rfl, rfl, rfl⟩

/-- Every line is of a metric. -/
theorem mem_writeLines {seen : List String} {ms : List (Metric V)} {line : Line V}
    (h : line ∈ writeLines seen ms) : ∃ m ∈ ms, line ∈ m.lines := by
  induction ms generalizing seen with
  | nil => exact absurd h List.not_mem_nil
  | cons m ms ih =>
    have htail : ∀ {seen}, line ∈ writeLines seen ms → ∃ m' ∈ m :: ms, line ∈ m'.lines :=
      fun h => (ih h).imp fun _ h => ⟨List.mem_cons_of_mem m h.1, h.2⟩
    rw [writeLines] at h
    split at h
    · rcases List.mem_cons.1 h with rfl | h
      · exact ⟨m, List.mem_cons_self, by simp [Metric.lines, Metric.sample]⟩
      · exact htail h
    · simp only [List.mem_cons] at h
      rcases h with rfl | rfl | rfl | h
      · exact ⟨m, List.mem_cons_self, by simp [Metric.lines]⟩
      · exact ⟨m, List.mem_cons_self, by simp [Metric.lines]⟩
      · exact ⟨m, List.mem_cons_self, by simp [Metric.lines, Metric.sample]⟩
      · exact htail h

theorem name_writeLines {seen : List String} {ms : List (Metric V)} {line : Line V}
    (h : line ∈ writeLines seen ms) : ∃ m ∈ ms, line.name = fullName m.name :=
  (mem_writeLines h).imp fun m h => ⟨h.1, m.name_of_mem_lines line h.2⟩

/-- Metrics whose name is seen have their samples only. -/
theorem writeLines_seen {seen : List String} {ms : List (Metric V)}
    (h : ∀ m ∈ ms, fullName m.name ∈ seen) : writeLines seen ms = ms.map Metric.sample := by
  induction ms with
  | nil => rfl
  | cons m ms ih =>
    obtain ⟨hm, hms⟩ := List.forall_mem_cons.1 h
    rw [writeLines, if_pos hm, ih hms]
    rfl

/-- The lines of metrics of one name between metrics of other names. -/
theorem writeLines_between {xs group : List (Metric V)} (ys : List (Metric V)) {first : Metric V}
    (hxs : ∀ m ∈ xs, m.name ≠ first.name) (hgroup : ∀ m ∈ group, m.name = first.name) :
    ∃ seen, writeLines [] (xs ++ first :: group ++ ys) =
      writeLines [] xs ++ (.help (fullName first.name) first.help ::
        .type (fullName first.name) first.type_ :: (first :: group).map Metric.sample) ++
        writeLines seen ys := by
  refine ⟨(xs ++ first :: group).map (fullName ·.name) ++ [], ?_⟩
  have hnew : fullName first.name ∉ xs.map (fullName ·.name) ++ [] := by
    rw [List.append_nil, List.mem_map]
    rintro ⟨m, hm, hname⟩
    exact hxs m hm (fullName_injective hname)
  have hseen : ∀ m ∈ group,
      fullName m.name ∈ fullName first.name :: (xs.map (fullName ·.name) ++ []) := fun m hm =>
    hgroup m hm ▸ List.mem_cons_self
  rw [writeLines_append, writeLines_append, writeLines, if_neg hnew, writeLines_seen hseen]
  rfl

/-- **The group of a name.** Its `HELP` and `TYPE` come first, then the samples of its metrics
in order, and no other line is of the name. -/
theorem writeMetrics_group {ms : List (Metric V)} {m : Metric V} (hm : m ∈ ms)
    (hsame : ∀ m' ∈ ms, m'.name = m.name → m'.help = m.help ∧ m'.type_ = m.type_) :
    ∃ before after, writeMetrics ms = before ++
        (.help (fullName m.name) m.help :: .type (fullName m.name) m.type_ ::
          (ms.filter (·.name = m.name)).map Metric.sample) ++ after ∧
      ∀ line ∈ before ++ after, line.name ≠ fullName m.name := by
  have hsplit := sorted_split (r := (· ≤ ·)) Metric.name (fun _ _ _ => String.le_trans)
    (fun _ _ => String.le_antisymm) String.le_total
    (List.pairwise_insertionSort (fun a b : Metric V => a.name ≤ b.name) ms) m.name
  rw [filter_insertionSort (r := (· ≤ ·)) Metric.name String.le_refl] at hsplit
  obtain ⟨first, group, hG⟩ := List.exists_cons_of_ne_nil
    (List.ne_nil_of_mem (List.mem_filter.2 ⟨hm, by simp⟩ : m ∈ ms.filter (·.name = m.name)))
  have hgroup : ∀ m' ∈ first :: group, m' ∈ ms ∧ m'.name = m.name := fun m' hm' => by
    rw [← hG] at hm'
    exact (List.mem_filter.1 hm').imp_right of_decide_eq_true
  obtain ⟨⟨hfirst, hname⟩, hnames⟩ := List.forall_mem_cons.1 hgroup
  obtain ⟨hhelp, htype⟩ := hsame first hfirst hname
  rw [hG] at hsplit ⊢
  -- Before and after the group there are other names only.
  generalize hxs : (ms.insertionSort fun a b => a.name ≤ b.name).filter (¬ m.name ≤ ·.name) = xs
    at hsplit
  generalize hys : (ms.insertionSort fun a b => a.name ≤ b.name).filter (¬ ·.name ≤ m.name) = ys
    at hsplit
  have hbefore : ∀ m' ∈ xs, m'.name ≠ m.name := by
    intro m' hm' heq
    rw [← hxs, List.mem_filter, heq] at hm'
    simp at hm'
  have hafter : ∀ m' ∈ ys, m'.name ≠ m.name := by
    intro m' hm' heq
    rw [← hys, List.mem_filter, heq] at hm'
    simp at hm'
  obtain ⟨seen, hlines⟩ := writeLines_between ys (hname ▸ hbefore) fun m' hm' =>
    (hnames m' hm').2.trans hname.symm
  refine ⟨writeLines [] xs, writeLines seen ys, ?_, fun line hline heq => ?_⟩
  · rw [writeMetrics, hsplit, hlines, hname, hhelp, htype]
  · rcases List.mem_append.1 hline with hline | hline
    · obtain ⟨m', hm', hline⟩ := name_writeLines hline
      exact hbefore m' hm' (fullName_injective (hline.symm.trans heq))
    · obtain ⟨m', hm', hline⟩ := name_writeLines hline
      exact hafter m' hm' (fullName_injective (hline.symm.trans heq))

/-! ## Lines are read back -/

/-- A metric with a text: its names are identifiers, and its help text and its type are ones. -/
structure Exposable (m : Metric V) : Prop where
  name : isMetricName m.name.toList
  keys : ∀ key ∈ m.labels.keys, isLabelName key.toList
  newline : '\n' ∉ m.help.toList
  help : (helpText m.help.toList).isSome
  type : m.type_ ∈ types

/-- What a line is read back as. -/
def Line.entry (format : V → String) : Line V → Entry
  | .help name text => .help name (String.ofList ((helpText (skipBlanks text.toList)).getD []))
  | .type name type_ => .type name type_
  | .sample name labels value => .sample name labels (format value)

theorem Line.name_entry (format : V → String) (line : Line V) :
    (line.entry format).name = line.name := by
  cases line <;> rfl

theorem isMetricName_fullName {name : String} (h : isMetricName name.toList) :
    isMetricName (fullName name).toList := by
  have hlist : (fullName name).toList = 'a' :: ("mdgpu_".toList ++ name.toList) := by
    rw [fullName, String.toList_append]
    rfl
  rw [hlist, isMetricName, List.all_append, List.all_eq_true.2 (isMetricName_cons h).2]
  decide

theorem newline_not_mem_name {name : String} (h : isMetricName name.toList) :
    '\n' ∉ name.toList := fun hmem => absurd ((isMetricName_cons h).2 _ hmem) (by decide)

theorem text_help (format : V → String) (name text : String) :
    (Line.help name text).text format =
      '#' :: ' ' :: ("HELP".toList ++ ' ' :: (name.toList ++ ' ' :: text.toList)) := rfl

theorem text_type (format : V → String) (name type_ : String) :
    (Line.type name type_).text format =
      '#' :: ' ' :: ("TYPE".toList ++ ' ' :: (name.toList ++ ' ' :: type_.toList)) := rfl

theorem text_sample (format : V → String) (name : String) (labels : Labels) (value : V) :
    (Line.sample name labels value).text format =
      name.toList ++ (labelText (labelList labels) ++ ' ' :: (format value).toList) :=
  formatLabels_eq labels ▸ rfl

/-- A comment is on one line if its parts are. -/
theorem newline_not_mem_comment {word name text : List Char} (hword : '\n' ∉ word)
    (hname : '\n' ∉ name) (htext : '\n' ∉ text) :
    '\n' ∉ '#' :: ' ' :: (word ++ ' ' :: (name ++ ' ' :: text)) := by
  simp [hword, hname, htext]

section Decode

variable {floats : Floats V} (F : FormatFloat floats)

/-- The numbers a parser takes. -/
def isFloat (floats : Floats V) (s : String) : Bool := (floats.parse s).isSome

theorem parseLine_text {m : Metric V} (hm : Exposable m) :
    ∀ line ∈ m.lines, '\n' ∉ line.text F.format ∧
      parseLine (isFloat floats) (line.text F.format) = some (some (line.entry F.format)) := by
  have hname := isMetricName_fullName hm.name
  have hnewline := newline_not_mem_name hname
  have hkeys : ∀ pair ∈ labelList m.labels, isLabelName pair.1.toList := by
    intro pair hpair
    obtain ⟨key, hkey, rfl⟩ := List.mem_map.1 hpair
    exact hm.keys key ((Finset.mem_sort _).1 hkey)
  have hnodup : ((labelList m.labels).map Prod.fst).Nodup := by
    rw [keys_labelList]
    exact Finset.sort_nodup _ _
  have hchars := F.chars _ (F.parses m.value)
  refine Metric.forall_mem_lines.2 ⟨⟨?_, ?_⟩, ⟨?_, ?_⟩, ?_, ?_⟩
  · rw [text_help]
    exact newline_not_mem_comment (by decide) hnewline hm.newline
  · obtain ⟨text, htext⟩ := Option.isSome_iff_exists.1 (isSome_helpText_skipBlanks hm.help)
    rw [text_help, parseLine_help hname, htext, Option.map_some, Line.entry, htext, Option.getD_some]
  · have htype : ∀ type ∈ types, '\n' ∉ type.toList := by decide
    rw [text_type]
    exact newline_not_mem_comment (by decide) hnewline (htype _ hm.type)
  · rw [text_type, parseLine_type hname hm.type, Line.entry]
  · have hlabels := newline_not_mem_labelText hkeys
    have hvalue : '\n' ∉ (F.format m.value).toList := fun h => absurd (hchars _ h) (by decide)
    rw [Metric.sample, text_sample]
    simp [hnewline, hlabels, hvalue]
  · rw [Metric.sample, text_sample, parseLine_sample hname hkeys hnodup (F.parses m.value) hchars,
      toLabels_labelList, Line.entry]

/-- The sample of a metric, as it is read back. -/
def Metric.decoded (m : Metric V) : String × Labels × String :=
  (fullName m.name, m.labels, F.format m.value)

theorem samples_writeLines (seen : List String) (ms : List (Metric V)) :
    (writeLines seen ms).filterMap (fun line => (line.entry F.format).sample?) =
      ms.map (Metric.decoded F) := by
  induction ms generalizing seen with
  | nil => rfl
  | cons m ms ih =>
    have hsample : ∀ rest : List (Line V),
        (Line.sample (fullName m.name) m.labels m.value :: rest).filterMap
            (fun line => (line.entry F.format).sample?) =
          m.decoded F :: rest.filterMap fun line => (line.entry F.format).sample? :=
      fun rest => List.filterMap_cons_some rfl
    rw [writeLines]
    split
    · rw [hsample, ih, List.map_cons]
    · rw [List.filterMap_cons_none rfl, List.filterMap_cons_none rfl, hsample, ih, List.map_cons]

/-- **The exposition decodes to the metrics.** The text has an entry for every line; its
samples are the metrics; and the entries of a name are one group, its `HELP` and `TYPE`
and then the samples of its metrics in order. -/
theorem parse_writeText (ms : List (Metric V)) (hms : ∀ m ∈ ms, Exposable m)
    (hsame : ∀ m ∈ ms, ∀ m' ∈ ms, m'.name = m.name → m'.help = m.help ∧ m'.type_ = m.type_) :
    ∃ entries, parse (isFloat floats) (writeText F.format ms) = some entries ∧
      (entries.filterMap Entry.sample?).Perm (ms.map (Metric.decoded F)) ∧
      ∀ m ∈ ms, ∃ before text after, entries = before ++
          (.help (fullName m.name) text :: .type (fullName m.name) m.type_ ::
            (ms.filter (·.name = m.name)).map fun m' =>
              .sample (fullName m'.name) m'.labels (F.format m'.value)) ++ after ∧
        ∀ entry ∈ before ++ after, entry.name ≠ fullName m.name := by
  refine ⟨(writeMetrics ms).map (Line.entry F.format), ?_, ?_, fun m hm => ?_⟩
  · refine parse_lines _ _ _ fun line hline => ?_
    obtain ⟨m, hm, hline⟩ := mem_writeLines hline
    exact parseLine_text F (hms m ((List.perm_insertionSort _ ms).mem_iff.1 hm)) line hline
  · rw [List.filterMap_map]
    refine (samples_writeLines F [] _).symm ▸ ?_
    exact (List.perm_insertionSort _ ms).map _
  · obtain ⟨before, after, hlines, hother⟩ := writeMetrics_group hm (hsame m hm)
    refine ⟨before.map (Line.entry F.format),
      String.ofList ((helpText (skipBlanks m.help.toList)).getD []),
      after.map (Line.entry F.format), ?_, fun entry hentry => ?_⟩
    · rw [hlines, List.map_append, List.map_append, List.map_cons, List.map_cons, List.map_map]
      rfl
    · rw [← List.map_append] at hentry
      obtain ⟨line, hline, rfl⟩ := List.mem_map.1 hentry
      rw [Line.name_entry]
      exact hother line hline

end Decode

/-! ## Examples -/

/-- Decimal numerals. -/
def numerals : Floats Nat where
  parse s := if s ≠ "" ∧ s.toList.all Char.isDigit then some (Nat.ofDigitChars 10 s.toList 0) else none
  div v n := v / n
  ofNat n := n

theorem isDigit_toString (n : Nat) : (toString n).toList ≠ [] ∧ ∀ c ∈ (toString n).toList, c.isDigit := by
  rw [Nat.toString_eq_ofList_toDigits, String.toList_ofList]
  exact ⟨Nat.toDigits_ne_nil, fun c hc => Nat.isDigit_of_mem_toDigits (by decide) (by decide) hc⟩

def formatNumeral : FormatFloat numerals where
  format := toString
  parses n := by
    obtain ⟨hne, hdigits⟩ := isDigit_toString n
    have hparse : toString n ≠ "" ∧ (toString n).toList.all Char.isDigit :=
      ⟨fun h => hne (by rw [h]; rfl), List.all_eq_true.2 hdigits⟩
    simp only [numerals, if_pos hparse, Option.isSome_some]
  chars s hs c hc := by
    simp only [numerals] at hs
    split at hs
    · rename_i h
      have hdigit := List.all_eq_true.1 h.2 c hc
      simp [isFloatChar, Char.isAlphanum, hdigit]
    · exact absurd hs Bool.false_ne_true

/-- A gauge with the given help and type. -/
def gauge (help type_ : String) : Metric Nat :=
  ⟨"fan_rpm", help, type_, (∅ : Labels).insert "sensor" "left \"fan\", {a=b}\n\\", 1200⟩

/-- Names and label keys are identifiers and the help text is on one line, but a backslash in it
that escapes nothing, or a type the format does not have, makes the text unreadable. -/
theorem help_and_type_rejected :
    (∀ m ∈ [gauge "in C:\\dir" "gauge", gauge "Fan speed." "gauges"],
      isMetricName m.name.toList ∧ (∀ key ∈ m.labels.keys, isLabelName key.toList) ∧
        '\n' ∉ m.help.toList) ∧
      parse (isFloat numerals) (writeText formatNumeral.format [gauge "in C:\\dir" "gauge"]) = none ∧
      parse (isFloat numerals) (writeText formatNumeral.format [gauge "Fan speed." "gauges"]) = none :=
  ⟨by decide +kernel, Option.isNone_iff_eq_none.1 (by decide +kernel),
    Option.isNone_iff_eq_none.1 (by decide +kernel)⟩

theorem exposable_gauge : Exposable (gauge "Fan speed." "gauge") where
  name := by decide
  keys := by decide +kernel
  newline := by decide
  help := by decide
  type := by decide

theorem parse_writeText_gauges :
    ∃ entries, parse (isFloat numerals) (writeText formatNumeral.format
        [gauge "Fan speed." "gauge", gauge "Fan speed." "gauge"]) = some entries ∧
      (entries.filterMap Entry.sample?).length = 2 := by
  obtain ⟨entries, hparse, hsamples, -⟩ := parse_writeText formatNumeral
    [gauge "Fan speed." "gauge", gauge "Fan speed." "gauge"]
    (by simp [exposable_gauge]) (by simp)
  exact ⟨entries, hparse, hsamples.length_eq⟩

end LlmkubeRuntimes.Exporter
