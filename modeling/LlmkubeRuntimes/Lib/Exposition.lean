import Mathlib.Data.Finmap
import LlmkubeRuntimes.Lib.Text
import LlmkubeRuntimes.Lib.Traverse

/-!
# The Prometheus text format

`parse` reads an exposition line by line. A line is blank, a comment, the `HELP` or
the `TYPE` of a name, or a sample: a name, labels, a value and perhaps a timestamp.
What the format says of lines together (one group for each name, its `HELP` and
`TYPE` first) is not asked here.

* `quoted`: a label value up to its closing quote, unescaped;
* `helpText`: the text of a `HELP` line, unescaped;
* `parseLine`, `parse`: a line, and an exposition;
* `escape`, `labelText`: a label value and a label set as a writer has to put them.

A line that is written so is read back: `parseLine_help`, `parseLine_type`,
`parseLine_sample`.
-/

namespace LlmkubeRuntimes.Lib.Exposition

/-- What a line says of a name. -/
inductive Entry where
  | help (name text : String)
  | type (name type_ : String)
  | sample (name : String) (labels : Finmap fun _ : String => String) (value : String)

def Entry.name : Entry → String
  | .help name _ => name
  | .type name _ => name
  | .sample name _ _ => name

/-- Name, labels and value of a sample. -/
def Entry.sample? : Entry → Option (String × (Finmap fun _ : String => String) × String)
  | .sample name labels value => some (name, labels, value)
  | _ => none

/-! ## Characters and words -/

def isSpaceTab (c : Char) : Bool := c == ' ' || c == '\t'

def isNameStart (c : Char) : Bool := c.isAlpha || c == '_' || c == ':'

def isNameChar (c : Char) : Bool := isNameStart c || c.isDigit

def isLabelStart (c : Char) : Bool := c.isAlpha || c == '_'

def isLabelChar (c : Char) : Bool := isLabelStart c || c.isDigit

def isMetricName : List Char → Bool
  | [] => false
  | c :: cs => isNameStart c && cs.all isNameChar

def isLabelName : List Char → Bool
  | [] => false
  | c :: cs => isLabelStart c && cs.all isLabelChar

def types : List String := ["counter", "gauge", "histogram", "summary", "untyped"]

def skipBlanks (cs : List Char) : List Char := cs.dropWhile isSpaceTab

/-! ## Parser -/

/-- A label value up to its closing quote, and what comes after. -/
def quoted : List Char → Option (List Char × List Char)
  | [] => none
  | '"' :: rest => some ([], rest)
  | '\\' :: '\\' :: rest => (quoted rest).map fun (value, rest) => ('\\' :: value, rest)
  | '\\' :: '"' :: rest => (quoted rest).map fun (value, rest) => ('"' :: value, rest)
  | '\\' :: 'n' :: rest => (quoted rest).map fun (value, rest) => ('\n' :: value, rest)
  | '\\' :: _ => none
  | c :: rest => (quoted rest).map fun (value, rest) => (c :: value, rest)

/-- The text of a `HELP` line. -/
def helpText : List Char → Option (List Char)
  | [] => some []
  | '\\' :: '\\' :: cs => (helpText cs).map ('\\' :: ·)
  | '\\' :: 'n' :: cs => (helpText cs).map ('\n' :: ·)
  | '\\' :: _ => none
  | c :: cs => (helpText cs).map (c :: ·)

/-- The next character that is not blank is `c`; what comes after it. -/
def expect (c : Char) (cs : List Char) : Option (List Char) :=
  match skipBlanks cs with
  | [] => none
  | d :: rest => if d = c then some rest else none

/-- The labels up to the closing brace, and what comes after; `n` bounds their number. -/
def labelPairs : Nat → List Char → Option (List (String × String) × List Char)
  | 0, _ => none
  | n + 1, cs =>
    match skipBlanks cs with
    | '}' :: rest => some ([], rest)
    | cs => do
      let (key, cs) := cs.span isLabelChar
      guard (isLabelName key)
      let cs ← expect '=' cs
      let cs ← expect '"' cs
      let (value, cs) ← quoted cs
      let pair := (String.ofList key, String.ofList value)
      match skipBlanks cs with
      | ',' :: cs => (labelPairs n cs).map fun (pairs, rest) => (pair :: pairs, rest)
      | '}' :: rest => some ([pair], rest)
      | _ => none

/-- The labels of a sample, if there are any, and what comes after. -/
def parseLabels (cs : List Char) : Option (List (String × String) × List Char) :=
  match skipBlanks cs with
  | '{' :: cs => labelPairs (cs.length + 1) cs
  | cs => some ([], cs)

def toLabels (pairs : List (String × String)) : Finmap fun _ : String => String :=
  (pairs.map fun pair => (⟨pair.1, pair.2⟩ : Sigma fun _ : String => String)).toFinmap

/-- Nothing, or a number and blanks. -/
def isTimestamp (cs : List Char) : Bool :=
  let number (cs : List Char) := cs.takeWhile Char.isDigit ≠ [] ∧
    skipBlanks (cs.dropWhile Char.isDigit) = []
  match cs with
  | [] => true
  | '-' :: cs => number cs
  | cs => number cs

/-- The characters of a number. -/
def isFloatChar (c : Char) : Bool := c.isAlphanum || c == '+' || c == '-' || c == '.' || c == '_'

variable (isFloat : String → Bool)

def parseSample (cs : List Char) : Option Entry := do
  let (name, cs) := cs.span isNameChar
  guard (isMetricName name)
  let (pairs, cs) ← parseLabels cs
  guard (pairs.map Prod.fst).Nodup
  let (value, cs) := (skipBlanks cs).span (!isSpaceTab ·)
  guard (isFloat (String.ofList value) ∧ isTimestamp (skipBlanks cs))
  some (.sample (String.ofList name) (toLabels pairs) (String.ofList value))

/-- A line after `#`; other comments are skipped. -/
def parseComment (cs : List Char) : Option (Option Entry) :=
  let (word, cs) := (skipBlanks cs).span (!isSpaceTab ·)
  let (name, cs) := (skipBlanks cs).span (!isSpaceTab ·)
  let cs := skipBlanks cs
  if word = "HELP".toList then do
    guard (isMetricName name)
    let text ← helpText cs
    some (some (.help (String.ofList name) (String.ofList text)))
  else if word = "TYPE".toList then do
    guard (isMetricName name)
    let (type, cs) := cs.span (!isSpaceTab ·)
    guard (String.ofList type ∈ types ∧ skipBlanks cs = [])
    some (some (.type (String.ofList name) (String.ofList type)))
  else some none

def parseLine (cs : List Char) : Option (Option Entry) :=
  match skipBlanks cs with
  | [] => some none
  | '#' :: cs => parseComment cs
  | cs => (parseSample isFloat cs).map some

/-- The lines of a text, each of which a line feed ends. -/
def lines : List Char → Option (List (List Char))
  | [] => some []
  | '\n' :: cs => (lines cs).map ([] :: ·)
  | c :: cs =>
    match lines cs with
    | some (l :: ls) => some ((c :: l) :: ls)
    | _ => none

def parse (text : List Char) : Option (List Entry) :=
  (lines text).bind fun ls => (ls.mapM (parseLine isFloat)).map (·.filterMap id)

/-! ## Writer -/

def escapeChar (c : Char) : List Char :=
  if c = '\\' then ['\\', '\\'] else if c = '\n' then ['\\', 'n'] else if c = '"' then ['\\', '"'] else [c]

def escape (value : List Char) : List Char := value.flatMap escapeChar

def pairText (pair : String × String) : List Char :=
  pair.1.toList ++ '=' :: '"' :: (escape pair.2.toList ++ ['"'])

/-- Labels between braces; no labels are left out. -/
def labelText (pairs : List (String × String)) : List Char :=
  if pairs = [] then [] else '{' :: (List.intercalate [','] (pairs.map pairText) ++ ['}'])

/-! ## Words are read back -/

theorem span_append {p : Char → Bool} {word rest : List Char} (hword : ∀ c ∈ word, p c)
    (hrest : ∀ c, rest.head? = some c → p c = false) : (word ++ rest).span p = (word, rest) := by
  rw [List.span_eq_takeWhile_dropWhile, takeWhile_append_of_head hword hrest,
    dropWhile_append_of_head hword hrest]

theorem span_all {p : Char → Bool} {word : List Char} (hword : ∀ c ∈ word, p c) :
    word.span p = (word, []) := by
  have hspan : (word ++ []).span p = (word, []) := span_append hword (by simp)
  rwa [List.append_nil] at hspan

theorem skipBlanks_cons {c : Char} (h : isSpaceTab c = false) (cs : List Char) :
    skipBlanks (c :: cs) = c :: cs := by
  rw [skipBlanks, List.dropWhile_cons, h, if_neg Bool.false_ne_true]

theorem expect_cons {c : Char} (h : isSpaceTab c = false) (cs : List Char) :
    expect c (c :: cs) = some cs := by
  rw [expect, skipBlanks_cons h]
  exact if_pos rfl

/-- A class of characters without the two blanks. -/
theorem isSpaceTab_of_class {p : Char → Bool} (hspace : p ' ' = false) (htab : p '\t' = false)
    {c : Char} (h : p c) : isSpaceTab c = false := by
  by_contra hblank
  rw [Bool.not_eq_false, isSpaceTab, Bool.or_eq_true, beq_iff_eq, beq_iff_eq] at hblank
  rcases hblank with rfl | rfl
  · rw [hspace] at h
    cases h
  · rw [htab] at h
    cases h

theorem isSpaceTab_of_isLabelChar {c : Char} (h : isLabelChar c) : isSpaceTab c = false :=
  isSpaceTab_of_class (by decide) (by decide) h

theorem isSpaceTab_of_isNameChar {c : Char} (h : isNameChar c) : isSpaceTab c = false :=
  isSpaceTab_of_class (by decide) (by decide) h

theorem isSpaceTab_of_isFloatChar {c : Char} (h : isFloatChar c) : isSpaceTab c = false :=
  isSpaceTab_of_class (by decide) (by decide) h

theorem isLabelName_cons {cs : List Char} (h : isLabelName cs) :
    cs ≠ [] ∧ ∀ c ∈ cs, isLabelChar c := by
  cases cs with
  | nil => exact absurd h Bool.false_ne_true
  | cons c cs =>
    rw [isLabelName, Bool.and_eq_true, List.all_eq_true] at h
    exact ⟨List.cons_ne_nil c cs,
      List.forall_mem_cons.2 ⟨by rw [isLabelChar, h.1, Bool.true_or], h.2⟩⟩

theorem isMetricName_cons {cs : List Char} (h : isMetricName cs) :
    cs ≠ [] ∧ ∀ c ∈ cs, isNameChar c := by
  cases cs with
  | nil => exact absurd h Bool.false_ne_true
  | cons c cs =>
    rw [isMetricName, Bool.and_eq_true, List.all_eq_true] at h
    exact ⟨List.cons_ne_nil c cs,
      List.forall_mem_cons.2 ⟨by rw [isNameChar, h.1, Bool.true_or], h.2⟩⟩

/-! ## Labels are read back -/

theorem quoted_cons {c : Char} (hquote : c ≠ '"') (hslash : c ≠ '\\') (rest : List Char) :
    quoted (c :: rest) = (quoted rest).map fun (value, rest) => (c :: value, rest) := by
  rw [quoted.eq_def]
  split <;> simp_all

/-- **An escaped value is read back**, whatever it holds. -/
theorem quoted_escape (value rest : List Char) :
    quoted (escape value ++ '"' :: rest) = some (value, rest) := by
  induction value with
  | nil => rfl
  | cons c cs ih =>
    have hcons : escape (c :: cs) = escapeChar c ++ escape cs := List.flatMap_cons
    rw [hcons, List.append_assoc]
    by_cases hslash : c = '\\'
    · subst hslash
      exact congrArg _ ih
    by_cases hline : c = '\n'
    · subst hline
      exact congrArg _ ih
    by_cases hquote : c = '"'
    · subst hquote
      exact congrArg _ ih
    · rw [escapeChar, if_neg hslash, if_neg hline, if_neg hquote, List.singleton_append,
        quoted_cons hquote hslash, ih]
      rfl

/-- One pair and the character after it. -/
theorem labelPairs_pairText {pair : String × String} (hkey : isLabelName pair.1.toList) (n : Nat)
    (rest : List Char) :
    labelPairs (n + 1) (pairText pair ++ ',' :: rest) =
        (labelPairs n rest).map (fun (pairs, rest) => (pair :: pairs, rest)) ∧
      labelPairs (n + 1) (pairText pair ++ '}' :: rest) = some ([pair], rest) := by
  obtain ⟨hne, hall⟩ := isLabelName_cons hkey
  obtain ⟨c, key, hcons⟩ := List.exists_cons_of_ne_nil hne
  have hc : isLabelChar c := hall c (hcons ▸ List.mem_cons_self)
  have hbrace : c ≠ '}' := by
    rintro rfl
    exact absurd hc (by decide)
  have hspan : ∀ tail : List Char, (c :: (key ++ '=' :: tail)).span isLabelChar =
      (c :: key, '=' :: tail) := fun tail => by
    rw [← List.cons_append]
    exact span_append (hcons ▸ hall) (by simp; decide)
  have hread : ∀ d tail, isSpaceTab d = false → labelPairs (n + 1) (pairText pair ++ d :: tail) =
      match d :: tail with
      | ',' :: cs => (labelPairs n cs).map fun (pairs, rest) => (pair :: pairs, rest)
      | '}' :: rest => some ([pair], rest)
      | _ => none := by
    intro d tail hd
    have htext : pairText pair ++ d :: tail =
        c :: (key ++ '=' :: '"' :: (escape pair.2.toList ++ '"' :: d :: tail)) := by
      simp [pairText, hcons]
    rw [htext, labelPairs, skipBlanks_cons (isSpaceTab_of_isLabelChar hc)]
    split
    · rename_i heq
      exact absurd (List.cons.inj heq).1 hbrace
    · simp only [hspan, ← hcons, hkey, guard_true, expect_cons (c := '=') rfl,
        expect_cons (c := '"') rfl, quoted_escape, String.ofList_toList, skipBlanks_cons hd,
        Option.pure_def, Option.bind_eq_bind, Option.bind_some]
  exact ⟨hread ',' rest rfl, hread '}' rest rfl⟩

/-- **A label set is read back.** -/
theorem labelPairs_intercalate {pairs : List (String × String)} (hne : pairs ≠ [])
    (hkeys : ∀ pair ∈ pairs, isLabelName pair.1.toList) {n : Nat} (hn : pairs.length ≤ n)
    (rest : List Char) :
    labelPairs n (List.intercalate [','] (pairs.map pairText) ++ '}' :: rest) =
      some (pairs, rest) := by
  induction pairs generalizing n with
  | nil => exact absurd rfl hne
  | cons pair pairs ih =>
    obtain ⟨hkey, hkeys⟩ := List.forall_mem_cons.1 hkeys
    obtain ⟨n, rfl⟩ := Nat.exists_eq_succ_of_ne_zero (Nat.ne_of_gt (Nat.lt_of_lt_of_le (Nat.succ_pos _) hn))
    cases pairs with
    | nil => simpa using (labelPairs_pairText hkey n rest).2
    | cons next pairs =>
      have htext : List.intercalate [','] ((pair :: next :: pairs).map pairText) ++ '}' :: rest =
          pairText pair ++ ',' ::
            (List.intercalate [','] ((next :: pairs).map pairText) ++ '}' :: rest) := by
        rw [List.map_cons, List.map_cons, List.intercalate_cons_cons, List.append_assoc,
          List.append_assoc]
        rfl
      rw [htext, (labelPairs_pairText hkey n _).1,
        ih (List.cons_ne_nil _ _) hkeys (Nat.le_of_succ_le_succ hn)]
      rfl

theorem length_intercalate (pairs : List (String × String)) :
    pairs.length ≤ (List.intercalate [','] (pairs.map pairText)).length := by
  induction pairs with
  | nil => exact Nat.zero_le _
  | cons pair pairs ih =>
    have hpair : 1 ≤ (pairText pair).length := by
      simp [pairText]
      omega
    cases pairs with
    | nil => simpa using hpair
    | cons next pairs =>
      rw [List.map_cons] at ih
      rw [List.map_cons, List.map_cons, List.intercalate_cons_cons, List.length_append,
        List.length_append, List.length_cons]
      omega

theorem newline_not_mem_escape (value : List Char) : '\n' ∉ escape value := by
  intro h
  obtain ⟨c, -, hc⟩ := List.mem_flatMap.1 h
  unfold escapeChar at hc
  split at hc
  · exact absurd hc (by decide)
  split at hc
  · exact absurd hc (by decide)
  split at hc
  · exact absurd hc (by decide)
  · rename_i hline _
    exact hline (List.mem_singleton.1 hc).symm

theorem newline_not_mem_pairText {pair : String × String} (hkey : isLabelName pair.1.toList) :
    '\n' ∉ pairText pair := by
  have hname : '\n' ∉ pair.1.toList := fun h =>
    absurd ((isLabelName_cons hkey).2 _ h) (by decide)
  simp [pairText, hname, newline_not_mem_escape]

theorem mem_intercalate {α : Type*} {sep : List α} {ls : List (List α)} {a : α}
    (h : a ∈ List.intercalate sep ls) : a ∈ sep ∨ ∃ l ∈ ls, a ∈ l := by
  induction ls with
  | nil => exact absurd h List.not_mem_nil
  | cons l ls ih =>
    cases ls with
    | nil => exact .inr ⟨l, List.mem_cons_self, by simpa using h⟩
    | cons l' ls =>
      rw [List.intercalate_cons_cons, List.mem_append, List.mem_append] at h
      rcases h with (h | h) | h
      · exact .inr ⟨l, List.mem_cons_self, h⟩
      · exact .inl h
      · rcases ih h with h | ⟨l₁, hl₁, h⟩
        · exact .inl h
        · exact .inr ⟨l₁, List.mem_cons_of_mem l hl₁, h⟩

theorem newline_not_mem_labelText {pairs : List (String × String)}
    (hkeys : ∀ pair ∈ pairs, isLabelName pair.1.toList) : '\n' ∉ labelText pairs := by
  intro h
  unfold labelText at h
  split at h
  · exact List.not_mem_nil h
  · have hmem : '\n' ∈ List.intercalate [','] (pairs.map pairText) := by simpa using h
    rcases mem_intercalate hmem with h | ⟨l, hl, h⟩
    · exact absurd h (by decide)
    · obtain ⟨pair, hpair, rfl⟩ := List.mem_map.1 hl
      exact newline_not_mem_pairText (hkeys pair hpair) h

theorem labelText_head {pairs : List (String × String)} {rest : List Char} {c : Char}
    (h : (labelText pairs ++ ' ' :: rest).head? = some c) : c = '{' ∨ c = ' ' := by
  unfold labelText at h
  split at h
  · exact .inr (Option.some.inj h).symm
  · exact .inl (Option.some.inj h).symm

/-! ## Lines are read back -/

section Lines

variable {isFloat} {name : String}

theorem skipBlanks_name (hname : isMetricName name.toList) (rest : List Char) :
    skipBlanks (name.toList ++ rest) = name.toList ++ rest := by
  obtain ⟨hne, hall⟩ := isMetricName_cons hname
  obtain ⟨c, cs, hcons⟩ := List.exists_cons_of_ne_nil hne
  rw [hcons]
  exact skipBlanks_cons (isSpaceTab_of_isNameChar (hall c (hcons ▸ List.mem_cons_self))) _

/-- The labels before a value. -/
theorem parseLabels_text {pairs : List (String × String)}
    (hkeys : ∀ pair ∈ pairs, isLabelName pair.1.toList) {value : List Char}
    (hchars : ∀ c ∈ value, isFloatChar c) :
    ∃ rest, parseLabels (labelText pairs ++ ' ' :: value) = some (pairs, rest) ∧
      skipBlanks rest = value := by
  have hskip : skipBlanks value = value := dropWhile_of_head fun c hc =>
    isSpaceTab_of_isFloatChar (hchars c (List.mem_of_head? hc))
  by_cases hne : pairs = []
  · subst hne
    refine ⟨value, ?_, hskip⟩
    have hspace : skipBlanks (labelText [] ++ ' ' :: value) = value := hskip
    rw [parseLabels, hspace]
    split
    · exact absurd (hchars '{' List.mem_cons_self) (by decide)
    · rfl
  · refine ⟨' ' :: value, ?_, hskip⟩
    have htext : labelText pairs ++ ' ' :: value =
        '{' :: (List.intercalate [','] (pairs.map pairText) ++ '}' :: ' ' :: value) := by
      rw [labelText, if_neg hne]
      simp
    rw [htext, parseLabels, skipBlanks_cons rfl]
    refine labelPairs_intercalate hne hkeys ?_ _
    have hlen := length_intercalate pairs
    rw [List.length_append]
    omega

/-- **A sample is read back.** -/
theorem parseSample_text (hname : isMetricName name.toList) {pairs : List (String × String)}
    (hkeys : ∀ pair ∈ pairs, isLabelName pair.1.toList) (hnodup : (pairs.map Prod.fst).Nodup)
    {value : String} (hvalue : isFloat value) (hchars : ∀ c ∈ value.toList, isFloatChar c) :
    parseSample isFloat (name.toList ++ (labelText pairs ++ ' ' :: value.toList)) =
      some (.sample name (toLabels pairs) value) := by
  obtain ⟨rest, hlabels, hrest⟩ := parseLabels_text hkeys hchars
  have hword : value.toList.span (!isSpaceTab ·) = (value.toList, []) :=
    span_all fun c hc => by rw [isSpaceTab_of_isFloatChar (hchars c hc)]; rfl
  have hspan : (name.toList ++ (labelText pairs ++ ' ' :: value.toList)).span isNameChar =
      (name.toList, labelText pairs ++ ' ' :: value.toList) := by
    refine span_append (isMetricName_cons hname).2 fun c hc => ?_
    rcases labelText_head hc with rfl | rfl <;> rfl
  have htime : isTimestamp (skipBlanks []) = true := rfl
  simp only [parseSample, hspan, hname, guard_true, hlabels, hnodup, hrest, hword, htime,
    String.ofList_toList, hvalue, Option.pure_def, Option.bind_eq_bind, Option.bind_some, and_self]

theorem parseLine_sample (hname : isMetricName name.toList) {pairs : List (String × String)}
    (hkeys : ∀ pair ∈ pairs, isLabelName pair.1.toList) (hnodup : (pairs.map Prod.fst).Nodup)
    {value : String} (hvalue : isFloat value) (hchars : ∀ c ∈ value.toList, isFloatChar c) :
    parseLine isFloat (name.toList ++ (labelText pairs ++ ' ' :: value.toList)) =
      some (some (.sample name (toLabels pairs) value)) := by
  obtain ⟨hne, hall⟩ := isMetricName_cons hname
  obtain ⟨c, cs, hcons⟩ := List.exists_cons_of_ne_nil hne
  have hc : isNameChar c := hall c (hcons ▸ List.mem_cons_self)
  rw [parseLine, skipBlanks_name hname]
  split
  · rename_i heq
    exact absurd (List.append_eq_nil_iff.1 heq).1 hne
  · rename_i heq
    rw [hcons] at heq
    exact absurd ((List.cons.inj heq).1 ▸ hc) (by decide)
  · rw [parseSample_text hname hkeys hnodup hvalue hchars, Option.map_some]

/-- The first two words of a comment. -/
theorem comment_words (word : List Char) (hne : word ≠ []) (hword : word.all (!isSpaceTab ·))
    (hname : isMetricName name.toList) (text : List Char) :
    (skipBlanks (' ' :: (word ++ ' ' :: (name.toList ++ ' ' :: text)))).span (!isSpaceTab ·) =
        (word, ' ' :: (name.toList ++ ' ' :: text)) ∧
      (skipBlanks (' ' :: (name.toList ++ ' ' :: text))).span (!isSpaceTab ·) =
        (name.toList, ' ' :: text) := by
  have hblank : ∀ (rest : List Char) c, (' ' :: rest).head? = some c → (!isSpaceTab c) = false := by
    rintro rest c ⟨⟩
    rfl
  have hall : ∀ c ∈ word, (!isSpaceTab c) = true := List.all_eq_true.1 hword
  constructor
  · obtain ⟨c, cs, rfl⟩ := List.exists_cons_of_ne_nil hne
    have hskip : ∀ rest, skipBlanks (' ' :: (c :: cs ++ rest)) = c :: cs ++ rest :=
      fun rest => skipBlanks_cons (by simpa only [Bool.not_eq_true'] using hall c List.mem_cons_self) _
    rw [hskip]
    exact span_append hall (hblank _)
  · have hskip : skipBlanks (' ' :: (name.toList ++ ' ' :: text)) = name.toList ++ ' ' :: text :=
      skipBlanks_name hname _
    rw [hskip]
    exact span_append (fun d hd => by
      rw [isSpaceTab_of_isNameChar ((isMetricName_cons hname).2 d hd)]; rfl) (hblank _)

/-- **A `HELP` line is read back** if its text is one. -/
theorem parseLine_help (hname : isMetricName name.toList) (text : List Char) :
    parseLine isFloat ('#' :: ' ' :: ("HELP".toList ++ ' ' :: (name.toList ++ ' ' :: text))) =
      (helpText (skipBlanks text)).map fun text => some (.help name (String.ofList text)) := by
  obtain ⟨hfirst, hsecond⟩ := comment_words "HELP".toList (by decide) (by decide) hname text
  have hspace : skipBlanks (' ' :: text) = skipBlanks text := rfl
  rw [parseLine, skipBlanks_cons rfl]
  simp only [parseComment, hfirst, hsecond, hspace, hname, guard_true, if_true, String.ofList_toList,
    Option.pure_def, Option.bind_eq_bind, Option.bind_some]
  cases helpText (skipBlanks text) <;> rfl

/-- **A `TYPE` line is read back** if its type is one. -/
theorem parseLine_type (hname : isMetricName name.toList) {type : String} (htype : type ∈ types) :
    parseLine isFloat ('#' :: ' ' :: ("TYPE".toList ++ ' ' :: (name.toList ++ ' ' :: type.toList))) =
      some (some (.type name type)) := by
  obtain ⟨hfirst, hsecond⟩ :=
    comment_words "TYPE".toList (by decide) (by decide) hname type.toList
  have htypes : types.all fun type => type.toList.all (!isSpaceTab ·) := by decide
  have hall : ∀ c ∈ type.toList, (!isSpaceTab c) = true :=
    List.all_eq_true.1 (List.all_eq_true.1 htypes type htype)
  have hhead : ∀ c, type.toList.head? = some c → isSpaceTab c = false := fun c hc => by
    simpa only [Bool.not_eq_true'] using hall c (List.mem_of_head? hc)
  have hskip : skipBlanks (' ' :: type.toList) = type.toList := dropWhile_of_head hhead
  have hword : type.toList.span (!isSpaceTab ·) = (type.toList, []) := span_all hall
  have hhelp : "TYPE".toList ≠ "HELP".toList := by decide
  have hend : skipBlanks [] = [] := rfl
  rw [parseLine, skipBlanks_cons rfl]
  simp only [parseComment, hfirst, hsecond, hskip, hword, hend, hname, htype, guard_true, if_true,
    if_neg hhelp, String.ofList_toList, Option.pure_def, Option.bind_eq_bind, Option.bind_some,
    and_self]

theorem isSome_helpText_skipBlanks {text : List Char} (h : (helpText text).isSome) :
    (helpText (skipBlanks text)).isSome := by
  induction text with
  | nil => exact h
  | cons c cs ih =>
    rw [skipBlanks, List.dropWhile_cons]
    split
    · rename_i hblank
      refine ih ?_
      have hslash : c ≠ '\\' := by
        rintro rfl
        exact absurd hblank (by decide)
      rw [helpText.eq_def] at h
      split at h <;> simp_all
    · exact h

/-! ## The text is read line by line -/

theorem lines_append {l : List Char} (h : '\n' ∉ l) (rest : List Char) :
    lines (l ++ '\n' :: rest) = (lines rest).map (l :: ·) := by
  induction l with
  | nil => rfl
  | cons c cs ih =>
    rw [List.mem_cons, not_or] at h
    rw [List.cons_append, lines.eq_def]
    split
    · rename_i heq
      cases heq
    · rename_i heq
      exact absurd (List.cons.inj heq).1.symm h.1
    · rename_i heq
      cases heq
      rw [ih h.2]
      cases lines rest <;> rfl

/-- **An exposition is read back** if each of its lines is. -/
theorem parse_lines {α : Type*} (text : α → List Char) (entry : α → Entry) (ls : List α)
    (hline : ∀ l ∈ ls, '\n' ∉ text l ∧ parseLine isFloat (text l) = some (some (entry l))) :
    parse isFloat (ls.flatMap fun l => text l ++ ['\n']) = some (ls.map entry) := by
  have hlines : lines (ls.flatMap fun l => text l ++ ['\n']) = some (ls.map text) := by
    induction ls with
    | nil => rfl
    | cons l ls ih =>
      obtain ⟨⟨hl, -⟩, hls⟩ := List.forall_mem_cons.1 hline
      rw [List.flatMap_cons, List.append_assoc, List.singleton_append, lines_append hl, ih hls]
      rfl
  have hmap : (ls.map text).mapM (parseLine isFloat) = some (ls.map (some ∘ entry)) := by
    rw [mapM_eq_some, List.map_map, List.map_map]
    exact List.map_congr_left fun l hl => (hline l hl).2
  rw [parse, hlines, Option.bind_some, hmap, Option.map_some, List.filterMap_map]
  exact congrArg some (congrFun List.filterMap_eq_map ls)

end Lines

end LlmkubeRuntimes.Lib.Exposition
