import LlmkubeRuntimes.Pins.Series

/-!
# Series files line by line

A series file as it is written: on each line a name or none, blanks around it
and a comment.

* `SeriesLine`: a line in its parts;
* `listed_eq`, `seriesNames_eq`: what the script and the gate read of such lines;
* `exists_lines`: texts of ordinary characters are written so.
-/

namespace LlmkubeRuntimes.Pins

open LlmkubeRuntimes.Lib (isLineBreak isPySpace nul)

/-- A line of a series file: a name, if there is one, and what neither program
takes for a part of it. -/
structure SeriesLine where
  indent : Line := []
  name : Line := []
  blanks : Line := []
  comment : Line := []
  /-- Blanks at the end of a comment, such as a carriage return. -/
  trailer : Line := []
  indent_blank : ∀ c ∈ indent, c = ' ' ∨ c = '\t' := by decide
  indent_name : name = [] → indent = [] := by decide
  name_plain : ∀ c ∈ name, c ≠ '#' ∧ isLineBreak c = false ∧ c ≠ nul := by decide
  name_head : ∀ c ∈ name.head?, isPySpace c = false := by decide
  name_last : ∀ c ∈ name.getLast?, isPySpace c = false := by decide
  blanks_blank : ∀ c ∈ blanks, isCSpace c ∧ c ≠ '\n' := by decide
  comment_hash : ∀ c ∈ comment.head?, c = '#' := by decide
  comment_plain : ∀ c ∈ comment, isLineBreak c = false := by decide
  trailer_blank : ∀ c ∈ trailer, isCSpace c ∧ c ≠ '\n' := by decide

namespace SeriesLine

def text (l : SeriesLine) : Line := l.indent ++ l.name ++ (l.blanks ++ (l.comment ++ l.trailer))

/-- The name with the blanks before it. -/
def entry (l : SeriesLine) : Line := l.indent ++ l.name

end SeriesLine

/-- The lines that name a file. -/
def naming (lines : List SeriesLine) : List SeriesLine := lines.filter (·.name ≠ [])

/-! ## A line, to the script -/

theorem isPySpace_of_isCSpace {c : Char} (h : isCSpace c) : isPySpace c := by
  simp only [isCSpace, Bool.or_eq_true, Bool.and_eq_true, decide_eq_true_eq] at h
  rcases h with h | rfl
  · simp [isPySpace, Lib.isSpace, h]
  · rfl

theorem isPySpace_of_blank {c : Char} (h : c = ' ' ∨ c = '\t') : isPySpace c := by
  rcases h with rfl | rfl <;> rfl

theorem ne_hash_of_isPySpace {c : Char} (h : isPySpace c) : c ≠ '#' := by
  rintro rfl
  exact absurd h (by decide)

namespace SeriesLine

variable (l : SeriesLine)

theorem entry_ne_nil {l : SeriesLine} : l.entry ≠ [] ↔ l.name ≠ [] := by
  refine not_congr ⟨fun h => (List.append_eq_nil_iff.1 h).2, fun h => ?_⟩
  rw [entry, h, l.indent_name h, List.nil_append]

theorem mem_entry {l : SeriesLine} {c : Char} (h : c ∈ l.entry) :
    c ≠ '#' ∧ isLineBreak c = false ∧ c ≠ nul := by
  rcases List.mem_append.1 h with h | h
  · rcases l.indent_blank c h with rfl | rfl <;> decide
  · exact l.name_plain c h

theorem ne_newline {c : Char} (h : isLineBreak c = false) : c ≠ '\n' := by
  rintro rfl
  exact absurd h (by decide)

/-- `sed` leaves the entry. -/
theorem sed_text : sed l.text = l.entry := by
  have hentry : ∀ c ∈ l.entry, decide (c ≠ '#') = true := fun c hc =>
    decide_eq_true (mem_entry hc).1
  have hcut : ∃ tail, (∀ c ∈ tail, isCSpace c) ∧
      (l.comment ++ l.trailer).takeWhile (· ≠ '#') = tail := by
    cases hcomment : l.comment with
    | nil =>
      refine ⟨l.trailer, fun c hc => (l.trailer_blank c hc).1, ?_⟩
      rw [List.nil_append, List.takeWhile_eq_self_iff]
      exact fun c hc => decide_eq_true
        (ne_hash_of_isPySpace (isPySpace_of_isCSpace (l.trailer_blank c hc).1))
    | cons c rest =>
      refine ⟨[], fun c hc => absurd hc List.not_mem_nil, ?_⟩
      rw [l.comment_hash c (by rw [hcomment]; rfl)]
      rfl
  obtain ⟨tail, htail, hcut⟩ := hcut
  have hblanks : ∀ c ∈ l.blanks, decide (c ≠ '#') = true := fun c hc =>
    decide_eq_true (ne_hash_of_isPySpace (isPySpace_of_isCSpace (l.blanks_blank c hc).1))
  rw [sed, text, ← entry, List.takeWhile_append_of_pos hentry, List.takeWhile_append_of_pos hblanks,
    hcut, Lib.rdropWhile_append_of_pos fun c hc => (List.mem_append.1 hc).elim
      (fun hc => (l.blanks_blank c hc).1) (htail c), List.rdropWhile_eq_self_iff]
  intro hne hlast
  have hname := entry_ne_nil.1 hne
  have hpy : isPySpace (l.name.getLast hname) = false :=
    l.name_last _ (List.getLast?_eq_some_getLast hname)
  rw [show l.entry.getLast hne = l.name.getLast hname from List.getLast_append_of_ne_nil _ hname]
    at hlast
  rw [isPySpace_of_isCSpace hlast] at hpy
  cases hpy

/-- `read` leaves the name. -/
theorem read_entry : read l.entry = l.name := by
  have hblank (c : Char) (h : isPySpace c = false) : (decide (c = ' ') || decide (c = '\t')) = false := by
    by_contra hc
    rw [Bool.not_eq_false, Bool.or_eq_true, decide_eq_true_eq, decide_eq_true_eq] at hc
    rw [isPySpace_of_blank hc] at h
    cases h
  exact Lib.trim_append (fun c hc => by simpa using l.indent_blank c hc)
    (fun c hc => hblank c (l.name_head c hc)) fun c hc => hblank c (l.name_last c hc)

theorem newline_notMem_text : '\n' ∉ l.text := by
  intro h
  rcases List.mem_append.1 h with h | h
  · exact ne_newline (mem_entry h).2.1 rfl
  · rcases List.mem_append.1 h with h | h
    · exact (l.blanks_blank _ h).2 rfl
    · rcases List.mem_append.1 h with h | h
      · exact ne_newline (l.comment_plain _ h) rfl
      · exact (l.trailer_blank _ h).2 rfl

end SeriesLine

/-! ## A line, to the gate -/

/-- The name on a line of the gate. -/
def gateName (line : Line) : Line := Lib.trim isPySpace (line.takeWhile (· ≠ '#'))

/-- The names on a text. -/
def gateNames (text : Line) : List Line := ((text.splitOnP isLineBreak).map gateName).filter (· ≠ [])

theorem gateNames_append_cons {c : Char} (h : isLineBreak c) (text rest : Line) :
    gateNames (text ++ c :: rest) = gateNames text ++ gateNames rest := by
  rw [gateNames, List.splitOnP_append_cons _ _ h, List.map_append, List.filter_append]
  rfl

theorem gateNames_line {body : Line} (h : ∀ c ∈ body, isLineBreak c = false) :
    gateNames body = [gateName body].filter (· ≠ []) := by
  rw [gateNames, List.splitOnP_eq_singleton h]
  rfl

/-- A blank at the end of a line is no part of its name. -/
theorem gateName_concat {c : Char} (h : isPySpace c) (body : Line) :
    gateName (body ++ [c]) = gateName body := by
  rw [gateName, List.takeWhile_append]
  split
  · rename_i hlength
    have hbody : body.takeWhile (· ≠ '#') = body :=
      (List.takeWhile_prefix _).eq_of_length hlength
    have hc : [c].takeWhile (· ≠ '#') = [c] :=
      List.takeWhile_eq_self_iff.2 fun d hd => by
        rw [List.mem_singleton.1 hd]
        exact decide_eq_true (ne_hash_of_isPySpace h)
    rw [hc, Lib.trim_concat h, gateName, hbody]
  · rfl

/-- What follows a line without adding a name. -/
def Silent (rest : Line) : Prop :=
  ∀ body, (∀ c ∈ body, isLineBreak c = false) → gateNames (body ++ rest) = gateNames body

theorem silent_nil : Silent [] := fun body _ => by rw [List.append_nil]

theorem Silent.cons {c : Char} {rest : Line} (h : Silent rest) (hc : isCSpace c) :
    Silent (c :: rest) := by
  intro body hbody
  have hspace := isPySpace_of_isCSpace hc
  by_cases hbreak : isLineBreak c
  · have hrest := h [] fun c hc => absurd hc List.not_mem_nil
    rw [List.nil_append] at hrest
    rw [gateNames_append_cons hbreak, hrest, show gateNames [] = [] from rfl, List.append_nil]
  · have hlonger : ∀ d ∈ body ++ [c], isLineBreak d = false := by
      intro d hd
      rcases List.mem_append.1 hd with hd | hd
      · exact hbody d hd
      · rw [List.mem_singleton.1 hd]
        simpa using hbreak
    rw [List.append_cons, h _ hlonger, gateNames_line hlonger, gateNames_line hbody,
      gateName_concat hspace]

theorem Silent.blanks {blanks rest : Line} (h : Silent rest) (hblanks : ∀ c ∈ blanks, isCSpace c) :
    Silent (blanks ++ rest) := by
  induction blanks with
  | nil => exact h
  | cons c blanks ih =>
    rw [List.forall_mem_cons] at hblanks
    exact (ih hblanks.2).cons hblanks.1

theorem Silent.comment {comment rest : Line} (h : Silent rest) (hhash : ∀ c ∈ comment.head?, c = '#')
    (hplain : ∀ c ∈ comment, isLineBreak c = false) : Silent (comment ++ rest) := by
  intro body hbody
  have hlonger : ∀ c ∈ body ++ comment, isLineBreak c = false := fun c hc =>
    (List.mem_append.1 hc).elim (hbody c) (hplain c)
  have hcut : (body ++ comment).takeWhile (· ≠ '#') = body.takeWhile (· ≠ '#') := by
    cases comment with
    | nil => rw [List.append_nil]
    | cons c comment =>
      rw [hhash c rfl, List.takeWhile_append]
      split
      · rename_i hlength
        rw [List.takeWhile_cons_of_neg (by decide), List.append_nil]
        exact ((List.takeWhile_prefix _).eq_of_length hlength).symm
      · rfl
  rw [← List.append_assoc, h _ hlonger, gateNames_line hlonger, gateNames_line hbody, gateName,
    gateName, hcut]

/-- The gate finds the name of a line on it. -/
theorem SeriesLine.gateNames_text (l : SeriesLine) : gateNames l.text = [l.name].filter (· ≠ []) := by
  have hsilent : Silent (l.blanks ++ (l.comment ++ l.trailer)) :=
    ((List.append_nil l.trailer ▸ silent_nil.blanks fun c hc => (l.trailer_blank c hc).1).comment
      l.comment_hash l.comment_plain).blanks fun c hc => (l.blanks_blank c hc).1
  rw [text, ← entry, hsilent _ fun c hc => (mem_entry hc).2.1,
    gateNames_line fun c hc => (mem_entry hc).2.1]
  congr 2
  rw [gateName, List.takeWhile_eq_self_iff.2 fun c hc => decide_eq_true (mem_entry hc).1]
  exact Lib.trim_append (fun c hc => isPySpace_of_blank (l.indent_blank c hc)) l.name_head l.name_last

/-! ## A series -/

theorem eq_nul {c : Char} (h : c.toNat = 0) : c = nul := Char.ext (UInt32.toNat_inj.1 h)

/-- The words of the lines that name a file are all words there are. -/
theorem naming_map {word : SeriesLine → Line} (h : ∀ l, word l ≠ [] ↔ l.name ≠ [])
    {lines : List SeriesLine} : (naming lines).map word = (lines.map word).filter (· ≠ []) := by
  rw [List.filter_map, naming]
  congr 1
  exact List.filter_congr fun l _ => by simp only [Function.comp_apply, h]

namespace SeriesDir

variable {d : SeriesDir} {lines : List SeriesLine}

/-- `$listed` is the entries of the lines that name a file. -/
theorem listed_eq (h : d.series.toList = ['\n'].intercalate (lines.map (·.text))) :
    d.listed = (naming lines).map (·.entry) := by
  have hsed : ((d.series.toList.splitOn '\n').map sed).filter (· ≠ []) =
      (naming lines).map (·.entry) := by
    rw [h, naming_map fun _ => SeriesLine.entry_ne_nil]
    cases lines with
    | nil => rfl
    | cons l lines =>
      rw [List.splitOn_intercalate, List.map_map]
      · exact congrArg _ (List.map_congr_left fun l _ => l.sed_text)
      · intro text htext
        obtain ⟨l, -, rfl⟩ := List.mem_map.1 htext
        exact l.newline_notMem_text
      · exact List.cons_ne_nil _ _
  have hplain : ((naming lines).map (·.entry)).map (·.filter (·.toNat ≠ 0)) =
      (naming lines).map (·.entry) := by
    refine (List.map_congr_left fun entry hentry => ?_).trans (List.map_id _)
    obtain ⟨l, -, rfl⟩ := List.mem_map.1 hentry
    exact List.filter_eq_self.2 fun c hc =>
      decide_eq_true (mt eq_nul (SeriesLine.mem_entry hc).2.2)
  rw [listed, hsed, hplain, List.rdropWhile_eq_self_iff]
  intro hne hlast
  obtain ⟨l, hl, heq⟩ := List.mem_map.1 (List.getLast_mem hne)
  rw [← heq, decide_eq_true_eq] at hlast
  exact SeriesLine.entry_ne_nil.2 (of_decide_eq_true (List.mem_filter.1 hl).2) hlast

/-- The gate reads the names. -/
theorem seriesNames_eq (h : d.series.toList = ['\n'].intercalate (lines.map (·.text))) :
    d.seriesNames = (naming lines).map (·.name) := by
  have htext : gateNames (['\n'].intercalate (lines.map (·.text))) = (naming lines).map (·.name) := by
    clear h
    rw [naming_map fun _ => Iff.rfl]
    induction lines with
    | nil => rfl
    | cons l lines ih =>
      cases lines with
      | nil => rw [List.map_singleton, List.intercalate_singleton, l.gateNames_text,
          List.map_singleton]
      | cons l' lines =>
        rw [List.map_cons, List.map_cons, List.intercalate_cons_cons, List.append_assoc,
          List.singleton_append, gateNames_append_cons rfl, l.gateNames_text, ← List.map_cons, ih,
          ← List.filter_append, List.singleton_append, ← List.map_cons]
  rw [← htext, ← h]
  rfl

/-- A name without newlines and NULs is what the shell makes of it. -/
theorem substitute_name {name : Line} (hnewline : '\n' ∉ name) (hnul : nul ∉ name) :
    substitute name = name := by
  have hfilter : name.filter (·.toNat ≠ 0) = name := by
    refine List.filter_eq_self.2 fun c hc => decide_eq_true fun hzero => hnul ?_
    rwa [← eq_nul hzero]
  rw [substitute, hfilter, List.rdropWhile_eq_self_iff]
  intro hne hlast
  exact hnewline (of_decide_eq_true hlast ▸ List.getLast_mem hne)

/-- No line is printed twice exactly if no entry is there twice. -/
theorem dups_eq_nil_iff (h : [] ∉ d.listed) : d.dups = [] ↔ d.listed.Nodup := by
  rw [dups, printed, List.filter_eq_nil_iff]
  split
  · rename_i hlisted
    simp [hlisted]
  · rw [List.nodup_iff_count_le_one]
    constructor
    · intro hcount line
      by_cases hline : line ∈ d.listed
      · have hne : line ≠ [] := fun heq => h (heq ▸ hline)
        simpa [hne] using hcount line hline
      · rw [List.count_eq_zero_of_not_mem hline]
        exact Nat.zero_le 1
    · intro hcount line _
      have := hcount line
      simp only [decide_eq_true_eq, not_and]
      omega

/-- A patch whose name is one line is mentioned exactly if it is listed. -/
theorem mentions_iff {p : String} (hnewline : '\n' ∉ p.toList) (hnul : nul ∉ p.toList)
    (hpatch : isPatch p) : d.mentions p ↔ p.toList ∈ d.listed := by
  have hne : p.toList ≠ [] := by
    intro hnil
    rw [isPatch, hnil] at hpatch
    exact absurd hpatch (by decide)
  rw [mentions, substitute_name hnewline hnul, List.splitOn_eq_singleton hnewline, List.any_cons,
    List.any_nil, Bool.or_false, decide_eq_true_eq, printed]
  split
  · rename_i hlisted
    simp [hlisted, hne]
  · rfl

end SeriesDir

/-! ## Which texts are written so -/

/-- A character that ends no line and is a blank to both programs or to neither. -/
structure Ordinary (c : Char) : Prop where
  line : isLineBreak c = false
  nul : c ≠ nul
  blank : isPySpace c → c = ' ' ∨ c = '\t'

/-- Any line of ordinary characters can be written in its parts. -/
theorem SeriesLine.exists_text {line : Line} (h : ∀ c ∈ line, Ordinary c) :
    ∃ l : SeriesLine, l.text = line := by
  let blank : Char → Bool := fun c => decide (c = ' ' ∨ c = '\t')
  have hspace : ∀ c, blank c → isCSpace c ∧ c ≠ '\n' := by
    intro c hc
    rcases of_decide_eq_true hc with rfl | rfl <;> decide
  have hnot : ∀ c ∈ line, blank c = false → isPySpace c = false := fun c hc hblank => by
    by_contra hpy
    exact of_decide_eq_false hblank ((h c hc).blank (by simpa using hpy))
  obtain ⟨body, comment, rfl, hbody, hhash⟩ : ∃ body comment, line = body ++ comment ∧
      (∀ c ∈ body, c ≠ '#') ∧ ∀ c ∈ comment.head?, c = '#' :=
    ⟨line.takeWhile (· ≠ '#'), line.dropWhile (· ≠ '#'), List.takeWhile_append_dropWhile.symm,
      fun c hc => by simpa using List.mem_takeWhile_imp hc,
      fun c hc => by simpa using Lib.head?_dropWhile hc⟩
  have hplain : ∀ c ∈ comment, isLineBreak c = false := fun c hc =>
    (h c (List.mem_append_right _ hc)).line
  by_cases hall : ∀ c ∈ body, blank c
  · exact ⟨{
      blanks := body
      comment := comment
      blanks_blank := fun c hc => hspace c (hall c hc)
      comment_hash := hhash
      comment_plain := hplain }, by simp [text]⟩
  · let rest := body.dropWhile blank
    have hrest : ∀ c ∈ rest, c ∈ body := fun c hc => (List.dropWhile_suffix _).subset hc
    have hname : rest.rdropWhile blank ≠ [] := by
      intro hnil
      rw [List.rdropWhile_eq_nil_iff] at hnil
      refine hall fun c hc => ?_
      rw [← List.takeWhile_append_dropWhile (p := blank) (l := body), List.mem_append] at hc
      exact hc.elim List.mem_takeWhile_imp (hnil c)
    have hmem : ∀ c ∈ rest.rdropWhile blank, c ∈ body := fun c hc =>
      hrest c ((List.rdropWhile_prefix _ _).subset hc)
    exact ⟨{
      indent := body.takeWhile blank
      name := rest.rdropWhile blank
      blanks := rest.rtakeWhile blank
      comment := comment
      indent_blank := fun c hc => by simpa [blank] using List.mem_takeWhile_imp hc
      indent_name := fun hnil => absurd hnil hname
      name_plain := fun c hc => ⟨hbody c (hmem c hc),
        (h c (List.mem_append_left _ (hmem c hc))).line, (h c (List.mem_append_left _ (hmem c hc))).nul⟩
      name_head := fun c hc => hnot c
        (List.mem_append_left _ (hmem c (List.mem_of_mem_head? hc)))
        (Lib.head?_dropWhile (Lib.head?_rdropWhile hc))
      name_last := fun c hc => hnot c
        (List.mem_append_left _ (hmem c (List.mem_of_mem_getLast? hc)))
        (Lib.getLast?_rdropWhile hc)
      blanks_blank := fun c hc => hspace c (List.mem_rtakeWhile_imp hc)
      comment_hash := hhash
      comment_plain := hplain }, by
        simp only [text, List.append_nil]
        rw [List.append_assoc, ← List.append_assoc (List.rdropWhile _ _), List.rdropWhile_append_rtakeWhile,
          ← List.append_assoc, List.takeWhile_append_dropWhile]⟩

/-- Any text of lines of ordinary characters can be written line by line. -/
theorem SeriesLine.exists_lines {text : Line} (h : ∀ c ∈ text, c = '\n' ∨ Ordinary c) :
    ∃ lines : List SeriesLine, text = ['\n'].intercalate (lines.map (·.text)) := by
  have hline : ∀ line ∈ text.splitOn '\n', ∃ l : SeriesLine, l.text = line := by
    intro line hline
    refine exists_text fun c hc => ?_
    rw [List.splitOn_eq_splitOnP] at hline
    obtain ⟨hmem, hne⟩ := Lib.mem_part hline c hc
    exact (h c hmem).resolve_left (by simpa using hne)
  have : Nonempty SeriesLine := ⟨{}⟩
  choose! l hl using hline
  refine ⟨(text.splitOn '\n').map l, ?_⟩
  have hmap : (text.splitOn '\n').map ((·.text) ∘ l) = text.splitOn '\n' :=
    (List.map_congr_left hl).trans (List.map_id _)
  rw [List.map_map, hmap, List.intercalate_splitOn]
end LlmkubeRuntimes.Pins
