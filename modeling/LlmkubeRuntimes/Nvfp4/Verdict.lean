import LlmkubeRuntimes.Nvfp4.Gate

/-!
# The verdict of the dependency section

What the section should tell and what it tells, conflict by conflict.

* `Conflict.Cutlass`, `Conflict.SameUpToVersion`: the requirement is one of the
  allowed family; two conflicts differ in the version of their subject at most;
* `Conflict.unversioned`: the line of a conflict after `normalize`;
* `HasNew`: the live report has a conflict that is neither allowed nor inherited;
* `Conflict.AccountedFor`: what the section takes for allowed or inherited;
* `fails_iff_accountedFor`: when the section fails;
* `verdict_iff`: when it fails exactly on a report with a new conflict.
-/

namespace LlmkubeRuntimes.Nvfp4

open LlmkubeRuntimes.Lib

/-! ## Conflicts -/

/-- The name of a project. -/
def IsName (name : ShellLine) : Prop := name ≠ [] ∧ ∀ c ∈ name, isDistNameChar c

/-- A version begins with a digit. -/
def IsVersion (version : ShellLine) : Prop :=
  (∃ d ∈ version.head?, d.isDigit) ∧ ' ' ∉ version

instance (name : ShellLine) : Decidable (IsName name) := inferInstanceAs (Decidable (_ ∧ _))

instance (version : ShellLine) : Decidable (IsVersion version) :=
  inferInstanceAs (Decidable (_ ∧ _))

namespace Conflict

/-- A conflict as `pip` prints it; a requirement is any text. -/
def Printed : Conflict → Prop
  | unmet pkg ver _ dep depVer => IsName pkg ∧ IsVersion ver ∧ IsName dep ∧ IsVersion depVer
  | missing pkg ver dep => IsName pkg ∧ IsVersion ver ∧ IsName dep

/-- The unsatisfied requirement is in the cutlass family. -/
def Cutlass : Conflict → Prop
  | unmet _ _ req _ _ => ∃ name ∈ cutlassNames, req.takeWhile isDistNameChar = name.toList
  | missing _ _ dep => ∃ name ∈ cutlassNames, dep = name.toList

/-- The conflicts are the same but for the version of the subject. -/
def SameUpToVersion : Conflict → Conflict → Prop
  | unmet pkg _ req dep depVer, unmet pkg' _ req' dep' depVer' =>
    pkg = pkg' ∧ req = req' ∧ dep = dep' ∧ depVer = depVer'
  | missing pkg _ dep, missing pkg' _ dep' => pkg = pkg' ∧ dep = dep'
  | _, _ => False

/-- The requirement quotes a line of the family. -/
def Quotes : Conflict → Prop
  | unmet _ _ req _ _ => ∃ name ∈ cutlassNames, cutlassPattern name <:+: req
  | missing _ _ _ => False

/-- The conflict is neither in the family nor in the base. -/
def New (base : List Conflict) (c : Conflict) : Prop :=
  ¬ c.Cutlass ∧ ¬ ∃ b ∈ base, b.SameUpToVersion c

/-- What the section accounts for: a `has requirement` line whose requirement is a
family name and `==`, or quotes a line that is, or that is in the base but for the
version of its subject; any other line only if the base has it as it is. -/
def AccountedFor (base : List Conflict) : Conflict → Prop
  | unmet pkg ver req dep depVer =>
    (∃ name ∈ cutlassNames, name.toList ++ ['=', '='] <+: req ∨ cutlassPattern name <:+: req) ∨
      ∃ b ∈ base, b.SameUpToVersion (unmet pkg ver req dep depVer)
  | missing pkg ver dep => missing pkg ver dep ∈ base

/-- The line of a conflict after `normalize`. -/
def unversioned : Conflict → ShellLine
  | unmet pkg _ req dep depVer =>
    pkg ++ hasRequirement ++ req ++ butYouHave ++ dep ++ ' ' :: depVer ++ ['.']
  | missing pkg ver dep => (missing pkg ver dep).line

instance (c : Conflict) : Decidable c.Printed :=
  match c with
  | unmet pkg ver _ dep depVer =>
    inferInstanceAs (Decidable (IsName pkg ∧ IsVersion ver ∧ IsName dep ∧ IsVersion depVer))
  | missing pkg ver dep => inferInstanceAs (Decidable (IsName pkg ∧ IsVersion ver ∧ IsName dep))

end Conflict

/-- The live report has a conflict that the image does not account for. -/
def HasNew (base live : List Conflict) : Prop := ∃ c ∈ live, c.New base

theorem blank_not_mem_name {name : ShellLine} (h : IsName name) : ' ' ∉ name := fun hmem =>
  absurd (h.2 ' ' hmem) (by decide)

/-- A version opens with a character that no word of a report opens with. -/
theorem version_head {version : ShellLine} (h : IsVersion version) :
    ∃ d rest, version = d :: rest ∧ d.isDigit ∧ ' ' ∉ rest := by
  obtain ⟨⟨d, hd, hdigit⟩, hblank⟩ := h
  obtain ⟨rest, rfl⟩ := List.head?_eq_some_iff.1 hd
  exact ⟨d, rest, rfl, hdigit, fun hmem => hblank (List.mem_cons_of_mem d hmem)⟩

/-- A version does not open with a letter. -/
theorem version_append_ne {version rest text : ShellLine} {c : Char} (h : IsVersion version)
    (hc : c.isDigit = false) : version ++ rest ≠ c :: text := by
  obtain ⟨d, tail, rfl, hd, -⟩ := version_head h
  intro heq
  rw [(List.cons.inj heq).1, hc] at hd
  cases hd

/-- A word with a mark behind it. -/
theorem blank_not_mem_concat {word : ShellLine} {mark : Char} (h : ' ' ∉ word) (hmark : mark ≠ ' ') :
    ' ' ∉ word ++ [mark] := by
  rw [List.mem_append, List.mem_singleton, not_or]
  exact ⟨h, hmark.symm⟩

/-- The words of the forms, with the spaces between them. -/
theorem hasRequirement_eq : hasRequirement = ' ' :: (['h', 'a', 's'] ++ ' ' ::
    (['r', 'e', 'q', 'u', 'i', 'r', 'e', 'm', 'e', 'n', 't'] ++ [' '])) :=
  rfl

theorem announcement_eq : announcement = ['h', 'a', 's'] ++ ' ' ::
    (['r', 'e', 'q', 'u', 'i', 'r', 'e', 'm', 'e', 'n', 't'] ++ [' ']) :=
  rfl

theorem requires_eq : requires = ' ' :: (['r', 'e', 'q', 'u', 'i', 'r', 'e', 's'] ++ [' ']) :=
  rfl

theorem butYouHave_eq : butYouHave = ',' :: ' ' :: (['b', 'u', 't'] ++ ' ' ::
    (['y', 'o', 'u'] ++ ' ' :: (['h', 'a', 'v', 'e'] ++ [' ']))) :=
  rfl

theorem whichIsNotInstalled_eq : whichIsNotInstalled = ',' :: ' ' ::
    (['w', 'h', 'i', 'c', 'h'] ++ ' ' :: (['i', 's'] ++ ' ' :: (['n', 'o', 't'] ++ ' ' ::
      ['i', 'n', 's', 't', 'a', 'l', 'l', 'e', 'd', '.']))) :=
  rfl

/-- Dropping the version of a subject, where there is one to drop. -/
theorem stripVersion_append {name version : ShellLine} (text : ShellLine) (hname : IsName name)
    (hversion : IsVersion version) (htext : text.head? = some ' ') :
    stripVersion (name ++ ' ' :: version ++ text) =
      if hasRequirement <+: text then name ++ text else name ++ ' ' :: version ++ text := by
  obtain ⟨d, rest, rfl, hd, hrest⟩ := version_head hversion
  obtain ⟨tail, rfl⟩ := List.head?_eq_some_iff.1 htext
  have hblank : ∀ c, (' ' :: d :: (rest ++ ' ' :: tail)).head? = some c → isDistNameChar c = false :=
    fun c hc => Option.some.inj hc ▸ by decide
  have hsplit : name ++ ' ' :: d :: rest ++ ' ' :: tail = name ++ ' ' :: d :: (rest ++ ' ' :: tail) := by
    simp
  have htake : (name ++ ' ' :: d :: (rest ++ ' ' :: tail)).takeWhile isDistNameChar = name :=
    takeWhile_append_of_head hname.2 hblank
  have hdrop : (name ++ ' ' :: d :: (rest ++ ' ' :: tail)).dropWhile isDistNameChar =
      ' ' :: d :: (rest ++ ' ' :: tail) :=
    dropWhile_append_of_head hname.2 hblank
  have hword : (rest ++ ' ' :: tail).dropWhile (· ≠ ' ') = ' ' :: tail := by
    rw [List.dropWhile_append_of_pos, List.dropWhile_cons_of_neg (by decide)]
    intro c hc
    exact decide_eq_true fun heq => hrest (heq ▸ hc)
  have hcond : name ≠ [] ∧ d.isDigit ∧ hasRequirement <+: ' ' :: tail ↔
      hasRequirement <+: ' ' :: tail :=
    ⟨fun h => h.2.2, fun h => ⟨hname.1, hd, h⟩⟩
  rw [hsplit, stripVersion, hdrop, htake]
  show (if name ≠ [] ∧ d.isDigit ∧ hasRequirement <+: (rest ++ ' ' :: tail).dropWhile (· ≠ ' ') then
    name ++ (rest ++ ' ' :: tail).dropWhile (· ≠ ' ') else _) = _
  rw [hword]
  exact if_congr hcond rfl rfl

theorem head?_append {a b : ShellLine} {c : Char} (h : a.head? = some c) :
    (a ++ b).head? = some c := by
  rw [List.head?_append, h]
  rfl

theorem stripVersion_line {c : Conflict} (h : c.Printed) : stripVersion c.line = c.unversioned := by
  cases c with
  | unmet pkg ver req dep depVer =>
    have hstrip := stripVersion_append (hasRequirement ++ (req ++ butYouHave ++ dep ++
      ' ' :: depVer ++ ['.'])) h.1 h.2.1 (head?_append (by rw [hasRequirement_eq]; rfl))
    rw [if_pos (List.prefix_append _ _)] at hstrip
    simpa only [Conflict.line, Conflict.unversioned, List.append_assoc] using hstrip
  | missing pkg ver dep =>
    have hpre : ¬ hasRequirement <+: requires ++ (dep ++ whichIsNotInstalled) := by
      rw [hasRequirement_eq, requires_eq]
      rintro ⟨t, ht⟩
      exact absurd (List.cons.inj (List.cons.inj ht).2).1 (by decide)
    have hstrip := stripVersion_append (requires ++ (dep ++ whichIsNotInstalled)) h.1 h.2.1
      (head?_append (by rw [requires_eq]; rfl))
    rw [if_neg hpre] at hstrip
    simpa only [Conflict.line, Conflict.unversioned, List.append_assoc] using hstrip

/-! ## What the family matches -/

/-- A pattern after its first word. -/
def announced (name : String) : ShellLine :=
  ['r', 'e', 'q', 'u', 'i', 'r', 'e', 'm', 'e', 'n', 't'] ++ ' ' :: (name.toList ++ ['=', '='])

theorem cutlassPattern_eq (name : String) :
    cutlassPattern name = ['h', 'a', 's'] ++ ' ' :: announced name := by
  rw [cutlassPattern, announcement_eq, announced]
  simp only [List.cons_append, List.nil_append]

/-- A word is passed over that does not end in `has` before `requirement`. -/
theorem match_skip {name : String} (word rest : ShellLine) (hword : ' ' ∉ word)
    (h : ¬ (['h', 'a', 's'] <:+ word ∧ announced name <+: rest)) :
    cutlassPattern name <:+: word ++ ' ' :: rest ↔ cutlassPattern name <:+: rest := by
  rw [cutlassPattern_eq, infix_blank_iff (by decide) hword, or_iff_right h]

theorem not_announced {name : String} {c : Char} {rest : ShellLine} (h : c ≠ 'r') :
    ¬ announced name <+: c :: rest := by
  rintro ⟨t, ht⟩
  exact h (List.cons.inj ht).1.symm

theorem not_announced_version {name : String} {version rest : ShellLine} (h : IsVersion version) :
    ¬ announced name <+: version ++ rest := by
  rintro ⟨t, ht⟩
  exact version_append_ne h (by decide) ht.symm

theorem not_announced_requires {name : String} {rest : ShellLine} :
    ¬ announced name <+: ['r', 'e', 'q', 'u', 'i', 'r', 'e', 's'] ++ rest := by
  intro h
  have hword := (List.prefix_append ['r', 'e', 'q', 'u', 'i', 'r', 'e', 'm'] _).trans h
  simp at hword

/-- A last word does not match. -/
theorem not_match_word {name : String} {word : ShellLine} (hword : ' ' ∉ word) :
    ¬ cutlassPattern name <:+: word := by
  rw [cutlassPattern_eq]
  exact fun h => hword (h.subset (List.mem_append_right _ List.mem_cons_self))

/-- No name has a comma. -/
theorem comma_not_mem {name : String} (h : name ∈ cutlassNames) :
    ',' ∉ cutlassPattern name ∧ ',' ∉ name.toList ++ ['=', '='] := by
  have key : ∀ name ∈ cutlassNames, ',' ∉ cutlassPattern name ∧ ',' ∉ name.toList ++ ['=', '='] := by
    decide
  exact key name h

/-- What follows the requirement does not match. -/
theorem not_match_installed {name : String} {dep depVer : ShellLine} (hdep : IsName dep)
    (hver : IsVersion depVer) : ¬ cutlassPattern name <:+: ' ' :: (['b', 'u', 't'] ++ ' ' ::
      (['y', 'o', 'u'] ++ ' ' :: (['h', 'a', 'v', 'e'] ++ ' ' :: (dep ++ ' ' :: (depVer ++ ['.']))))) := by
  intro h
  have h := (match_skip [] _ (by decide) fun hw => not_announced (by decide) hw.2).1 h
  have h := (match_skip ['b', 'u', 't'] _ (by decide) fun hw => not_announced (by decide) hw.2).1 h
  have h := (match_skip ['y', 'o', 'u'] _ (by decide) fun hw => not_announced (by decide) hw.2).1 h
  have h := (match_skip ['h', 'a', 'v', 'e'] _ (by decide) fun hw => absurd hw.1 (by decide)).1 h
  have h := (match_skip dep _ (blank_not_mem_name hdep) fun hw =>
    not_announced_version hver hw.2).1 h
  exact not_match_word (blank_not_mem_concat hver.2 (by decide)) h

/-- **A `has requirement` line matches by its requirement.** -/
theorem matches_unmet {pkg ver req dep depVer : ShellLine}
    (h : (Conflict.unmet pkg ver req dep depVer).Printed) :
    matchesCutlass (Conflict.unmet pkg ver req dep depVer).unversioned = true ↔
      ∃ name ∈ cutlassNames, name.toList ++ ['=', '='] <+: req ∨ cutlassPattern name <:+: req := by
  obtain ⟨hpkg, -, hdep, hver⟩ := h
  have htext : (Conflict.unmet pkg ver req dep depVer).unversioned = pkg ++ ' ' ::
      (['h', 'a', 's'] ++ ' ' :: (['r', 'e', 'q', 'u', 'i', 'r', 'e', 'm', 'e', 'n', 't'] ++ ' ' ::
        (req ++ ',' :: ' ' :: (['b', 'u', 't'] ++ ' ' :: (['y', 'o', 'u'] ++ ' ' ::
          (['h', 'a', 'v', 'e'] ++ ' ' :: (dep ++ ' ' :: (depVer ++ ['.'])))))))) := by
    rw [Conflict.unversioned, hasRequirement_eq, butYouHave_eq]
    simp only [List.append_assoc, List.cons_append, List.nil_append]
  rw [htext, matchesCutlass, List.any_eq_true]
  refine exists_congr fun name => and_congr_right fun hname => ?_
  obtain ⟨hcomma, hcomma'⟩ := comma_not_mem hname
  rw [decide_eq_true_iff,
    match_skip pkg (['h', 'a', 's'] ++ ' ' :: _) (blank_not_mem_name hpkg)
      fun hw => not_announced (by decide) hw.2,
    cutlassPattern_eq, infix_blank_iff (by decide) (by decide), ← cutlassPattern_eq,
    match_skip _ _ (by decide) fun hw => absurd hw.1 (by decide), infix_cons_iff hcomma,
    or_iff_left (not_match_installed hdep hver)]
  refine or_congr_left ?_
  rw [announced, List.prefix_append_right_inj, List.cons_prefix_cons, prefix_cons_iff hcomma']
  exact ⟨fun hpre => hpre.2.2, fun hpre => ⟨List.suffix_rfl, rfl, hpre⟩⟩

/-- A `requires` line does not match. -/
theorem matches_missing {pkg ver dep : ShellLine} (h : (Conflict.missing pkg ver dep).Printed) :
    matchesCutlass (Conflict.missing pkg ver dep).unversioned = false := by
  obtain ⟨hpkg, hver, hdep⟩ := h
  have hlast : ' ' ∉ dep ++ [','] := blank_not_mem_concat (blank_not_mem_name hdep) (by decide)
  have hsuffix : ¬ ['h', 'a', 's'] <:+ dep ++ [','] := by
    rw [← List.reverse_prefix, List.reverse_append]
    rintro ⟨t, ht⟩
    exact absurd (List.cons.inj ht).1 (by decide)
  have htext : (Conflict.missing pkg ver dep).unversioned = pkg ++ ' ' ::
      (ver ++ ' ' :: (['r', 'e', 'q', 'u', 'i', 'r', 'e', 's'] ++ ' ' :: (dep ++ [','] ++ ' ' ::
        (['w', 'h', 'i', 'c', 'h'] ++ ' ' :: (['i', 's'] ++ ' ' :: (['n', 'o', 't'] ++ ' ' ::
          ['i', 'n', 's', 't', 'a', 'l', 'l', 'e', 'd', '.'])))))) := by
    rw [Conflict.unversioned, Conflict.line, requires_eq, whichIsNotInstalled_eq]
    simp only [List.append_assoc, List.cons_append, List.nil_append]
  rw [htext, ← Bool.not_eq_true, matchesCutlass, List.any_eq_true]
  rintro ⟨name, -, h⟩
  have h := of_decide_eq_true h
  have h := (match_skip pkg _ (blank_not_mem_name hpkg) fun hw =>
    not_announced_version hver hw.2).1 h
  have h := (match_skip ver _ hver.2 fun hw => not_announced_requires hw.2).1 h
  have h := (match_skip _ _ (by decide) fun hw => absurd hw.1 (by decide)).1 h
  have h := (match_skip (dep ++ [',']) _ hlast fun hw => hsuffix hw.1).1 h
  have h := (match_skip ['w', 'h', 'i', 'c', 'h'] _ (by decide) fun hw => absurd hw.1 (by decide)).1 h
  have h := (match_skip ['i', 's'] _ (by decide) fun hw => absurd hw.1 (by decide)).1 h
  have h := (match_skip ['n', 'o', 't'] _ (by decide) fun hw => absurd hw.1 (by decide)).1 h
  exact not_match_word (by decide) h

/-! ## What the base has -/

/-- The line of a `has requirement` conflict at the spaces it is told apart by: the
first, and the last two. -/
theorem unmet_unversioned_eq (pkg ver req dep depVer : ShellLine) :
    (Conflict.unmet pkg ver req dep depVer).unversioned = pkg ++ ' ' :: ('h' :: (hasRequirement.drop 2 ++
      (req ++ butYouHave.dropLast ++ ' ' :: dep ++ ' ' :: (depVer ++ ['.'])))) := by
  have hhas : hasRequirement = ' ' :: 'h' :: hasRequirement.drop 2 := by decide
  have hbut : butYouHave = butYouHave.dropLast ++ [' '] := by decide
  rw [Conflict.unversioned]
  nth_rewrite 1 [hhas]
  nth_rewrite 1 [hbut]
  simp only [List.append_assoc, List.cons_append, List.nil_append]

theorem missing_unversioned_eq (pkg ver dep : ShellLine) :
    (Conflict.missing pkg ver dep).unversioned =
      pkg ++ ' ' :: (ver ++ ' ' :: (requires.tail ++ (dep ++ whichIsNotInstalled))) := by
  have hreq : requires = ' ' :: requires.tail := by decide
  rw [Conflict.unversioned, Conflict.line]
  nth_rewrite 1 [hreq]
  simp only [List.append_assoc, List.cons_append]

/-- The lines of two `has requirement` conflicts tell all but the versions of their
subjects. -/
theorem unmet_inj {pkg ver req dep depVer pkg' ver' req' dep' depVer' : ShellLine}
    (h : (Conflict.unmet pkg ver req dep depVer).Printed)
    (h' : (Conflict.unmet pkg' ver' req' dep' depVer').Printed)
    (heq : (Conflict.unmet pkg ver req dep depVer).unversioned =
      (Conflict.unmet pkg' ver' req' dep' depVer').unversioned) :
    pkg = pkg' ∧ req = req' ∧ dep = dep' ∧ depVer = depVer' := by
  obtain ⟨hpkg, -, hdep, hver⟩ := h
  obtain ⟨hpkg', -, hdep', hver'⟩ := h'
  have hdot : ∀ {v : ShellLine}, IsVersion v → ' ' ∉ v ++ ['.'] := fun hv =>
    blank_not_mem_concat hv.2 (by decide)
  rw [unmet_unversioned_eq, unmet_unversioned_eq] at heq
  obtain ⟨hp, hrest⟩ := append_cons_inj_left (blank_not_mem_name hpkg) (blank_not_mem_name hpkg') heq
  have hrest := List.append_cancel_left (List.cons.inj hrest).2
  obtain ⟨hrest, hv⟩ := append_cons_inj_right (hdot hver) (hdot hver') hrest
  obtain ⟨hr, hd⟩ := append_cons_inj_right (blank_not_mem_name hdep) (blank_not_mem_name hdep') hrest
  exact ⟨hp, List.append_cancel_right hr, hd, List.append_cancel_right hv⟩

/-- The lines of two `requires` conflicts tell them apart. -/
theorem missing_inj {pkg ver dep pkg' ver' dep' : ShellLine}
    (h : (Conflict.missing pkg ver dep).Printed) (h' : (Conflict.missing pkg' ver' dep').Printed)
    (heq : (Conflict.missing pkg ver dep).unversioned =
      (Conflict.missing pkg' ver' dep').unversioned) : pkg = pkg' ∧ ver = ver' ∧ dep = dep' := by
  rw [missing_unversioned_eq, missing_unversioned_eq] at heq
  obtain ⟨hp, hrest⟩ := append_cons_inj_left (blank_not_mem_name h.1) (blank_not_mem_name h'.1) heq
  obtain ⟨hv, hrest⟩ := append_cons_inj_left h.2.1.2 h'.2.1.2 hrest
  exact ⟨hp, hv, List.append_cancel_right (List.append_cancel_left hrest)⟩

/-- The two forms have different lines. -/
theorem unmet_ne_missing {pkg ver req dep depVer pkg' ver' dep' : ShellLine}
    (h : (Conflict.unmet pkg ver req dep depVer).Printed)
    (h' : (Conflict.missing pkg' ver' dep').Printed) :
    (Conflict.unmet pkg ver req dep depVer).unversioned ≠
      (Conflict.missing pkg' ver' dep').unversioned := by
  intro heq
  rw [unmet_unversioned_eq, missing_unversioned_eq] at heq
  obtain ⟨-, hrest⟩ := append_cons_inj_left (blank_not_mem_name h.1) (blank_not_mem_name h'.1) heq
  exact version_append_ne h'.2.1 (by decide) hrest.symm

/-- No conflict has the line of none. -/
theorem unversioned_ne_noConflict {c : Conflict} (h : c.Printed) : c.unversioned ≠ noConflict := by
  have hnone : noConflict = ['N', 'o'] ++ ' ' :: 'b' :: noConflict.drop 4 := by decide
  intro heq
  rw [hnone] at heq
  cases c with
  | unmet pkg ver req dep depVer =>
    rw [unmet_unversioned_eq] at heq
    obtain ⟨-, hrest⟩ := append_cons_inj_left (blank_not_mem_name h.1) (by decide) heq
    exact absurd (List.cons.inj hrest).1 (by decide)
  | missing pkg ver dep =>
    rw [missing_unversioned_eq] at heq
    obtain ⟨-, hrest⟩ := append_cons_inj_left (blank_not_mem_name h.1) (by decide) heq
    exact version_append_ne h.2.1 (by decide) hrest

/-- **Normalised lines are the same** for `has requirement` conflicts that differ in
the version of their subject, and for no other two. -/
theorem unversioned_eq_unmet {b : Conflict} {pkg ver req dep depVer : ShellLine} (hb : b.Printed)
    (hc : (Conflict.unmet pkg ver req dep depVer).Printed) :
    b.unversioned = (Conflict.unmet pkg ver req dep depVer).unversioned ↔
      b.SameUpToVersion (.unmet pkg ver req dep depVer) := by
  cases b with
  | unmet pkg' ver' req' dep' depVer' =>
    refine ⟨unmet_inj hb hc, ?_⟩
    rintro ⟨rfl, rfl, rfl, rfl⟩
    rfl
  | missing pkg' ver' dep' =>
    exact iff_of_false (fun heq => unmet_ne_missing hc hb heq.symm) id

theorem unversioned_eq_missing {b : Conflict} {pkg ver dep : ShellLine} (hb : b.Printed)
    (hc : (Conflict.missing pkg ver dep).Printed) :
    b.unversioned = (Conflict.missing pkg ver dep).unversioned ↔ b = .missing pkg ver dep := by
  refine ⟨fun heq => ?_, fun heq => by rw [heq]⟩
  cases b with
  | unmet pkg' ver' req' dep' depVer' => exact absurd heq (unmet_ne_missing hb hc)
  | missing pkg' ver' dep' =>
    obtain ⟨rfl, rfl, rfl⟩ := missing_inj hb hc heq
    rfl

/-- What the section accounts for is what it matches or finds in the base. -/
theorem accountedFor_iff {base : List Conflict} (hbase : ∀ b ∈ base, b.Printed) {c : Conflict}
    (hc : c.Printed) : c.AccountedFor base ↔
      matchesCutlass c.unversioned = true ∨ ∃ b ∈ base, b.unversioned = c.unversioned := by
  cases c with
  | unmet pkg ver req dep depVer =>
    rw [matches_unmet hc]
    exact or_congr_right (exists_congr fun b => and_congr_right fun hb =>
      (unversioned_eq_unmet (hbase b hb) hc).symm)
  | missing pkg ver dep =>
    rw [matches_missing hc]
    constructor
    · exact fun hmem => .inr ⟨_, hmem, rfl⟩
    · rintro (h | ⟨b, hb, heq⟩)
      · cases h
      · rw [unversioned_eq_missing (hbase b hb) hc] at heq
        show Conflict.missing pkg ver dep ∈ base
        rw [← heq]
        exact hb

/-! ## The verdict -/

/-- Every conflict's line opens with the name of its subject. -/
theorem line_eq {c : Conflict} (hc : c.Printed) :
    ∃ name, IsName name ∧ name <+: c.line ∧ name <+: c.unversioned := by
  cases c with
  | unmet pkg ver req dep depVer =>
    refine ⟨pkg, hc.1, ?_, ?_⟩
    · simp only [Conflict.line, List.append_assoc]
      exact List.prefix_append _ _
    · rw [unmet_unversioned_eq]
      exact List.prefix_append _ _
  | missing pkg ver dep =>
    refine ⟨pkg, hc.1, ?_, ?_⟩
    · simp only [Conflict.line, List.append_assoc]
      exact List.prefix_append _ _
    · rw [missing_unversioned_eq]
      exact List.prefix_append _ _

/-- No character of a name is a space. -/
theorem not_space_of_name {c : Char} (h : isDistNameChar c = true) : isSpaceChar c = false := by
  have hnames : ∀ n ∈ [9, 10, 11, 12, 13, 32], isDistNameChar (Char.ofNat n) = false := by decide
  refine Bool.eq_false_iff.2 fun hspace => ?_
  have hcode : c.toNat ∈ [9, 10, 11, 12, 13, 32] := by
    simp only [isSpaceChar, Bool.or_eq_true, beq_iff_eq, Bool.and_eq_true, decide_eq_true_eq] at hspace
    rcases hspace with rfl | ⟨hlow, hhigh⟩
    · decide
    · simp only [List.mem_cons, List.not_mem_nil, or_false]
      omega
  have hname := hnames _ hcode
  rw [Char.ofNat_toNat, h] at hname
  cases hname

/-- A line that opens with a name is not blank and no head of the receipt. -/
theorem of_opens_with_name {name line : ShellLine} (hname : IsName name) (h : name <+: line) :
    isBlank line = false ∧ line.head? ≠ some '#' := by
  obtain ⟨t, rfl⟩ := h
  obtain ⟨c, rest, rfl⟩ := List.exists_cons_of_ne_nil hname.1
  have hc := hname.2 c List.mem_cons_self
  constructor
  · rw [isBlank, Lib.isBlank, List.cons_append, List.all_cons, not_space_of_name hc, Bool.false_and]
  · rintro hhash
    cases hhash
    exact absurd hc (by decide)

/-- The line of no conflicts is kept as it is, and is not allowed. -/
theorem stripVersion_noConflict : stripVersion noConflict = noConflict := by decide

theorem noConflict_kept : isBlank noConflict = false ∧ matchesCutlass noConflict = false ∧
    noConflict.head? ≠ some '#' := by
  decide

/-- The lines of a report are not blank, and no heads of the receipt. -/
theorem of_mem_pipCheck {conflicts : List Conflict} (h : ∀ c ∈ conflicts, c.Printed)
    {line : ShellLine} (hline : line ∈ pipCheck conflicts) :
    isBlank line = false ∧ line.head? ≠ some '#' := by
  unfold pipCheck at hline
  split at hline
  · rw [List.mem_singleton.1 hline]
    exact ⟨noConflict_kept.1, noConflict_kept.2.2⟩
  · obtain ⟨c, hc, rfl⟩ := List.mem_map.1 hline
    obtain ⟨name, hname, hpre, -⟩ := line_eq (h c hc)
    exact of_opens_with_name hname hpre

/-- The normalised lines of a report. -/
theorem exists_mem_pipCheck {conflicts : List Conflict} (h : ∀ c ∈ conflicts, c.Printed)
    (p : ShellLine → Prop) : (∃ l ∈ pipCheck conflicts, p (stripVersion l)) ↔
      (conflicts = [] ∧ p noConflict) ∨ ∃ c ∈ conflicts, p c.unversioned := by
  unfold pipCheck
  split
  next hnil =>
    subst hnil
    simp [stripVersion_noConflict]
  next hnil =>
    rw [or_iff_right fun hand => hnil hand.1]
    constructor
    · rintro ⟨l, hl, hp⟩
      obtain ⟨c, hc, rfl⟩ := List.mem_map.1 hl
      exact ⟨c, hc, stripVersion_line (h c hc) ▸ hp⟩
    · rintro ⟨c, hc, hp⟩
      exact ⟨c.line, List.mem_map_of_mem hc, (stripVersion_line (h c hc)).symm ▸ hp⟩

/-- What the base has, once versions are dropped. -/
theorem exists_mem_baseRaw {base : List Conflict} (h : ∀ c ∈ base, c.Printed)
    (version : String → ShellLine) (importable : ShellLine) {line : ShellLine}
    (hline : isBlank line = false) :
    (∃ b ∈ baseRaw (capture (baseReceipt (pipCheck base) version importable)),
      stripVersion b = line) ↔
        (base = [] ∧ noConflict = line) ∨ ∃ b ∈ base, b.unversioned = line := by
  rw [← exists_mem_pipCheck h (· = line)]
  refine exists_congr fun b => and_congr_left fun hb => ?_
  have hne : b ≠ [] := by
    rintro rfl
    exact ne_nil_of_not_blank hline hb.symm
  exact mem_baseRaw (fun l hl => (of_mem_pipCheck h hl).2) version importable hne

/-- The line of a conflict is left over if the conflict is not accounted for. -/
theorem left_over_iff {base : List Conflict} (hbase : ∀ b ∈ base, b.Printed)
    (version : String → ShellLine) (importable : ShellLine) {c : Conflict} (hc : c.Printed) :
    (isBlank c.unversioned = false ∧ matchesCutlass c.unversioned = false ∧
      ¬ ∃ b ∈ baseRaw (capture (baseReceipt (pipCheck base) version importable)),
        stripVersion b = c.unversioned) ↔ ¬ c.AccountedFor base := by
  obtain ⟨name, hname, -, hpre⟩ := line_eq hc
  have hblank := (of_opens_with_name hname hpre).1
  rw [exists_mem_baseRaw hbase version importable hblank, accountedFor_iff hbase hc,
    or_iff_right fun hand => unversioned_ne_noConflict hc hand.2.symm, not_or, Bool.not_eq_true,
    and_iff_right hblank]

/-- **The section fails** if the live report has a conflict that is not accounted for,
or has none although the base has one. -/
theorem fails_iff_accountedFor {base live : List Conflict} (hbase : ∀ c ∈ base, c.Printed)
    (hlive : ∀ c ∈ live, c.Printed) (version : String → ShellLine) (importable : ShellLine) :
    Fails (capture (baseReceipt (pipCheck base) version importable)) (capture (pipCheck live)) ↔
      (live = [] ∧ base ≠ []) ∨ ∃ c ∈ live, ¬ c.AccountedFor base := by
  have hcapture : (∃ l ∈ capture (pipCheck live), isBlank (stripVersion l) = false ∧
      matchesCutlass (stripVersion l) = false ∧
        ¬ ∃ b ∈ baseRaw (capture (baseReceipt (pipCheck base) version importable)),
          stripVersion b = stripVersion l) ↔
      ∃ l ∈ pipCheck live, isBlank (stripVersion l) = false ∧
        matchesCutlass (stripVersion l) = false ∧
          ¬ ∃ b ∈ baseRaw (capture (baseReceipt (pipCheck base) version importable)),
            stripVersion b = stripVersion l := by
    refine exists_congr fun l => and_congr_left fun hl => mem_capture ?_
    rintro rfl
    exact ne_nil_of_not_blank hl.1 rfl
  have hnone : (isBlank noConflict = false ∧ matchesCutlass noConflict = false ∧
      ¬ ∃ b ∈ baseRaw (capture (baseReceipt (pipCheck base) version importable)),
        stripVersion b = noConflict) ↔ base ≠ [] := by
    rw [exists_mem_baseRaw hbase version importable noConflict_kept.1,
      and_iff_right noConflict_kept.1, and_iff_right noConflict_kept.2.1]
    refine not_congr ⟨?_, fun hnil => .inl ⟨hnil, rfl⟩⟩
    rintro (hand | ⟨b, hb, heq⟩)
    · exact hand.1
    · exact absurd heq (unversioned_ne_noConflict (hbase b hb))
  rw [fails_iff, hcapture, exists_mem_pipCheck hlive fun line => isBlank line = false ∧
    matchesCutlass line = false ∧
      ¬ ∃ b ∈ baseRaw (capture (baseReceipt (pipCheck base) version importable)),
        stripVersion b = line]
  exact or_congr (and_congr_right fun _ => hnone) (exists_congr fun c =>
    and_congr_right fun hc => left_over_iff hbase version importable (hlive c hc))

/-- A requirement of a family name and `==` is in the family. -/
theorem takeWhile_cutlass {name : String} (hname : name ∈ cutlassNames) {req : ShellLine}
    (h : name.toList ++ ['=', '='] <+: req) : req.takeWhile isDistNameChar = name.toList := by
  have hchars : ∀ name ∈ cutlassNames, ∀ c ∈ name.toList, isDistNameChar c := by decide
  obtain ⟨t, rfl⟩ := h
  rw [List.append_assoc]
  exact takeWhile_append_of_head (hchars name hname) fun c hc => Option.some.inj hc ▸ by decide

/-- What is accounted for is not new, but for quotations. -/
theorem not_new_of_accountedFor {base : List Conflict} {c : Conflict} (h : c.AccountedFor base)
    (hquote : ¬ c.Quotes) : ¬ c.New base := by
  rintro ⟨hcutlass, hbase⟩
  cases c with
  | unmet pkg ver req dep depVer =>
    rcases h with ⟨name, hname, hpre | hin⟩ | hin
    · exact hcutlass ⟨name, hname, takeWhile_cutlass hname hpre⟩
    · exact hquote ⟨name, hname, hin⟩
    · exact hbase hin
  | missing pkg ver dep => exact hbase ⟨_, h, rfl, rfl⟩

/-- **No new conflict gets through**, if it does not quote a line of the family. -/
theorem fails_of_new {base live : List Conflict} (hbase : ∀ c ∈ base, c.Printed)
    (hlive : ∀ c ∈ live, c.Printed) (version : String → ShellLine) (importable : ShellLine)
    {c : Conflict} (hc : c ∈ live) (hnew : c.New base) (hquote : ¬ c.Quotes) :
    Fails (capture (baseReceipt (pipCheck base) version importable)) (capture (pipCheck live)) :=
  (fails_iff_accountedFor hbase hlive version importable).2
    (.inr ⟨c, hc, fun hacc => not_new_of_accountedFor hacc hquote hnew⟩)

/-- **When the verdict is right.** If the report has a new conflict, the section has to
miss one of the conflicts; if not, it has to account for all of them, and for none only
where the base had none. -/
theorem verdict_iff {base live : List Conflict} (hbase : ∀ c ∈ base, c.Printed)
    (hlive : ∀ c ∈ live, c.Printed) (version : String → ShellLine) (importable : ShellLine) :
    (Fails (capture (baseReceipt (pipCheck base) version importable)) (capture (pipCheck live)) ↔
      HasNew base live) ↔
    (HasNew base live → ∃ c ∈ live, ¬ c.AccountedFor base) ∧
      (¬ HasNew base live → (live = [] → base = []) ∧ ∀ c ∈ live, c.AccountedFor base) := by
  rw [fails_iff_accountedFor hbase hlive version importable]
  constructor
  · intro h
    refine ⟨fun hnew => (h.2 hnew).resolve_left ?_, fun hnew => ?_⟩
    · rintro ⟨rfl, -⟩
      obtain ⟨c, hc, -⟩ := hnew
      cases hc
    · have hpass := fun hfail => hnew (h.1 hfail)
      exact ⟨fun hnil => of_not_not fun hne => hpass (.inl ⟨hnil, hne⟩),
        fun c hc => of_not_not fun hacc => hpass (.inr ⟨c, hc, hacc⟩)⟩
  · rintro ⟨hfail, hpass⟩
    refine ⟨fun h => of_not_not fun hnew => ?_, fun hnew => .inr (hfail hnew)⟩
    obtain ⟨hnone, hall⟩ := hpass hnew
    rcases h with ⟨hnil, hne⟩ | ⟨c, hc, hacc⟩
    · exact hne (hnone hnil)
    · exact hacc (hall c hc)

/-- A requirement that the base has not got either, before and after a bump of `b12x`. -/
def flashAttnMissing (ver : String) : Conflict := .missing "b12x".toList ver.toList "flash-attn".toList

theorem verdict_iff_bump :
    (Fails (capture (baseReceipt (pipCheck [flashAttnMissing "1.2.0"]) (fun _ => "1.2.0".toList) []))
      (capture (pipCheck [flashAttnMissing "1.3.0"])) ↔
        HasNew [flashAttnMissing "1.2.0"] [flashAttnMissing "1.3.0"]) ↔
    (HasNew [flashAttnMissing "1.2.0"] [flashAttnMissing "1.3.0"] →
      ∃ c ∈ [flashAttnMissing "1.3.0"], ¬ c.AccountedFor [flashAttnMissing "1.2.0"]) ∧
    (¬ HasNew [flashAttnMissing "1.2.0"] [flashAttnMissing "1.3.0"] →
      ([flashAttnMissing "1.3.0"] = [] → [flashAttnMissing "1.2.0"] = []) ∧
        ∀ c ∈ [flashAttnMissing "1.3.0"], c.AccountedFor [flashAttnMissing "1.2.0"]) :=
  verdict_iff (by decide) (by decide) (fun _ => "1.2.0".toList) []

/-- The bump is taken for a new conflict. -/
theorem bump_is_new : (∀ c ∈ [flashAttnMissing "1.2.0", flashAttnMissing "1.3.0"], c.Printed) ∧
    ¬ (Fails (capture (baseReceipt (pipCheck [flashAttnMissing "1.2.0"]) (fun _ => "1.2.0".toList) []))
      (capture (pipCheck [flashAttnMissing "1.3.0"])) ↔
        HasNew [flashAttnMissing "1.2.0"] [flashAttnMissing "1.3.0"]) := by
  have hfails : Fails (capture (baseReceipt (pipCheck [flashAttnMissing "1.2.0"])
      (fun _ => "1.2.0".toList) [])) (capture (pipCheck [flashAttnMissing "1.3.0"])) := by
    decide +kernel
  refine ⟨by decide, fun h => ?_⟩
  obtain ⟨c, hc, hnew⟩ := h.1 hfails
  rw [List.mem_singleton] at hc
  subst hc
  exact hnew.2 ⟨_, List.mem_singleton_self _, rfl, rfl⟩

end LlmkubeRuntimes.Nvfp4
