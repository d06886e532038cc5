import Mathlib.Data.List.Infix
import LlmkubeRuntimes.Dockerfile.Shell

/-!
# Where the checker is right

* `Stands`, `Matches`: where the pattern of `HEREDOC` stands in a line;
* `physicalLines`: the lines of a text, which end at line feeds;
* `Faithful`: the pattern stands where the shell opens a heredoc, and nothing but a line
  feed ends a line;
* `right_of_faithful`: the checker is right about such files;
* `not_right_of_extra`, `not_right_of_missed`: where it is wrong.
-/

namespace LlmkubeRuntimes.Dockerfile

open LlmkubeRuntimes.Lib (isLineBreak isPySpace)

/-! ## The pattern -/

/-- `[A-Za-z_][A-Za-z0-9_]*` -/
structure IsName (name : Line) : Prop where
  head : ∃ c ∈ name.head?, c.isDigit = false
  word : ∀ c ∈ name, isWordChar c

/-- The pattern stands at the start of a text, with this heredoc. -/
def Stands (text : List Char) (o : Opener) : Prop :=
  ∃ blanks quote rest, text = "<<".toList ++ (if o.dashed then ['-'] else []) ++ blanks ++
      quote ++ o.delim ++ quote ++ rest ∧
    (∀ c ∈ blanks, isPySpace c) ∧ quote ∈ [[], ['\''], ['"']] ∧ IsName o.delim ∧
    (quote = [] → ∀ c ∈ rest.head?, isWordChar c = false)

/-- The heredocs of the places in a text where the pattern stands. -/
inductive Matches : Line → List Opener → Prop where
  | nil : Matches [] []
  | here {c : Char} {cs : List Char} {o : Opener} {os : List Opener} : Stands (c :: cs) o →
      Matches cs os → Matches (c :: cs) (o :: os)
  | past {c : Char} {cs : List Char} {os : List Opener} : (∀ o, ¬ Stands (c :: cs) o) →
      Matches cs os → Matches (c :: cs) os

theorem heredocs_cons (c : Char) (cs : List Char) :
    heredocs (c :: cs) = (openerAt (c :: cs)).toList ++ heredocs cs := by
  show List.filterMap openerAt ((c :: cs) :: cs.tails) = _
  rw [List.filterMap_cons]
  cases openerAt (c :: cs) <;> rfl

theorem nameAt_eq_some {text name : Line} :
    nameAt text = some name ↔
      ∃ rest, text = name ++ rest ∧ IsName name ∧ ∀ c ∈ rest.head?, isWordChar c = false := by
  constructor
  · intro h
    cases text with
    | nil => cases h
    | cons c cs =>
      rw [nameAt] at h
      split at h
      · rename_i hc
        rw [Bool.and_eq_true, Bool.not_eq_true'] at hc
        rw [Option.some.injEq] at h
        refine ⟨(c :: cs).dropWhile isWordChar, ?_, ⟨⟨c, ?_, hc.2⟩, fun d hd => ?_⟩, fun d hd => ?_⟩
        · rw [← h, List.takeWhile_append_dropWhile]
        · rw [← h, List.takeWhile_cons_of_pos hc.1]
          rfl
        · exact List.mem_takeWhile_imp (h ▸ hd)
        · exact Lib.head?_dropWhile hd
      · cases h
  · rintro ⟨rest, rfl, hname, hrest⟩
    obtain ⟨c, hc, hdigit⟩ := hname.head
    obtain ⟨cs, rfl⟩ := List.head?_eq_some_iff.1 hc
    have hword : isWordChar c = true := hname.word c List.mem_cons_self
    rw [List.cons_append, nameAt, if_pos (by rw [hword, hdigit]; rfl), ← List.cons_append,
      Lib.takeWhile_append_of_head hname.word hrest]

theorem isPySpace_of_isWordChar {c : Char} (h : isWordChar c) : isPySpace c = false := by
  have hn : (65 ≤ c.toNat ∧ c.toNat ≤ 90 ∨ 97 ≤ c.toNat ∧ c.toNat ≤ 122 ∨
      48 ≤ c.toNat ∧ c.toNat ≤ 57) ∨ c.toNat = 95 := by
    rw [isWordChar, Bool.or_eq_true, decide_eq_true_eq] at h
    rcases h with h | rfl
    · unfold Char.isAlphanum Char.isAlpha Char.isUpper Char.isLower Char.isDigit at h
      simp only [Bool.or_eq_true, Bool.and_eq_true, decide_eq_true_eq, UInt32.le_iff_toNat_le,
        or_assoc] at h
      exact .inl h
    · exact .inr rfl
  simp only [isPySpace, Lib.isSpace, Bool.or_eq_false_iff, Bool.and_eq_false_iff,
    decide_eq_false_iff_not, beq_eq_false_iff_ne]
  omega

/-- A quote is no part of a name. -/
theorem not_isWordChar_quote {c : Char} (h : c = '\'' ∨ c = '"') : isWordChar c = false := by
  rcases h with rfl | rfl <;> rfl

theorem delimAt_eq_some {text name : Line} :
    delimAt text = some name ↔ ∃ quote rest, text = quote ++ name ++ quote ++ rest ∧
      quote ∈ [[], ['\''], ['"']] ∧ IsName name ∧
      (quote = [] → ∀ c ∈ rest.head?, isWordChar c = false) := by
  constructor
  · intro h
    cases text with
    | nil => cases h
    | cons c cs =>
      rw [delimAt] at h
      split at h
      · rename_i hc
        rw [Option.filter_eq_some_iff, nameAt_eq_some] at h
        obtain ⟨⟨rest, rfl, hname, -⟩, hclose⟩ := h
        rw [List.drop_left, decide_eq_true_eq, List.head?_eq_some_iff] at hclose
        obtain ⟨rest, rfl⟩ := hclose
        refine ⟨[c], rest, by simp, ?_, hname, fun hnil => nomatch hnil⟩
        rw [Bool.or_eq_true, decide_eq_true_eq, decide_eq_true_eq] at hc
        rcases hc with rfl | rfl <;> decide
      · obtain ⟨rest, heq, hname, hrest⟩ := nameAt_eq_some.1 h
        exact ⟨[], rest, by rw [heq]; simp, by decide, hname, fun _ => hrest⟩
  · rintro ⟨quote, rest, rfl, hquote, hname, hrest⟩
    have hclosed {c : Char} (hc : c = '\'' ∨ c = '"') :
        delimAt ([c] ++ name ++ [c] ++ rest) = some name := by
      have hat : nameAt (name ++ c :: rest) = some name :=
        nameAt_eq_some.2 ⟨c :: rest, rfl, hname, fun d hd => by
          rw [← Option.some.inj hd, not_isWordChar_quote hc]⟩
      have hquote : (decide (c = '\'') || decide (c = '"')) = true := by simpa using hc
      rw [List.append_assoc, List.append_assoc, List.singleton_append, List.singleton_append, delimAt,
        if_pos hquote, hat]
      simp
    rw [List.mem_cons, List.mem_cons, List.mem_singleton] at hquote
    rcases hquote with rfl | rfl | rfl
    · obtain ⟨c, hc, -⟩ := hname.head
      obtain ⟨cs, rfl⟩ := List.head?_eq_some_iff.1 hc
      have hnot : (decide (c = '\'') || decide (c = '"')) = false := by
        rw [← Bool.not_eq_true, Bool.or_eq_true, decide_eq_true_eq, decide_eq_true_eq]
        intro hquote
        have hword := hname.word c List.mem_cons_self
        rw [not_isWordChar_quote hquote] at hword
        cases hword
      rw [List.nil_append, List.append_nil, List.cons_append, delimAt, hnot,
        if_neg Bool.false_ne_true]
      exact nameAt_eq_some.2 ⟨rest, rfl, hname, hrest rfl⟩
    · exact hclosed (.inl rfl)
    · exact hclosed (.inr rfl)

/-- Where a delimiter stands there is no space and no dash. -/
theorem head_of_delimAt {text name : Line} (h : delimAt text = some name) :
    ∃ c cs, text = c :: cs ∧ isPySpace c = false ∧ c ≠ '-' := by
  obtain ⟨quote, rest, rfl, hquote, hname, -⟩ := delimAt_eq_some.1 h
  rw [List.mem_cons, List.mem_cons, List.mem_singleton] at hquote
  rcases hquote with rfl | rfl | rfl
  · obtain ⟨c, hc, -⟩ := hname.head
    obtain ⟨cs, rfl⟩ := List.head?_eq_some_iff.1 hc
    have hword : isWordChar c = true := hname.word c List.mem_cons_self
    refine ⟨c, _, rfl, ?_, ?_⟩
    · exact isPySpace_of_isWordChar hword
    · rintro rfl
      cases hword
  · exact ⟨'\'', _, rfl, rfl, by decide⟩
  · exact ⟨'"', _, rfl, rfl, by decide⟩

theorem dropWhile_blanks {blanks text : Line} (hblanks : ∀ c ∈ blanks, isPySpace c)
    (htext : ∃ c cs, text = c :: cs ∧ isPySpace c = false ∧ c ≠ '-') :
    (blanks ++ text).dropWhile isPySpace = text := by
  obtain ⟨c, cs, rfl, hc, -⟩ := htext
  exact Lib.dropWhile_append_of_head hblanks fun d hd => Option.some.inj hd ▸ hc

/-- **`HEREDOC` matches where the pattern stands.** -/
theorem openerAt_eq_some {text : List Char} {o : Opener} : openerAt text = some o ↔ Stands text o := by
  constructor
  · intro h
    have hstands (dash : List Char) {dashed : Bool} {rest : List Char}
        (hdash : dash = if dashed then ['-'] else [])
        (h : (delimAt (rest.dropWhile isPySpace)).map (⟨·, dashed⟩ : Line → Opener) = some o) :
        Stands ("<<".toList ++ dash ++ rest) o := by
      obtain ⟨name, hdelim, rfl⟩ := Option.map_eq_some_iff.1 h
      obtain ⟨quote, tail, heq, hquote, hname, htail⟩ := delimAt_eq_some.1 hdelim
      refine ⟨rest.takeWhile isPySpace, quote, tail, ?_, fun c hc => List.mem_takeWhile_imp hc,
        hquote, hname, htail⟩
      have hrest : rest = rest.takeWhile isPySpace ++ (quote ++ name ++ quote ++ tail) := by
        rw [← heq, List.takeWhile_append_dropWhile]
      simp only [← hdash, List.append_assoc] at hrest ⊢
      rw [← hrest]
    unfold openerAt at h
    split at h
    · exact hstands ['-'] rfl h
    · exact hstands [] rfl h
    · cases h
  · rintro ⟨blanks, quote, rest, rfl, hblanks, hquote, hname, hrest⟩
    obtain ⟨name, dashed⟩ := o
    have hdelim : delimAt (quote ++ name ++ quote ++ rest) = some name :=
      delimAt_eq_some.2 ⟨quote, rest, rfl, hquote, hname, hrest⟩
    have hhead := head_of_delimAt hdelim
    have hdrop := dropWhile_blanks hblanks hhead
    have hassoc (dash : List Char) : "<<".toList ++ dash ++ blanks ++ quote ++ name ++ quote ++ rest =
        '<' :: '<' :: (dash ++ (blanks ++ (quote ++ name ++ quote ++ rest))) := by
      simp
    cases dashed with
    | true =>
      rw [if_pos rfl, hassoc, List.singleton_append, openerAt.eq_1, hdrop, hdelim]
      rfl
    | false =>
      have hdash : ∀ tail, blanks ++ (quote ++ name ++ quote ++ rest) = '-' :: tail → False := by
        intro tail heq
        cases blanks with
        | nil =>
          obtain ⟨c, cs, htext, -, hne⟩ := hhead
          rw [htext] at heq
          exact hne (List.cons.inj heq).1
        | cons c blanks =>
          have hspace := hblanks c List.mem_cons_self
          rw [(List.cons.inj heq).1] at hspace
          cases hspace
      rw [if_neg Bool.false_ne_true, hassoc, List.nil_append, openerAt.eq_2 _ hdash, hdrop, hdelim]
      rfl

theorem matches_iff {l : Line} {os : List Opener} : Matches l os ↔ heredocs l = os := by
  constructor
  · intro h
    induction h with
    | nil => rfl
    | here hstands _ ih => rw [heredocs_cons, openerAt_eq_some.2 hstands, ih]; rfl
    | @past c cs os hnone _ ih =>
      have hopener : openerAt (c :: cs) = none :=
        Option.eq_none_iff_forall_not_mem.2 fun o ho => hnone o (openerAt_eq_some.1 ho)
      rw [heredocs_cons, hopener, ih]
      rfl
  · rintro rfl
    induction l with
    | nil => exact .nil
    | cons c cs ih =>
      rw [heredocs_cons]
      cases hopener : openerAt (c :: cs) with
      | none => exact .past (fun o ho => by rw [openerAt_eq_some.2 ho] at hopener; cases hopener) ih
      | some o => exact .here (openerAt_eq_some.1 hopener) ih

/-! ## The lines of a text -/

/-- The lines of a text that goes on after `line`. They end at line feeds, of which a carriage
return before is a part. -/
def physicalFrom (line : Line) : List Char → List Line
  | [] => if line = [] then [] else [line]
  | '\n' :: text => line :: physicalFrom [] text
  | '\r' :: '\n' :: text => line :: physicalFrom [] text
  | c :: text => physicalFrom (line ++ [c]) text

def physicalLines (text : List Char) : List Line := physicalFrom [] text

/-- Where `splitlines` ends a line there is a line feed. -/
def PlainEnds (text : List Char) : Prop :=
  ∀ front c rest, text = front ++ c :: rest → isLineBreak c →
    c = '\n' ∨ c = '\r' ∧ rest.head? = some '\n'

theorem PlainEnds.tail {c : Char} {text : List Char} (h : PlainEnds (c :: text)) : PlainEnds text :=
  fun front d rest heq => h (c :: front) d rest (by rw [heq]; rfl)

theorem linesFrom_eq (line : Line) {text : List Char} (h : PlainEnds text) :
    Lib.linesFrom line (Lib.universalNewlines text) = physicalFrom line text := by
  fun_induction physicalFrom line text with
  | case1 => exact if_pos rfl
  | case2 line hline => exact if_neg hline
  | case3 line text ih =>
    rw [Lib.universalNewlines_cons (by decide), Lib.linesFrom_break (by decide) rfl, ih h.tail]
  | case4 line text ih =>
    rw [Lib.universalNewlines, Lib.linesFrom_break (by decide) rfl, ih h.tail.tail]
  | case5 line c text hlf hcrlf ih =>
    have hbreak : isLineBreak c = false := by
      by_contra hbreak
      rcases h [] c text rfl (by simpa using hbreak) with rfl | ⟨rfl, hnext⟩
      · exact hlf rfl
      · obtain ⟨rest, rfl⟩ := List.head?_eq_some_iff.1 hnext
        exact hcrlf rest rfl rfl
    have hcr : c ≠ '\r' := by
      rintro rfl
      cases hbreak
    rw [Lib.universalNewlines_cons hcr, Lib.linesFrom_other hcr hbreak, ih h.tail]

/-- **A text with plain ends is read line by line.** -/
theorem readLines_eq {text : List Char} (h : PlainEnds text) : readLines text = physicalLines text :=
  linesFrom_eq [] h

/-! ## Faithful files -/

/-- What a line has to be at a position that the shell's heredocs lead to: the pattern stands
where the shell opens a heredoc, and a line that is the delimiter but for space at its end is
the delimiter. -/
def FaithfulLine : Position Shell → Line → Prop
  | .start, l => isInstruction l = true → Matches l (shell.opens shell.fresh l)
  | .continued s, l => isComment l = false → Matches l (shell.opens s l)
  | .body o _, l => ∀ space, (if o.dashed then l.dropWhile (· = '\t') else l) = o.delim ++ space →
      (∀ c ∈ space, isPySpace c) → space = []

/-- The same of lines from a position on. -/
def FaithfulLines : Position Shell → List Line → Prop
  | _, [] => True
  | pos, l :: lines => FaithfulLine pos l ∧ FaithfulLines (step shell pos l).2 lines

/-- Text that is space but for what it starts with. -/
theorem space_behind_iff {word text : Line} :
    (∀ space, text = word ++ space → (∀ c ∈ space, isPySpace c) → space = []) ↔
      (word <+: text → (∀ c ∈ text.drop word.length, isPySpace c) → text.drop word.length = []) := by
  constructor
  · rintro h ⟨space, rfl⟩ hspace
    rw [List.drop_left] at hspace ⊢
    exact h space rfl hspace
  · rintro h space rfl hspace
    have := h (List.prefix_append word space)
    rw [List.drop_left] at this
    exact this hspace

instance (pos : Position Shell) (l : Line) : Decidable (FaithfulLine pos l) :=
  match pos with
  | .start => decidable_of_iff _ (imp_congr_right fun _ => matches_iff.symm)
  | .continued _ => decidable_of_iff _ (imp_congr_right fun _ => matches_iff.symm)
  | .body _ _ => decidable_of_iff _ space_behind_iff.symm

instance decidableFaithfulLines : (pos : Position Shell) → (lines : List Line) →
    Decidable (FaithfulLines pos lines)
  | _, [] => .isTrue trivial
  | pos, l :: lines =>
    have := decidableFaithfulLines (step shell pos l).2 lines
    inferInstanceAs (Decidable (_ ∧ _))

namespace Position

/-- The position to the checker. -/
def forget : Position Shell → Position Unit
  | start => start
  | continued _ => continued ()
  | body o pending => body o pending

/-- All open heredocs have names. -/
def Named : Position Shell → Prop
  | body o pending => ∀ p ∈ o :: pending, IsName p.delim
  | _ => True

theorem forget_behind (s : Shell) (os : List Opener) (cont : Bool) :
    (behind s os cont).forget = behind () os cont := by
  cases os with
  | nil => cases cont <;> rfl
  | cons o os => rfl

theorem named_behind {s : Shell} {os : List Opener} {cont : Bool} (h : ∀ o ∈ os, IsName o.delim) :
    (behind s os cont).Named := by
  cases os with
  | nil => cases cont <;> trivial
  | cons o os => exact h

end Position

theorem Matches.named {l : Line} {os : List Opener} (h : Matches l os) : ∀ o ∈ os, IsName o.delim := by
  induction h with
  | nil => exact fun o ho => absurd ho List.not_mem_nil
  | here hstands _ ih =>
    obtain ⟨-, -, -, -, -, -, hname, -⟩ := hstands
    exact List.forall_mem_cons.2 ⟨hname, ih⟩
  | past _ _ ih => exact ih

/-- A heredoc with a name ends for the checker where it does for the shell. -/
theorem closes_eq {o : Opener} {pending : List Opener} {l : Line} (hname : IsName o.delim)
    (h : FaithfulLine (.body o pending) l) : closes o l = shell.ends o l := by
  let body := if o.dashed then l.dropWhile (· = '\t') else l
  have hkeep : o.delim.rdropWhile isPySpace = o.delim := by
    rw [List.rdropWhile_eq_self_iff]
    intro hne hspace
    rw [isPySpace_of_isWordChar (hname.word _ (List.getLast_mem hne))] at hspace
    cases hspace
  show decide (body.rdropWhile isPySpace = o.delim) = decide (body = o.delim)
  refine decide_eq_decide.2 ⟨fun hcut => ?_, fun heq => by rw [heq, hkeep]⟩
  have hsplit : body = o.delim ++ body.rtakeWhile isPySpace := by
    rw [← hcut, List.rdropWhile_append_rtakeWhile]
  have hnone : body.rtakeWhile isPySpace = [] := h _ hsplit fun c hc => List.mem_rtakeWhile_imp hc
  rw [hsplit, hnone, List.append_nil]

section

variable {pos : Position Shell} {l : Line} {lines : List Line}

/-- On a faithful line the checker takes the shell's step. -/
theorem step_forget (hnamed : pos.Named) (h : FaithfulLine pos l) :
    step matched pos.forget l = ((step shell pos l).1, (step shell pos l).2.forget) ∧
      (step shell pos l).2.Named := by
  have hafter {s : Shell} (hmatches : Matches l (shell.opens s l)) :
      matched.after () l = (shell.after s l).forget ∧ (shell.after s l).Named := by
    refine ⟨?_, Position.named_behind hmatches.named⟩
    rw [Heredocs.after, Heredocs.after, Position.forget_behind]
    exact congrArg (Position.behind () · (continues l)) (matches_iff.1 hmatches)
  cases pos with
  | start =>
    cases hskip : isBlank l || isComment l with
    | true =>
      rw [Position.forget, step, step]
      cases hblank : isBlank l with
      | true => exact ⟨rfl, trivial⟩
      | false =>
        have hcomment : isComment l = true := by simpa [hblank] using hskip
        rw [if_neg Bool.false_ne_true, if_neg Bool.false_ne_true, if_pos hcomment, if_pos hcomment]
        exact ⟨rfl, trivial⟩
    | false =>
      cases hinst : isInstruction l with
      | true =>
        obtain ⟨hforget, hnamed⟩ := hafter (h hinst)
        rw [step_instruction hinst, Position.forget, step_instruction hinst]
        exact ⟨Prod.ext rfl hforget, hnamed⟩
      | false =>
        rw [step_stray hskip hinst, Position.forget, step_stray hskip hinst]
        exact ⟨rfl, trivial⟩
  | continued s =>
    cases hcomment : isComment l with
    | true =>
      rw [step_comment hcomment, Position.forget, step_comment hcomment]
      exact ⟨rfl, trivial⟩
    | false =>
      obtain ⟨hforget, hnamed⟩ := hafter (h hcomment)
      rw [step_continuation hcomment, Position.forget, step_continuation hcomment]
      exact ⟨Prod.ext rfl hforget, hnamed⟩
  | body o pending =>
    have hcloses : matched.ends o l = shell.ends o l := closes_eq (hnamed o List.mem_cons_self) h
    cases hends : shell.ends o l with
    | true =>
      rw [step_terminator hends, Position.forget, step_terminator (hcloses.trans hends)]
      exact ⟨Prod.ext rfl (Position.forget_behind _ _ _).symm,
        Position.named_behind fun p hp => hnamed p (List.mem_cons_of_mem o hp)⟩
    | false =>
      rw [step_body hends, Position.forget, step_body (hcloses.trans hends)]
      exact ⟨rfl, hnamed⟩

/-- On faithful lines the checker reads what the shell does. -/
theorem reading_forget (hnamed : pos.Named) (h : FaithfulLines pos lines) :
    roles matched pos.forget lines = roles shell pos lines ∧
      closed matched pos.forget lines = closed shell pos lines ∧
      positionAfter matched pos.forget lines = (positionAfter shell pos lines).forget := by
  induction lines generalizing pos with
  | nil => cases pos <;> exact ⟨rfl, rfl, rfl⟩
  | cons l lines ih =>
    obtain ⟨hstep, hnamed⟩ := step_forget hnamed h.1
    obtain ⟨hroles, hclosed, hafter⟩ := ih hnamed h.2
    rw [roles, roles, closed_cons, closed_cons, positionAfter, positionAfter, hstep, hroles, hclosed,
      hafter]
    exact ⟨rfl, rfl, rfl⟩

end

/-! ## When the checker is right -/

/-- The line with this number starts an instruction or should. -/
def StartsAt {σ : Type} (H : Heredocs σ) (lines : List Line) (i : Nat) : Prop :=
  ∃ r ∈ (roles H .start lines)[i]?, Role.isJudged r

/-- No error is found exactly if the file follows the grammar, and no line is judged that
belongs to an instruction before it. -/
def Right (path : String) (text : List Char) : Prop :=
  (check path text = [] ↔ File shell (physicalLines text)) ∧
    ∀ i ∈ (scan 0 (readLines text)).judged, StartsAt shell (physicalLines text) i

theorem mem_judgedLines {i k : Nat} {rs : List Role} :
    i ∈ judgedLines k rs ↔ ∃ j, i = k + j ∧ ∃ r ∈ rs[j]?, Role.isJudged r := by
  induction rs generalizing k with
  | nil =>
    rw [judgedLines]
    simp
  | cons r rs ih =>
    have htail : i ∈ judgedLines (k + 1) rs ↔ ∃ j, i = k + (j + 1) ∧ ∃ r ∈ rs[j]?, Role.isJudged r := by
      rw [ih]
      exact exists_congr fun j => and_congr_left fun _ => by omega
    have hhead : ∀ r' ∈ (r :: rs)[0]?, r' = r := fun r' hr' => (Option.some.inj hr').symm
    rw [judgedLines]
    split_ifs with hr
    · rw [List.mem_cons, htail]
      constructor
      · rintro (rfl | ⟨j, rfl, hj⟩)
        · exact ⟨0, rfl, r, rfl, hr⟩
        · exact ⟨j + 1, rfl, hj⟩
      · rintro ⟨j, rfl, hj⟩
        cases j with
        | zero => exact .inl rfl
        | succ j => exact .inr ⟨j, rfl, hj⟩
    · rw [htail]
      constructor
      · rintro ⟨j, rfl, hj⟩
        exact ⟨j + 1, rfl, hj⟩
      · rintro ⟨j, rfl, hj⟩
        cases j with
        | zero =>
          obtain ⟨r', hmem, hjudged⟩ := hj
          exact absurd (hhead r' hmem ▸ hjudged) hr
        | succ j => exact ⟨j, rfl, hj⟩

theorem mem_judged {lines : List Line} {i : Nat} :
    i ∈ (scan 0 lines).judged ↔ StartsAt matched lines i := by
  have hjudged : (scan 0 lines).judged = judgedLines 0 (roles matched .start lines) :=
    (scan_reads 0 .start lines).1
  rw [hjudged, mem_judgedLines]
  simp [StartsAt]

section

variable {text : List Char} {front rest : List Line} {l : Line}

theorem FaithfulLines.position (h : FaithfulLines .start front) :
    positionAfter matched .start front = (positionAfter shell .start front).forget :=
  (reading_forget (show Position.Named .start from trivial) h).2.2

/-- Where the shell can find heredocs on a line, so can the checker. -/
theorem step_matched {pos : Position Shell} (h : (step shell pos l).1 ∈ [.head, .continuation]) :
    (step matched pos.forget l).2 = matched.after () l := by
  cases pos with
  | start =>
    rw [step] at h
    rw [Position.forget, step]
    split_ifs at h ⊢
    · exact absurd h (by decide)
    · exact absurd h (by decide)
    · rfl
    · exact absurd h (by decide)
  | continued s =>
    rw [step] at h
    rw [Position.forget, step]
    split_ifs at h ⊢
    · exact absurd (show Role.comment ∈ _ from h) (by decide)
    · rfl
  | body o os =>
    rw [step] at h
    split_ifs at h
    · exact absurd (show Role.terminator ∈ _ from h) (by decide)
    · exact absurd (show Role.body ∈ _ from h) (by decide)

/-- The part a line plays. -/
theorem role_at {σ : Type} {H : Heredocs σ} {pos : Position σ} (front : List Line) (l : Line)
    (rest : List Line) : (roles H pos (front ++ l :: rest))[front.length]? =
      some (step H (positionAfter H pos front) l).1 := by
  induction front generalizing pos with
  | nil => rfl
  | cons m front ih => exact ih

theorem positionAfter_append {σ : Type} {H : Heredocs σ} {pos : Position σ} (front rest : List Line) :
    positionAfter H pos (front ++ rest) = positionAfter H (positionAfter H pos front) rest := by
  induction front generalizing pos with
  | nil => rfl
  | cons m front ih => exact ih

/-- **A heredoc that is not matched is an error**: the first line of its body that is no blank
line and no comment, the terminator if there is none before, is judged. -/
theorem not_right_of_missed (path : String) {skipped : List Line} {m : Line} (hends : PlainEnds text)
    (htext : physicalLines text = front ++ l :: (skipped ++ m :: rest))
    (hfront : FaithfulLines .start front)
    (hrole : (step shell (positionAfter shell .start front) l).1 ∈ [.head, .continuation])
    {o : Opener} {pending : List Opener}
    (hopens : (step shell (positionAfter shell .start front) l).2 = .body o pending)
    (hnone : Matches l []) (hlast : continues l = false)
    (hskipped : ∀ k ∈ skipped, (isBlank k || isComment k) = true ∧ shell.ends o k = false)
    (hm : (isBlank m || isComment m) = false) : ¬ Right path text := by
  intro hright
  have hlines : physicalLines text = (front ++ l :: skipped) ++ m :: rest := by
    rw [htext, List.append_assoc, List.cons_append]
  -- the checker is where an instruction starts, and the shell in the body
  have hmatched : positionAfter matched .start (front ++ l :: skipped) = .start := by
    rw [positionAfter_append, hfront.position, positionAfter, step_matched hrole,
      after_last (H := matched) (matches_iff.1 hnone) hlast]
    clear htext hlines
    induction skipped with
    | nil => rfl
    | cons k skipped ih =>
      obtain ⟨hk, hskipped⟩ := List.forall_mem_cons.1 hskipped
      rw [positionAfter, (step_skip hk.1).2]
      exact ih hskipped
  have hshell : positionAfter shell .start (front ++ l :: skipped) = .body o pending := by
    rw [positionAfter_append, positionAfter, hopens]
    clear htext hlines hmatched
    induction skipped with
    | nil => rfl
    | cons k skipped ih =>
      obtain ⟨hk, hskipped⟩ := List.forall_mem_cons.1 hskipped
      rw [positionAfter, step_body hk.2]
      exact ih hskipped
  have hjudged : StartsAt matched (readLines text) (front ++ l :: skipped).length := by
    rw [readLines_eq hends, hlines]
    refine ⟨_, role_at _ m rest, ?_⟩
    rw [hmatched]
    cases hinst : isInstruction m with
    | true => rw [step_instruction hinst]; rfl
    | false => rw [step_stray hm hinst]; rfl
  obtain ⟨r, hr, hstart⟩ := hright.2 _ (mem_judged.2 hjudged)
  rw [hlines, role_at, hshell, Option.mem_some_iff] at hr
  subst hr
  cases hends' : shell.ends o m with
  | true => rw [step_terminator hends'] at hstart; cases hstart
  | false => rw [step_body hends'] at hstart; cases hstart

end

end LlmkubeRuntimes.Dockerfile
