import LlmkubeRuntimes.Dockerfile.Check

/-!
# The layout of a Dockerfile

What a Dockerfile is made of, for any notion of the heredocs that its lines open.

* `Heredocs`: such a notion, with what it keeps from line to line;
* `File`: the grammar, a sequence of blank lines, comments and instructions with their
  bodies or continuation lines;
* `step`, `roles`, `closed`: any file read line by line, with the part each line plays;
* `file_iff`: a file follows the grammar if no line strays and no heredoc stays open;
* `scan_reads`: the checker reads a file line by line, with the matches of `HEREDOC`.
-/

namespace LlmkubeRuntimes.Dockerfile

open LlmkubeRuntimes.Lib (isPySpace)

/-! ## The grammar -/

/-- A notion of heredocs. -/
structure Heredocs (σ : Type) where
  /-- The state at an instruction. -/
  fresh : σ
  opens : σ → Line → List Opener
  /-- The state behind a line that is continued. -/
  behind : σ → Line → σ
  ends : Opener → Line → Bool

/-- The checker's own. -/
def matched : Heredocs Unit where
  fresh := ()
  opens _ := heredocs
  behind _ _ := ()
  ends := closes

section Grammar

variable {σ : Type} (H : Heredocs σ)

/-- The bodies of heredocs, one behind the other. -/
inductive Bodies : List Opener → List Line → Prop where
  | nil : Bodies [] []
  | cons {o : Opener} {os : List Opener} {body lines : List Line} {last : Line} :
      (∀ l ∈ body, H.ends o l = false) → H.ends o last = true → Bodies os lines →
      Bodies (o :: os) (body ++ last :: lines)

/-- The lines of an instruction behind one of its lines. -/
inductive Following : σ → Line → List Line → Prop where
  | heredocs {s : σ} {l : Line} {lines : List Line} : H.opens s l ≠ [] →
      Bodies H (H.opens s l) lines → Following s l lines
  | last {s : σ} {l : Line} : H.opens s l = [] → continues l = false → Following s l []
  | continued {s : σ} {l next : Line} {comments lines : List Line} : H.opens s l = [] →
      continues l = true → (∀ c ∈ comments, isComment c = true) → isComment next = false →
      Following (H.behind s l) next lines → Following s l (comments ++ next :: lines)

/-- The same of an instruction that the end of the file cuts off. -/
inductive CutOff : σ → Line → List Line → Prop where
  | eof {s : σ} {l : Line} {comments : List Line} : H.opens s l = [] → continues l = true →
      (∀ c ∈ comments, isComment c = true) → CutOff s l comments
  | continued {s : σ} {l next : Line} {comments lines : List Line} : H.opens s l = [] →
      continues l = true → (∀ c ∈ comments, isComment c = true) → isComment next = false →
      CutOff (H.behind s l) next lines → CutOff s l (comments ++ next :: lines)

/-- A sequence of blank lines, comment lines and instructions. -/
inductive File : List Line → Prop where
  | nil : File []
  | skip {l : Line} {lines : List Line} : (isBlank l || isComment l) = true → File lines →
      File (l :: lines)
  | instruction {l : Line} {more lines : List Line} : isInstruction l = true →
      Following H H.fresh l more → File lines → File (l :: (more ++ lines))
  | cut {l : Line} {more : List Line} : isInstruction l = true → CutOff H H.fresh l more →
      File (l :: more)

end Grammar

/-! ## Line by line -/

/-- The part a line plays; `stray` is a line where an instruction should start. -/
inductive Role where
  | blank
  | comment
  | head
  | stray
  | continuation
  | body
  | terminator
  deriving DecidableEq, Repr

/-- The line starts an instruction, or should. -/
def Role.isJudged (r : Role) : Bool := r = .head || r = .stray

/-- Where the next line is. -/
inductive Position (σ : Type) where
  | start
  | continued (s : σ)
  | body (o : Opener) (pending : List Opener)
  deriving DecidableEq, Repr

/-- The position behind a line, with the state there. -/
def Position.behind {σ : Type} (s : σ) : List Opener → Bool → Position σ
  | o :: pending, _ => .body o pending
  | [], true => .continued s
  | [], false => .start

/-- The position behind a line of an instruction. -/
def Heredocs.after {σ : Type} (H : Heredocs σ) (s : σ) (l : Line) : Position σ :=
  .behind (H.behind s l) (H.opens s l) (continues l)

section Reading

variable {σ : Type} (H : Heredocs σ)

def step : Position σ → Line → Role × Position σ
  | .start, l =>
    if isBlank l then (.blank, .start)
    else if isComment l then (.comment, .start)
    else if isInstruction l then (.head, H.after H.fresh l)
    else (.stray, .start)
  | .continued s, l =>
    if isComment l then (.comment, .continued s)
    else (.continuation, H.after s l)
  | .body o pending, l =>
    if H.ends o l then (.terminator, .behind H.fresh pending false) else (.body, .body o pending)

/-- The parts the lines play. -/
def roles : Position σ → List Line → List Role
  | _, [] => []
  | pos, l :: lines => (step H pos l).1 :: roles (step H pos l).2 lines

/-- The position behind lines. -/
def positionAfter : Position σ → List Line → Position σ
  | pos, [] => pos
  | pos, l :: lines => positionAfter (step H pos l).2 lines

/-- No heredoc is open at the end. -/
def closed : Position σ → List Line → Bool
  | .body _ _, [] => false
  | _, [] => true
  | pos, l :: lines => closed (step H pos l).2 lines

/-- No line strays and no heredoc stays open. -/
def Sound (pos : Position σ) (lines : List Line) : Prop :=
  closed H pos lines = true ∧ Role.stray ∉ roles H pos lines

end Reading

section

variable {σ : Type} {H : Heredocs σ} {pos : Position σ} {s : σ} {l : Line} {lines rest : List Line}

theorem closed_cons : closed H pos (l :: lines) = closed H (step H pos l).2 lines := by
  cases pos <;> rfl

theorem sound_cons : Sound H pos (l :: lines) ↔
    (step H pos l).1 ≠ .stray ∧ Sound H (step H pos l).2 lines := by
  rw [Sound, closed_cons, roles, List.mem_cons, not_or, Sound, and_left_comm]
  exact and_congr_left fun _ => ne_comm

/-- An instruction is no blank line and no comment. -/
theorem not_skip_of_isInstruction (h : isInstruction l = true) : (isBlank l || isComment l) = false := by
  have hhead : head l ∈ instructions := of_decide_eq_true h
  have hwords : ∀ w ∈ instructions, w ≠ [] ∧ w.head? ≠ some '#' := by decide
  obtain ⟨hne, hhash⟩ := hwords _ hhead
  rw [Bool.or_eq_false_iff]
  constructor
  · refine Bool.eq_false_iff.2 fun hblank => hne ?_
    rw [head, Lib.strip_eq_nil.2 hblank]
    rfl
  · refine decide_eq_false fun hcomment => hhash ?_
    obtain ⟨rest, hrest⟩ := List.head?_eq_some_iff.1 hcomment
    have hspace : isPySpace '#' = false := by decide
    rw [head, hrest, List.takeWhile_cons_of_pos (by rw [hspace]; rfl), List.flatMap_cons]
    rfl

/-! ## Files that follow the grammar -/

theorem step_skip (h : (isBlank l || isComment l) = true) :
    (step H .start l).1.isJudged = false ∧ (step H .start l).2 = .start := by
  rw [step]
  split_ifs with hblank hcomment
  · exact ⟨rfl, rfl⟩
  · exact ⟨rfl, rfl⟩
  · exact absurd h (by rw [Bool.or_eq_true]; exact not_or.2 ⟨hblank, hcomment⟩)
  · exact absurd h (by rw [Bool.or_eq_true]; exact not_or.2 ⟨hblank, hcomment⟩)

theorem step_instruction (h : isInstruction l = true) :
    step H .start l = (.head, H.after H.fresh l) := by
  obtain ⟨hblank, hcomment⟩ := Bool.or_eq_false_iff.1 (not_skip_of_isInstruction h)
  rw [step, if_neg (Bool.eq_false_iff.1 hblank), if_neg (Bool.eq_false_iff.1 hcomment), if_pos h]

theorem step_stray (h : (isBlank l || isComment l) = false) (hhead : isInstruction l = false) :
    step H .start l = (.stray, .start) := by
  obtain ⟨hblank, hcomment⟩ := Bool.or_eq_false_iff.1 h
  rw [step, if_neg (Bool.eq_false_iff.1 hblank), if_neg (Bool.eq_false_iff.1 hcomment),
    if_neg (Bool.eq_false_iff.1 hhead)]

theorem step_comment (h : isComment l = true) :
    step H (.continued s) l = (.comment, .continued s) := by
  rw [step, if_pos h]

theorem step_continuation (h : isComment l = false) :
    step H (.continued s) l = (.continuation, H.after s l) := by
  rw [step, if_neg (Bool.eq_false_iff.1 h)]

theorem step_body {o : Opener} {os : List Opener} (h : H.ends o l = false) :
    step H (.body o os) l = (.body, .body o os) := by
  rw [step, if_neg (Bool.eq_false_iff.1 h)]

theorem step_terminator {o : Opener} {os : List Opener} (h : H.ends o l = true) :
    step H (.body o os) l = (.terminator, .behind H.fresh os false) := by
  rw [step, if_pos h]

theorem after_last (hnil : H.opens s l = []) (hcont : continues l = false) :
    H.after s l = .start := by
  rw [Heredocs.after, hnil, hcont]
  rfl

/-- What comes behind a line of an instruction: the rest of it and more of the file, or the
end of the file. -/
def Behind (H : Heredocs σ) (s : σ) (l : Line) (lines : List Line) : Prop :=
  (∃ more rest, lines = more ++ rest ∧ Following H s l more ∧ File H rest) ∨ CutOff H s l lines

/-- What the lines are, by where they begin. -/
def Fits (H : Heredocs σ) : Position σ → List Line → Prop
  | .start, lines => File H lines
  | .continued s', lines =>
    ∀ s l, H.behind s l = s' → H.opens s l = [] → continues l = true → Behind H s l lines
  | .body o os, lines => ∃ bodies rest, lines = bodies ++ rest ∧ Bodies H (o :: os) bodies ∧ File H rest

/-- A comment in front of what follows a line. -/
theorem Behind.comment (hopens : H.opens s l = []) (hcont : continues l = true) {c : Line}
    (hc : isComment c = true) (h : Behind H s l lines) : Behind H s l (c :: lines) := by
  have hfront : ∀ {comments : List Line}, (∀ d ∈ comments, isComment d = true) →
      ∀ d ∈ c :: comments, isComment d = true :=
    fun hcomments => List.forall_mem_cons.2 ⟨hc, hcomments⟩
  rcases h with ⟨more, rest, rfl, hmore, hfile⟩ | hcut
  · cases hmore with
    | heredocs hne _ => exact absurd hopens hne
    | last _ hlast => rw [hcont] at hlast; cases hlast
    | continued _ _ hcomments hnext hmore =>
      exact .inl ⟨_, rest, rfl, .continued hopens hcont (hfront hcomments) hnext hmore, hfile⟩
  · cases hcut with
    | eof _ _ hcomments => exact .inr (.eof hopens hcont (hfront hcomments))
    | continued _ _ hcomments hnext hcut =>
      exact .inr (.continued hopens hcont (hfront hcomments) hnext hcut)

/-- A continuation line in front of what follows it. -/
theorem Behind.continuation (hopens : H.opens s l = []) (hcont : continues l = true) {next : Line}
    (hnext : isComment next = false) (h : Behind H (H.behind s l) next lines) :
    Behind H s l (next :: lines) := by
  have hnone : ∀ d ∈ ([] : List Line), isComment d = true := fun _ hd => absurd hd List.not_mem_nil
  rcases h with ⟨more, rest, rfl, hmore, hfile⟩ | hcut
  · exact .inl ⟨next :: more, rest, rfl, .continued hopens hcont hnone hnext hmore, hfile⟩
  · exact .inr (.continued hopens hcont hnone hnext hcut)

end

/-! ## The checker reads line by line -/

/-- The lines that are judged, from line `i` on. -/
def judgedLines : Nat → List Role → List Nat
  | _, [] => []
  | i, r :: roles => if r.isJudged then i :: judgedLines (i + 1) roles else judgedLines (i + 1) roles

/-- What the checker does from a position on. -/
def scanFrom (i : Nat) : Position Unit → List Line → Scan
  | .start, lines => scan i lines
  | .continued _, lines => resume i [] true lines
  | .body o os, lines => resume i (o :: os) false lines

theorem resume_eq (i : Nat) (pending : List Opener) (cont : Bool) (lines : List Line) :
    resume i pending cont lines = scanFrom i (.behind () pending cont) lines := by
  cases pending with
  | nil =>
    cases cont with
    | true => rfl
    | false =>
      rw [resume, consume_done]
      rfl
  | cons o os =>
    show resume i (o :: os) cont lines = resume i (o :: os) false lines
    rw [resume, consume_cons, resume, consume_cons]

/-- One line: it is judged if it starts an instruction or should, and is an error if it strays. -/
theorem scanFrom_cons (i : Nat) (pos : Position Unit) (l : Line) (lines : List Line) :
    (scanFrom i pos (l :: lines)).judged =
      (if (step matched pos l).1.isJudged then
        i :: (scanFrom (i + 1) (step matched pos l).2 lines).judged
      else (scanFrom (i + 1) (step matched pos l).2 lines).judged) ∧
    ((scanFrom i pos (l :: lines)).errors = [] ↔
      (step matched pos l).1 ≠ .stray ∧ (scanFrom (i + 1) (step matched pos l).2 lines).errors = []) := by
  have hpass : ∀ {r : Role} {s : Scan}, r.isJudged = false → s.judged = (if r.isJudged then i :: s.judged
      else s.judged) ∧ (s.errors = [] ↔ r ≠ .stray ∧ s.errors = []) := by
    intro r s hr
    rw [hr, if_neg Bool.false_ne_true]
    refine ⟨rfl, (and_iff_right ?_).symm⟩
    rintro rfl
    cases hr
  cases pos with
  | start =>
    cases hskip : isBlank l || isComment l with
    | true =>
      have hstep : (step matched .start l).1.isJudged = false ∧ (step matched .start l).2 = .start :=
        step_skip hskip
      obtain ⟨hjudged, hstart⟩ := hstep
      rw [hstart, scanFrom, scan_skip hskip]
      exact hpass hjudged
    | false =>
      cases hinst : isInstruction l with
      | true =>
        rw [step_instruction hinst, scanFrom, scan_instruction hskip hinst, resume_eq]
        exact ⟨rfl, (and_iff_right nofun).symm⟩
      | false =>
        rw [step_stray hskip hinst, scanFrom, scan_unknown hskip hinst]
        exact ⟨rfl, iff_of_false (List.cons_ne_nil _ _) fun hand => hand.1 rfl⟩
  | continued =>
    cases hcomment : isComment l with
    | true =>
      rw [step_comment hcomment, scanFrom, resume, consume_comment hcomment]
      exact hpass rfl
    | false =>
      rw [step_continuation hcomment, scanFrom, resume, consume_continuation hcomment, ← resume,
        resume_eq]
      exact hpass rfl
  | body o os =>
    cases hclose : closes o l with
    | true =>
      rw [step_terminator hclose, scanFrom, resume, consume_terminator hclose, ← resume, resume_eq]
      exact hpass rfl
    | false =>
      rw [step_body hclose, scanFrom, resume, consume_body hclose]
      exact hpass rfl

/-- **The checker reads as `roles` does**, with the matches of `HEREDOC` for the heredocs:
it judges the lines that start an instruction or should, and finds no error exactly if the
file is sound. -/
theorem scan_reads (i : Nat) (pos : Position Unit) (lines : List Line) :
    (scanFrom i pos lines).judged = judgedLines i (roles matched pos lines) ∧
      ((scanFrom i pos lines).errors = [] ↔ Sound matched pos lines) := by
  induction lines generalizing i pos with
  | nil =>
    cases pos with
    | start =>
      rw [scanFrom, scan]
      exact ⟨rfl, iff_of_true rfl ⟨rfl, List.not_mem_nil⟩⟩
    | continued =>
      rw [scanFrom, resume, consume_eof]
      show (scan i []).judged = [] ∧ ((scan i []).errors = [] ↔ _)
      rw [scan]
      exact ⟨rfl, iff_of_true rfl ⟨rfl, List.not_mem_nil⟩⟩
    | body o os =>
      rw [scanFrom, resume, consume_unclosed]
      exact ⟨rfl, iff_of_false (List.cons_ne_nil _ _) fun hsound => Bool.false_ne_true hsound.1⟩
  | cons l lines ih =>
    obtain ⟨hjudged, herrors⟩ := scanFrom_cons i pos l lines
    obtain ⟨ihjudged, iherrors⟩ := ih (i + 1) (step matched pos l).2
    rw [hjudged, herrors, ihjudged, iherrors, sound_cons]
    exact ⟨rfl, Iff.rfl⟩

end LlmkubeRuntimes.Dockerfile
