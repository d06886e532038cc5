import LlmkubeRuntimes.Lib.PyText

/-!
# The Dockerfile checker

`dockerfile-parse-check.py`, on the text of a file.

* `openerAt`, `heredocs`: the matches of `HEREDOC` in a line;
* `takeBody`, `consume`: the loops over the lines of an instruction;
* `scan`: the loop over instructions, with the numbers of the lines that are judged;
* `check`: the errors of a file.
-/

namespace LlmkubeRuntimes.Dockerfile

open LlmkubeRuntimes.Lib (isPySpace strip)

abbrev Line := List Char

/-! ## Lines -/

/-- `INSTRUCTIONS` -/
def instructions : List Line :=
  ["FROM", "RUN", "CMD", "LABEL", "MAINTAINER", "EXPOSE", "ENV", "ADD", "COPY", "ENTRYPOINT",
    "VOLUME", "USER", "WORKDIR", "ARG", "ONBUILD", "STOPSIGNAL", "HEALTHCHECK", "SHELL"].map
      String.toList

/-- `str.upper` on a character, where what comes of it is ASCII. -/
def upperChar (c : Char) : List Char :=
  match c with
  | 'ß' => ['S', 'S']
  | 'ı' => ['I']
  | 'ſ' => ['S']
  | 'ﬀ' => ['F', 'F']
  | 'ﬁ' => ['F', 'I']
  | 'ﬂ' => ['F', 'L']
  | 'ﬃ' => ['F', 'F', 'I']
  | 'ﬄ' => ['F', 'F', 'L']
  | 'ﬅ' => ['S', 'T']
  | 'ﬆ' => ['S', 'T']
  | c => [c.toUpper]

/-- `stripped.split(None, 1)[0].upper()` -/
def head (raw : Line) : Line := ((strip raw).takeWhile fun c => !isPySpace c).flatMap upperChar

def isBlank (raw : Line) : Bool := Lib.isBlank isPySpace raw

def isComment (raw : Line) : Bool := (strip raw).head? = some '#'

def isInstruction (raw : Line) : Bool := head raw ∈ instructions

/-- `raw.rstrip().endswith("\\")` -/
def continues (raw : Line) : Bool := (raw.rdropWhile isPySpace).getLast? = some '\\'

/-! ## Heredocs -/

/-- The delimiter of a heredoc, and whether it is dashed. -/
structure Opener where
  delim : Line
  dashed : Bool
  deriving DecidableEq, Repr

/-- `[A-Za-z0-9_]` -/
def isWordChar (c : Char) : Bool := c.isAlphanum || c = '_'

/-- `[A-Za-z_][A-Za-z0-9_]*` at the start of a text. -/
def nameAt (text : List Char) : Option Line :=
  match text with
  | c :: _ => if isWordChar c && !c.isDigit then some (text.takeWhile isWordChar) else none
  | [] => none

/-- `(['\"]?)([A-Za-z_][A-Za-z0-9_]*)\2` at the start of a text. -/
def delimAt (text : List Char) : Option Line :=
  match text with
  | c :: rest =>
    if c = '\'' || c = '"' then
      (nameAt rest).filter fun name => (rest.drop name.length).head? = some c
    else nameAt text
  | [] => none

/-- `HEREDOC` at the start of a text. -/
def openerAt (text : List Char) : Option Opener :=
  match text with
  | '<' :: '<' :: '-' :: rest => (delimAt (rest.dropWhile isPySpace)).map (⟨·, true⟩)
  | '<' :: '<' :: rest => (delimAt (rest.dropWhile isPySpace)).map (⟨·, false⟩)
  | _ => none

/-- `HEREDOC.finditer(raw)`. No match has `<<` behind its start, so none overlap. -/
def heredocs (raw : Line) : List Opener := raw.tails.filterMap openerAt

/-- A line that ends the body of a heredoc. -/
def closes (o : Opener) (body : Line) : Bool :=
  (if o.dashed then body.dropWhile (· = '\t') else body).rdropWhile isPySpace = o.delim

/-! ## The loops -/

/-- The loop over a body, with the number of the next line. -/
def takeBody (o : Opener) : Nat → List Line → Option (Nat × List Line)
  | _, [] => none
  | i, body :: lines => if closes o body then some (i + 1, lines) else takeBody o (i + 1) lines

theorem takeBody_length {o : Opener} {i j : Nat} {lines rest : List Line}
    (h : takeBody o i lines = some (j, rest)) : rest.length < lines.length := by
  induction lines generalizing i with
  | nil => cases h
  | cons body lines ih =>
    rw [takeBody] at h
    split at h
    · cases h
      exact Nat.lt_succ_self _
    · exact Nat.lt_succ_of_lt (ih h)

/-- `while pending or cont`; a delimiter if its heredoc is never closed. -/
def consume (i : Nat) (pending : List Opener) (cont : Bool) (lines : List Line) :
    Except Line (Nat × List Line) :=
  match pending with
  | o :: pending =>
    match h : takeBody o i lines with
    | none => .error o.delim
    | some (j, rest) =>
      have := takeBody_length h
      consume j pending false rest
  | [] =>
    if cont then
      match lines with
      | [] => .ok (i, [])
      | nxt :: lines =>
        if isComment nxt then consume (i + 1) [] true lines
        else consume (i + 1) (heredocs nxt) (continues nxt) lines
    else .ok (i, lines)
termination_by lines.length

theorem consume_length {i j : Nat} {pending : List Opener} {cont : Bool} {lines rest : List Line}
    (h : consume i pending cont lines = .ok (j, rest)) : rest.length ≤ lines.length := by
  fun_induction consume i pending cont lines with
  | case1 i cont lines o pending hbody => cases h
  | case2 i cont lines o pending k rest' hbody hlt ih => exact (ih h).trans (Nat.le_of_lt hlt)
  | case3 i => cases h; exact Nat.le_refl _
  | case4 i nxt lines hcomment ih => exact (ih h).trans (Nat.le_succ _)
  | case5 i nxt lines hcomment ih => exact (ih h).trans (Nat.le_succ _)
  | case6 i cont lines hcont => cases h; exact Nat.le_refl _

inductive Error where
  | unknown (line : Nat) (head raw : Line)
  | unclosed (delim : Line)
  deriving DecidableEq, Repr

structure Scan where
  errors : List Error
  /-- The lines whose `head` is looked up, counted from 0. -/
  judged : List Nat
  deriving DecidableEq, Repr

/-- `while i < len(lines)`, from line `i` on. -/
def scan (i : Nat) (lines : List Line) : Scan :=
  match lines with
  | [] => ⟨[], []⟩
  | raw :: lines =>
    if isBlank raw || isComment raw then scan (i + 1) lines
    else if !isInstruction raw then
      let later := scan (i + 1) lines
      ⟨.unknown (i + 1) (head raw) raw :: later.errors, i :: later.judged⟩
    else
      match h : consume (i + 1) (heredocs raw) (continues raw) lines with
      | .error delim => ⟨[.unclosed delim], [i]⟩
      | .ok (j, rest) =>
        have := consume_length h
        let later := scan j rest
        ⟨later.errors, i :: later.judged⟩
termination_by lines.length

def Error.text (path : String) : Error → String
  | unknown line head raw =>
    path ++ ":" ++ toString line ++ ": line starts a new instruction but '" ++ String.ofList head ++
      "' is not one.\n    " ++ String.ofList raw ++
      "\n    Usually a heredoc/continuation mix: the previous instruction ended\n" ++
      "    earlier than intended. Inside RUN <<'EOT' use plain newlines and no\n" ++
      "    trailing backslashes."
  | unclosed delim => path ++ ": heredoc <<" ++ String.ofList delim ++ " opened but never closed."

/-- `open(path, encoding="utf-8").read().splitlines()` -/
def readLines (text : List Char) : List Line := Lib.splitLines (Lib.universalNewlines text)

/-- The errors of a file with this text. -/
def check (path : String) (text : List Char) : List String :=
  (scan 0 (readLines text)).errors.map (Error.text path)

/-! ## The loops, line by line -/

/-- The heredoc that is opened first is closed first. -/
theorem consume_cons (i : Nat) (o : Opener) (pending : List Opener) (cont : Bool) (lines : List Line) :
    consume i (o :: pending) cont lines =
      match takeBody o i lines with
      | none => .error o.delim
      | some (j, rest) => consume j pending false rest := by
  rw [consume.eq_def]
  dsimp only
  split
  next h => rw [h]
  next h => rw [h]

theorem consume_done (i : Nat) (lines : List Line) : consume i [] false lines = .ok (i, lines) := by
  rw [consume.eq_def]
  rfl

theorem consume_eof (i : Nat) : consume i [] true [] = .ok (i, []) := by
  rw [consume.eq_def]
  rfl

theorem consume_comment {nxt : Line} (h : isComment nxt = true) (i : Nat) (lines : List Line) :
    consume i [] true (nxt :: lines) = consume (i + 1) [] true lines := by
  rw [consume.eq_def]
  exact if_pos h

theorem consume_continuation {nxt : Line} (h : isComment nxt = false) (i : Nat) (lines : List Line) :
    consume i [] true (nxt :: lines) = consume (i + 1) (heredocs nxt) (continues nxt) lines := by
  rw [consume.eq_def]
  dsimp only
  rw [if_pos rfl, h, if_neg Bool.false_ne_true]

theorem consume_unclosed (o : Opener) (i : Nat) (pending : List Opener) (cont : Bool) :
    consume i (o :: pending) cont [] = .error o.delim :=
  consume_cons i o pending cont []

theorem consume_body {o : Opener} {body : Line} (h : closes o body = false) (i : Nat)
    (pending : List Opener) (cont : Bool) (lines : List Line) :
    consume i (o :: pending) cont (body :: lines) = consume (i + 1) (o :: pending) cont lines := by
  rw [consume_cons, consume_cons, takeBody, h, if_neg Bool.false_ne_true]

theorem consume_terminator {o : Opener} {body : Line} (h : closes o body = true) (i : Nat)
    (pending : List Opener) (cont : Bool) (lines : List Line) :
    consume i (o :: pending) cont (body :: lines) = consume (i + 1) pending false lines := by
  rw [consume_cons, takeBody, h, if_pos rfl]

theorem scan_skip {raw : Line} (h : (isBlank raw || isComment raw) = true) (i : Nat) (lines : List Line) :
    scan i (raw :: lines) = scan (i + 1) lines := by
  rw [scan, if_pos h]

theorem scan_unknown {raw : Line} (h : (isBlank raw || isComment raw) = false)
    (hhead : isInstruction raw = false) (i : Nat) (lines : List Line) :
    scan i (raw :: lines) = ⟨.unknown (i + 1) (head raw) raw :: (scan (i + 1) lines).errors,
      i :: (scan (i + 1) lines).judged⟩ := by
  rw [scan, if_neg (by rw [h]; exact Bool.false_ne_true), if_pos (by rw [hhead]; rfl)]

/-- What is scanned behind an instruction's first lines. -/
def resume (i : Nat) (pending : List Opener) (cont : Bool) (lines : List Line) : Scan :=
  match consume i pending cont lines with
  | .error delim => ⟨[.unclosed delim], []⟩
  | .ok (j, rest) => scan j rest

theorem scan_instruction {raw : Line} (h : (isBlank raw || isComment raw) = false)
    (hhead : isInstruction raw = true) (i : Nat) (lines : List Line) :
    scan i (raw :: lines) = ⟨(resume (i + 1) (heredocs raw) (continues raw) lines).errors,
      i :: (resume (i + 1) (heredocs raw) (continues raw) lines).judged⟩ := by
  rw [scan, if_neg (by rw [h]; exact Bool.false_ne_true), if_neg (by rw [hhead]; decide), resume]
  split
  next hc => rw [hc]
  next hc => simp only [hc]

end LlmkubeRuntimes.Dockerfile
