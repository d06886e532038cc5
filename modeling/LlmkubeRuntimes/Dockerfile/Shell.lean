import LlmkubeRuntimes.Dockerfile.Layout

/-!
# Heredocs of the shell

What the shell takes for heredocs in the lines of an instruction, read one
character after the other from the first line to the last.

* `Shell`: what a character is read in, quotes, expansions and comments one in the other;
* `delimiter`: the word behind `<<`, without its quotes;
* `Shell.read`: the redirections `<<` and `<<-` of a text;
* `shell`: these for the lines of an instruction.
-/

namespace LlmkubeRuntimes.Dockerfile

open LlmkubeRuntimes.Lib (isPySpace)

/-! ## Delimiters -/

/-- A character that ends a word. -/
def isMeta (c : Char) : Bool := c ∈ [' ', '\t', '\n', ';', '&', '|', '(', ')', '<', '>']

inductive Quote where
  | bare
  | single
  | double
  deriving DecidableEq, Repr

/-- The rest of a word, without its quotes. -/
def wordFrom : Quote → List Char → Option Line
  | .bare, [] => some []
  | _, [] => none
  | .bare, '\\' :: c :: cs => (wordFrom .bare cs).map (c :: ·)
  | .bare, '\'' :: cs => wordFrom .single cs
  | .bare, '"' :: cs => wordFrom .double cs
  | .bare, c :: cs => if isMeta c then some [] else (wordFrom .bare cs).map (c :: ·)
  | .single, c :: cs => if c = '\'' then wordFrom .bare cs else (wordFrom .single cs).map (c :: ·)
  | .double, '\\' :: c :: cs =>
    if c ∈ ['$', '`', '"', '\\'] then (wordFrom .double cs).map (c :: ·)
    else (wordFrom .double cs).map ('\\' :: c :: ·)
  | .double, c :: cs => if c = '"' then wordFrom .bare cs else (wordFrom .double cs).map (c :: ·)

/-- The word behind a redirection. -/
def delimiter (text : List Char) : Option Line :=
  let text := text.dropWhile fun c => c = ' ' || c = '\t'
  match text with
  | [] => none
  | c :: _ => if isMeta c || c = '#' then none else wordFrom .bare text

/-! ## Contexts -/

/-- What ends a list of commands. -/
inductive Closer where
  | none
  | paren
  | subst
  | backquote
  deriving DecidableEq, Repr

inductive Context where
  /-- Commands; `word` is whether a word has begun. -/
  | command (closer : Closer) (word : Bool)
  | single
  /-- `$'…'` -/
  | ansi
  | double
  /-- `${…}`, within double quotes or not. -/
  | brace (quoted : Bool)
  /-- `$((…))` and `((…))`, in `depth` further parentheses. -/
  | arithmetic (depth : Nat)
  | comment
  deriving DecidableEq, Repr

structure Shell where
  here : Context
  outer : List Context
  deriving DecidableEq, Repr

namespace Shell

def fresh : Shell := ⟨.command .none false, []⟩

def isCommand (s : Shell) : Bool :=
  match s.here with
  | .command _ _ => true
  | _ => false

/-- Whether `$` begins an expansion. -/
def expands (s : Shell) : Bool :=
  match s.here with
  | .command _ _ | .double | .brace _ | .arithmetic _ => true
  | _ => false

/-- Whether a backslash quotes the next character. -/
def escapes (s : Shell) : Bool := s.expands || s.here = .ansi

def setWord (s : Shell) (word : Bool) : Shell :=
  match s.here with
  | .command closer _ => { s with here := .command closer word }
  | _ => s

/-- Enters a part of a word. -/
def enter (s : Shell) (c : Context) : Shell := ⟨c, (s.setWord true).here :: s.outer⟩

/-- Enters a part of a command that is no word. -/
def enterApart (s : Shell) (c : Context) : Shell := ⟨c, (s.setWord false).here :: s.outer⟩

def leave (s : Shell) : Shell :=
  match s.outer with
  | [] => s
  | c :: outer => ⟨c, outer⟩

/-- One character that stands for itself or is a quote, a parenthesis or the start of a
comment. -/
def char (s : Shell) (c : Char) : Shell :=
  match s.here with
  | .command closer word =>
    match c with
    | '\'' => s.enter .single
    | '"' => s.enter .double
    | '`' => if closer = .backquote then s.leave else s.enter (.command .backquote false)
    | '(' => s.enterApart (.command .paren false)
    | ')' => if closer = .paren || closer = .subst then s.leave else s.setWord false
    | '#' => if word then s else { s with here := .comment }
    | c => s.setWord !(isMeta c)
  | .single | .ansi => if c = '\'' then s.leave else s
  | .double =>
    match c with
    | '"' => s.leave
    | '`' => s.enter (.command .backquote false)
    | _ => s
  | .brace quoted =>
    match c with
    | '}' => s.leave
    | '"' => s.enter .double
    | '\'' => if quoted then s else s.enter .single
    | '`' => s.enter (.command .backquote false)
    | _ => s
  | .arithmetic depth =>
    match c with
    | '(' => { s with here := .arithmetic (depth + 1) }
    | ')' => { s with here := .arithmetic (depth - 1) }
    | '"' => s.enter .double
    | '`' => s.enter (.command .backquote false)
    | _ => s
  | .comment => s

/-- The heredocs that a text opens, and the state behind it. -/
def read : Shell → List Char → List Opener × Shell
  | s, [] => ([], s)
  | s, '\\' :: c :: cs => if s.escapes then read (s.setWord true) cs else read (s.char '\\') (c :: cs)
  | s, '$' :: '(' :: '(' :: cs =>
    if s.expands then read (s.enter (.arithmetic 0)) cs else read (s.char '$') ('(' :: '(' :: cs)
  | s, '$' :: '(' :: cs =>
    if s.expands then read (s.enter (.command .subst false)) cs else read (s.char '$') ('(' :: cs)
  | s, '$' :: '{' :: cs =>
    if s.expands then read (s.enter (.brace (s.here = .double || s.here = .brace true))) cs
    else read (s.char '$') ('{' :: cs)
  | s, '$' :: '\'' :: cs =>
    if s.isCommand then read (s.enter .ansi) cs else read (s.char '$') ('\'' :: cs)
  | s, '(' :: '(' :: cs =>
    if s.isCommand then read (s.enterApart (.arithmetic 0)) cs else read (s.char '(') ('(' :: cs)
  | s, ')' :: ')' :: cs =>
    if s.here = .arithmetic 0 then read s.leave cs else read (s.char ')') (')' :: cs)
  | s, '<' :: '<' :: '<' :: cs =>
    if s.isCommand then read (s.setWord false) cs else read (s.char '<') ('<' :: '<' :: cs)
  | s, '<' :: '<' :: '-' :: cs =>
    if s.isCommand then
      let (openers, s) := read (s.setWord false) cs
      (((delimiter cs).map (⟨·, true⟩)).toList ++ openers, s)
    else read (s.char '<') ('<' :: '-' :: cs)
  | s, '<' :: '<' :: cs =>
    if s.isCommand then
      let (openers, s) := read (s.setWord false) cs
      (((delimiter cs).map (⟨·, false⟩)).toList ++ openers, s)
    else read (s.char '<') ('<' :: cs)
  | s, c :: cs => read (s.char c) cs

end Shell

/-! ## Lines -/

/-- What a line adds to its instruction: all of it but the backslash of a continuation. -/
def spoken (l : Line) : Line := if continues l then (l.rdropWhile isPySpace).dropLast else l

/-- The heredocs of the shell. -/
def shell : Heredocs Shell where
  fresh := .fresh
  opens s l := (s.read (spoken l)).1
  behind s l := (s.read (spoken l)).2
  ends o l := (if o.dashed then l.dropWhile (· = '\t') else l) = o.delim

/-- A shift, a here-string, quoted text and a comment open nothing, and quotes go on over a
continuation. -/
example : shell.opens .fresh "RUN echo $((1 << n)) <<<foo '<<A' \"<<B\" \\<<C # <<D".toList = [] ∧
    shell.opens .fresh "RUN ((x = 1 << n)); cat <<-'E F' 3<<\\G".toList =
      [⟨"E F".toList, true⟩, ⟨"G".toList, false⟩] ∧
    shell.opens (shell.behind .fresh "RUN echo 'a \\".toList) "  <<B' <<C".toList =
      [⟨"C".toList, false⟩] := by
  decide

end LlmkubeRuntimes.Dockerfile
