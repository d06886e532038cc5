import Mathlib.Data.List.Basic
import LlmkubeRuntimes.Lib.Json

/-!
# JSON text

* `step`: a pushdown machine that reads a text character by character; a `Frame`
  is an array or an object the text is inside of;
* `parse`: the value of a text the machine reads to its end;
* `quote`, `objectText`: strings and indented objects as Go's `encoding/json` writes them.

`Reads text v`: the machine reads `text` as the value `v` wherever a value may come.
`parse_objectText_cut`: a written object that is cut off is no text of a value.
-/

namespace LlmkubeRuntimes.Lib.JsonText

/-! ## Strings and atoms -/

def isSpace (c : Char) : Bool := c == ' ' || c == '\t' || c == '\n' || c == '\r'

def hexVal (c : Char) : Option Nat :=
  if '0' ≤ c ∧ c ≤ '9' then some (c.toNat - '0'.toNat)
  else if 'a' ≤ c ∧ c ≤ 'f' then some (c.toNat - 'a'.toNat + 10)
  else if 'A' ≤ c ∧ c ≤ 'F' then some (c.toNat - 'A'.toNat + 10)
  else none

def hex4 (a b c d : Char) : Option Nat := do
  let a ← hexVal a
  let b ← hexVal b
  let c ← hexVal c
  let d ← hexVal d
  some (a * 4096 + b * 256 + c * 16 + d)

/-- The character after a backslash, if it is not `u`. -/
def unescape (c : Char) : Option Nat :=
  match c with
  | '"' => some '"'.toNat
  | '\\' => some '\\'.toNat
  | '/' => some '/'.toNat
  | 'b' => some 8
  | 'f' => some 12
  | 'n' => some 10
  | 'r' => some 13
  | 't' => some 9
  | _ => none

/-- The code units of a string between its quotes. -/
def units : List Char → Option (List Nat)
  | [] => some []
  | '\\' :: 'u' :: a :: b :: c :: d :: cs => do
    let unit ← hex4 a b c d
    let rest ← units cs
    some (unit :: rest)
  | '\\' :: c :: cs => do
    let unit ← unescape c
    let rest ← units cs
    some (unit :: rest)
  | '\\' :: [] => none
  | c :: cs => (units cs).map (c.toNat :: ·)

def isHigh (n : Nat) : Bool := 0xd800 ≤ n && n < 0xdc00
def isLow (n : Nat) : Bool := 0xdc00 ≤ n && n < 0xe000

/-- The character of a code unit; a surrogate alone is none. -/
def unitChar (n : Nat) : Char := if isHigh n || isLow n then '\uFFFD' else Char.ofNat n

/-- The characters of code units. -/
def unitChars : List Nat → List Char
  | [] => []
  | [n] => [unitChar n]
  | n :: m :: ns =>
    if isHigh n && isLow m then
      Char.ofNat (0x10000 + (n - 0xd800) * 0x400 + (m - 0xdc00)) :: unitChars ns
    else unitChar n :: unitChars (m :: ns)

def unquote (raw : List Char) : Option String :=
  (units raw).map fun units => String.ofList (unitChars units)

def isAtomChar (c : Char) : Bool := c.isAlphanum || c == '+' || c == '-' || c == '.'

def isExponent : List Char → Bool
  | [] => true
  | c :: cs =>
    let digits := match cs with
      | '+' :: cs => cs
      | '-' :: cs => cs
      | cs => cs
    (c == 'e' || c == 'E') && digits ≠ [] && digits.all Char.isDigit

def isNumber (cs : List Char) : Bool :=
  let cs := match cs with
    | '-' :: cs => cs
    | cs => cs
  let int := cs.takeWhile Char.isDigit
  int ≠ [] && (int.head? ≠ some '0' || int = ['0']) &&
    match cs.dropWhile Char.isDigit with
    | '.' :: cs => cs.takeWhile Char.isDigit ≠ [] && isExponent (cs.dropWhile Char.isDigit)
    | cs => isExponent cs

/-- A literal or a number. -/
def atomValue (raw : List Char) : Option Json :=
  if raw = "null".toList then some .null
  else if raw = "true".toList then some (.bool true)
  else if raw = "false".toList then some (.bool false)
  else if isNumber raw then some (.num (String.ofList raw))
  else none

/-! ## The machine -/

/-- What the text is inside of, with what is read of it. -/
inductive Frame where
  | arr (items : List Json)
  | obj (members : List (String × Json))
  /-- In the value of a key. -/
  | entry (members : List (String × Json)) (key : String)

/-- What comes next. -/
inductive Mode where
  | value
  /-- The first item of an array or its end. -/
  | first
  /-- The first key of an object or its end. -/
  | member
  | key
  | colon (key : String)
  /-- The rest of a string; `esc` is whether a backslash comes before. -/
  | str (isKey : Bool) (raw : List Char) (esc : Bool)
  | atom (raw : List Char)
  /-- A value is read. -/
  | done (v : Json)

abbrev State := Mode × List Frame

/-- The first character of a value. -/
def begins (c : Char) (fs : List Frame) : Option State :=
  if c = '{' then some (.member, .obj [] :: fs)
  else if c = '[' then some (.first, .arr [] :: fs)
  else if c = '"' then some (.str false [] false, fs)
  else if isAtomChar c then some (.atom [c], fs)
  else none

/-- The first character after a value. -/
def after (v : Json) (fs : List Frame) (c : Char) : Option State :=
  if isSpace c then some (.done v, fs)
  else
    match c, fs with
    | ',', .arr items :: fs => some (.value, .arr (items ++ [v]) :: fs)
    | ']', .arr items :: fs => some (.done (.arr (items ++ [v])), fs)
    | ',', .entry members key :: fs => some (.key, .obj (members ++ [(key, v)]) :: fs)
    | '}', .entry members key :: fs => some (.done (.obj (members ++ [(key, v)])), fs)
    | _, _ => none

def step : State → Char → Option State
  | (.value, fs), c => if isSpace c then some (.value, fs) else begins c fs
  | (.first, fs), c =>
    if isSpace c then some (.first, fs)
    else
      match c, fs with
      | ']', .arr items :: fs => some (.done (.arr items), fs)
      | c, fs => begins c fs
  | (.member, fs), c =>
    if isSpace c then some (.member, fs)
    else
      match c, fs with
      | '}', .obj members :: fs => some (.done (.obj members), fs)
      | '"', fs => some (.str true [] false, fs)
      | _, _ => none
  | (.key, fs), c =>
    if isSpace c then some (.key, fs)
    else if c = '"' then some (.str true [] false, fs)
    else none
  | (.colon key, fs), c =>
    if isSpace c then some (.colon key, fs)
    else
      match c, fs with
      | ':', .obj members :: fs => some (.value, .entry members key :: fs)
      | _, _ => none
  | (.str isKey raw esc, fs), c =>
    if c < ' ' then none
    else if esc then some (.str isKey (raw ++ [c]) false, fs)
    else if c = '"' then
      (unquote raw).map fun s => (if isKey then .colon s else .done (.str s), fs)
    else some (.str isKey (raw ++ [c]) (c == '\\'), fs)
  | (.atom raw, fs), c =>
    if isAtomChar c then some (.atom (raw ++ [c]), fs)
    else (atomValue raw).bind fun v => after v fs c
  | (.done v, fs), c => after v fs c

def run (s : State) (text : List Char) : Option State := text.foldlM step s

/-- The value that is read when the text ends. -/
def finish : State → Option Json
  | (.done v, []) => some v
  | (.atom raw, []) => atomValue raw
  | _ => none

def parse (text : List Char) : Option Json := (run (.value, []) text).bind finish

/-! ## Writer -/

/-- The four hex digits of a code unit. -/
def hexDigits (n : Nat) : List Char :=
  [Nat.digitChar (n / 4096 % 16), Nat.digitChar (n / 256 % 16), Nat.digitChar (n / 16 % 16),
    Nat.digitChar (n % 16)]

/-- A character in a string, as `json.Marshal` writes it. -/
def escapeChar (c : Char) : List Char :=
  if c = '"' then ['\\', '"']
  else if c = '\\' then ['\\', '\\']
  else if c = '\n' then ['\\', 'n']
  else if c = '\r' then ['\\', 'r']
  else if c = '\t' then ['\\', 't']
  else if c.toNat = 8 then ['\\', 'b']
  else if c.toNat = 12 then ['\\', 'f']
  else if c < ' ' ∨ c ∈ ['<', '>', '&'] ∨ c.toNat = 0x2028 ∨ c.toNat = 0x2029 then
    '\\' :: 'u' :: hexDigits c.toNat
  else [c]

def quote (s : String) : List Char := '"' :: (s.toList.flatMap escapeChar ++ ['"'])

/-- A new line, indented by two blanks for each level. -/
def newline (depth : Nat) : List Char := '\n' :: List.replicate (2 * depth) ' '

/-- A member of an object, on a line of its own. -/
def memberText (depth : Nat) (member : String × List Char) : List Char :=
  newline depth ++ (quote member.1 ++ (':' :: ' ' :: member.2))

/-- An object at a level, with the texts of its values. -/
def objectText (depth : Nat) (members : List (String × List Char)) : List Char :=
  if members = [] then ['{', '}']
  else '{' :: (List.intercalate [','] (members.map (memberText (depth + 1))) ++
    (newline depth ++ ['}']))

/-! ## Strings are read back -/

theorem hexVal_digitChar : ∀ d < 16, hexVal (Nat.digitChar d) = some d := by decide

theorem hex4_digitChar {n : Nat} (h : n < 65536) :
    hex4 (Nat.digitChar (n / 4096 % 16)) (Nat.digitChar (n / 256 % 16))
      (Nat.digitChar (n / 16 % 16)) (Nat.digitChar (n % 16)) = some n := by
  have hd : ∀ m, hexVal (Nat.digitChar (m % 16)) = some (m % 16) := fun m =>
    hexVal_digitChar _ (Nat.mod_lt m (by decide))
  simp only [hex4, hd, Option.bind_eq_bind, Option.bind_some, Option.some.injEq]
  omega

theorem not_lt_of_unescape {c : Char} {n : Nat} (h : unescape c = some n) : ¬ c < ' ' := by
  unfold unescape at h
  split at h
  iterate 8 decide
  cases h

theorem units_unescape {c : Char} {n : Nat} (h : unescape c = some n) (rest : List Char) :
    units ('\\' :: c :: rest) = (units rest).map (n :: ·) := by
  have hu : c ≠ 'u' := by
    rintro rfl
    cases h
  rw [units.eq_3 _ _ (fun _ _ _ _ _ hc _ => hu hc), h]
  cases units rest <;> rfl

theorem units_cons {c : Char} (h : c ≠ '\\') (rest : List Char) :
    units (c :: rest) = (units rest).map (c.toNat :: ·) :=
  units.eq_5 _ _ (fun _ _ _ _ _ hc _ => h hc) (fun _ _ hc _ => h hc) fun hc _ => h hc

/-- What is written for a character: an escape of two characters, one with hex digits, or the
character itself. -/
theorem escapeChar_cases (c : Char) :
    (∃ e, escapeChar c = ['\\', e] ∧ unescape e = some c.toNat) ∨
    (escapeChar c = '\\' :: 'u' :: hexDigits c.toNat ∧ c.toNat < 65536) ∨
    (escapeChar c = [c] ∧ ¬ c < ' ' ∧ c ≠ '"' ∧ c ≠ '\\') := by
  unfold escapeChar
  split_ifs with hq hb hn hr ht h8 h12 hx
  · exact .inl ⟨'"', rfl, by rw [hq]; rfl⟩
  · exact .inl ⟨'\\', rfl, by rw [hb]; rfl⟩
  · exact .inl ⟨'n', rfl, by rw [hn]; rfl⟩
  · exact .inl ⟨'r', rfl, by rw [hr]; rfl⟩
  · exact .inl ⟨'t', rfl, by rw [ht]; rfl⟩
  · exact .inl ⟨'b', rfl, by rw [h8]; rfl⟩
  · exact .inl ⟨'f', rfl, by rw [h12]; rfl⟩
  · refine .inr (.inl ⟨rfl, ?_⟩)
    rcases hx with hx | hx | hx | hx
    · exact Nat.lt_trans (Char.lt_def.1 hx) (by decide)
    · simp only [List.mem_cons, List.not_mem_nil, or_false] at hx
      rcases hx with rfl | rfl | rfl <;> decide
    · omega
    · omega
  · exact .inr (.inr ⟨rfl, fun hlt => hx (.inl hlt), hq, hb⟩)

theorem units_escapeChar (c : Char) (rest : List Char) :
    units (escapeChar c ++ rest) = (units rest).map (c.toNat :: ·) := by
  rcases escapeChar_cases c with ⟨e, he, hunescape⟩ | ⟨he, hlt⟩ | ⟨he, -, -, hback⟩
  · rw [he]
    exact units_unescape hunescape rest
  · rw [he, List.cons_append, List.cons_append, hexDigits]
    simp only [List.cons_append, List.nil_append]
    rw [units, hex4_digitChar hlt]
    cases units rest <;> rfl
  · rw [he]
    exact units_cons hback rest

theorem units_flatMap_escapeChar (s : List Char) :
    units (s.flatMap escapeChar) = some (s.map Char.toNat) := by
  induction s with
  | nil => rfl
  | cons c s ih => rw [List.flatMap_cons, units_escapeChar, ih, Option.map_some, List.map_cons]

/-- A character is no surrogate. -/
theorem not_surrogate (c : Char) : isHigh c.toNat = false ∧ isLow c.toNat = false := by
  have hv : c.toNat < 0xd800 ∨ 0xdfff < c.toNat ∧ c.toNat < 0x110000 := c.valid
  simp only [isHigh, isLow, Bool.and_eq_false_iff, decide_eq_false_iff_not]
  omega

theorem unitChar_toNat (c : Char) : unitChar c.toNat = c := by
  obtain ⟨hhigh, hlow⟩ := not_surrogate c
  rw [unitChar, hhigh, hlow, Bool.or_false, if_neg Bool.false_ne_true, Char.ofNat_toNat]

theorem unitChars_map_toNat (s : List Char) : unitChars (s.map Char.toNat) = s := by
  induction s with
  | nil => rfl
  | cons c s ih =>
    cases s with
    | nil => exact congrArg ([·]) (unitChar_toNat c)
    | cons d s =>
      simp only [List.map_cons] at ih ⊢
      rw [unitChars, (not_surrogate c).1, Bool.false_and, if_neg Bool.false_ne_true, ih,
        unitChar_toNat]

theorem unquote_flatMap_escapeChar (s : String) :
    unquote (s.toList.flatMap escapeChar) = some s := by
  rw [unquote, units_flatMap_escapeChar, Option.map_some, unitChars_map_toNat, String.ofList_toList]

/-! ## Runs -/

theorem run_append (st : State) (a b : List Char) : run st (a ++ b) = (run st a).bind (run · b) :=
  List.foldlM_append

theorem run_cons (st : State) (c : Char) (cs : List Char) :
    run st (c :: cs) = (step st c).bind (run · cs) := List.foldlM_cons

theorem run_trans {st st' st'' : State} {a b : List Char} (ha : run st a = some st')
    (hb : run st' b = some st'') : run st (a ++ b) = some st'' := by
  rw [run_append, ha, Option.bind_some, hb]

theorem run_single {st st' : State} {c : Char} (h : step st c = some st') :
    run st [c] = some st' := by
  rw [run_cons, h]
  rfl

/-- Inside a string, a character that neither ends nor escapes is read as it is. -/
theorem step_str {c : Char} (hspace : ¬ c < ' ') (hquote : c ≠ '"') (hback : c ≠ '\\') (k : Bool)
    (raw : List Char) (fs : List Frame) :
    step (.str k raw false, fs) c = some (.str k (raw ++ [c]) false, fs) := by
  rw [step, if_neg hspace, if_neg Bool.false_ne_true, if_neg hquote, beq_false_of_ne hback]

theorem hexDigits_plain (n : Nat) :
    ∀ d ∈ hexDigits n, ¬ d < ' ' ∧ d ≠ '"' ∧ d ≠ '\\' := by
  have hdigit : ∀ d < 16, ¬ Nat.digitChar d < ' ' ∧ Nat.digitChar d ≠ '"' ∧
      Nat.digitChar d ≠ '\\' := by decide
  have hdigits : ∀ m, ¬ Nat.digitChar (m % 16) < ' ' ∧ Nat.digitChar (m % 16) ≠ '"' ∧
      Nat.digitChar (m % 16) ≠ '\\' := fun m => hdigit _ (Nat.mod_lt m (by decide))
  simp only [hexDigits, List.forall_mem_cons]
  exact ⟨hdigits _, hdigits _, hdigits _, hdigits _, fun d hd => absurd hd List.not_mem_nil⟩

/-- An escape of two characters. -/
theorem run_escape {c : Char} (h : ¬ c < ' ') (k : Bool) (raw : List Char) (fs : List Frame) :
    run (.str k raw false, fs) ['\\', c] = some (.str k (raw ++ ['\\', c]) false, fs) := by
  have hback : step (.str k raw false, fs) '\\' = some (.str k (raw ++ ['\\']) true, fs) := rfl
  have hesc : step (.str k (raw ++ ['\\']) true, fs) c =
      some (.str k (raw ++ ['\\'] ++ [c]) false, fs) := by
    rw [step, if_neg h, if_pos rfl]
  rw [run_cons, hback, Option.bind_some, run_single hesc, List.append_assoc]
  rfl

theorem run_str {cs : List Char} (h : ∀ c ∈ cs, ¬ c < ' ' ∧ c ≠ '"' ∧ c ≠ '\\') (k : Bool)
    (raw : List Char) (fs : List Frame) :
    run (.str k raw false, fs) cs = some (.str k (raw ++ cs) false, fs) := by
  induction cs generalizing raw with
  | nil => rw [List.append_nil]; rfl
  | cons c cs ih =>
    obtain ⟨⟨hspace, hquote, hback⟩, hcs⟩ := List.forall_mem_cons.1 h
    rw [run_cons, step_str hspace hquote hback, Option.bind_some, ih hcs, List.append_assoc]
    rfl

/-- What is written for a character neither ends a string nor leaves an escape open. -/
theorem run_escapeChar (c : Char) (k : Bool) (raw : List Char) (fs : List Frame) :
    run (.str k raw false, fs) (escapeChar c) = some (.str k (raw ++ escapeChar c) false, fs) := by
  rcases escapeChar_cases c with ⟨e, he, hunescape⟩ | ⟨he, -⟩ | ⟨he, hspace, hquote, hback⟩
  · rw [he]
    exact run_escape (not_lt_of_unescape hunescape) k raw fs
  · have hrun := run_trans (run_escape (c := 'u') (by decide) k raw fs)
      (run_str (hexDigits_plain c.toNat) k _ fs)
    rw [List.append_assoc] at hrun
    rw [he]
    exact hrun
  · rw [he]
    exact run_single (step_str hspace hquote hback k raw fs)

theorem run_flatMap_escapeChar (s : List Char) (k : Bool) (raw : List Char) (fs : List Frame) :
    run (.str k raw false, fs) (s.flatMap escapeChar) =
      some (.str k (raw ++ s.flatMap escapeChar) false, fs) := by
  induction s generalizing raw with
  | nil => rw [List.flatMap_nil, List.append_nil]; rfl
  | cons c s ih =>
    rw [List.flatMap_cons, ← List.append_assoc]
    exact run_trans (run_escapeChar c k raw fs) (ih _)

/-- The rest of a quoted string. -/
theorem run_quoted (s : String) (k : Bool) (fs : List Frame) :
    run (.str k [] false, fs) (s.toList.flatMap escapeChar ++ ['"']) =
      some (if k then .colon s else .done (.str s), fs) := by
  refine run_trans (run_flatMap_escapeChar s.toList k [] fs) (run_single ?_)
  rw [step, if_neg (by decide), if_neg Bool.false_ne_true, if_pos rfl, List.nil_append,
    unquote_flatMap_escapeChar, Option.map_some]

/-! ## Values are read back -/

/-- `text` is read as `v`, wherever a value may come. -/
def Reads (text : List Char) (v : Json) : Prop :=
  ∀ fs, run (.value, fs) text = some (.done v, fs)

theorem Reads.parse {text : List Char} {v : Json} (h : Reads text v) : parse text = some v := by
  rw [JsonText.parse, h [], Option.bind_some, finish]

theorem reads_quote (s : String) : Reads (quote s) (.str s) := fun fs => by
  rw [quote, run_cons]
  exact run_quoted s false fs

/-- Blanks change nothing before a value, before a key and after a value. -/
theorem run_spaces {st : State} {cs : List Char} (h : ∀ c ∈ cs, step st c = some st) :
    run st cs = some st := by
  induction cs with
  | nil => rfl
  | cons c cs ih =>
    obtain ⟨hc, hcs⟩ := List.forall_mem_cons.1 h
    rw [run_cons, hc, Option.bind_some, ih hcs]

theorem run_newline (s : State) (h : ∀ c, isSpace c = true → step s c = some s) (depth : Nat) :
    run s (newline depth) = some s := by
  refine run_spaces fun c hc => h c ?_
  rcases List.mem_cons.1 hc with rfl | hc
  · rfl
  · rw [List.eq_of_mem_replicate hc]
    rfl

theorem after_space {c : Char} (hc : isSpace c = true) (v : Json) (fs : List Frame) :
    after v fs c = some (.done v, fs) := if_pos hc

section Members

variable {m : Mode} (hm : m = .member ∨ m = .key) (depth : Nat) (fs : List Frame)
  (acc : List (String × Json))

include hm

theorem step_space {c : Char} (hc : isSpace c = true) :
    step (m, .obj acc :: fs) c = some (m, .obj acc :: fs) := by
  rcases hm with rfl | rfl <;> exact if_pos hc

theorem run_memberText {text : List Char} {v : Json} (h : Reads text v) (key : String) :
    run (m, .obj acc :: fs) (memberText depth (key, text)) =
      some (.done v, .entry acc key :: fs) := by
  have hopen : step (m, .obj acc :: fs) '"' = some (.str true [] false, .obj acc :: fs) := by
    rcases hm with rfl | rfl <;> rfl
  have hkey : run (m, .obj acc :: fs) (quote key) = some (.colon key, .obj acc :: fs) := by
    rw [quote, run_cons, hopen, Option.bind_some]
    exact run_quoted key true _
  have hcolon : run (.colon key, .obj acc :: fs) [':', ' '] =
      some (.value, .entry acc key :: fs) := rfl
  exact run_trans (run_newline _ (fun c hc => step_space hm fs acc hc) depth)
    (run_trans hkey (run_trans hcolon (h _)))

/-- The members of an object and its end. -/
theorem run_members {members : List (String × List Char)} {values : List (String × Json)}
    (h : List.Forall₂ (fun m v => m.1 = v.1 ∧ Reads m.2 v.2) members values) (hne : members ≠ []) :
    run (m, .obj acc :: fs) (List.intercalate [','] (members.map (memberText (depth + 1))) ++
      (newline depth ++ ['}'])) = some (.done (.obj (acc ++ values)), fs) := by
  induction h generalizing m acc with
  | nil => exact absurd rfl hne
  | @cons member value members values hhead htail ih =>
    obtain ⟨key, text⟩ := member
    obtain ⟨_, v⟩ := value
    obtain ⟨rfl, hread⟩ := hhead
    have hfirst := run_memberText hm (depth + 1) fs acc hread key
    cases members with
    | nil =>
      cases htail
      have hend : run (.done v, .entry acc key :: fs) (newline depth ++ ['}']) =
          some (.done (.obj (acc ++ [(key, v)])), fs) :=
        run_trans (run_newline (.done v, _) (fun c hc => after_space hc v _) depth)
          (run_single rfl)
      simpa using run_trans hfirst hend
    | cons member members =>
      have hcomma : run (.done v, .entry acc key :: fs) [','] =
          some (.key, .obj (acc ++ [(key, v)]) :: fs) := rfl
      have hrest := ih (m := .key) (.inr rfl) (acc ++ [(key, v)]) (List.cons_ne_nil _ _)
      have hrun := run_trans hfirst (run_trans hcomma hrest)
      rw [List.append_assoc] at hrun
      rw [List.map_cons, List.map_cons, List.intercalate_cons_cons, List.append_assoc,
        List.append_assoc]
      exact hrun

end Members

theorem reads_objectText {depth : Nat} {members : List (String × List Char)}
    {values : List (String × Json)}
    (h : List.Forall₂ (fun m v => m.1 = v.1 ∧ Reads m.2 v.2) members values) :
    Reads (objectText depth members) (.obj values) := by
  intro fs
  unfold objectText
  split_ifs with hnil
  · subst hnil
    cases h
    rfl
  · have hopen : step (.value, fs) '{' = some (.member, .obj [] :: fs) := rfl
    rw [run_cons, hopen, Option.bind_some]
    exact run_members (.inl rfl) depth fs [] h hnil

/-! ## A text that is cut off -/

/-- Outside of all arrays and objects only a value that is read stands. -/
def Open (st : State) : Prop := st.2 = [] → ∃ v, st.1 = .done v

theorem after_nil {v : Json} {c : Char} {st : State} (h : after v [] c = some st) :
    isSpace c = true ∧ st = (.done v, []) := by
  unfold after at h
  split at h
  next hc => exact ⟨hc, (Option.some.inj h).symm⟩
  next => simp at h

theorem run_done {v : Json} {cs : List Char} {st : State} (h : run (.done v, []) cs = some st) :
    ∀ c ∈ cs, isSpace c = true := by
  induction cs with
  | nil => exact fun c hc => absurd hc List.not_mem_nil
  | cons c cs ih =>
    rw [run_cons, Option.bind_eq_some_iff] at h
    obtain ⟨st', hstep, hrun⟩ := h
    obtain ⟨hc, rfl⟩ := after_nil hstep
    exact List.forall_mem_cons.2 ⟨hc, ih hrun⟩

theorem begins_ne_nil {c : Char} {fs : List Frame} {st : State} (hfs : fs ≠ [])
    (h : begins c fs = some st) : st.2 ≠ [] := by
  unfold begins at h
  split_ifs at h <;> cases h
  · exact List.cons_ne_nil _ _
  · exact List.cons_ne_nil _ _
  · exact hfs
  · exact hfs

theorem after_open {v : Json} {c : Char} {fs : List Frame} {st : State}
    (h : after v fs c = some st) : Open st := by
  unfold after at h
  split at h
  · cases h
    exact fun _ => ⟨v, rfl⟩
  · split at h <;> cases h
    · exact fun hnil => absurd hnil (List.cons_ne_nil _ _)
    · exact fun _ => ⟨_, rfl⟩
    · exact fun hnil => absurd hnil (List.cons_ne_nil _ _)
    · exact fun _ => ⟨_, rfl⟩

/-- One character keeps the state open, case by case on what comes next. -/
theorem step_open {st st' : State} {c : Char} (hopen : Open st) (h : step st c = some st') :
    Open st' := by
  obtain ⟨m, fs⟩ := st
  by_cases hm : ∃ v, m = .done v
  · obtain ⟨v, rfl⟩ := hm
    exact after_open h
  · have hfs : fs ≠ [] := fun hnil => hm (hopen hnil)
    have hin : ∀ m', Open (m', fs) := fun m' hnil => absurd hnil hfs
    unfold step at h
    cases m with
    | value =>
      dsimp only at h
      split_ifs at h
      · cases h; exact hin _
      · exact fun hnil => absurd hnil (begins_ne_nil hfs h)
    | first =>
      dsimp only at h
      split_ifs at h
      · cases h; exact hin _
      · split at h
        · cases h; exact fun _ => ⟨_, rfl⟩
        · exact fun hnil => absurd hnil (begins_ne_nil hfs h)
    | member =>
      dsimp only at h
      split_ifs at h
      · cases h; exact hin _
      · split at h <;> cases h
        · exact fun _ => ⟨_, rfl⟩
        · exact hin _
    | key =>
      dsimp only at h
      split_ifs at h <;> cases h <;> exact hin _
    | colon key =>
      dsimp only at h
      split_ifs at h
      · cases h; exact hin _
      · split at h <;> cases h
        exact fun hnil => absurd hnil (List.cons_ne_nil _ _)
    | str isKey raw esc =>
      dsimp only at h
      split_ifs at h
      · cases h; exact hin _
      · obtain ⟨s, -, rfl⟩ := Option.map_eq_some_iff.1 h
        exact hin _
      · obtain ⟨s, -, rfl⟩ := Option.map_eq_some_iff.1 h
        exact hin _
      · cases h; exact hin _
    | atom raw =>
      dsimp only at h
      split_ifs at h
      · cases h; exact hin _
      · obtain ⟨v, -, hv⟩ := Option.bind_eq_some_iff.1 h
        exact after_open hv
    | done v => exact absurd ⟨v, rfl⟩ hm

theorem run_open {st st' : State} {cs : List Char} (hopen : Open st) (h : run st cs = some st') :
    Open st' := by
  induction cs generalizing st with
  | nil =>
    cases h
    exact hopen
  | cons c cs ih =>
    rw [run_cons, Option.bind_eq_some_iff] at h
    obtain ⟨st₁, hstep, hrun⟩ := h
    exact ih (step_open hopen hstep) hrun

section NotAscii

variable {c : Char} (hc : 127 < c.val)

include hc

/-- A character that is not ASCII stands in strings only. -/
theorem ne_of_lt_val {d : Char} (hd : d.val ≤ 127) : c ≠ d := by
  rintro rfl
  exact absurd hc (UInt32.not_lt.2 hd)

theorem isSpace_of_lt_val : isSpace c = false := by
  simp only [isSpace, Bool.or_eq_false_iff, beq_eq_false_iff_ne, ne_eq]
  exact ⟨⟨⟨ne_of_lt_val hc (by decide), ne_of_lt_val hc (by decide)⟩,
    ne_of_lt_val hc (by decide)⟩, ne_of_lt_val hc (by decide)⟩

theorem isAtomChar_of_lt_val : isAtomChar c = false := by
  have hle : ∀ d : UInt32, d ≤ 127 → decide (c.val ≤ d) = false := fun d hd =>
    decide_eq_false (UInt32.not_le.2 (UInt32.lt_of_le_of_lt hd hc))
  have hupper : c.isUpper = false := by
    unfold Char.isUpper
    rw [Bool.decide_and, hle 'Z'.val (by decide), Bool.and_false]
  have hlower : c.isLower = false := by
    unfold Char.isLower
    rw [hle 'z'.val (by decide), Bool.and_false]
  have hdigit : c.isDigit = false := by
    unfold Char.isDigit
    rw [hle '9'.val (by decide), Bool.and_false]
  unfold isAtomChar Char.isAlphanum Char.isAlpha
  rw [hupper, hlower, hdigit, beq_false_of_ne (ne_of_lt_val hc (by decide)),
    beq_false_of_ne (ne_of_lt_val hc (by decide)), beq_false_of_ne (ne_of_lt_val hc (by decide))]
  rfl

theorem begins_of_lt_val (fs : List Frame) : begins c fs = none := by
  rw [begins, if_neg (ne_of_lt_val hc (by decide)), if_neg (ne_of_lt_val hc (by decide)),
    if_neg (ne_of_lt_val hc (by decide)), isAtomChar_of_lt_val hc, if_neg Bool.false_ne_true]

theorem after_of_lt_val (v : Json) (fs : List Frame) : after v fs c = none := by
  unfold after
  rw [isSpace_of_lt_val hc, if_neg Bool.false_ne_true]
  split
  · exact absurd rfl (ne_of_lt_val hc (by decide))
  · exact absurd rfl (ne_of_lt_val hc (by decide))
  · exact absurd rfl (ne_of_lt_val hc (by decide))
  · exact absurd rfl (ne_of_lt_val hc (by decide))
  · rfl

/-- Such a character opens and closes nothing. -/
theorem step_of_lt_val {st st' : State} (h : step st c = some st') : st'.2 = st.2 := by
  obtain ⟨m, fs⟩ := st
  unfold step at h
  cases m with
  | value => simp [isSpace_of_lt_val hc, begins_of_lt_val hc] at h
  | first =>
    simp only [isSpace_of_lt_val hc, Bool.false_eq_true, if_false] at h
    split at h
    · exact absurd rfl (ne_of_lt_val hc (by decide))
    · simp [begins_of_lt_val hc] at h
  | member =>
    simp only [isSpace_of_lt_val hc, Bool.false_eq_true, if_false] at h
    split at h
    · exact absurd rfl (ne_of_lt_val hc (by decide))
    · exact absurd rfl (ne_of_lt_val hc (by decide))
    · cases h
  | key => simp [isSpace_of_lt_val hc, ne_of_lt_val hc (d := '"') (by decide)] at h
  | colon key =>
    simp only [isSpace_of_lt_val hc, Bool.false_eq_true, if_false] at h
    split at h
    · exact absurd rfl (ne_of_lt_val hc (by decide))
    · cases h
  | str isKey raw esc =>
    dsimp only at h
    rw [if_neg (ne_of_lt_val hc (by decide))] at h
    split_ifs at h <;> cases h <;> rfl
  | atom raw => simp [isAtomChar_of_lt_val hc, after_of_lt_val hc] at h
  | done v => simp [after_of_lt_val hc] at h

end NotAscii

theorem run_of_lt_val {st st' : State} {cs : List Char} (hcs : ∀ c ∈ cs, 127 < c.val)
    (h : run st cs = some st') : st'.2 = st.2 := by
  induction cs generalizing st with
  | nil =>
    cases h
    rfl
  | cons c cs ih =>
    obtain ⟨hc, hcs⟩ := List.forall_mem_cons.1 hcs
    rw [run_cons, Option.bind_eq_some_iff] at h
    obtain ⟨st₁, hstep, hrun⟩ := h
    exact (ih hcs hrun).trans (step_of_lt_val hc hstep)

theorem finish_eq_none {st : State} (h : st.2 ≠ []) : finish st = none := by
  unfold finish
  split
  · exact absurd rfl h
  · exact absurd rfl h
  · rfl

/-- **A text of an object that is cut off is no text of a value**: not if the part that is
missing has more than blanks, and not with characters that are not ASCII in its place. -/
theorem parse_cut {before rest body cut : List Char} {v : Json} (hread : Reads ('{' :: body) v)
    (htext : '{' :: body = before ++ rest) (hrest : ∃ c ∈ rest, isSpace c = false)
    (hcut : ∀ c ∈ cut, 127 < c.val) : parse (before ++ cut) = none := by
  have hrun := hread []
  rw [htext, run_append, Option.bind_eq_some_iff] at hrun
  obtain ⟨st, hbefore, hafter⟩ := hrun
  cases before with
  | nil =>
    cases cut with
    | nil => rfl
    | cons c cut =>
      have hc := (List.forall_mem_cons.1 hcut).1
      have hstep : step (.value, []) c = none := by
        rw [step, isSpace_of_lt_val hc, if_neg Bool.false_ne_true, begins_of_lt_val hc]
      rw [List.nil_append, parse, run_cons, hstep]
      rfl
  | cons c before =>
    obtain ⟨rfl, -⟩ := List.cons.inj htext
    -- the first character opens the object that only its missing end closes
    have hobj : Open (.member, [.obj []]) := fun hnil => absurd hnil (List.cons_ne_nil _ _)
    have hopen : Open st := run_open hobj hbefore
    have hfs : st.2 ≠ [] := by
      intro hnil
      obtain ⟨m, fs⟩ := st
      obtain ⟨w, rfl⟩ := hopen hnil
      obtain rfl : fs = [] := hnil
      obtain ⟨d, hd, hspace⟩ := hrest
      rw [run_done hafter d hd] at hspace
      cases hspace
    rw [parse, run_append, hbefore, Option.bind_some]
    cases hrun : run st cut with
    | none => rfl
    | some st' => exact finish_eq_none (run_of_lt_val hcut hrun ▸ hfs)

theorem objectText_eq (depth : Nat) (members : List (String × List Char)) :
    ∃ body, objectText depth members = '{' :: (body ++ ['}']) := by
  unfold objectText
  split_ifs
  · exact ⟨[], rfl⟩
  · exact ⟨_, congrArg ('{' :: ·) (List.append_assoc _ _ _).symm⟩

/-- **A written object that is cut off is no text of a value.** -/
theorem parse_objectText_cut {depth : Nat} {members : List (String × List Char)} {v : Json}
    {before after cut : List Char} {c : Char} (hread : Reads (objectText depth members) v)
    (htext : objectText depth members = before ++ c :: after) (hcut : ∀ d ∈ cut, 127 < d.val) :
    parse (before ++ cut) = none := by
  obtain ⟨body, hbody⟩ := objectText_eq depth members
  rw [hbody] at hread htext
  refine parse_cut hread htext ⟨'}', ?_, rfl⟩ hcut
  have hlast : (before ++ c :: after).getLast? = some '}' := by
    rw [← htext, ← List.cons_append, List.getLast?_append_cons]
    rfl
  rw [List.getLast?_append_cons] at hlast
  exact List.mem_of_getLast? hlast

end LlmkubeRuntimes.Lib.JsonText
