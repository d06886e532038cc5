import Mathlib.Data.List.DropRight
import LlmkubeRuntimes.Glm53.ReplaceFile
import LlmkubeRuntimes.Lib.Replace
import LlmkubeRuntimes.Pins.Gate

/-!
# The busy loop of the shared-memory queue

One line of an installed file is replaced by one with another number of seconds.

* `parseSpinwaitMs`, `secondsLiteral`, `configuredLine`: the setting and its line;
* `prepare`, `main`: the file is edited, or left alone and why is said;
* `main_settled`: a run that succeeds leaves the line of its setting, once, and a
  second run succeeds and changes nothing.
-/

namespace LlmkubeRuntimes.Glm53.Spinwait

open Lib (notMem_universalNewlines occurrences replaceFirst universalNewlines)

/-! ## The setting -/

def maxMs : Nat := 1000

def digitValue (digits : List Char) : Nat :=
  digits.foldl (fun value c => 10 * value + (c.toNat - '0'.toNat)) 0

/-- `int` of digits, of which it takes no more than 4300. -/
def int (digits : List Char) : Except Failure Nat :=
  if 4300 < digits.length then
    .error (.valueError ("Exceeds the limit (4300 digits) for integer string conversion: value " ++
      s!"has {digits.length} digits; use sys.set_int_max_str_digits() to increase the limit"))
  else .ok (digitValue digits)

/-- Milliseconds, or `none` for what is installed. -/
def parseSpinwaitMs : Option (List Char) → Except Failure (Option Nat)
  | none => .ok none
  | some raw =>
    if raw = "stock".toList then .ok none
    else if raw = [] ∨ ¬ raw.all Char.isDigit then
      .error (.valueError ("GLM53_SPINWAIT_MS must be 'stock' or a base-10 integer from 1 to " ++
        s!"{maxMs} (got: {Pins.repr raw})"))
    else do
      let value ← int raw
      if 1 ≤ value ∧ value ≤ maxMs then return some value
      else throw (.valueError (s!"GLM53_SPINWAIT_MS must be between 1 and {maxMs} milliseconds " ++
        s!"(got: {Pins.repr raw})"))

def secondsLiteral (milliseconds : Nat) : List Char :=
  if milliseconds = 1000 then ['1']
  else (['0', '.'] ++ List.leftpad 3 '0' (Nat.toDigits 10 milliseconds)).rdropWhile (· = '0')

def lead : List Char := "        busy_loop_s: float = ".toList

def stockLine : List Char := "        busy_loop_s: float = 1,\n".toList

def configuredLine (milliseconds : Nat) : List Char :=
  lead ++ secondsLiteral milliseconds ++ ",\n".toList

example : secondsLiteral 16 = "0.016".toList ∧ secondsLiteral 100 = "0.1".toList := by decide

/-! ## The edit -/

def anchorFound (stockCount : Nat) : Failure :=
  .valueError s!"stock anchor found {stockCount} times (expected exactly 1)"

def prepare (source : List Char) (milliseconds : Option Nat) :
    Except Failure (List Char × String) :=
  -- the newline at its end keeps a line from overlapping itself: `count` finds every place
  let stockCount := occurrences stockLine source
  match milliseconds with
  | none => if stockCount ≠ 1 then .error (anchorFound stockCount) else .ok (source, "stock")
  | some ms =>
    if configuredLine ms = stockLine then
      if stockCount ≠ 1 then .error (anchorFound stockCount)
      else .ok (source, "already stock-equivalent (1000 ms)")
    else
      let replacementCount := occurrences (configuredLine ms) source
      if stockCount = 1 ∧ replacementCount = 0 then
        .ok (replaceFirst stockLine (configuredLine ms) source, "patched")
      else if stockCount = 0 ∧ replacementCount = 1 then .ok (source, "already present")
      else .error (.valueError ("spinwait source is ambiguous or drifted: " ++
        s!"stock={stockCount}, configured={replacementCount}"))

section Main

variable (compile : List Char → Except Failure Unit) (target name : String)

/-- What is tried before anything is written. -/
def preflight (environ : Option (List Char)) (source : List Char) :
    Except Failure (Option Nat × List Char × String) := do
  let milliseconds ← parseSpinwaitMs environ
  let (patched, action) ← prepare source milliseconds
  compile patched
  return (milliseconds, patched, action)

/-- What is printed or raised, and the file behind the run. -/
def main (calls : FileCalls) (args : List String) (environ file : Option (List Char)) :
    Except Failure String × Option (List Char) :=
  let unknown := args.filter (· ≠ "--preflight")
  if unknown ≠ [] then
    (.error (.systemExit ("unknown arguments: " ++ " ".intercalate unknown)), file)
  else match file with
    | none => (.error (.systemExit s!"missing {target}"), none)
    | some raw => match preflight compile environ (universalNewlines raw) with
      | .error (.valueError message) =>
        (.error (.systemExit s!"spinwait preflight failed: {message}"), some raw)
      | .error e => (.error e, some raw)
      | .ok (milliseconds, patched, action) =>
        let selected := match milliseconds with
          | none => "stock"
          | some ms => s!"{ms} ms"
        if "--preflight" ∈ args then
          (.ok s!"{name}: spinwait preflight OK ({selected}; {action})", some raw)
        else match putFile calls true patched raw with
          | (.error e, after) => (.error e, some after)
          | (.ok (), after) => (.ok s!"{name}: spinwait {selected} ({action})", some after)

end Main

/-! ## The lines -/

theorem stockLine_eq : stockLine = (lead ++ ['1', ',']) ++ ['\n'] := by decide

theorem configuredLine_eq (ms : Nat) :
    configuredLine ms = (lead ++ secondsLiteral ms ++ [',']) ++ ['\n'] := by
  rw [configuredLine, List.append_assoc _ [','], List.singleton_append]
  rfl

theorem mem_secondsLiteral {ms : Nat} {c : Char} (h : c ∈ secondsLiteral ms) :
    c = '.' ∨ c.isDigit = true := by
  by_cases hms : ms = 1000
  · rw [secondsLiteral, if_pos hms, List.mem_singleton] at h
    exact .inr (h ▸ rfl)
  · rw [secondsLiteral, if_neg hms] at h
    rcases List.mem_append.1 ((List.rdropWhile_prefix _ _).subset h) with hhead | hpad
    · rcases List.mem_pair.1 hhead with rfl | rfl
      · exact .inr rfl
      · exact .inl rfl
    · rw [List.leftpad, List.mem_append, List.mem_replicate] at hpad
      rcases hpad with ⟨-, rfl⟩ | hdigit
      · exact .inr rfl
      · exact .inr (Nat.isDigit_of_mem_toDigits (by decide) (by decide) hdigit)

/-- Trailing zeros are taken off the places, never the point. -/
theorem prefix_rdropWhile (digits : List Char) :
    ['0', '.'] <+: (['0', '.'] ++ digits).rdropWhile (· = '0') := by
  induction digits using List.reverseRecOn with
  | nil => exact ⟨[], by decide⟩
  | append_singleton digits d ih =>
    rw [← List.append_assoc, List.rdropWhile_concat]
    split
    · exact ih
    · exact ⟨digits ++ [d], by rw [List.append_assoc]⟩

theorem two_le_length_secondsLiteral {ms : Nat} (hms : ms ≠ 1000) :
    2 ≤ (secondsLiteral ms).length := by
  rw [secondsLiteral, if_neg hms]
  exact (prefix_rdropWhile _).length_le

theorem not_stock_suffix {ms : Nat} (hms : ms ≠ 1000) (pre : List Char) :
    ¬ stockLine <:+ pre ++ configuredLine ms := by
  rintro ⟨front, hfront⟩
  have htail : (front ++ "        busy_loop_s: float =".toList) ++ [' ', '1'] =
      (pre ++ lead) ++ secondsLiteral ms := by
    have hstock : stockLine = "        busy_loop_s: float =".toList ++ [' ', '1'] ++
        ",\n".toList := by decide
    rw [hstock, configuredLine, ← List.append_assoc, ← List.append_assoc, ← List.append_assoc,
      ← List.append_assoc, List.append_left_inj] at hfront
    exact hfront
  have hsuffix : [' ', '1'] <:+ secondsLiteral ms :=
    List.suffix_of_suffix_length_le ⟨_, htail⟩ (List.suffix_append _ _)
      (two_le_length_secondsLiteral hms)
  rcases mem_secondsLiteral (hsuffix.subset List.mem_cons_self) with hpoint | hdigit
  · exact absurd hpoint (by decide)
  · exact absurd hdigit (by decide)

/-! ## What a run leaves -/

/-- The line that a setting asks for. -/
def selectedLine : Option Nat → List Char
  | none => stockLine
  | some ms => configuredLine ms

/-- The text is as it was, or has another line in place of the stock one. -/
def Edited (source text line : List Char) : Prop :=
  text = source ∨ ∃ pre post, source = pre ++ stockLine ++ post ∧ text = pre ++ line ++ post ∧
    occurrences stockLine text = 0

theorem newline_not_mem_configured (ms : Nat) : '\n' ∉ lead ++ secondsLiteral ms ++ [','] := by
  intro h
  rcases List.mem_append.1 h with h | hcomma
  · rcases List.mem_append.1 h with hlead | hliteral
    · exact absurd hlead (by decide)
    · rcases mem_secondsLiteral hliteral with hpoint | hdigit
      · exact absurd hpoint (by decide)
      · exact absurd hdigit (by decide)
  · exact absurd hcomma (by decide)

/-- The edit of a file with the stock line and no configured one. -/
theorem replace_stockLine {ms : Nat} {source : List Char} (hms : ms ≠ 1000)
    (hstock : occurrences stockLine source = 1)
    (hconfigured : occurrences (configuredLine ms) source = 0) :
    Edited source (replaceFirst stockLine (configuredLine ms) source) (configuredLine ms) ∧
      occurrences (configuredLine ms) (replaceFirst stockLine (configuredLine ms) source) = 1 ∧
      occurrences stockLine (replaceFirst stockLine (configuredLine ms) source) = 0 := by
  have hends := not_stock_suffix hms
  rw [stockLine_eq] at hstock
  simp only [stockLine_eq, configuredLine_eq] at hends hconfigured ⊢
  obtain ⟨pre, post, hsource, hreplace, hone, hzero⟩ := Lib.replace_settles (by decide)
    (newline_not_mem_configured ms) hends hstock hconfigured
  rw [hreplace]
  refine ⟨.inr ⟨pre, post, ?_, rfl, ?_⟩, hone, hzero⟩
  · rw [stockLine_eq, hsource]
  · rw [stockLine_eq, hzero]

theorem prepare_settles {source text : List Char} {ms : Option Nat} {action : String}
    (h : prepare source ms = .ok (text, action)) :
    occurrences (selectedLine ms) text = 1 ∧ Edited source text (selectedLine ms) ∧
      ∃ action', prepare text ms = .ok (text, action') := by
  cases ms with
  | none =>
    by_cases hone : occurrences stockLine source = 1
    · have hkeep : prepare source none = .ok (source, "stock") := if_neg (not_not.2 hone)
      rw [hkeep, Except.ok.injEq, Prod.mk.injEq] at h
      obtain ⟨rfl, rfl⟩ := h
      exact ⟨hone, .inl rfl, _, hkeep⟩
    · have hraise : prepare source none = .error (anchorFound (occurrences stockLine source)) :=
        if_pos hone
      rw [hraise] at h
      cases h
  | some ms =>
    by_cases hsame : configuredLine ms = stockLine
    · by_cases hone : occurrences stockLine source = 1
      · have hkeep : prepare source (some ms) =
            .ok (source, "already stock-equivalent (1000 ms)") := by
          simp only [prepare, hsame, if_true, hone, ne_eq, not_true_eq_false, if_false]
        rw [hkeep, Except.ok.injEq, Prod.mk.injEq] at h
        obtain ⟨rfl, rfl⟩ := h
        exact ⟨by rw [selectedLine, hsame, hone], .inl rfl, _, hkeep⟩
      · simp only [prepare, hsame, if_true, ne_eq, hone, not_false_eq_true] at h
        cases h
    · have hms : ms ≠ 1000 := by
        rintro rfl
        exact hsame (by decide)
      -- a file with the configured line and no stock line is kept
      have hkeep : ∀ text, occurrences stockLine text = 0 →
          occurrences (configuredLine ms) text = 1 →
          prepare text (some ms) = .ok (text, "already present") := fun text hzero hone => by
        simp only [prepare, hsame, if_false, hzero, hone, Nat.zero_ne_one, false_and, and_self,
          if_true]
      simp only [prepare, hsame, if_false] at h
      split at h
      · rename_i hpatch
        rw [Except.ok.injEq, Prod.mk.injEq] at h
        obtain ⟨rfl, -⟩ := h
        obtain ⟨hedited, hone, hzero⟩ := replace_stockLine hms hpatch.1 hpatch.2
        exact ⟨hone, hedited, _, hkeep _ hzero hone⟩
      · split at h
        · rename_i hpresent
          rw [Except.ok.injEq, Prod.mk.injEq] at h
          obtain ⟨rfl, -⟩ := h
          exact ⟨hpresent.2, .inl rfl, _, hkeep _ hpresent.1 hpresent.2⟩
        · cases h

section Runs

variable {compile : List Char → Except Failure Unit} {environ : Option (List Char)}
  {source text : List Char} {ms : Option Nat} {action : String}

theorem preflight_eq_ok : preflight compile environ source = .ok (ms, text, action) ↔
    parseSpinwaitMs environ = .ok ms ∧ prepare source ms = .ok (text, action) ∧
      compile text = .ok () := by
  unfold preflight
  cases hparse : parseSpinwaitMs environ with
  | error e =>
    constructor
    · intro h
      cases h
    · rintro ⟨h, -⟩
      cases h
  | ok ms' =>
    cases hprepare : prepare source ms' with
    | error e =>
      refine ⟨fun h => ?_, fun h => ?_⟩
      · simp [hprepare, bind, Except.bind] at h
      · obtain ⟨hms, htext, -⟩ := h
        cases hms
        rw [hprepare] at htext
        cases htext
    | ok out =>
      cases hcompile : compile out.1 with
      | error e =>
        refine ⟨fun h => ?_, fun h => ?_⟩
        · simp [hprepare, hcompile, bind, Except.bind] at h
        · obtain ⟨hms, htext, hok⟩ := h
          cases hms
          rw [hprepare] at htext
          cases htext
          rw [hcompile] at hok
          cases hok
      | ok u =>
        simp only [hprepare, hcompile, bind, Except.bind, pure, Except.pure, Except.ok.injEq,
          Prod.mk.injEq]
        constructor
        · rintro ⟨rfl, rfl, rfl⟩
          exact ⟨rfl, hprepare, hcompile⟩
        · rintro ⟨rfl, htext, -⟩
          rw [hprepare, Except.ok.injEq] at htext
          exact ⟨rfl, congrArg Prod.fst htext, congrArg Prod.snd htext⟩

/-- A run behind a preflight that succeeds. -/
theorem main_of_ok (calls : FileCalls) (target name : String) {args : List String} {raw : List Char}
    (hknown : args.filter (· ≠ "--preflight") = [])
    (hok : preflight compile environ (universalNewlines raw) = .ok (ms, text, action)) :
    ("--preflight" ∈ args →
      ∃ line, main compile target name calls args environ (some raw) = (.ok line, some raw)) ∧
    ("--preflight" ∉ args → ∃ line, main compile target name calls args environ (some raw) =
      ((putFile calls true text raw).1.map fun _ => line,
        some (putFile calls true text raw).2)) := by
  constructor
  · intro hflag
    simp only [main, hknown, hok, hflag, ne_eq, not_true_eq_false, if_false, if_true]
    exact ⟨_, rfl⟩
  · intro hflag
    simp only [main, hknown, hok, hflag, ne_eq, not_true_eq_false, if_false]
    obtain ⟨result, after⟩ := putFile calls true text raw
    cases result
    · exact ⟨"", rfl⟩
    · exact ⟨_, rfl⟩

theorem main_of_error (target name : String) {args : List String} {raw : List Char}
    (h : args.filter (· ≠ "--preflight") ≠ [] ∨
      ∃ e, preflight compile environ (universalNewlines raw) = .error e) :
    ∃ e, ∀ calls, main compile target name calls args environ (some raw) =
      (.error e, some raw) := by
  by_cases hknown : args.filter (· ≠ "--preflight") = []
  · obtain ⟨e, he⟩ := h.resolve_left (not_not.2 hknown)
    cases e with
    | valueError message =>
      refine ⟨.systemExit s!"spinwait preflight failed: {message}", fun calls => ?_⟩
      simp only [main, hknown, he, ne_eq, not_true_eq_false, if_false]
    | syntaxError message =>
      refine ⟨.syntaxError message, fun calls => ?_⟩
      simp only [main, hknown, he, ne_eq, not_true_eq_false, if_false]
    | systemExit message =>
      refine ⟨.systemExit message, fun calls => ?_⟩
      simp only [main, hknown, he, ne_eq, not_true_eq_false, if_false]
    | osError message =>
      refine ⟨.osError message, fun calls => ?_⟩
      simp only [main, hknown, he, ne_eq, not_true_eq_false, if_false]
  · exact ⟨_, fun calls => if_pos hknown⟩

/-- No carriage return is written. -/
theorem notMem_of_edited {before after : List Char} (h : Edited before after (selectedLine ms))
    (hbefore : '\r' ∉ before) : '\r' ∉ after := by
  have hline : '\r' ∉ selectedLine ms := by
    cases ms with
    | none => decide
    | some ms =>
      rw [selectedLine, configuredLine_eq]
      intro hmem
      rcases List.mem_append.1 hmem with hmem | hend
      · rcases List.mem_append.1 hmem with hmem | hcomma
        · rcases List.mem_append.1 hmem with hlead | hliteral
          · exact absurd hlead (by decide)
          · rcases mem_secondsLiteral hliteral with hpoint | hdigit
            · exact absurd hpoint (by decide)
            · exact absurd hdigit (by decide)
        · exact absurd hcomma (by decide)
      · exact absurd hend (by decide)
  rcases h with rfl | ⟨pre, post, rfl, rfl, -⟩
  · exact hbefore
  · simp only [List.mem_append, not_or] at hbefore ⊢
    exact ⟨⟨hbefore.1.1, hline⟩, hbefore.2⟩

end Runs

/-- **A run that succeeds leaves the line of its setting, once**, where the stock line was or where
it already stood, and a second run succeeds and changes nothing. A preflight leaves the file as it
was, and so does a run that raises, unless it raises behind the move of the new file. -/
theorem main_settled (compile : List Char → Except Failure Unit) (target name : String)
    (args : List String) (environ : Option (List Char)) (raw : List Char) :
    ((∃ e, (main compile target name .quiet args environ (some raw)).1 = .error e) ∨
        "--preflight" ∈ args →
      ∀ calls, (main compile target name calls args environ (some raw)).2 = some raw) ∧
    ∀ line file, main compile target name .quiet args environ (some raw) = (.ok line, file) →
      "--preflight" ∉ args → ∃ after ms, file = some after ∧ parseSpinwaitMs environ = .ok ms ∧
        compile (universalNewlines after) = .ok () ∧
        occurrences (selectedLine ms) (universalNewlines after) = 1 ∧
        Edited (universalNewlines raw) (universalNewlines after) (selectedLine ms) ∧
        ∀ calls, (main compile target name calls args environ (some raw)).2 =
            (if Moved calls then some after else some raw) ∧
          ((∃ line', (main compile target name calls args environ (some raw)).1 = .ok line') →
            (main compile target name calls args environ (some raw)).2 = some after) ∧
          ∃ line', main compile target name calls args environ (some after) =
            (.ok line', some after) := by
  by_cases hfails : args.filter (· ≠ "--preflight") ≠ [] ∨
      ∃ e, preflight compile environ (universalNewlines raw) = .error e
  · obtain ⟨e, he⟩ := main_of_error target name hfails
    simp only [he]
    exact ⟨fun _ _ => trivial, fun line file h => by cases h⟩
  obtain ⟨hknown, hsucceeds⟩ := not_or.1 hfails
  cases hok : preflight compile environ (universalNewlines raw) with
  | error e => exact absurd ⟨e, hok⟩ hsucceeds
  | ok out =>
    obtain ⟨ms, text, action⟩ := out
    have hrun calls := main_of_ok calls target name (not_not.1 hknown) hok
    constructor
    · intro h calls
      by_cases hflag : "--preflight" ∈ args
      · obtain ⟨line, hmain⟩ := (hrun calls).1 hflag
        rw [hmain]
      · obtain ⟨e, he⟩ := h.resolve_right hflag
        obtain ⟨line, hmain⟩ := (hrun .quiet).2 hflag
        rw [hmain, putFile_quiet] at he
        cases he
    · intro line file h hflag
      obtain ⟨line', hmain⟩ := (hrun .quiet).2 hflag
      rw [hmain, putFile_quiet, Prod.mk.injEq] at h
      obtain ⟨-, rfl⟩ := h
      obtain ⟨hparse, hprepare, hcompile⟩ := preflight_eq_ok.1 hok
      obtain ⟨hone, hedited, action', hagain⟩ := prepare_settles hprepare
      have hread : universalNewlines (written text raw) = text :=
        read_written (notMem_of_edited hedited (notMem_universalNewlines raw))
      refine ⟨written text raw, ms, rfl, hparse, ?_, ?_, ?_, fun calls => ⟨?_, ?_, ?_⟩⟩
      · rw [hread, hcompile]
      · rw [hread, hone]
      · rw [hread]
        exact hedited
      · obtain ⟨line, hmain⟩ := (hrun calls).2 hflag
        rw [hmain, putFile_snd, apply_ite some]
      · obtain ⟨line, hmain⟩ := (hrun calls).2 hflag
        rw [hmain]
        rintro ⟨line', hline⟩
        have hput : (putFile calls true text raw).1 = .ok () := by
          cases hresult : (putFile calls true text raw).1 with
          | error e =>
            rw [hresult] at hline
            cases hline
          | ok u => rfl
        rw [putFile_of_ok hput]
      · have hsecond : preflight compile environ (universalNewlines (written text raw)) =
            .ok (ms, text, action') := by
          rw [hread, preflight_eq_ok]
          exact ⟨hparse, hagain, hcompile⟩
        obtain ⟨line, hmain⟩ := (main_of_ok calls target name (not_not.1 hknown) hsecond).2 hflag
        rw [hmain, putFile_of_eq hread.symm]
        exact ⟨line, rfl⟩

/-- A busy loop of 16 ms is set once, in a file whose lines end as on another system. -/
example :
    main (fun _ => .ok ()) "shm_broadcast.py" "shm_broadcast.py" .quiet [] (some "016".toList)
      (some (lead ++ "1,\r\n    ):\r\n".toList)) =
    (.ok "shm_broadcast.py: spinwait 16 ms (patched)",
      some (configuredLine 16 ++ "    ):\n".toList)) := by
  decide

end LlmkubeRuntimes.Glm53.Spinwait
