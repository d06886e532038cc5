import LlmkubeRuntimes.Lib.PyText

/-!
# Replacing an installed file

A script reads an installed file as text and moves a changed text into its place.

* `FileCall`: the calls that this makes, each of which may raise;
* `replaceFile`, `putFile`: what is raised, and the file behind it;
* `putFile_snd`: the file is the new one exactly if it was moved there;
* `read_written`: read again, it is the text that was written.
-/

namespace LlmkubeRuntimes.Glm53

open Lib (universalNewlines universalNewlines_of_notMem)

inductive Failure where
  | valueError (message : String)
  | syntaxError (message : String)
  | systemExit (message : String)
  | osError (message : String)
  deriving DecidableEq, Repr

inductive FileCall where
  | writeText
  | chmod
  | replace
  /-- `exists` and `unlink` of the temporary file. -/
  | removeTemp
  | clearPyc
  deriving DecidableEq, Repr

/-- What each call raises. -/
abbrev FileCalls := FileCall → Except Failure Unit

def FileCalls.quiet : FileCalls := fun _ => .ok ()

/-- The temporary file takes the place of the file by the move alone, and is removed if that does
not come about. -/
def replaceFile (calls : FileCalls) (source file : List Char) : Except Failure Unit × List Char :=
  let written : Except Failure Unit := do
    calls .writeText
    calls .chmod
    calls .replace
  let file := if written = .ok () then source else file
  match calls .removeTemp with
  | .error e => (.error e, file)
  | .ok () => (written, file)

/-- Nothing is written that is not changed. `file` is what the file holds, `patched` a text made
of what was read. -/
def putFile (calls : FileCalls) (clearsPyc : Bool) (patched file : List Char) :
    Except Failure Unit × List Char :=
  if patched ≠ universalNewlines file then
    match replaceFile calls patched file with
    | (.error e, file) => (.error e, file)
    | (.ok (), file) => (if clearsPyc then calls .clearPyc else .ok (), file)
  else (.ok (), file)

/-! ## What is left -/

/-- The calls up to the move succeed. -/
def Moved (calls : FileCalls) : Prop :=
  calls .writeText = .ok () ∧ calls .chmod = .ok () ∧ calls .replace = .ok ()

instance (calls : FileCalls) : Decidable (Moved calls) := inferInstanceAs (Decidable (_ ∧ _ ∧ _))

/-- The file when no call raises. -/
def written (patched file : List Char) : List Char :=
  if patched ≠ universalNewlines file then patched else file

variable {calls : FileCalls} {clearsPyc : Bool} {patched file source : List Char}

theorem moves_iff : (do calls .writeText; calls .chmod; calls .replace) = Except.ok () ↔
    Moved calls := by
  unfold Moved
  cases calls .writeText <;> cases calls .chmod <;> simp [bind, Except.bind]

theorem replaceFile_snd :
    (replaceFile calls source file).2 = if Moved calls then source else file := by
  simp only [replaceFile, moves_iff]
  cases calls .removeTemp <;> rfl

/-- A replacement that succeeds has moved the file. -/
theorem moved_of_replaceFile (h : (replaceFile calls source file).1 = .ok ()) : Moved calls := by
  rw [← moves_iff]
  unfold replaceFile at h
  cases hremove : calls .removeTemp with
  | error e =>
    rw [hremove] at h
    cases h
  | ok u =>
    rw [hremove] at h
    exact h

theorem putFile_of_eq (h : patched = universalNewlines file) :
    putFile calls clearsPyc patched file = (.ok (), file) := if_neg (not_not.2 h)

theorem putFile_of_ne (h : patched ≠ universalNewlines file) :
    putFile calls clearsPyc patched file =
      ((replaceFile calls patched file).1.bind fun () =>
        if clearsPyc then calls .clearPyc else .ok (), (replaceFile calls patched file).2) := by
  rw [putFile, if_pos h]
  obtain ⟨result, after⟩ := replaceFile calls patched file
  cases result <;> rfl

/-- **The file is the new one exactly if it was moved there.** -/
theorem putFile_snd : (putFile calls clearsPyc patched file).2 =
    if Moved calls then written patched file else file := by
  by_cases h : patched = universalNewlines file
  · rw [putFile_of_eq h, written, if_neg (not_not.2 h), ite_self]
  · rw [putFile_of_ne h, replaceFile_snd, written, if_pos h]

theorem putFile_of_ok (h : (putFile calls clearsPyc patched file).1 = .ok ()) :
    (putFile calls clearsPyc patched file).2 = written patched file := by
  by_cases hsame : patched = universalNewlines file
  · rw [putFile_of_eq hsame, written, if_neg (not_not.2 hsame)]
  · have hmoved : Moved calls := by
      rw [putFile_of_ne hsame] at h
      cases hreplace : (replaceFile calls patched file).1 with
      | error e =>
        rw [hreplace] at h
        cases h
      | ok u => exact moved_of_replaceFile hreplace
    rw [putFile_snd, if_pos hmoved]

theorem putFile_quiet : putFile .quiet clearsPyc patched file = (.ok (), written patched file) := by
  by_cases hsame : patched = universalNewlines file
  · rw [putFile_of_eq hsame, written, if_neg (not_not.2 hsame)]
  · rw [putFile_of_ne hsame, written, if_pos hsame]
    cases clearsPyc <;> rfl

/-- Read again, the file is the text that was written. -/
theorem read_written (h : '\r' ∉ patched) : universalNewlines (written patched file) = patched := by
  unfold written
  split
  · exact universalNewlines_of_notMem h
  · rename_i hsame
    exact (not_not.1 hsame).symm

/-- The byte code is cleared behind the move: a run that raises there leaves the new file. -/
example :
    let calls : FileCalls := fun call =>
      if call = .clearPyc then .error (.osError "busy") else .ok ()
    putFile calls true "b".toList "a".toList = (.error (.osError "busy"), "b".toList) := by decide

end LlmkubeRuntimes.Glm53
