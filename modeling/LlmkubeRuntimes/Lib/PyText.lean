import Mathlib.Data.List.DropRight
import LlmkubeRuntimes.Lib.Text

/-!
# Text as Python reads it

* `isPySpace`, `strip`, `words`: `str.isspace`, `str.strip` and `str.split` without
  arguments;
* `isLineBreak`, `splitLines`: `str.splitlines`;
* `universalNewlines`: what a stream opened as text makes of `\r` and `\r\n`;
* `nul`, `terminated`: text in entries that each end in a NUL, as programs print
  lists of paths.
-/

namespace LlmkubeRuntimes.Lib

/-- `str.isspace` on one character. -/
def isPySpace (c : Char) : Bool := isSpace c || (0x1c ≤ c.toNat && c.toNat ≤ 0x1f)

def strip (text : List Char) : List Char := trim isPySpace text

theorem strip_eq_nil {text : List Char} : strip text = [] ↔ isBlank isPySpace text := by
  rw [isBlank, List.all_eq_true]
  refine ⟨all_of_trim_eq_nil, fun h => ?_⟩
  rw [strip, trim, List.dropWhile_eq_nil_iff.2 h]
  rfl

def words (text : List Char) : List (List Char) := (text.splitOnP isPySpace).filter (· ≠ [])

/-- The last part of a path. -/
def baseName (path : List Char) : List Char := (path.splitOn '/').getLastD []

/-! ## Lines -/

/-- The characters at which `str.splitlines` ends a line. -/
def isLineBreak (c : Char) : Bool :=
  c.toNat ∈ [0x0a, 0x0b, 0x0c, 0x0d, 0x1c, 0x1d, 0x1e, 0x85, 0x2028, 0x2029]

/-- The lines of a text that goes on after `line`. -/
def linesFrom (line : List Char) : List Char → List (List Char)
  | [] => if line = [] then [] else [line]
  | '\r' :: '\n' :: text => line :: linesFrom [] text
  | c :: text => if isLineBreak c then line :: linesFrom [] text else linesFrom (line ++ [c]) text

/-- `str.splitlines` -/
def splitLines (text : List Char) : List (List Char) := linesFrom [] text

theorem linesFrom_break {c : Char} (hcr : c ≠ '\r') (hbreak : isLineBreak c = true) {line : List Char}
    {text : List Char} : linesFrom line (c :: text) = line :: linesFrom [] text := by
  rw [linesFrom.eq_3 _ _ _ fun _ h => absurd h hcr, if_pos hbreak]

theorem linesFrom_other {c : Char} (hcr : c ≠ '\r') (hbreak : isLineBreak c = false) {line : List Char}
    {text : List Char} : linesFrom line (c :: text) = linesFrom (line ++ [c]) text := by
  rw [linesFrom.eq_3 _ _ _ fun _ h => absurd h hcr, hbreak, if_neg Bool.false_ne_true]

/-- Text with its line ends translated. -/
def universalNewlines : List Char → List Char
  | [] => []
  | '\r' :: '\n' :: text => '\n' :: universalNewlines text
  | c :: text => (if c = '\r' then '\n' else c) :: universalNewlines text

theorem universalNewlines_cons {c : Char} (h : c ≠ '\r') (text : List Char) :
    universalNewlines (c :: text) = c :: universalNewlines text := by
  rw [universalNewlines.eq_3 _ _ fun _ hc => absurd hc h, if_neg h]

/-- Text without a carriage return is as it is. -/
theorem universalNewlines_of_notMem {text : List Char} (h : '\r' ∉ text) :
    universalNewlines text = text := by
  induction text with
  | nil => rfl
  | cons c text ih =>
    rw [List.mem_cons, not_or] at h
    rw [universalNewlines_cons (Ne.symm h.1), ih h.2]

/-- No carriage return is left. -/
theorem notMem_universalNewlines (text : List Char) : '\r' ∉ universalNewlines text := by
  induction text using universalNewlines.induct with
  | case1 => exact List.not_mem_nil
  | case2 text ih =>
    rw [universalNewlines, List.mem_cons, not_or]
    exact ⟨by decide, ih⟩
  | case3 c text hne ih =>
    rw [universalNewlines.eq_3 _ _ hne, List.mem_cons, not_or]
    refine ⟨?_, ih⟩
    split
    · decide
    · rename_i hc
      exact Ne.symm hc

theorem universalNewlines_eq_nil {text : List Char} : universalNewlines text = [] ↔ text = [] := by
  induction text using universalNewlines.induct with
  | case1 => simp [universalNewlines]
  | case2 text => simp [universalNewlines]
  | case3 c text hne => simp [universalNewlines.eq_3 _ _ hne]

/-- A character that is no part of a line end cuts the translation in two. -/
theorem universalNewlines_append_cons {c : Char} (hcr : c ≠ '\r') (hlf : c ≠ '\n')
    (text rest : List Char) :
    universalNewlines (text ++ c :: rest) = universalNewlines text ++ c :: universalNewlines rest := by
  induction text using universalNewlines.induct with
  | case1 => rw [List.nil_append, universalNewlines_cons hcr, universalNewlines, List.nil_append]
  | case2 text ih => rw [List.cons_append, List.cons_append, universalNewlines, ih, universalNewlines,
      List.cons_append]
  | case3 d text hne ih =>
    have hne' : ∀ text' : List Char, d = '\r' → text ++ c :: rest = '\n' :: text' → False := by
      intro text' hd heq
      cases text with
      | nil => exact hlf (List.cons.inj heq).1
      | cons d' text => exact hne text hd (by rw [(List.cons.inj heq).1])
    rw [List.cons_append, universalNewlines.eq_3 _ _ hne', ih, universalNewlines.eq_3 _ _ hne,
      List.cons_append]

/-! ## Entries that end in a NUL -/

def nul : Char := Char.ofNat 0

theorem nul_ne_cr : nul ≠ '\r' := by decide

theorem nul_ne_lf : nul ≠ '\n' := by decide

def terminated (entries : List (List Char)) : List Char := entries.flatMap (· ++ [nul])

theorem terminated_cons (e : List Char) (entries : List (List Char)) :
    terminated (e :: entries) = e ++ nul :: terminated entries := by
  rw [terminated, List.flatMap_cons, List.append_assoc]
  rfl

theorem universalNewlines_terminated (entries : List (List Char)) :
    universalNewlines (terminated entries) = terminated (entries.map universalNewlines) := by
  induction entries with
  | nil => rfl
  | cons e entries ih =>
    rw [terminated_cons, universalNewlines_append_cons nul_ne_cr nul_ne_lf, ih, List.map_cons,
      terminated_cons]

/-- A NUL is neither made nor lost. -/
theorem nul_mem_universalNewlines {text : List Char} : nul ∈ universalNewlines text ↔ nul ∈ text := by
  induction text using universalNewlines.induct with
  | case1 => exact Iff.rfl
  | case2 text ih =>
    simp only [universalNewlines, List.mem_cons, ih, nul_ne_cr, nul_ne_lf, false_or]
  | case3 c text hne ih =>
    rw [universalNewlines.eq_3 _ _ hne, List.mem_cons, List.mem_cons, ih]
    split
    · rename_i hc
      simp [hc, nul_ne_lf, nul_ne_cr]
    · exact Iff.rfl

/-- Splitting at the NULs gives the entries back, and an empty one. -/
theorem splitOn_terminated {entries : List (List Char)} (h : ∀ e ∈ entries, nul ∉ e) :
    (terminated entries).splitOn nul = entries ++ [[]] := by
  induction entries with
  | nil => rfl
  | cons e entries ih =>
    rw [terminated_cons, List.splitOn_append_cons_self_of_not_mem (h e List.mem_cons_self),
      ih fun e' he' => h e' (List.mem_cons_of_mem e he'), List.cons_append]

theorem terminated_ends (e : List Char) (entries : List (List Char)) :
    ∃ text, terminated (e :: entries) = text ++ [nul] := by
  induction entries generalizing e with
  | nil => exact ⟨e, by simp [terminated]⟩
  | cons e' entries ih =>
    obtain ⟨text, htext⟩ := ih e'
    exact ⟨e ++ nul :: text, by rw [terminated_cons, htext, List.append_assoc, List.cons_append]⟩

/-- Stripping entries takes space from the start of the first one alone. -/
theorem strip_terminated (e : List Char) (entries : List (List Char)) :
    strip (terminated (e :: entries)) = terminated (e.dropWhile isPySpace :: entries) := by
  have hnul : isPySpace nul = false := by decide
  have hdrop : (terminated (e :: entries)).dropWhile isPySpace =
      terminated (e.dropWhile isPySpace :: entries) := by
    rw [terminated_cons, terminated_cons, List.dropWhile_append, List.dropWhile_cons, hnul]
    split
    · rename_i h
      rw [List.isEmpty_iff.1 h]
      rfl
    · rfl
  obtain ⟨text, htext⟩ := terminated_ends (e.dropWhile isPySpace) entries
  rw [strip, trim, hdrop, htext, List.reverse_append, List.reverse_singleton, List.singleton_append,
    List.dropWhile_cons, hnul]
  simp

/-- An entry that starts with no space is one of the parts after stripping. -/
theorem mem_splitOn_strip {entries : List (List Char)} (h : ∀ e ∈ entries, nul ∉ e)
    {path : List Char} (hmem : path ∈ entries)
    (hhead : ∀ c, path.head? = some c → isPySpace c = false) :
    path ∈ (strip (terminated entries)).splitOn nul := by
  cases entries with
  | nil => cases hmem
  | cons e entries =>
    rw [List.forall_mem_cons] at h
    rw [strip_terminated, splitOn_terminated]
    · rcases List.mem_cons.1 hmem with rfl | hmem
      · rw [dropWhile_of_head hhead]
        exact List.mem_cons_self
      · exact List.mem_cons_of_mem _ (List.mem_append_left _ hmem)
    · exact List.forall_mem_cons.2 ⟨fun hc => h.1 ((List.dropWhile_suffix _).subset hc), h.2⟩

end LlmkubeRuntimes.Lib
