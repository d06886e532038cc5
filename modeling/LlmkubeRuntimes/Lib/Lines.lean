import Mathlib.Data.List.Infix
import Mathlib.Data.List.Lex
import Mathlib.Data.List.Sort
import Mathlib.Data.List.DropRight
import Mathlib.Data.List.Dedup
import Mathlib.Data.Char
import LlmkubeRuntimes.Lib.Text

/-!
# Lines in a shell

A text is the list of its lines; a variable holds one without empty lines at its
end.

* `capture`, `emit`: a command's output in a variable, and `printf '%s\n'` of one;
* `range`: `sed -n '/first/,/last/p'`;
* `sortUnique`, `comm13`: `sort -u`, and `comm -13` of two sorted texts, which is
  what the second has and the first has not (`mem_comm13`);
* `infix_cons_iff`, `prefix_cons_iff`, `infix_blank_iff`:
  where a pattern can match around a character.
-/

namespace LlmkubeRuntimes.Lib

/-- A line, without its line feed. -/
abbrev ShellLine := List Char

/-! ## Variables -/

/-- `$(...)` of a command that prints these lines. -/
def capture (out : List ShellLine) : List ShellLine := out.rdropWhile (· = [])

/-- `printf '%s\n' "$text"`: of nothing, an empty line. -/
def emit (text : List ShellLine) : List ShellLine := if text = [] then [[]] else text

theorem capture_isPrefix (out : List ShellLine) : capture out <+: out := List.rdropWhile_prefix _ _

/-- A variable keeps every line that is not empty. -/
theorem mem_capture {out : List ShellLine} {line : ShellLine} (h : line ≠ []) :
    line ∈ capture out ↔ line ∈ out := by
  refine ⟨fun hmem => (capture_isPrefix out).subset hmem, fun hmem => ?_⟩
  induction out using List.reverseRecOn with
  | nil => exact absurd hmem List.not_mem_nil
  | append_singleton out last ih =>
    unfold capture at ih ⊢
    by_cases hlast : last = []
    · rw [List.rdropWhile_concat_pos _ _ _ (by simpa using hlast)]
      rcases List.mem_append.1 hmem with hmem | hmem
      · exact ih hmem
      · exact absurd ((List.mem_singleton.1 hmem).trans hlast) h
    · rwa [List.rdropWhile_concat_neg _ _ _ (by simpa using hlast)]

theorem capture_concat {out : List ShellLine} {last : ShellLine} (h : last ≠ []) :
    capture (out ++ [last]) = out ++ [last] :=
  List.rdropWhile_concat_neg _ _ _ (by simpa using h)

theorem capture_singleton {line : ShellLine} (h : line ≠ []) : capture [line] = [line] :=
  @capture_concat [] line h

theorem emit_of_ne_nil {text : List ShellLine} (h : text ≠ []) : emit text = text := if_neg h

theorem mem_emit {text : List ShellLine} {line : ShellLine} (h : line ≠ []) :
    line ∈ emit text ↔ line ∈ text := by
  unfold emit
  split
  next htext =>
    rw [htext]
    simpa using h
  next => exact Iff.rfl

/-- A sorted text is sorted in a variable, and when it is printed. -/
theorem pairwise_emit_capture {r : ShellLine → ShellLine → Prop} {out : List ShellLine}
    (h : out.Pairwise r) : (emit (capture out)).Pairwise r := by
  unfold emit
  split
  · exact List.pairwise_singleton _ _
  · exact h.sublist (capture_isPrefix out).sublist

/-! ## Ranges -/

/-- `sed -n '/first/,/last/p'`; `inside` is whether a range is open. -/
def range (first last : ShellLine → Bool) : (inside : Bool) → List ShellLine → List ShellLine
  | _, [] => []
  | false, line :: lines => if first line then line :: range first last true lines
    else range first last false lines
  | true, line :: lines => line :: range first last (!last line) lines

/-- No line opens a range. -/
theorem range_false {first last : ShellLine → Bool} {lines : List ShellLine}
    (h : ∀ line ∈ lines, first line = false) : range first last false lines = [] := by
  induction lines with
  | nil => rfl
  | cons line lines ih =>
    rw [List.forall_mem_cons] at h
    rw [range, h.1, if_neg Bool.false_ne_true, ih h.2]

/-- An open range goes up to the next line that closes it. -/
theorem range_true {first last : ShellLine → Bool} {lines rest : List ShellLine} {stop : ShellLine}
    (h : ∀ line ∈ lines, last line = false) (hstop : last stop = true) :
    range first last true (lines ++ stop :: rest) =
      lines ++ stop :: range first last false rest := by
  induction lines with
  | nil => rw [List.nil_append, List.nil_append, range, hstop, Bool.not_true]
  | cons line lines ih =>
    rw [List.forall_mem_cons] at h
    rw [List.cons_append, List.cons_append, range, h.1, Bool.not_false, ih h.2]

/-! ## Sorted lines -/

section Sorted

variable {α : Type} [LinearOrder α]

/-- `sort -u` -/
def sortUnique (lines : List α) : List α := (lines.insertionSort (· ≤ ·)).dedup

@[simp] theorem mem_sortUnique {lines : List α} {line : α} :
    line ∈ sortUnique lines ↔ line ∈ lines := by
  rw [sortUnique, List.mem_dedup, List.mem_insertionSort]

theorem pairwise_sortUnique (lines : List α) : (sortUnique lines).Pairwise (· < ·) := by
  have hle : (sortUnique lines).Pairwise (· ≤ ·) :=
    (List.pairwise_insertionSort (· ≤ ·) lines).sublist (List.dedup_sublist _)
  exact (hle.and (List.nodup_dedup _)).imp fun h => lt_of_le_of_ne h.1 h.2

/-- `comm -13`: the lines of the second text only, if both are sorted. -/
def comm13 : List α → List α → List α
  | _, [] => []
  | xs, y :: ys =>
    if (xs.dropWhile (· < y)).head? = some y then comm13 (xs.dropWhile (· < y)).tail ys
    else y :: comm13 (xs.dropWhile (· < y)) ys

theorem mem_dropWhile_lt {xs : List α} {y z : α} (h : y ≤ z) :
    z ∈ xs.dropWhile (· < y) ↔ z ∈ xs := by
  refine ⟨fun hz => (List.dropWhile_sublist _).subset hz, fun hz => ?_⟩
  rw [← List.takeWhile_append_dropWhile (p := (· < y)) (l := xs), List.mem_append] at hz
  refine hz.resolve_left fun htake => ?_
  have hlt := List.mem_takeWhile_imp htake
  exact absurd h (not_le.2 (by simpa using hlt))

/-- What is left of a sorted text begins with `y` if the text has it. -/
theorem head?_dropWhile_lt {xs : List α} (hx : xs.Pairwise (· < ·)) {y : α} :
    (xs.dropWhile (· < y)).head? = some y ↔ y ∈ xs := by
  have hleft : y ∈ xs.dropWhile (· < y) ↔ y ∈ xs := mem_dropWhile_lt (le_refl y)
  rw [← hleft]
  refine ⟨List.mem_of_head?, fun hmem => ?_⟩
  have hdrop : (xs.dropWhile (· < y)).Pairwise (· < ·) := hx.sublist (List.dropWhile_sublist _)
  have hfirst := List.head?_dropWhile_not (· < y) xs
  cases hxs : xs.dropWhile (· < y) with
  | nil =>
    rw [hxs] at hmem
    cases hmem
  | cons x rest =>
    rw [hxs, List.head?_cons] at hfirst
    rw [hxs] at hmem hdrop
    rcases List.mem_cons.1 hmem with rfl | hin
    · rfl
    · simp [(List.pairwise_cons.1 hdrop).1 y hin] at hfirst

/-- **Of sorted texts, `comm -13` is the difference.** -/
theorem mem_comm13 {xs ys : List α} (hx : xs.Pairwise (· < ·)) (hy : ys.Pairwise (· < ·)) {z : α} :
    z ∈ comm13 xs ys ↔ z ∈ ys ∧ z ∉ xs := by
  induction ys generalizing xs with
  | nil => simp [comm13]
  | cons y ys ih =>
    obtain ⟨hlt, hys⟩ := List.pairwise_cons.1 hy
    have hdrop : (xs.dropWhile (· < y)).Pairwise (· < ·) := hx.sublist (List.dropWhile_sublist _)
    have hlater : ∀ z ∈ ys, (z ∈ xs.dropWhile (· < y) ↔ z ∈ xs) :=
      fun z hz => mem_dropWhile_lt (le_of_lt (hlt z hz))
    rw [comm13, if_congr (head?_dropWhile_lt hx) rfl rfl]
    split
    next hboth =>
      obtain ⟨rest, hrest⟩ : ∃ rest, xs.dropWhile (· < y) = y :: rest :=
        ⟨_, (List.cons_head?_tail ((head?_dropWhile_lt hx).2 hboth)).symm⟩
      rw [hrest, List.tail_cons, ih (hrest ▸ hdrop).of_cons hys, List.mem_cons]
      constructor
      · rintro ⟨hz, hnot⟩
        refine ⟨.inr hz, fun hin => ?_⟩
        rw [← hlater z hz, hrest, List.mem_cons] at hin
        exact hin.elim (fun heq => absurd (hlt z hz) (by rw [heq]; exact lt_irrefl y)) hnot
      · rintro ⟨rfl | hz, hnot⟩
        · exact absurd hboth hnot
        · refine ⟨hz, fun hin => hnot ?_⟩
          rw [← hlater z hz, hrest]
          exact List.mem_cons_of_mem y hin
    next hnot =>
      rw [List.mem_cons, ih hdrop hys, List.mem_cons]
      constructor
      · rintro (rfl | ⟨hz, hz'⟩)
        · exact ⟨.inl rfl, hnot⟩
        · exact ⟨.inr hz, fun hin => hz' ((hlater z hz).2 hin)⟩
      · rintro ⟨rfl | hz, hz'⟩
        · exact .inl rfl
        · exact .inr ⟨hz, fun hin => hz' ((hlater z hz).1 hin)⟩

end Sorted

/-! ## Patterns around a character -/

section Infix

variable {α : Type} {m a b : List α} {c : α}

/-- A pattern without `c` is found before or after it. -/
theorem infix_cons_iff (hm : c ∉ m) : m <:+: a ++ c :: b ↔ m <:+: a ∨ m <:+: b := by
  constructor
  · rintro ⟨u, v, h⟩
    rcases List.append_eq_append_iff.1 h with ⟨e, rfl, -⟩ | ⟨e, hum, hb⟩
    · exact .inl ⟨u, e, rfl⟩
    cases e with
    | nil => exact .inl ⟨u, [], by rw [hum]; simp⟩
    | cons d e =>
      obtain ⟨rfl, rfl⟩ := List.cons.inj hb
      rcases List.append_eq_append_iff.1 hum with ⟨f, -, rfl⟩ | ⟨f, -, hf⟩
      · exact absurd (by simp) hm
      · cases f with
        | nil => exact absurd (by rw [← List.nil_append m, ← hf]; simp) hm
        | cons d f =>
          obtain ⟨rfl, rfl⟩ := List.cons.inj hf
          exact .inr ⟨f, v, rfl⟩
  · rintro (h | h)
    · exact h.trans (List.prefix_append a _).isInfix
    · exact h.trans ((List.suffix_cons c b).trans (List.suffix_append a _)).isInfix

/-- A pattern without `c` is at the front of what stands before it. -/
theorem prefix_cons_iff (hm : c ∉ m) : m <+: a ++ c :: b ↔ m <+: a := by
  refine ⟨fun h => ?_, fun h => h.trans (List.prefix_append a _)⟩
  rcases List.prefix_or_prefix_of_prefix h (List.prefix_append a (c :: b)) with h' | ⟨e, rfl⟩
  · exact h'
  · rw [List.prefix_append_right_inj] at h
    cases e with
    | nil => rw [List.append_nil]
    | cons d e =>
      obtain ⟨t, ht⟩ := h
      obtain ⟨rfl, -⟩ := List.cons.inj ht
      exact absurd (by simp) hm

/-- Where a pattern is found whose first `c` is behind `x`, in a text whose first
`c` is behind `a`. -/
theorem infix_blank_iff {x y : List α} (hx : c ∉ x) (ha : c ∉ a) :
    x ++ c :: y <:+: a ++ c :: b ↔ (x <:+ a ∧ y <+: b) ∨ x ++ c :: y <:+: b := by
  constructor
  · rintro ⟨u, v, h⟩
    by_cases hu : c ∈ u
    · obtain ⟨u₁, u₂, rfl, hu₁⟩ := List.eq_append_cons_of_mem hu
      have h' : u₁ ++ c :: (u₂ ++ (x ++ c :: y) ++ v) = a ++ c :: b := by simpa using h
      obtain ⟨-, hb⟩ := append_cons_inj_left hu₁ ha h'
      exact .inr ⟨u₂, v, hb⟩
    · have h' : (u ++ x) ++ c :: (y ++ v) = a ++ c :: b := by simpa using h
      have hux : c ∉ u ++ x := by simp [hu, hx]
      obtain ⟨hux, hb⟩ := append_cons_inj_left hux ha h'
      exact .inl ⟨⟨u, hux⟩, ⟨v, hb⟩⟩
  · rintro (⟨⟨u, rfl⟩, ⟨v, rfl⟩⟩ | h)
    · exact ⟨u, v, by simp⟩
    · exact h.trans ((List.suffix_cons c b).trans (List.suffix_append a _)).isInfix

end Infix

end LlmkubeRuntimes.Lib
