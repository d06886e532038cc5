import Mathlib.Data.List.Infix

/-!
# Finding a text in a text, a key in a list

* `IsAt m text i`, `IsFirst m text i`: `m` stands at `i`, and nowhere before;
* `findFrom`: the first place from a start on, as Python's `find`;
* `isAt_append`: what is in a text is still there when more follows;
* `findFrom_window`: text that grows is searched from `m.length - 1` before what is
  new, and nothing is missed;
* `mem_of_lookup`: what an association list finds is in it.
-/

namespace LlmkubeRuntimes.Lib

theorem mem_of_lookup {κ β : Type*} [BEq κ] [LawfulBEq κ] {k : κ} {b : β} {l : List (κ × β)}
    (h : l.lookup k = some b) : (k, b) ∈ l := by
  obtain ⟨before, after, rfl, -⟩ := List.lookup_eq_some_iff.1 h
  exact List.mem_append_right _ List.mem_cons_self

variable {α : Type}

/-- There is an `m` at `i`. -/
def IsAt (m text : List α) (i : Nat) : Prop := m <+: text.drop i

/-- There is an `m` at `i` and none before. -/
structure IsFirst (m text : List α) (i : Nat) : Prop where
  isAt : IsAt m text i
  before : ∀ j < i, ¬ IsAt m text j

instance [DecidableEq α] (m text : List α) (i : Nat) : Decidable (IsAt m text i) :=
  inferInstanceAs (Decidable (m <+: text.drop i))

/-- The first `m` from `start` on. -/
def findFrom [DecidableEq α] (m text : List α) (start : Nat) : Option Nat :=
  (List.range' start (text.length + 1 - start)).find? fun i => decide (IsAt m text i)

section

variable {m text rest : List α} {i start : Nat}

theorem IsAt.le_length (h : IsAt m text i) (hm : m ≠ []) : i + m.length ≤ text.length := by
  have hle := h.length_le
  have hpos := List.length_pos_of_ne_nil hm
  rw [List.length_drop] at hle
  omega

/-- The first `m` is where it is. -/
theorem IsFirst.unique {j : Nat} (h : IsFirst m text i) (h' : IsFirst m text j) : i = j := by
  rcases Nat.lt_trichotomy i j with hlt | heq | hgt
  · exact absurd h.isAt (h'.before i hlt)
  · exact heq
  · exact absurd h'.isAt (h.before j hgt)

/-- What lies within a text does not depend on what follows. -/
theorem isAt_append (h : i + m.length ≤ text.length) (rest : List α) :
    IsAt m (text ++ rest) i ↔ IsAt m text i := by
  rw [IsAt, IsAt, List.drop_append_of_le_length (by omega)]
  refine ⟨fun h' => ?_, fun h' => h'.trans (List.prefix_append _ _)⟩
  exact List.prefix_of_prefix_length_le h' (List.prefix_append _ _)
    (by rw [List.length_drop]; omega)

theorem IsAt.append (h : IsAt m text i) (hm : m ≠ []) (rest : List α) :
    IsAt m (text ++ rest) i :=
  (isAt_append (h.le_length hm) rest).2 h

theorem IsFirst.append (h : IsFirst m text i) (hm : m ≠ []) (rest : List α) :
    IsFirst m (text ++ rest) i := by
  have hle := h.isAt.le_length hm
  refine ⟨h.isAt.append hm rest, fun j hj hat => ?_⟩
  exact h.before j hj ((isAt_append (by omega) rest).1 hat)

variable [DecidableEq α]

theorem findFrom_eq_some (h : findFrom m text start = some i) :
    IsAt m text i ∧ ∀ j, start ≤ j → j < i → ¬ IsAt m text j := by
  obtain ⟨hat, -, hbefore⟩ := List.find?_range'_eq_some.1 h
  refine ⟨of_decide_eq_true hat, fun j hle hlt hj => ?_⟩
  have hnot := hbefore j hle hlt
  rw [decide_eq_true hj] at hnot
  exact Bool.false_ne_true hnot

theorem findFrom_eq_none (hm : m ≠ []) (h : findFrom m text start = none) (hi : start ≤ i) :
    ¬ IsAt m text i := by
  intro hat
  have hle := hat.le_length hm
  have hmem : i ∈ List.range' start (text.length + 1 - start) := List.mem_range'_1.2 (by omega)
  have hnot := List.find?_eq_none.1 h i hmem
  exact hnot (decide_eq_true hat)

/-- **Text that grows is searched from shortly before what is new**: without an `m` so far, the
first one found there is the first of all, and if none is found there is none. -/
theorem findFrom_window (hm : m ≠ []) (hnone : ∀ i, ¬ IsAt m text i) (rest : List α) :
    match findFrom m (text ++ rest) (text.length - (m.length - 1)) with
    | some i => IsFirst m (text ++ rest) i ∧ text.length < i + m.length
    | none => ∀ i, ¬ IsAt m (text ++ rest) i := by
  have hnew : ∀ i, IsAt m (text ++ rest) i → text.length < i + m.length := fun i hi =>
    Nat.not_le.1 fun hle => hnone i ((isAt_append hle rest).1 hi)
  have hpos := List.length_pos_of_ne_nil hm
  split
  · next i h =>
    obtain ⟨hat, hbefore⟩ := findFrom_eq_some h
    refine ⟨⟨hat, fun j hj hjat => ?_⟩, hnew i hat⟩
    have hlt := hnew j hjat
    exact hbefore j (by omega) hj hjat
  · next h =>
    intro i hat
    have hlt := hnew i hat
    exact findFrom_eq_none hm h (by omega) hat

end

end LlmkubeRuntimes.Lib
