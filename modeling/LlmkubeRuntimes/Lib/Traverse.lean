import Mathlib.Data.List.Forall2

/-!
# Lists traversed by a function that may fail

`List.mapM` in `Option` and in `Except`.

* `mapM_eq_some`, `mapM_if`: what a traversal in `Option` returns;
* `mapM_ok`, `mapM_error`: a traversal in `Except` where nothing fails, and where something
  does;
* `bind_eq_ok`: two steps in `Except` that succeed;
* `exists_forall₂`: a list of choices, one for each element.
-/

namespace LlmkubeRuntimes.Lib

section Option

variable {α β : Type*} {f : α → Option β} {xs : List α} {ys : List β}

theorem mapM_eq_some : xs.mapM f = some ys ↔ xs.map f = ys.map some := by
  induction xs generalizing ys with
  | nil => cases ys <;> simp
  | cons x xs ih =>
    rw [List.mapM_cons]
    cases hx : f x with
    | none => cases ys <;> simp [hx]
    | some y =>
      cases ys with
      | nil => cases xs.mapM f <;> simp
      | cons z zs =>
        have htail := @ih zs
        cases hxs : xs.mapM f <;> simp_all

theorem length_of_mapM (h : xs.mapM f = some ys) : ys.length = xs.length := by
  simpa using (congrArg List.length (mapM_eq_some.1 h)).symm

theorem mem_of_mapM (h : xs.mapM f = some ys) {x : α} (hx : x ∈ xs) : ∃ y ∈ ys, f x = some y := by
  have hmem : f x ∈ ys.map some := mapM_eq_some.1 h ▸ List.mem_map_of_mem hx
  obtain ⟨y, hy, heq⟩ := List.mem_map.1 hmem
  exact ⟨y, hy, heq.symm⟩

theorem isSome_mapM : (xs.mapM f).isSome ↔ ∀ x ∈ xs, (f x).isSome := by
  induction xs with
  | nil => simp
  | cons x xs ih =>
    rw [List.mapM_cons, List.forall_mem_cons, ← ih]
    cases f x <;> cases xs.mapM f <;> simp

/-- A traversal that fails at the first bad element, as a test of the whole list. -/
theorem mapM_if (p : α → Prop) [DecidablePred p] (f : α → β) (xs : List α) :
    (xs.mapM fun x => if p x then some (f x) else none) =
      if ∀ x ∈ xs, p x then some (xs.map f) else none := by
  split
  · rename_i hall
    rw [mapM_eq_some, List.map_map]
    exact List.map_congr_left fun x hx => if_pos (hall x hx)
  · rename_i hall
    rw [← Option.not_isSome_iff_eq_none, isSome_mapM]
    intro hsome
    refine hall fun x hx => ?_
    have hx := hsome x hx
    split at hx
    · assumption
    · cases hx

end Option

section Except

variable {ε α β : Type}

theorem bind_eq_ok {x : Except ε α} {f : α → Except ε β} {b : β} :
    x >>= f = .ok b ↔ ∃ a, x = .ok a ∧ f a = .ok b := by
  cases x with
  | error error => simp [bind, Except.bind]
  | ok a => simp [bind, Except.bind]

variable {f : α → Except ε β} {xs : List α}

/-- A loop over items none of which fails. -/
theorem mapM_ok {g : α → β} (h : ∀ x ∈ xs, f x = .ok (g x)) : xs.mapM f = .ok (xs.map g) := by
  induction xs with
  | nil => rfl
  | cons x xs ih =>
    rw [List.forall_mem_cons] at h
    rw [List.mapM_cons, h.1, ih h.2]
    rfl

/-- A loop over items one of which fails. -/
theorem mapM_error {x : α} (hx : x ∈ xs) (h : ∃ e, f x = .error e) :
    ∃ e, xs.mapM f = .error e := by
  induction xs with
  | nil => cases hx
  | cons y ys ih =>
    rw [List.mapM_cons]
    cases hy : f y with
    | error e => exact ⟨e, rfl⟩
    | ok z =>
      rcases List.mem_cons.1 hx with rfl | hx
      · obtain ⟨e, he⟩ := h
        rw [he] at hy
        cases hy
      · obtain ⟨e, he⟩ := ih hx
        exact ⟨e, by rw [he]; rfl⟩

end Except

theorem exists_forall₂ {α β : Type*} {R : α → β → Prop} {xs : List α} (h : ∀ x ∈ xs, ∃ y, R x y) :
    ∃ ys, List.Forall₂ R xs ys := by
  induction xs with
  | nil => exact ⟨[], .nil⟩
  | cons x xs ih =>
    obtain ⟨⟨y, hy⟩, hxs⟩ := List.forall_mem_cons.1 h
    obtain ⟨ys, hys⟩ := ih hxs
    exact ⟨y :: ys, .cons hy hys⟩

end LlmkubeRuntimes.Lib
