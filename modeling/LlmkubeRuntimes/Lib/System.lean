import Mathlib.Data.List.Basic

/-!
# Labelled systems and their runs

A `System` is a set of initial states and a step function on labels. A label
carries everything the outside decides (which actor moves, what a call
answers), so that a step is computable and a run is a list of labels.

* `Path S ok s as t`: the labels `as` lead from `s` to `t`, and every step
  meets `ok` in the state it is taken from;
* `Reach S ok t`: such a run from an initial state ends in `t`;
* `exec S ok s as`: the state such a run leads to, computed.

`Reach.inv` is the invariant rule: what holds initially and is kept by every
step that meets `ok` holds in every state reached.
-/

namespace LlmkubeRuntimes.Lib

/-- Initial states and a step for each label the state admits. -/
structure System (σ α : Type*) where
  init : σ → Prop
  step : σ → α → Option σ

namespace System

variable {σ α : Type*} (S : System σ α)

/-- Runs whose steps all meet `ok`. -/
inductive Path (ok : σ → α → Prop) : σ → List α → σ → Prop where
  | nil (s : σ) : Path ok s [] s
  | cons {s t u : σ} {a : α} {as : List α} : ok s a → S.step s a = some t → Path ok t as u →
      Path ok s (a :: as) u

/-- The states that runs whose steps all meet `ok` reach from an initial state. -/
def Reach (ok : σ → α → Prop) (t : σ) : Prop := ∃ s as, S.init s ∧ S.Path ok s as t

/-- No condition on the steps. -/
abbrev Any : σ → α → Prop := fun _ _ => True

/-- The state a list of labels leads to, if every step meets `ok`. -/
def exec (ok : σ → α → Prop) [∀ s a, Decidable (ok s a)] (s : σ) : List α → Option σ
  | [] => some s
  | a :: as => if ok s a then (S.step s a).bind fun t => exec ok t as else none

variable {S} {ok : σ → α → Prop}

theorem Path.append {s t u : σ} {as bs : List α} (h1 : S.Path ok s as t) (h2 : S.Path ok t bs u) :
    S.Path ok s (as ++ bs) u := by
  induction h1 with
  | nil => exact h2
  | cons ho hs _ ih => exact .cons ho hs (ih h2)

/-- What every step that meets `ok` keeps is kept by a run of such steps. -/
theorem Path.inv {I : σ → Prop} (hstep : ∀ s a t, I s → ok s a → S.step s a = some t → I t)
    {s t : σ} {as : List α} (h : S.Path ok s as t) (hI : I s) : I t := by
  induction h with
  | nil => exact hI
  | cons ho hs _ ih => exact ih (hstep _ _ _ hI ho hs)

theorem Reach.start {s : σ} (h : S.init s) : S.Reach ok s := ⟨s, [], h, .nil s⟩

theorem Reach.next {s t : σ} {a : α} (h : S.Reach ok s) (ho : ok s a) (hs : S.step s a = some t) :
    S.Reach ok t := by
  obtain ⟨s0, as, h0, hp⟩ := h
  exact ⟨s0, as ++ [a], h0, hp.append (.cons ho hs (.nil t))⟩

/-- **The invariant rule.** -/
theorem Reach.inv {I : σ → Prop} (hinit : ∀ s, S.init s → I s)
    (hstep : ∀ s a t, I s → ok s a → S.step s a = some t → I t) {t : σ} (h : S.Reach ok t) : I t := by
  obtain ⟨s0, as, h0, hp⟩ := h
  exact hp.inv hstep (hinit s0 h0)

theorem path_of_exec [∀ s a, Decidable (ok s a)] {s t : σ} {as : List α}
    (h : S.exec ok s as = some t) : S.Path ok s as t := by
  induction as generalizing s with
  | nil =>
    simp only [exec, Option.some.injEq] at h
    subst h
    exact .nil s
  | cons a as ih =>
    simp only [exec, Option.ite_none_right_eq_some, Option.bind_eq_some_iff] at h
    obtain ⟨ho, u, hs, hu⟩ := h
    exact .cons ho hs (ih hu)

theorem reach_of_exec [∀ s a, Decidable (ok s a)] {s t : σ} {as : List α} (h0 : S.init s)
    (h : S.exec ok s as = some t) : S.Reach ok t := ⟨s, as, h0, path_of_exec h⟩

/-- A run computed to a state where a check holds. -/
theorem reach_of_check (S : System σ α) (ok : σ → α → Prop) [∀ s a, Decidable (ok s a)] {s : σ}
    (as : List α) (p : σ → Bool) (h0 : S.init s) (h : (S.exec ok s as).any p = true) :
    ∃ t, S.Reach ok t ∧ p t = true := by
  obtain ⟨t, ht, hp⟩ := (Option.any_eq_true p _).1 h
  exact ⟨t, reach_of_exec h0 ht, hp⟩

end System

end LlmkubeRuntimes.Lib
