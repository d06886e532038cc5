import Mathlib.Data.List.Basic

/-!
# Steps that can fail

* `applyAll`: one step for each item of a list, up to the first failure;
* `applyAll_of_undoAll`: undoing a list of steps, last first, leads to a state
  from which the steps lead back;
* `applyAll_simulates`: a relation that every step keeps is kept by the list;
* `applyAll_lockstep`: two lists of steps that succeed side by side;
* `applyAll_range`: the rule for a counting loop whose steps all succeed;
* `attempts`: one step after the other, where a failed step changes nothing, and
  `attempts_simulates` for steps that answer alike in related states.
-/

namespace LlmkubeRuntimes.Lib

variable {ι σ τ ε : Type}

/-- The steps of all items, in order. -/
def applyAll (step : ι → σ → Except ε σ) : List ι → σ → Except ε σ
  | [], s => .ok s
  | i :: is, s =>
    match step i s with
    | .ok s' => applyAll step is s'
    | .error e => .error e

theorem applyAll_cons {step : ι → σ → Except ε σ} {i : ι} {is : List ι} {s t : σ} :
    applyAll step (i :: is) s = .ok t ↔ ∃ s', step i s = .ok s' ∧ applyAll step is s' = .ok t := by
  rw [applyAll]
  cases h : step i s with
  | ok s' => simp
  | error e => simp

theorem applyAll_append {step : ι → σ → Except ε σ} {is js : List ι} {s t : σ} :
    applyAll step (is ++ js) s = .ok t ↔
      ∃ s', applyAll step is s = .ok s' ∧ applyAll step js s' = .ok t := by
  induction is generalizing s with
  | nil => simp [applyAll]
  | cons i is ih =>
    simp only [List.cons_append, applyAll_cons, ih]
    constructor
    · rintro ⟨s₁, hi, s₂, his, hjs⟩
      exact ⟨s₂, ⟨s₁, hi, his⟩, hjs⟩
    · rintro ⟨s₂, ⟨s₁, hi, his⟩, hjs⟩
      exact ⟨s₁, hi, s₂, his, hjs⟩

/-- If `undo` of an item leads from `s` back to a state whose step leads to `s`, then so
does the reversed list. -/
theorem applyAll_of_undoAll {step undo : ι → σ → Except ε σ} {is : List ι}
    (hundo : ∀ i ∈ is, ∀ s s', undo i s = .ok s' → step i s' = .ok s) {s t : σ}
    (h : applyAll undo is.reverse s = .ok t) : applyAll step is t = .ok s := by
  induction is generalizing t with
  | nil =>
    cases h
    rfl
  | cons i is ih =>
    rw [List.reverse_cons, applyAll_append] at h
    obtain ⟨s', hrest, hlast⟩ := h
    obtain ⟨t', hi, hnil⟩ := applyAll_cons.1 hlast
    cases hnil
    have hback := ih (fun j hj => hundo j (List.mem_cons_of_mem i hj)) hrest
    exact applyAll_cons.2 ⟨s', hundo i List.mem_cons_self _ _ hi, hback⟩

/-- Steps that can be followed one by one can be followed as a list. -/
theorem applyAll_simulates {step : ι → σ → Except ε σ} {step' : ι → τ → Except ε τ} {is : List ι}
    {r : σ → τ → Prop}
    (hstep : ∀ i ∈ is, ∀ s t s', r s t → step i s = .ok s' → ∃ t', step' i t = .ok t' ∧ r s' t')
    {s s' : σ} {t : τ} (hr : r s t) (h : applyAll step is s = .ok s') :
    ∃ t', applyAll step' is t = .ok t' ∧ r s' t' := by
  induction is generalizing s t with
  | nil =>
    cases h
    exact ⟨t, rfl, hr⟩
  | cons i is ih =>
    obtain ⟨s₁, hi, his⟩ := applyAll_cons.1 h
    obtain ⟨t₁, hi', hr₁⟩ := hstep i List.mem_cons_self s t s₁ hr hi
    obtain ⟨t', his', hr'⟩ := ih (fun j hj => hstep j (List.mem_cons_of_mem i hj)) hr₁ his
    exact ⟨t', applyAll_cons.2 ⟨t₁, hi', his'⟩, hr'⟩

/-- Steps that succeed side by side in related states do so as a list. -/
theorem applyAll_lockstep (step : ι → σ → Except ε σ) (step' : ι → τ → Except ε τ) (is : List ι)
    {r : σ → τ → Prop}
    (hstep : ∀ i ∈ is, ∀ s t, r s t → ∃ s' t', step i s = .ok s' ∧ step' i t = .ok t' ∧ r s' t')
    {s : σ} {t : τ} (hr : r s t) :
    ∃ s' t', applyAll step is s = .ok s' ∧ applyAll step' is t = .ok t' ∧ r s' t' := by
  induction is generalizing s t with
  | nil => exact ⟨s, t, rfl, rfl, hr⟩
  | cons i is ih =>
    obtain ⟨s₁, t₁, hi, hi', hr₁⟩ := hstep i List.mem_cons_self s t hr
    obtain ⟨s₂, t₂, his, his', hr₂⟩ := ih (fun j hj => hstep j (List.mem_cons_of_mem i hj)) hr₁
    exact ⟨s₂, t₂, applyAll_cons.2 ⟨s₁, hi, his⟩, applyAll_cons.2 ⟨t₁, hi', his'⟩, hr₂⟩

/-- A counting loop whose every step succeeds and carries the invariant one further. -/
theorem applyAll_range (step : Nat → σ → Except ε σ) (n : Nat) (s : σ) (I : Nat → σ → Prop)
    (h0 : I 0 s) (hstep : ∀ i < n, ∀ s, I i s → ∃ s', step i s = .ok s' ∧ I (i + 1) s') :
    ∃ s', applyAll step (List.range n) s = .ok s' ∧ I n s' := by
  induction n with
  | zero => exact ⟨s, rfl, h0⟩
  | succ n ih =>
    obtain ⟨s₁, hrun, hI⟩ := ih fun i hi => hstep i (Nat.lt_succ_of_lt hi)
    obtain ⟨s₂, hlast, hI'⟩ := hstep n (Nat.lt_succ_self n) s₁ hI
    refine ⟨s₂, ?_, hI'⟩
    rw [List.range_succ, applyAll_append]
    exact ⟨s₁, hrun, applyAll_cons.2 ⟨s₂, hlast, rfl⟩⟩

section Attempts

variable {ρ ρ' : Type}

/-- What the steps answer or raise, and the state they leave. -/
def attempts (step : ι → σ → Except ε (ρ × σ)) : List ι → σ → List (Except ε ρ) × σ
  | [], s => ([], s)
  | i :: is, s =>
    match step i s with
    | .ok (r, s') => (.ok r :: (attempts step is s').1, (attempts step is s').2)
    | .error e => (.error e :: (attempts step is s).1, (attempts step is s).2)

/-- Every step meets `ok` in the state it is taken from. -/
def Throughout (step : ι → σ → Except ε (ρ × σ)) (ok : ι → σ → Prop) : List ι → σ → Prop
  | [], _ => True
  | i :: is, s =>
    ok i s ∧
      match step i s with
      | .ok (_, s') => Throughout step ok is s'
      | .error _ => Throughout step ok is s

/-- Steps that answer alike in related states do so one after the other. -/
theorem attempts_simulates (step : ι → σ → Except ε (ρ × σ)) (step' : ι → τ → Except ε (ρ' × τ))
    (f : ρ' → ρ) {ok : ι → τ → Prop} {r : σ → τ → Prop}
    (hstep : ∀ i s t, r s t → ok i t →
      (∃ out s' t', step i s = .ok (f out, s') ∧ step' i t = .ok (out, t') ∧ r s' t') ∨
        ∃ e, step i s = .error e ∧ step' i t = .error e)
    (is : List ι) {s : σ} {t : τ} (hr : r s t) (hok : Throughout step' ok is t) :
    (attempts step is s).1 = (attempts step' is t).1.map (Except.map f) ∧
      r (attempts step is s).2 (attempts step' is t).2 := by
  induction is generalizing s t with
  | nil => exact ⟨rfl, hr⟩
  | cons i is ih =>
    obtain ⟨hi, hrest⟩ := hok
    rcases hstep i s t hr hi with ⟨out, s', t', hs, ht, hr'⟩ | ⟨e, hs, ht⟩
    · simp only [ht] at hrest
      obtain ⟨hout, hlast⟩ := ih hr' hrest
      simp only [attempts, hs, ht]
      exact ⟨by rw [hout]; rfl, hlast⟩
    · simp only [ht] at hrest
      obtain ⟨hout, hlast⟩ := ih hr hrest
      simp only [attempts, hs, ht]
      exact ⟨by rw [hout]; rfl, hlast⟩

end Attempts

end LlmkubeRuntimes.Lib
