import Mathlib.Algebra.BigOperators.Group.List.Basic
import Mathlib.Tactic.Ring

/-!
# Tensors

A tensor is a shape and its element at every index; elements outside the shape
mean nothing.

* `ravel`, `unravel`: the place of an index in row-major order, and back;
* `reshape`, `permute`, `slice`, `cat`: the operations, as views of their operands;
* `get_reshape`: a reshaped tensor has at an index what the original has at the
  index of the same place;
* `get_catAll`: where the elements of tensors of one shape go when they are
  concatenated.
-/

namespace LlmkubeRuntimes.Lib

/-! ## Indices -/

/-- The index has the length of the shape and lies in it. -/
def InBounds : (shape idx : List Nat) → Prop
  | [], [] => True
  | d :: shape, i :: idx => i < d ∧ InBounds shape idx
  | _, _ => False

@[simp] theorem inBounds_nil : InBounds [] [] := trivial

@[simp] theorem inBounds_cons {d i : Nat} {shape idx : List Nat} :
    InBounds (d :: shape) (i :: idx) ↔ i < d ∧ InBounds shape idx := Iff.rfl

theorem inBounds_cons_iff {d : Nat} {shape idx : List Nat} :
    InBounds (d :: shape) idx ↔ ∃ i rest, idx = i :: rest ∧ i < d ∧ InBounds shape rest := by
  cases idx with
  | nil => exact ⟨fun h => h.elim, fun ⟨_, _, h, _⟩ => nomatch h⟩
  | cons i rest =>
    constructor
    · exact fun h => ⟨i, rest, rfl, h⟩
    · rintro ⟨_, _, h, hb⟩
      cases h
      exact hb

theorem inBounds_nil_iff {idx : List Nat} : InBounds [] idx ↔ idx = [] := by
  cases idx <;> simp [InBounds]

/-- The place of an index in row-major order. -/
def ravel : (shape idx : List Nat) → Nat
  | _ :: shape, i :: idx => i * shape.prod + ravel shape idx
  | _, _ => 0

/-- The index at a place. -/
def unravel : (shape : List Nat) → Nat → List Nat
  | [], _ => []
  | _ :: shape, n => n / shape.prod :: unravel shape (n % shape.prod)

theorem ravel_lt {shape idx : List Nat} (h : InBounds shape idx) : ravel shape idx < shape.prod := by
  induction shape generalizing idx with
  | nil => exact Nat.zero_lt_one
  | cons d shape ih =>
    obtain ⟨i, rest, rfl, hi, hrest⟩ := inBounds_cons_iff.1 h
    have hlt := ih hrest
    calc ravel (d :: shape) (i :: rest) = i * shape.prod + ravel shape rest := rfl
      _ < (i + 1) * shape.prod := by rw [Nat.succ_mul]; omega
      _ ≤ d * shape.prod := Nat.mul_le_mul_right _ hi
      _ = (d :: shape).prod := List.prod_cons.symm

/-- **The index at the place of an index is that index.** -/
theorem unravel_ravel {shape idx : List Nat} (h : InBounds shape idx) :
    unravel shape (ravel shape idx) = idx := by
  induction shape generalizing idx with
  | nil => exact (inBounds_nil_iff.1 h).symm
  | cons d shape ih =>
    obtain ⟨i, rest, rfl, -, hrest⟩ := inBounds_cons_iff.1 h
    have hlt := ravel_lt hrest
    have hpos : 0 < shape.prod := lt_of_le_of_lt (Nat.zero_le _) hlt
    rw [ravel, unravel, Nat.mul_comm, Nat.mul_add_div hpos, Nat.div_eq_of_lt hlt, Nat.add_zero,
      Nat.mul_add_mod, Nat.mod_eq_of_lt hlt, ih hrest]

/-- Every place below the size has an index in the shape. -/
theorem inBounds_unravel {shape : List Nat} {n : Nat} (h : n < shape.prod) :
    InBounds shape (unravel shape n) := by
  induction shape generalizing n with
  | nil => trivial
  | cons d shape ih =>
    rw [List.prod_cons] at h
    have hpos : 0 < shape.prod := Nat.pos_of_ne_zero fun h0 => by
      rw [h0, Nat.mul_zero] at h
      exact Nat.not_lt_zero n h
    exact ⟨Nat.div_lt_of_lt_mul (by rwa [Nat.mul_comm] at h), ih (Nat.mod_lt n hpos)⟩

theorem ravel_unravel {shape : List Nat} {n : Nat} (h : n < shape.prod) :
    ravel shape (unravel shape n) = n := by
  induction shape generalizing n with
  | nil =>
    rw [List.prod_nil] at h
    exact (Nat.lt_one_iff.1 h).symm
  | cons d shape ih =>
    rw [List.prod_cons] at h
    have hpos : 0 < shape.prod := Nat.pos_of_ne_zero fun h0 => by
      rw [h0, Nat.mul_zero] at h
      exact Nat.not_lt_zero n h
    rw [unravel, ravel, ih (Nat.mod_lt n hpos), Nat.mul_comm, Nat.div_add_mod]

theorem ravel_inj {shape idx idx' : List Nat} (h : InBounds shape idx) (h' : InBounds shape idx')
    (heq : ravel shape idx = ravel shape idx') : idx = idx' := by
  rw [← unravel_ravel h, heq, unravel_ravel h']

/-- An axis split in two keeps the place. -/
theorem ravel_split (a b i j : Nat) (shape idx : List Nat) :
    ravel (a :: b :: shape) (i :: j :: idx) = ravel (a * b :: shape) ((i * b + j) :: idx) := by
  simp only [ravel, List.prod_cons]
  ring

/-! ## Tensors -/

structure Tensor (α : Type) where
  shape : List Nat
  get : List Nat → α

namespace Tensor

variable {α : Type}

/-- The same shape and the same elements. -/
structure Same (t u : Tensor α) : Prop where
  shape : t.shape = u.shape
  get : ∀ idx, InBounds t.shape idx → t.get idx = u.get idx

/-- `t.reshape(shape)`, if the sizes agree. -/
def reshape (t : Tensor α) (shape : List Nat) : Option (Tensor α) :=
  if t.shape.prod = shape.prod then
    some ⟨shape, fun idx => t.get (unravel t.shape (ravel shape idx))⟩
  else none

/-- `t.permute(dims)`: axis `i` of the result is axis `dims[i]` of `t`. -/
def permute (t : Tensor α) (dims : List Nat) : Tensor α where
  shape := dims.map fun a => t.shape.getD a 0
  get idx := t.get ((List.range dims.length).map fun a => idx.getD (dims.idxOf a) 0)

/-- `t[:, ..., lo:hi, ...]` with the range at `axis`. -/
def slice (t : Tensor α) (axis lo hi : Nat) : Tensor α where
  shape := t.shape.modify axis fun d => min hi d - lo
  get idx := t.get (idx.modify axis (lo + ·))

/-- Two tensors, one after the other along the first axis. -/
def cat (t u : Tensor α) : Tensor α where
  shape := (t.shape.headD 0 + u.shape.headD 0) :: t.shape.tail
  get idx := if idx.headD 0 < t.shape.headD 0 then t.get idx
    else u.get ((idx.headD 0 - t.shape.headD 0) :: idx.tail)

/-- The tensors `0`, ..., `last`, one after the other along the first axis. -/
def catAll (parts : Nat → Tensor α) : (last : Nat) → Tensor α
  | 0 => parts 0
  | last + 1 => (catAll parts last).cat (parts (last + 1))

/-- **A reshaped tensor has at an index what the original has at the same place.** -/
theorem reshape_spec (t : Tensor α) (shape : List Nat) (h : t.shape.prod = shape.prod) :
    ∃ u, t.reshape shape = some u ∧ u.shape = shape ∧
      ∀ idx src, InBounds t.shape src → ravel shape idx = ravel t.shape src → u.get idx = t.get src := by
  refine ⟨_, if_pos h, rfl, fun idx src hsrc heq => ?_⟩
  show t.get (unravel t.shape (ravel shape idx)) = t.get src
  rw [heq, unravel_ravel hsrc]

theorem get_cat_left {t u : Tensor α} {d i : Nat} {shape idx : List Nat} (ht : t.shape = d :: shape)
    (hi : i < d) : (t.cat u).get (i :: idx) = t.get (i :: idx) :=
  if_pos (by rwa [ht, List.headD_cons, List.headD_cons])

theorem get_cat_right {t u : Tensor α} {d i : Nat} {shape idx : List Nat} (ht : t.shape = d :: shape)
    (hi : d ≤ i) : (t.cat u).get (i :: idx) = u.get ((i - d) :: idx) := by
  have hd : t.shape.headD 0 = d := by rw [ht, List.headD_cons]
  refine (if_neg ?_).trans ?_
  · rw [hd, List.headD_cons]
    exact Nat.not_lt.2 hi
  · rw [hd, List.headD_cons, List.tail_cons]

/-- **Where the elements of tensors of one shape are when they are concatenated.** -/
theorem catAll_spec (parts : Nat → Tensor α) (d last : Nat) (shape : List Nat)
    (h : ∀ i ≤ last, (parts i).shape = d :: shape) :
    (catAll parts last).shape = (last + 1) * d :: shape ∧
      ∀ i < (last + 1) * d, ∀ idx,
        (catAll parts last).get (i :: idx) = (parts (i / d)).get (i % d :: idx) := by
  induction last with
  | zero =>
    refine ⟨by rw [catAll, h 0 (le_refl 0), Nat.zero_add, Nat.one_mul], fun i hi idx => ?_⟩
    rw [Nat.zero_add, Nat.one_mul] at hi
    rw [catAll, Nat.div_eq_of_lt hi, Nat.mod_eq_of_lt hi]
  | succ last ih =>
    obtain ⟨hshape, hget⟩ := ih fun i hi => h i (Nat.le_succ_of_le hi)
    have hlast := h (last + 1) (le_refl _)
    refine ⟨?_, fun i hi idx => ?_⟩
    · rw [catAll, cat, hshape, hlast, List.headD_cons, List.headD_cons, List.tail_cons,
        Nat.succ_mul (last + 1)]
    · rcases Nat.lt_or_ge i ((last + 1) * d) with hlt | hge
      · rw [catAll, get_cat_left hshape hlt, hget i hlt idx]
      · rw [Nat.succ_mul (last + 1)] at hi
        have hd : 0 < d := by omega
        have hrest : i - (last + 1) * d < d := by omega
        have hsplit : d * (last + 1) + (i - (last + 1) * d) = i := by
          rw [Nat.mul_comm]
          omega
        have hdiv : i / d = last + 1 := by
          rw [← hsplit, Nat.mul_add_div hd, Nat.div_eq_of_lt hrest, Nat.add_zero]
        have hmod : i % d = i - (last + 1) * d := by
          rw [← hsplit, Nat.mul_add_mod, Nat.mod_eq_of_lt hrest, hsplit]
        rw [catAll, get_cat_right hshape hge, hdiv, hmod]

end Tensor

end LlmkubeRuntimes.Lib
