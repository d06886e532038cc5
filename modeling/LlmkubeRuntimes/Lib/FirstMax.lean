import Mathlib.Algebra.Order.Group.Nat
import Mathlib.Data.List.Forall2

/-!
# The first of the largest

Lanes are values with an index, the values of any preorder.

* `Beats p q`: `p` is at least as large as `q`, and not behind it if they tie;
* `IsFirstMax lanes r`: `r` is the first of the largest lanes;
* `IsFirstMax.index_eq`: its index is determined;
* `IsFirstMax.flatten`: the first maximum of the first maxima of blocks is that of
  all lanes, wherever the blocks are cut;
* `IsFirstMax.of_padded`: lanes that some lane is ahead of do not count;
* `scanMax`: a scan that keeps the first maximum.
-/

namespace LlmkubeRuntimes.Lib

variable {V : Type} [Preorder V]

/-- `p` is at least as large as `q`, and not behind it where `q` is as large. -/
def Beats (p q : V × Nat) : Prop := q.1 ≤ p.1 ∧ (p.1 ≤ q.1 → p.2 ≤ q.2)

theorem Beats.trans {p q s : V × Nat} (h : Beats p q) (h' : Beats q s) : Beats p s := by
  refine ⟨le_trans h'.1 h.1, fun hps => ?_⟩
  have hpq : p.2 ≤ q.2 := h.2 (le_trans hps h'.1)
  have hqs : q.2 ≤ s.2 := h'.2 (le_trans h.1 hps)
  exact Nat.le_trans hpq hqs

/-- Every item of the one list has its partner in the other. -/
theorem forall₂_exists_left {α β : Type} {R : α → β → Prop} {xs : List α} {ys : List β}
    (h : List.Forall₂ R xs ys) {x : α} (hx : x ∈ xs) : ∃ y ∈ ys, R x y := by
  induction h with
  | nil => exact absurd hx List.not_mem_nil
  | cons hhead htail ih =>
    rcases List.mem_cons.1 hx with rfl | hx
    · exact ⟨_, List.mem_cons_self, hhead⟩
    · obtain ⟨y, hy, hxy⟩ := ih hx
      exact ⟨y, List.mem_cons_of_mem _ hy, hxy⟩

/-- The first of the largest lanes. -/
structure IsFirstMax (lanes : List (V × Nat)) (r : V × Nat) : Prop where
  mem : r ∈ lanes
  beats : ∀ x ∈ lanes, Beats r x

namespace IsFirstMax

variable {lanes pads : List (V × Nat)} {r r' : V × Nat}

theorem ne_nil (h : IsFirstMax lanes r) : lanes ≠ [] := List.ne_nil_of_mem h.mem

theorem index_eq (h : IsFirstMax lanes r) (h' : IsFirstMax lanes r') : r.2 = r'.2 := by
  have hr := h.beats r' h'.mem
  have hr' := h'.beats r h.mem
  exact Nat.le_antisymm (hr.2 hr'.1) (hr'.2 hr.1)

/-- **Blocks may be reduced on their own.** -/
theorem flatten {blocks : List (List (V × Nat))} {maxima : List (V × Nat)}
    (hblocks : List.Forall₂ IsFirstMax blocks maxima) (h : IsFirstMax maxima r) :
    IsFirstMax blocks.flatten r := by
  constructor
  · obtain ⟨block, hblock, hmax⟩ := forall₂_exists_left hblocks.flip h.mem
    exact List.mem_flatten.2 ⟨block, hblock, hmax.mem⟩
  · intro x hx
    obtain ⟨block, hblock, hx⟩ := List.mem_flatten.1 hx
    obtain ⟨m, hm, hmax⟩ := forall₂_exists_left hblocks hblock
    exact (h.beats m hm).trans (hmax.beats x hx)

/-- Padding lanes that are behind some lane leave the first maximum among the lanes. -/
theorem of_padded (h : IsFirstMax (lanes ++ pads) r) (hpads : ∀ p ∈ pads, ∃ x ∈ lanes, ¬ Beats p x) :
    IsFirstMax lanes r := by
  refine ⟨?_, fun x hx => h.beats x (List.mem_append_left pads hx)⟩
  rcases List.mem_append.1 h.mem with hmem | hmem
  · exact hmem
  · obtain ⟨x, hx, hnot⟩ := hpads r hmem
    exact absurd (h.beats x (List.mem_append_left pads hx)) hnot

/-- Moving every index on moves the first maximum's. -/
theorem shift (k : Nat) (h : IsFirstMax lanes r) :
    IsFirstMax (lanes.map fun x => (x.1, x.2 + k)) (r.1, r.2 + k) := by
  refine ⟨List.mem_map.2 ⟨r, h.mem, rfl⟩, fun y hy => ?_⟩
  obtain ⟨x, hx, rfl⟩ := List.mem_map.1 hy
  have hbeats := h.beats x hx
  exact ⟨hbeats.1, fun hle => Nat.add_le_add_right (hbeats.2 hle) k⟩

end IsFirstMax

/-! ## A scan -/

section Scan

variable {V : Type} [LinearOrder V]

/-- The first of the largest of `p` and the lanes, one lane after the other. -/
def scanMax : V × Nat → List (V × Nat) → V × Nat
  | p, [] => p
  | p, q :: lanes => scanMax (if p.1 < q.1 ∨ p.1 = q.1 ∧ q.2 < p.2 then q else p) lanes

theorem scanMax_first (p : V × Nat) (lanes : List (V × Nat)) :
    IsFirstMax (p :: lanes) (scanMax p lanes) := by
  induction lanes generalizing p with
  | nil => exact ⟨List.mem_cons_self, fun x hx => by
      rw [List.mem_singleton.1 hx]
      exact ⟨le_rfl, fun _ => Nat.le_refl _⟩⟩
  | cons q lanes ih =>
    rw [scanMax]
    split
    · next hq =>
      have hbeats : Beats q p := by
        rcases hq with hlt | ⟨heq, hlt⟩
        · exact ⟨le_of_lt hlt, fun hle => absurd hle (not_le.2 hlt)⟩
        · exact ⟨le_of_eq heq, fun _ => Nat.le_of_lt hlt⟩
      refine ⟨List.mem_cons_of_mem _ (ih q).mem, fun x hx => ?_⟩
      rcases List.mem_cons.1 hx with rfl | hx
      · exact ((ih q).beats q List.mem_cons_self).trans hbeats
      · exact (ih q).beats x hx
    · next hp =>
      have hbeats : Beats p q := by
        rw [not_or, not_lt] at hp
        exact ⟨hp.1, fun hle => Nat.not_lt.1 fun hlt => hp.2 ⟨le_antisymm hle hp.1, hlt⟩⟩
      refine ⟨?_, fun x hx => ?_⟩
      · rcases List.mem_cons.1 (ih p).mem with heq | hmem
        · rw [heq]
          exact List.mem_cons_self
        · exact List.mem_cons_of_mem _ (List.mem_cons_of_mem _ hmem)
      · rcases List.mem_cons.1 hx with rfl | hx
        · exact (ih x).beats x List.mem_cons_self
        · rcases List.mem_cons.1 hx with rfl | hx
          · exact ((ih p).beats p List.mem_cons_self).trans hbeats
          · exact (ih p).beats x (List.mem_cons_of_mem _ hx)

theorem scanMax_first_of_ne_nil (default : V × Nat) {lanes : List (V × Nat)} (h : lanes ≠ []) :
    IsFirstMax lanes (scanMax (lanes.headD default) lanes.tail) := by
  cases lanes with
  | nil => exact absurd rfl h
  | cons p lanes => exact scanMax_first p lanes

end Scan

end LlmkubeRuntimes.Lib
