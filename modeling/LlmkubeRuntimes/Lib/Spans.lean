import Mathlib.Data.List.Basic
import Mathlib.Algebra.Order.Group.Nat

/-!
# Consecutive spans

* `Span`, `Consecutive`: ranges of positions, each beginning where the one before
  ends;
* `Consecutive.bounds`, `pairwise`, `covers`: they lie between the first start and
  the last end, are disjoint and leave nothing out;
* `share`, `consecutive_shares`: a total divided among `n` takers, the first ones
  taking one more.
-/

namespace LlmkubeRuntimes.Lib

/-- The positions from `start`, `len` of them. -/
structure Span where
  start : Nat
  len : Nat
  deriving DecidableEq, Repr

namespace Span

def stop (s : Span) : Nat := s.start + s.len

instance : Membership Nat Span := ⟨fun s i => s.start ≤ i ∧ i < s.stop⟩

theorem mem_def {i : Nat} {s : Span} : i ∈ s ↔ s.start ≤ i ∧ i < s.stop := Iff.rfl

/-- No position is in both. -/
def Disjoint (s t : Span) : Prop := ∀ i, i ∈ s → i ∉ t

/-- The span with every position made `m` of them. -/
def scale (m : Nat) (s : Span) : Span := ⟨m * s.start, m * s.len⟩

theorem disjoint_of_le {s t : Span} (h : s.stop ≤ t.start) : s.Disjoint t := by
  intro i hs ht
  rw [mem_def] at hs ht
  omega

end Span

/-- The spans go from `start` to `stop` without a gap or an overlap. -/
inductive Consecutive : Nat → List Span → Nat → Prop where
  | nil (start : Nat) : Consecutive start [] start
  | cons {s : Span} {spans : List Span} {stop : Nat} (rest : Consecutive s.stop spans stop) :
      Consecutive s.start (s :: spans) stop

namespace Consecutive

variable {start stop : Nat} {spans : List Span}

theorem le (h : Consecutive start spans stop) : start ≤ stop := by
  induction h with
  | nil start => exact le_rfl
  | cons rest ih => exact le_trans (Nat.le_add_right _ _) ih

/-- The spans lie between the ends. -/
theorem bounds (h : Consecutive start spans stop) :
    ∀ s ∈ spans, start ≤ s.start ∧ s.stop ≤ stop := by
  induction h with
  | nil start => exact fun s hs => absurd hs List.not_mem_nil
  | @cons t spans stop rest ih =>
    intro s hs
    rcases List.mem_cons.1 hs with rfl | hs
    · exact ⟨le_rfl, rest.le⟩
    · exact ⟨le_trans (Nat.le_add_right _ _) (ih s hs).1, (ih s hs).2⟩

/-- No two of them overlap. -/
theorem pairwise (h : Consecutive start spans stop) : spans.Pairwise Span.Disjoint := by
  induction h with
  | nil start => exact List.Pairwise.nil
  | cons rest ih =>
    exact List.Pairwise.cons (fun t ht => Span.disjoint_of_le (rest.bounds t ht).1) ih

/-- **They cover exactly what lies between the ends.** -/
theorem covers (h : Consecutive start spans stop) (i : Nat) :
    (∃ s ∈ spans, i ∈ s) ↔ start ≤ i ∧ i < stop := by
  induction h with
  | nil start => simp
  | @cons t spans stop rest ih =>
    have hle := rest.le
    rw [List.exists_mem_cons_iff, ih, Span.mem_def]
    unfold Span.stop at hle ⊢
    omega

theorem concat (h : Consecutive start spans stop) {next : Nat} (hle : stop ≤ next) :
    Consecutive start (spans ++ [⟨stop, next - stop⟩]) next := by
  induction h with
  | nil start =>
    have hlast := Consecutive.nil (Span.stop ⟨start, next - start⟩)
    rw [show Span.stop ⟨start, next - start⟩ = next from Nat.add_sub_cancel' hle] at hlast
    refine .cons (s := ⟨start, next - start⟩) ?_
    rwa [show Span.stop ⟨start, next - start⟩ = next from Nat.add_sub_cancel' hle]
  | cons rest ih => exact .cons (ih hle)

theorem scale (m : Nat) (h : Consecutive start spans stop) :
    Consecutive (m * start) (spans.map (Span.scale m)) (m * stop) := by
  induction h with
  | nil start => exact .nil _
  | @cons t spans stop rest ih =>
    refine .cons (s := t.scale m) ?_
    rw [Span.stop, Nat.mul_add] at ih
    exact ih

end Consecutive

/-! ## Equal shares -/

/-- What taker `k` of `n` gets of `total`. -/
def share (total n k : Nat) : Nat := total / n + if k < total % n then 1 else 0

/-- What the takers before `k` get. -/
def sharesBefore (total n k : Nat) : Nat := k * (total / n) + min k (total % n)

/-- The share of taker `k`, after the shares of those before. -/
def shareSpan (total n k : Nat) : Span := ⟨sharesBefore total n k, share total n k⟩

theorem sharesBefore_succ (total n k : Nat) :
    sharesBefore total n (k + 1) = sharesBefore total n k + share total n k := by
  unfold sharesBefore share
  rw [Nat.succ_mul]
  split <;> omega

theorem sharesBefore_all (total : Nat) {n : Nat} (hn : 0 < n) : sharesBefore total n n = total := by
  have hmod := Nat.mod_lt total hn
  rw [sharesBefore, Nat.min_eq_right (Nat.le_of_lt hmod), Nat.div_add_mod]

theorem sharesBefore_le (total : Nat) {n k : Nat} (hk : k ≤ n) :
    sharesBefore total n k ≤ total := by
  have hmul : k * (total / n) ≤ n * (total / n) := Nat.mul_le_mul_right _ hk
  have hdiv := Nat.div_add_mod total n
  unfold sharesBefore
  omega

/-- **The shares follow each other.** -/
theorem consecutive_shares (total n k count : Nat) :
    Consecutive (sharesBefore total n k) ((List.range' k count).map (shareSpan total n))
      (sharesBefore total n (k + count)) := by
  induction count generalizing k with
  | zero => exact .nil _
  | succ count ih =>
    rw [List.range'_succ, List.map_cons]
    refine .cons (s := shareSpan total n k) ?_
    have hrest := ih (k + 1)
    rw [sharesBefore_succ, Nat.add_right_comm] at hrest
    exact hrest

/-- All shares together are the total. -/
theorem consecutive_all_shares (total : Nat) {n : Nat} (hn : 0 < n) :
    Consecutive 0 ((List.range' 0 n).map (shareSpan total n)) total := by
  have h := consecutive_shares total n 0 n
  rwa [Nat.zero_add, sharesBefore_all total hn, sharesBefore, Nat.zero_mul, Nat.zero_min] at h

end LlmkubeRuntimes.Lib
