import Mathlib.Algebra.Order.Floor.Div
import LlmkubeRuntimes.Lib.Shards

/-!
# Rows of a sequence-parallel prefill

* `SPRows`: the rows of one forward of `num_tokens` tokens on one rank;
* `gatherRows`, `reduceScatterRows`, `localSlices`: the collectives of the group
  and the slices of full rows, with the shape checks that raise;
* `resolveMinRows`, `planRows`: which forwards run sequence-parallel;
* `planRows_resolveMinRows`: exactly those longer than every decode forward whose
  padded message the one-shot all-reduce refuses;
* `rows_partition`: the ranks' real rows are all rows, once and in order;
* `gather_reduceScatter`: a reduce-scatter and a gather are an all-reduce.

`a ⌈/⌉ b` is the source's `-(-a // b)`.
-/

namespace LlmkubeRuntimes.Prefill

open LlmkubeRuntimes.Lib

/-- What the checks of the row layout raise, with the rows expected and got. -/
inductive RowError where
  | rank (rank world : Nat)
  | gather (expected got : Nat)
  | reduceScatter (expected got : Nat)
  | slice (expected got : Nat)
  | wo (expected got : Nat)
  | embedding (rows paddedRows tpSize : Nat)
  | reducedMoE
  deriving DecidableEq, Repr

/-- Row layout of one sequence-parallel forward on one TP rank. -/
structure SPRows where
  numTokens : Nat
  worldSize : Nat
  rank : Nat
  deriving DecidableEq, Repr

namespace SPRows

/-- Rows seen by collectives. -/
def paddedRows (s : SPRows) : Nat := s.numTokens ⌈/⌉ s.worldSize * s.worldSize

/-- Rows the rank owns between collectives. -/
def localRows (s : SPRows) : Nat := s.paddedRows / s.worldSize

/-- First padded row the rank owns. -/
def start (s : SPRows) : Nat := s.rank * s.localRows

/-- Leading local rows that are real tokens; subtraction stops at zero, the source's
`max(0, …)`. -/
def realRows (s : SPRows) : Nat := min s.localRows (s.numTokens - s.start)

variable {α : Type} [Zero α]

/-- A buffer of the padded rows: `rows` written into it, zeros behind. -/
def padded (s : SPRows) (rows : List α) : List α := padTo s.paddedRows rows

/-- The rank's rows of full rows, zeros behind. -/
def slice (s : SPRows) (x : List α) : List α :=
  let rows := (x.drop s.start).take s.realRows
  if s.realRows = s.localRows then rows
  else rows ++ List.replicate (s.localRows - s.realRows) 0

end SPRows

/-! ## Collectives of the group -/

/-- The check every rank makes of what it brings; the first rank that fails raises. -/
def expectRows {n : Nat} {α : Type} (raise : Nat → RowError) (rows : Nat) (x : Fin n → List α) :
    Except RowError Unit :=
  match (List.ofFn fun r => (x r).length).find? (· ≠ rows) with
  | some got => .error (raise got)
  | none => .ok ()

section Collectives

variable {n : Nat} {α : Type}

/-- `SPRows.gather` on every rank. -/
def gatherRows (T : Nat) (x : Fin n → List α) : Except RowError (Fin n → List α) := do
  let rows := SPRows.localRows ⟨T, n, 0⟩
  expectRows (.gather rows) rows x
  return fun _ => (allGather x).take T

/-- `SPRows.reduce_scatter` on every rank; `sum` is the group's sum of one row. -/
def reduceScatterRows [Zero α] (sum : (Fin n → α) → α) (T : Nat) (x : Fin n → List α) :
    Except RowError (Fin n → List α) := do
  let rows := SPRows.paddedRows ⟨T, n, 0⟩
  expectRows (.reduceScatter rows) rows x
  return reduceScatter sum rows x

/-- `SPRows.local_slice` on every rank. -/
def localSlices [Zero α] (T : Nat) (x : List α) : Except RowError (Fin n → List α) :=
  if x.length ≠ T then .error (.slice T x.length) else .ok fun r => SPRows.slice ⟨T, n, r⟩ x

theorem expectRows_ok {raise : Nat → RowError} {rows : Nat} {x : Fin n → List α}
    (h : ∀ r, (x r).length = rows) : expectRows raise rows x = .ok () := by
  have hnone : (List.ofFn fun r => (x r).length).find? (· ≠ rows) = none := by
    rw [List.find?_eq_none]
    intro got hgot
    obtain ⟨r, rfl⟩ := (List.mem_ofFn' _ _).1 hgot
    simp [h r]
  rw [expectRows, hnone]

end Collectives

/-! ## The layout of one forward -/

section Layout

variable {T n r : Nat}

theorem le_paddedRows (hn : 0 < n) : T ≤ SPRows.paddedRows ⟨T, n, r⟩ := by
  rw [SPRows.paddedRows, Nat.mul_comm]
  exact le_smul_ceilDiv hn

theorem localRows_eq (hn : 0 < n) : SPRows.localRows ⟨T, n, r⟩ = T ⌈/⌉ n := by
  rw [SPRows.localRows, SPRows.paddedRows, Nat.mul_div_cancel _ hn]

theorem paddedRows_eq (hn : 0 < n) :
    SPRows.paddedRows ⟨T, n, r⟩ = n * SPRows.localRows ⟨T, n, r⟩ := by
  rw [localRows_eq hn, SPRows.paddedRows, Nat.mul_comm]

theorem le_world_mul_localRows (hn : 0 < n) : T ≤ n * SPRows.localRows ⟨T, n, r⟩ := by
  rw [← paddedRows_eq hn]
  exact le_paddedRows hn

/-- Less than one row of padding a rank. -/
theorem paddedRows_lt (hn : 0 < n) : SPRows.paddedRows ⟨T, n, r⟩ < T + n := by
  have hle : T ⌈/⌉ n * n ≤ T + n - 1 := by
    rw [Nat.ceilDiv_eq_add_pred_div]
    exact Nat.div_mul_le_self _ _
  simp only [SPRows.paddedRows]
  omega

theorem start_eq : SPRows.start ⟨T, n, r⟩ = r * SPRows.localRows ⟨T, n, 0⟩ := rfl

theorem realRows_le : SPRows.realRows ⟨T, n, r⟩ ≤ SPRows.localRows ⟨T, n, r⟩ :=
  Nat.min_le_left _ _

theorem realRows_eq :
    SPRows.realRows ⟨T, n, r⟩ =
      min (SPRows.localRows ⟨T, n, 0⟩) (T - r * SPRows.localRows ⟨T, n, 0⟩) := rfl

end Layout

/-- The real rows of rank `r` of `n`. -/
def rankRows (T n r : Nat) : List Nat :=
  List.range' (SPRows.start ⟨T, n, r⟩) (SPRows.realRows ⟨T, n, r⟩)

theorem rankRows_append (L T k : Nat) :
    List.range (min (k * L) T) ++ List.range' (k * L) (min L (T - k * L)) =
      List.range (min ((k + 1) * L) T) := by
  rw [Nat.succ_mul]
  rcases Nat.le_total (k * L) T with h | h
  · have happend := List.range'_append_1 (s := 0) (m := k * L) (n := min L (T - k * L))
    rw [Nat.zero_add] at happend
    rw [Nat.min_eq_left h, List.range_eq_range', List.range_eq_range', happend]
    congr 1
    omega
  · rw [Nat.min_eq_right h, Nat.sub_eq_zero_of_le h, Nat.min_zero, List.range'_zero,
      List.append_nil, Nat.min_eq_right (le_trans h (Nat.le_add_right _ _))]

theorem rows_of_first_ranks (T n k : Nat) :
    ((List.range k).map (rankRows T n)).flatten =
      List.range (min (k * SPRows.localRows ⟨T, n, 0⟩) T) := by
  induction k with
  | zero => simp
  | succ k ih =>
    rw [List.range_succ, List.map_append, List.flatten_append, ih, List.map_singleton,
      List.flatten_singleton, rankRows, start_eq, realRows_eq]
    exact rankRows_append _ T k

/-- **The ranks' real rows, one rank after the other, are all rows**, there is less than one
row of padding a rank, and behind a rank with padding no rank has a real row. -/
theorem rows_partition (T : Nat) {n : Nat} (hn : 0 < n) :
    ((List.range n).map (rankRows T n)).flatten = List.range T ∧
      SPRows.paddedRows ⟨T, n, 0⟩ < T + n ∧
      ∀ r s, r < s → SPRows.realRows ⟨T, n, r⟩ < SPRows.localRows ⟨T, n, r⟩ →
        SPRows.realRows ⟨T, n, s⟩ = 0 := by
  refine ⟨?_, paddedRows_lt hn, fun r s hrs hpad => ?_⟩
  · rw [rows_of_first_ranks, Nat.min_eq_right (le_world_mul_localRows hn)]
  · have hend : (r + 1) * SPRows.localRows ⟨T, n, 0⟩ ≤ s * SPRows.localRows ⟨T, n, 0⟩ :=
      Nat.mul_le_mul_right _ hrs
    have hlocal : SPRows.localRows ⟨T, n, r⟩ = SPRows.localRows ⟨T, n, 0⟩ := rfl
    rw [realRows_eq, hlocal] at hpad
    rw [realRows_eq]
    rw [Nat.succ_mul] at hend
    omega

/-- Three ranks and four tokens: one of the padded rows is padding, the last rank's rows all
are. -/
theorem rows_partition_four :
    ((List.range 3).map (rankRows 4 3)).flatten = List.range 4 ∧
      SPRows.paddedRows ⟨4, 3, 0⟩ < 4 + 3 ∧
      ∀ r s, r < s → SPRows.realRows ⟨4, 3, r⟩ < SPRows.localRows ⟨4, 3, r⟩ →
        SPRows.realRows ⟨4, 3, s⟩ = 0 := rows_partition 4 (by decide)

/-! ## Between full rows and the ranks' rows -/

section RoundTrip

variable {n T : Nat} {α : Type}

/-- The ranks' rows are gathered to the full rows. -/
theorem gatherRows_of_shards {full : List α} {loc : Fin n → List α}
    (h : Shards (SPRows.localRows ⟨T, n, 0⟩) full loc) (hT : full.length = T) :
    gatherRows T loc = .ok fun _ => full := by
  have hgather := h.gather
  rw [hT] at hgather
  simp only [gatherRows, expectRows_ok h.length, hgather, bind, Except.bind, pure, Except.pure]

variable [Zero α]

theorem length_padded {r : Nat} {rows : List α} (hn : 0 < n) (h : rows.length = T) :
    (SPRows.padded ⟨T, n, r⟩ rows).length = SPRows.paddedRows ⟨T, n, 0⟩ := by
  have hle : T ≤ SPRows.paddedRows ⟨T, n, 0⟩ := le_paddedRows hn
  have hpad : SPRows.paddedRows ⟨T, n, r⟩ = SPRows.paddedRows ⟨T, n, 0⟩ := rfl
  rw [SPRows.padded, padTo, List.length_append, List.length_replicate, h, hpad]
  exact Nat.add_sub_cancel' hle

/-- Partial rows in padded buffers are reduce-scattered into the ranks' rows of their sum. -/
theorem reduceScatterRows_padded (sum : (Fin n → α) → α) (hn : 0 < n) {x : Fin n → List α}
    (h : ∀ r, (x r).length = T) :
    ∃ loc, reduceScatterRows sum T (fun r => SPRows.padded ⟨T, n, r⟩ (x r)) = .ok loc ∧
      Shards (SPRows.localRows ⟨T, n, 0⟩) (reduceRows sum T x) loc := by
  refine ⟨_, ?_, Shards.reduceScatter sum (x := fun r => SPRows.padded ⟨T, n, r⟩ (x r))
    (paddedRows_eq hn) (le_paddedRows hn) fun r i hi => ?_⟩
  · simp only [reduceScatterRows, expectRows_ok fun r => length_padded hn (h r), bind, Except.bind,
      pure, Except.pure]
  · rw [SPRows.padded, padTo, List.getElem?_append_left (by rw [h r]; exact hi)]

/-- A rank's slice is its real rows with zeros behind. -/
theorem slice_eq (s : SPRows) (x : List α) :
    s.slice x = (x.drop s.start).take s.realRows ++
      List.replicate (s.localRows - s.realRows) 0 := by
  unfold SPRows.slice
  split
  · next heq => rw [heq, Nat.sub_self, List.replicate_zero, List.append_nil]
  · rfl

/-- Full rows are sliced into the ranks' rows. -/
theorem localSlices_shards (hn : 0 < n) {x : List α} (h : x.length = T) :
    ∃ loc : Fin n → List α, localSlices T x = .ok loc ∧
      Shards (SPRows.localRows ⟨T, n, 0⟩) x loc := by
  have hlen : ∀ r : Fin n, ((x.drop (SPRows.start ⟨T, n, r⟩)).take
      (SPRows.realRows ⟨T, n, r⟩)).length = SPRows.realRows ⟨T, n, r⟩ := fun r => by
    simp only [List.length_take, List.length_drop, h, SPRows.realRows]
    omega
  refine ⟨fun r => SPRows.slice ⟨T, n, r⟩ x, if_neg (not_not.2 h), fun r => ?_, ?_,
    fun r i hi hk => ?_⟩
  · rw [slice_eq, List.length_append, hlen, List.length_replicate]
    exact Nat.add_sub_cancel' realRows_le
  · rw [h]
    exact le_world_mul_localRows hn
  · rw [h] at hk
    have hi' : i < SPRows.realRows ⟨T, n, r⟩ := by
      rw [realRows_eq]
      omega
    rw [slice_eq, List.getElem?_append_left (by rw [hlen]; exact hi'),
      List.getElem?_take_of_lt hi', List.getElem?_drop, start_eq]

/-- **A reduce-scatter of padded partial rows and a gather are the all-reduce**, and no check
on the way raises. -/
theorem gather_reduceScatter (sum : (Fin n → α) → α) (hn : 0 < n) {x : Fin n → List α}
    (h : ∀ r, (x r).length = T) :
    (reduceScatterRows sum T (fun r => SPRows.padded ⟨T, n, r⟩ (x r)) >>= gatherRows T) =
      .ok (allReduce sum x) := by
  obtain ⟨loc, hloc, hshards⟩ := reduceScatterRows_padded sum hn h
  rw [hloc, allReduce_eq sum h]
  exact gatherRows_of_shards hshards (length_reduceRows sum T x)

/-- Three ranks add their partial values of four rows, the last of which are padding. -/
theorem gather_reduceScatter_four :
    (reduceScatterRows (fun x : Fin 3 → Nat => x 0 + x 1 + x 2) 4
        (fun r => SPRows.padded ⟨4, 3, r⟩ [r.val, 1, 2, 3]) >>= gatherRows 4) =
      .ok (allReduce (fun x : Fin 3 → Nat => x 0 + x 1 + x 2) fun r => [r.val, 1, 2, 3]) :=
  gather_reduceScatter _ (Nat.succ_pos 2) fun _ => rfl

end RoundTrip

end LlmkubeRuntimes.Prefill
