import Mathlib.Data.List.OfFn
import Mathlib.Tactic.Ring

/-!
# Rows dealt out to ranks

A tensor is the list of its rows. `n` ranks hold `L` rows each:

* `allGather`, `reduceScatter`, `allReduce`: the collectives along the first
  dimension, with whatever the ranks' sum of one row is as a parameter;
* `Shards L full loc`: the ranks hold the rows of `full` in order, `L` a rank;
  what the last ranks hold beyond them is padding;
* `Shards.gather`: gathering and cutting to the real rows gives `full`;
* `Shards.map`, `Shards.zipWith`, `Shards.zipReal`, `Shards.reduceScatter`:
  row-wise work and reductions keep the relation.
-/

namespace LlmkubeRuntimes.Lib

variable {n : Nat} {α β γ : Type}

/-- Every rank's rows, one rank after the other. -/
def allGather (x : Fin n → List α) : List α := (List.ofFn x).flatten

/-- The `rows` rows of the sum over the ranks; `sum` is the sum of one row. -/
def reduceRows [Zero α] (sum : (Fin n → α) → α) (rows : Nat) (x : Fin n → List α) : List α :=
  (List.range rows).map fun i => sum fun r => (x r).getD i 0

/-- What every rank gets of an all-reduce. -/
def allReduce [Zero α] (sum : (Fin n → α) → α) (x : Fin n → List α) : Fin n → List α :=
  fun r => reduceRows sum (x r).length x

/-- The rows in a buffer of `rows` rows, zeros behind. -/
def padTo [Zero α] (rows : Nat) (x : List α) : List α := x ++ List.replicate (rows - x.length) 0

/-- The `k`-th of the equal chunks of `L` rows. -/
def chunk (L : Nat) (x : List α) (k : Nat) : List α := (x.drop (k * L)).take L

/-- What rank `r` gets of a reduce-scatter of `rows` rows: its chunk of the sum. -/
def reduceScatter [Zero α] (sum : (Fin n → α) → α) (rows : Nat) (x : Fin n → List α) :
    Fin n → List α :=
  fun r => chunk (rows / n) (reduceRows sum rows x) r

theorem length_reduceRows [Zero α] (sum : (Fin n → α) → α) (rows : Nat) (x : Fin n → List α) :
    (reduceRows sum rows x).length = rows := by
  rw [reduceRows, List.length_map, List.length_range]

theorem getElem?_reduceRows [Zero α] (sum : (Fin n → α) → α) {rows i : Nat} (hi : i < rows)
    (x : Fin n → List α) : (reduceRows sum rows x)[i]? = some (sum fun r => (x r).getD i 0) := by
  rw [reduceRows, List.getElem?_map, List.getElem?_range hi, Option.map_some]

theorem getElem?_chunk {L i : Nat} (hi : i < L) (x : List α) (k : Nat) :
    (chunk L x k)[i]? = x[k * L + i]? := by
  rw [chunk, List.getElem?_take_of_lt hi, List.getElem?_drop]

/-- An item of lists of one length, laid one after the other. -/
theorem getElem?_flatten {L i : Nat} {lists : List (List α)} (h : ∀ x ∈ lists, x.length = L)
    (hi : i < L) (q : Nat) : lists.flatten[q * L + i]? = lists[q]?.bind (·[i]?) := by
  induction lists generalizing q with
  | nil => simp
  | cons x lists ih =>
    have hx := h x List.mem_cons_self
    rw [List.flatten_cons]
    cases q with
    | zero =>
      rw [List.getElem?_append_left (by rw [hx]; omega)]
      simp
    | succ q =>
      have hat : (q + 1) * L + i = L + (q * L + i) := by ring
      rw [hat, List.getElem?_append_right (by rw [hx]; omega), hx, Nat.add_sub_cancel_left,
        ih (fun y hy => h y (List.mem_cons_of_mem x hy)), List.getElem?_cons_succ]

theorem getElem?_allGather {L i : Nat} {x : Fin n → List α} (h : ∀ r, (x r).length = L)
    (hi : i < L) (r : Fin n) : (allGather x)[r * L + i]? = (x r)[i]? := by
  have hlists : ∀ y ∈ List.ofFn x, y.length = L := by
    intro y hy
    obtain ⟨s, rfl⟩ := (List.mem_ofFn' _ _).1 hy
    exact h s
  rw [allGather, getElem?_flatten hlists hi, List.getElem?_ofFn, dif_pos r.isLt, Option.bind_some]

theorem allReduce_eq [Zero α] (sum : (Fin n → α) → α) {rows : Nat} {x : Fin n → List α}
    (h : ∀ r, (x r).length = rows) : allReduce sum x = fun _ => reduceRows sum rows x := by
  funext r
  rw [allReduce, h r]

/-- The first `k` chunks. -/
theorem flatten_chunks (L : Nat) (x : List α) (k : Nat) :
    ((List.range k).map (chunk L x)).flatten = x.take (k * L) := by
  induction k with
  | zero => simp
  | succ k ih =>
    rw [List.range_succ, List.map_append, List.flatten_append, ih, List.map_singleton,
      List.flatten_singleton, chunk, Nat.succ_mul, List.take_add]

/-- Rank `r` holds the rows of `full` from `r * L` on. -/
structure Shards (L : Nat) (full : List α) (loc : Fin n → List α) : Prop where
  length : ∀ r, (loc r).length = L
  fits : full.length ≤ n * L
  row : ∀ (r : Fin n) (i : Nat), i < L → r * L + i < full.length →
    (loc r)[i]? = full[r * L + i]?

namespace Shards

variable {L : Nat} {full : List α} {loc : Fin n → List α}

/-- **Gathering the ranks' rows and leaving the padding out gives the rows.** -/
theorem gather (h : Shards L full loc) : (allGather loc).take full.length = full := by
  apply List.ext_getElem?
  intro k
  rcases Nat.lt_or_ge k full.length with hk | hk
  · have hL : 0 < L := by
      rcases Nat.eq_zero_or_pos L with rfl | hL
      · exact absurd (lt_of_lt_of_le hk h.fits) (by simp)
      · exact hL
    have hr : k / L < n := by
      rw [Nat.div_lt_iff_lt_mul hL]
      exact lt_of_lt_of_le hk h.fits
    have hat : k / L * L + k % L = k := Nat.div_add_mod' k L
    have hrow := h.row ⟨k / L, hr⟩ (k % L) (Nat.mod_lt k hL) (by rw [hat]; exact hk)
    have hget := getElem?_allGather h.length (Nat.mod_lt k hL) ⟨k / L, hr⟩
    rw [hat] at hrow hget
    rw [List.getElem?_take_of_lt hk, hget, hrow]
  · rw [List.getElem?_eq_none hk, List.getElem?_eq_none]
    exact le_trans (List.length_take_le _ _) hk

/-- The chunks of a buffer that begins with the rows. -/
theorem of_chunks {buffer : List α} (hlen : buffer.length = n * L)
    (hfull : full.length ≤ buffer.length)
    (hrow : ∀ k, k < full.length → buffer[k]? = full[k]?) :
    Shards L full fun r : Fin n => chunk L buffer r := by
  refine ⟨fun r => ?_, hlen ▸ hfull, fun r i hi hk => ?_⟩
  · have hr : (r + 1) * L ≤ n * L := Nat.mul_le_mul_right L r.isLt
    rw [chunk, List.length_take, List.length_drop, hlen]
    rw [Nat.succ_mul] at hr
    omega
  · rw [getElem?_chunk hi, hrow _ hk]

/-- Row-wise work on each rank is row-wise work on the rows. -/
theorem map (h : Shards L full loc) (f : α → β) :
    Shards L (full.map f) fun r => (loc r).map f := by
  refine ⟨fun r => by rw [List.length_map, h.length], by rw [List.length_map]; exact h.fits,
    fun r i hi hk => ?_⟩
  rw [List.length_map] at hk
  rw [List.getElem?_map, List.getElem?_map, h.row r i hi hk]

theorem zipWith {full' : List β} {loc' : Fin n → List β} (h : Shards L full loc)
    (h' : Shards L full' loc') (hlen : full.length = full'.length) (f : α → β → γ) :
    Shards L (full.zipWith f full') fun r => (loc r).zipWith f (loc' r) := by
  refine ⟨fun r => by simp [h.length, h'.length], ?_, fun r i hi hk => ?_⟩
  · rw [List.length_zipWith, ← hlen, Nat.min_self]
    exact h.fits
  · rw [List.length_zipWith, ← hlen, Nat.min_self] at hk
    rw [List.getElem?_zipWith, List.getElem?_zipWith, h.row r i hi hk,
      h'.row r i hi (hlen ▸ hk)]

/-- The real rows of a rank, each with what belongs to it of a list about every row; the
padding is left as it is. -/
theorem zipReal {all : List β} (h : Shards L full loc) (hlen : all.length = full.length)
    (f : α → β → α) {real : Fin n → Nat} (hreal : ∀ r, real r = min L (full.length - r * L)) :
    Shards L (full.zipWith f all) fun r =>
      ((loc r).take (real r)).zipWith f ((all.drop (r * L)).take (real r)) ++
        (loc r).drop (real r) := by
  refine ⟨fun r => ?_, ?_, fun r i hi hk => ?_⟩
  · simp only [List.length_append, List.length_zipWith, List.length_take, List.length_drop,
      h.length, hlen, hreal]
    omega
  · rw [List.length_zipWith, hlen, Nat.min_self]
    exact h.fits
  · rw [List.length_zipWith, hlen, Nat.min_self] at hk
    have hi' : i < real r := by
      rw [hreal]
      omega
    have htake : i < (((loc r).take (real r)).zipWith f
        ((all.drop (r * L)).take (real r))).length := by
      simp only [List.length_zipWith, List.length_take, List.length_drop, h.length, hlen]
      rw [hreal] at hi' ⊢
      omega
    rw [List.getElem?_append_left htake, List.getElem?_zipWith, List.getElem?_zipWith,
      List.getElem?_take_of_lt hi', List.getElem?_take_of_lt hi', List.getElem?_drop,
      h.row r i hi hk]

/-- **A reduce-scatter deals out the rows of the all-reduce**: the buffers may be longer than
the rows, and hold anything there. -/
theorem reduceScatter [Zero α] (sum : (Fin n → α) → α) {rows T : Nat} {x y : Fin n → List α}
    (hrows : rows = n * L) (hT : T ≤ rows) (h : ∀ r i, i < T → (x r)[i]? = (y r)[i]?) :
    Shards L (reduceRows sum T y) (Lib.reduceScatter sum rows x) := by
  have hdiv : ∀ r : Fin n, rows / n = L := fun r => by
    rw [hrows, Nat.mul_div_cancel_left L (Fin.pos r)]
  have hshards : Shards L (reduceRows sum T y) fun r : Fin n =>
      chunk L (reduceRows sum rows x) r := by
    refine of_chunks (by rw [length_reduceRows, hrows]) ?_ fun k hk => ?_
    · rw [length_reduceRows, length_reduceRows]
      exact hT
    · rw [length_reduceRows] at hk
      rw [getElem?_reduceRows sum (lt_of_lt_of_le hk hT), getElem?_reduceRows sum hk]
      simp only [List.getD_eq_getElem?_getD, h _ k hk]
  have heq : Lib.reduceScatter sum rows x = fun r : Fin n => chunk L (reduceRows sum rows x) r := by
    funext r
    rw [Lib.reduceScatter, hdiv r]
  rwa [heq]

end Shards

end LlmkubeRuntimes.Lib
