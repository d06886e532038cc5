import Mathlib.Algebra.GroupWithZero.Nat
import Mathlib.Data.List.GetD
import Mathlib.Data.List.Nodup

/-!
# Radix selection

The value that a given number of keys reach, found digit by digit from the top.

* `IsCut keys take pivot remaining`: fewer than `take` keys are above the pivot, and
  those at the pivot make up what `remaining` lacks;
* `IsCut.start`, `IsCut.refine`: no digit is known, and one more digit is;
* `IsCut.countP_le`: of distinct keys exactly `take` reach the pivot;
* `histogram`, `sum_drop_histogram`: digits counted into buckets in any order;
* `scanStage`, `windowSums`: suffix sums by doubling windows.
-/

namespace LlmkubeRuntimes.Lib

/-! ## Digits of the pivot -/

/-- `take` keys, counted from the largest: those above the pivot, and `remaining` at it. -/
structure IsCut (keys : List Nat) (take pivot remaining : Nat) : Prop where
  above : keys.countP (fun k => decide (pivot < k)) + remaining = take
  pos : 0 < remaining
  enough : remaining ≤ keys.countP (fun k => decide (k = pivot))

/-- Counting by two conditions that exclude each other. -/
theorem countP_split {α : Type} (p q r : α → Prop) [DecidablePred p] [DecidablePred q]
    [DecidablePred r] (hor : ∀ x, p x ↔ q x ∨ r x) (hnot : ∀ x, ¬ (q x ∧ r x)) (xs : List α) :
    xs.countP (fun x => decide (p x)) =
      xs.countP (fun x => decide (q x)) + xs.countP (fun x => decide (r x)) := by
  induction xs with
  | nil => rfl
  | cons x xs ih =>
    have hx := hor x
    have hnx := hnot x
    simp only [List.countP_cons, decide_eq_true_eq, ih]
    by_cases hq : q x <;> by_cases hr : r x <;> simp_all <;> omega

namespace IsCut

variable {keys : List Nat} {take pivot remaining b d : Nat}

/-- Without digits every key is at the pivot. -/
theorem start (hkeys : ∀ k ∈ keys, k = 0) (hpos : 0 < take) (hle : take ≤ keys.length) :
    IsCut keys take 0 take := by
  refine ⟨?_, hpos, ?_⟩
  · rw [List.countP_eq_zero.2 fun k hk => by simp [hkeys k hk], Nat.zero_add]
  · rw [List.countP_eq_length.2 fun k hk => by simp [hkeys k hk]]
    exact hle

theorem lt_iff (hd : d < b) (k p : Nat) :
    p * b + d < k ↔ p < k / b ∨ k / b = p ∧ d < k % b := by
  have hb : 0 < b := Nat.zero_lt_of_lt hd
  have hk := Nat.div_add_mod k b
  have hmod := Nat.mod_lt k hb
  rcases Nat.lt_trichotomy p (k / b) with hlt | heq | hgt
  · have hle : b * (p + 1) ≤ b * (k / b) := Nat.mul_le_mul_left b hlt
    rw [Nat.mul_add, Nat.mul_one, Nat.mul_comm b p] at hle
    constructor
    · exact fun _ => Or.inl hlt
    · exact fun _ => by omega
  · rw [← heq, Nat.mul_comm b p] at hk
    omega
  · have hle : b * (k / b + 1) ≤ b * p := Nat.mul_le_mul_left b hgt
    rw [Nat.mul_add, Nat.mul_one, Nat.mul_comm b p] at hle
    constructor
    · exact fun _ => by omega
    · rintro (h | ⟨h, -⟩) <;> omega

theorem eq_iff (hd : d < b) (k p : Nat) : k = p * b + d ↔ k / b = p ∧ k % b = d := by
  have hb : 0 < b := Nat.zero_lt_of_lt hd
  constructor
  · rintro rfl
    rw [Nat.mul_comm, Nat.mul_add_div hb, Nat.div_eq_of_lt hd, Nat.mul_add_mod,
      Nat.mod_eq_of_lt hd]
    exact ⟨Nat.add_zero p, rfl⟩
  · rintro ⟨rfl, rfl⟩
    exact (Nat.div_add_mod' k b).symm

/-- **One more digit**: `d` is the digit that the remaining keys reach among those at the pivot. -/
theorem refine (h : IsCut (keys.map (· / b)) take pivot remaining) (hd : d < b)
    (hlt : keys.countP (fun k => decide (k / b = pivot ∧ d < k % b)) < remaining)
    (hle : remaining ≤ keys.countP (fun k => decide (k / b = pivot ∧ d ≤ k % b))) :
    IsCut keys take (pivot * b + d)
      (remaining - keys.countP (fun k => decide (k / b = pivot ∧ d < k % b))) := by
  have habove := h.above
  rw [List.countP_map] at habove
  have hsplit := countP_split (fun k => pivot * b + d < k) (fun k => pivot < k / b)
    (fun k => k / b = pivot ∧ d < k % b) (fun k => lt_iff hd k pivot) (fun k => by omega) keys
  have hreach := countP_split (fun k => k / b = pivot ∧ d ≤ k % b)
    (fun k => k / b = pivot ∧ d < k % b) (fun k => k = pivot * b + d)
    (fun k => by rw [eq_iff hd]; omega) (fun k => by rw [eq_iff hd]; omega) keys
  refine ⟨?_, Nat.sub_pos_of_lt hlt, by omega⟩
  rw [hsplit]
  simp only [Function.comp_def] at habove
  omega

/-- **Exactly `take` distinct keys reach the pivot.** -/
theorem countP_le (h : IsCut keys take pivot remaining) (hnodup : keys.Nodup) :
    keys.countP (fun k => decide (pivot ≤ k)) = take := by
  have hone : keys.countP (fun k => decide (k = pivot)) ≤ 1 := by
    have hcount := List.nodup_iff_count_le_one.1 hnodup pivot
    rwa [List.count] at hcount
  have hsplit := countP_split (fun k => pivot ≤ k) (fun k => pivot < k) (fun k => k = pivot)
    (fun k => by omega) (fun k => by omega) keys
  have habove := h.above
  have hpos := h.pos
  have henough := h.enough
  omega

end IsCut

/-! ## Counting digits -/

/-- Buckets, one added for each digit as it arrives. -/
def histogram (buckets : Nat) (digits : List Nat) : List Nat :=
  digits.foldl (fun hist d => hist.modify d (· + 1)) (List.replicate buckets 0)

theorem sum_drop_modify {hist : List Nat} {d : Nat} (hd : d < hist.length) (x : Nat) :
    ((hist.modify d (· + 1)).drop x).sum = (hist.drop x).sum + if x ≤ d then 1 else 0 := by
  induction hist generalizing d x with
  | nil => exact absurd hd (Nat.not_lt_zero d)
  | cons h hist ih =>
    cases d with
    | zero =>
      cases x with
      | zero => simp only [List.modify_zero_cons, List.drop_zero, List.sum_cons, Nat.le_refl,
          if_true]; omega
      | succ x => simp
    | succ d =>
      have hd := Nat.lt_of_succ_lt_succ hd
      cases x with
      | zero =>
        have hsum := ih hd 0
        simp only [List.drop_zero, Nat.zero_le, if_true] at hsum
        simp only [List.modify_succ_cons, List.drop_zero, List.sum_cons, hsum, Nat.zero_le, if_true]
        omega
      | succ x => simpa using ih hd x

theorem foldl_modify {digits hist : List Nat} (hdigits : ∀ d ∈ digits, d < hist.length) (x : Nat) :
    (digits.foldl (fun hist d => hist.modify d (· + 1)) hist).length = hist.length ∧
      ((digits.foldl (fun hist d => hist.modify d (· + 1)) hist).drop x).sum =
        (hist.drop x).sum + digits.countP (fun d => decide (x ≤ d)) := by
  induction digits generalizing hist with
  | nil => exact ⟨rfl, rfl⟩
  | cons d digits ih =>
    have hd := hdigits d List.mem_cons_self
    have hlen : (hist.modify d (· + 1)).length = hist.length := List.length_modify _ _ _
    obtain ⟨hlength, hsum⟩ := @ih (hist.modify d (· + 1)) fun e he => by
      rw [hlen]
      exact hdigits e (List.mem_cons_of_mem d he)
    refine ⟨by rw [List.foldl_cons, hlength, hlen], ?_⟩
    rw [List.foldl_cons, hsum, sum_drop_modify hd, List.countP_cons]
    simp only [decide_eq_true_eq]
    omega

theorem length_histogram {buckets : Nat} {digits : List Nat} (h : ∀ d ∈ digits, d < buckets) :
    (histogram buckets digits).length = buckets := by
  rw [histogram, (foldl_modify (by simpa using h) 0).1, List.length_replicate]

/-- The buckets from `x` on hold the digits from `x` on, in whatever order they arrived. -/
theorem sum_drop_histogram {buckets : Nat} {digits : List Nat} (h : ∀ d ∈ digits, d < buckets)
    (x : Nat) :
    ((histogram buckets digits).drop x).sum = digits.countP (fun d => decide (x ≤ d)) := by
  rw [histogram, (foldl_modify (by simpa using h) x).2, List.drop_replicate, List.sum_replicate_nat, Nat.mul_zero,
    Nat.zero_add]

/-! ## Suffix sums -/

/-- Sums of `m` buckets from each bucket on. -/
def windowSums (m : Nat) (hist : List Nat) : List Nat :=
  (List.range hist.length).map fun x => ((hist.drop x).take m).sum

/-- A doubling step: each lane adds the lane `j` behind it, as far as there is one. -/
def scanStage (lanes j : Nat) (hist : List Nat) : List Nat :=
  hist.mapIdx fun x v => if x < lanes - j then v + hist.getD (x + j) 0 else v

@[simp] theorem length_windowSums (m : Nat) (hist : List Nat) :
    (windowSums m hist).length = hist.length := by
  rw [windowSums, List.length_map, List.length_range]

theorem getD_windowSums (m : Nat) (hist : List Nat) (x : Nat) :
    (windowSums m hist).getD x 0 = ((hist.drop x).take m).sum := by
  rw [List.getD_eq_getElem?_getD, windowSums, List.getElem?_map]
  by_cases hx : x < hist.length
  · rw [List.getElem?_range hx, Option.map_some, Option.getD_some]
  · rw [List.getElem?_eq_none (by rw [List.length_range]; omega), Option.map_none,
      Option.getD_none, List.drop_eq_nil_of_le (by omega), List.take_nil, List.sum_nil]

theorem windowSums_one (hist : List Nat) : windowSums 1 hist = hist := by
  refine List.ext_getElem (length_windowSums 1 hist) fun x hx hx' => ?_
  have hget := getD_windowSums 1 hist x
  rw [List.getD_eq_getElem _ _ hx, List.drop_eq_getElem_cons hx', List.take_succ_cons,
    List.take_zero, List.sum_singleton] at hget
  exact hget

/-- **A stage doubles the windows.** -/
theorem scanStage_windowSums (m : Nat) (hist : List Nat) :
    scanStage hist.length m (windowSums m hist) = windowSums (m + m) hist := by
  refine List.ext_getElem (by simp [scanStage]) fun x hx hx' => ?_
  have hlt : x < hist.length := by simpa using hx'
  have hwindow : ∀ k, ∀ h : x < (windowSums k hist).length,
      (windowSums k hist)[x] = ((hist.drop x).take k).sum := fun k h => by
    rw [← List.getD_eq_getElem _ 0 h, getD_windowSums]
  have hadd : ((hist.drop x).take (m + m)).sum =
      ((hist.drop x).take m).sum + ((hist.drop (x + m)).take m).sum := by
    rw [List.take_add, List.sum_append, List.drop_drop]
  simp only [scanStage, List.getElem_mapIdx]
  rw [hwindow _ hx', hwindow _ (by simpa using hlt), hadd, getD_windowSums]
  split
  · rfl
  · rw [List.drop_eq_nil_of_le (show hist.length ≤ x + m by omega), List.take_nil, List.sum_nil,
      Nat.add_zero]

/-- Windows as wide as the buckets are suffixes. -/
theorem getD_windowSums_length (hist : List Nat) (x : Nat) :
    (windowSums hist.length hist).getD x 0 = (hist.drop x).sum := by
  rw [getD_windowSums, List.take_of_length_le (by rw [List.length_drop]; omega)]

end LlmkubeRuntimes.Lib
