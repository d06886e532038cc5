import Mathlib.Algebra.Order.Floor.Div
import Mathlib.GroupTheory.GroupAction.Ring
import LlmkubeRuntimes.Lib.FirstMax
import LlmkubeRuntimes.Lib.Shards

/-!
# Greedy drafts from vocabulary shards

Each rank reduces its shard of the draft logits to the first maximum and its
index in the vocabulary, the pairs are all-gathered in FP32, and every rank
keeps the first maximum of the pairs.

* `ArgmaxKernels`: what the block kernel and the lane reduction do;
* `greedyMarkovShardPair`, `selectFirstArgmax`: the two reductions, with their
  padding lanes and the FP32 indices;
* `sampleGreedyMarkov`: the argmax over the full vocabulary;
* `draftTokens`: the loop over the draft positions, each token the input of the next;
* `vocabParallel_drafts`: sharded drafts are the full-vocabulary drafts.
-/

namespace LlmkubeRuntimes.Draft

open LlmkubeRuntimes.Lib

/-- What the kernels of the draft argmax do: `bottom` is the value of a masked lane, `add` the sum
of a logit and its bias, `reduce` the reduction of lanes in whatever order, and `partialArgmax`
the first maximum of each block. -/
structure ArgmaxKernels (V : Type) [Preorder V] where
  block : Nat
  bottom : V
  add : V → V → V
  reduce : List (V × Nat) → V × Nat
  partialArgmax : List V → List (V × Nat)
  block_pos : 0 < block
  bottom_le : ∀ v, bottom ≤ v
  reduce_first : ∀ lanes, lanes ≠ [] → IsFirstMax lanes (reduce lanes)
  partialArgmax_first : ∀ logits, List.Forall₂ IsFirstMax
    ((List.range (logits.length ⌈/⌉ block)).map (chunk block logits.zipIdx)) (partialArgmax logits)

/-- What the checks before the kernels raise. -/
inductive GreedyError where
  | shapes (base bias : Nat)
  | inexactIndices
  deriving DecidableEq, Repr

/-- A natural number rounded to the nearest FP32 value, ties to even. -/
def toFloat32 (n : Nat) : Nat :=
  if n < 2 ^ 24 then n
  else
    let ulp := 2 ^ (n.log2 - 23)
    let low := n / ulp * ulp
    if 2 * (n % ulp) < ulp ∨ 2 * (n % ulp) = ulp ∧ n / ulp % 2 = 0 then low else low + ulp

theorem toFloat32_of_lt {n : Nat} (h : n < 2 ^ 24) : toFloat32 n = n := if_pos h

section Kernels

variable {V : Type} [Preorder V] (K : ArgmaxKernels V)

/-- The reduction of `lanes` in a block of a power of two, masked lanes at `index`. -/
def reducePadded (index : Nat) (lanes : List (V × Nat)) : V × Nat :=
  K.reduce (lanes ++ List.replicate (lanes.length.nextPowerOfTwo - lanes.length) (K.bottom, index))

/-- The logits of a draft position: the base logits and the Markov bias. -/
def logits (base bias : List V) : List V := base.zipWith K.add bias

/-- A rank's pair: the first maximum of its shard and its index in the vocabulary, in FP32. -/
def greedyMarkovShardPair (base bias : List V) (vocabStart : Nat) : Except GreedyError (V × Nat) :=
  if base.length ≠ bias.length then .error (.shapes base.length bias.length)
  else if 2 ^ 24 < vocabStart + base.length then .error .inexactIndices
  else
    let (best, result) := reducePadded K 2147483647 (K.partialArgmax (logits K base bias))
    .ok (best, toFloat32 (result + vocabStart))

/-- The index of the first maximum of the gathered pairs. -/
def selectFirstArgmax (pairs : List (V × Nat)) : Nat := (reducePadded K 1073741824 pairs).2

/-- The argmax over the full vocabulary. -/
def sampleGreedyMarkov (base bias : List V) : Nat :=
  (reducePadded K 2147483647 (K.partialArgmax (logits K base bias))).2

/-- What the ranks gather: the pair of each shard of the vocabulary, from `vocabStart` on. -/
def gatherPairs (base bias : List V) : Nat → List Nat → Except GreedyError (List (V × Nat))
  | _, [] => .ok []
  | vocabStart, entries :: shards => do
    let pair ← greedyMarkovShardPair K ((base.drop vocabStart).take entries)
      ((bias.drop vocabStart).take entries) vocabStart
    let pairs ← gatherPairs base bias (vocabStart + entries) shards
    return pair :: pairs

/-- A draft token from vocabulary shards of the given sizes, on every rank. -/
def vocabParallelToken (shards : List Nat) (base bias : List V) : Except GreedyError Nat := do
  let pairs ← gatherPairs K base bias 0 shards
  return selectFirstArgmax K pairs

end Kernels

/-- The draft tokens of a request: at each position the token before gives the Markov bias. -/
def draftTokens {V : Type} (token : List V → List V → Except GreedyError Nat)
    (markovBias : Nat → List V) : Nat → List (List V) → Except GreedyError (List Nat)
  | _, [] => .ok []
  | prev, base :: positions => do
    let drafted ← token base (markovBias prev)
    let rest ← draftTokens token markovBias drafted positions
    return drafted :: rest

/-! ## The first maximum of a shard -/

section Proofs

variable {V : Type} [Preorder V] (K : ArgmaxKernels V)

/-- Masked lanes behind every index never win. -/
theorem reducePadded_first {index : Nat} {lanes : List (V × Nat)} (hne : lanes ≠ [])
    (hindex : ∀ x ∈ lanes, x.2 < index) : IsFirstMax lanes (reducePadded K index lanes) := by
  refine (K.reduce_first _ (List.append_ne_nil_of_left_ne_nil hne _)).of_padded fun p hp => ?_
  rw [List.eq_of_mem_replicate hp]
  obtain ⟨x, hx⟩ := List.exists_mem_of_ne_nil lanes hne
  exact ⟨x, hx, fun hbeats =>
    absurd (hbeats.2 (K.bottom_le x.1)) (Nat.not_le.2 (hindex x hx))⟩

theorem flatten_blocks (xs : List V) :
    ((List.range (xs.length ⌈/⌉ K.block)).map (chunk K.block xs.zipIdx)).flatten = xs.zipIdx := by
  rw [flatten_chunks, List.take_of_length_le]
  rw [List.length_zipIdx, Nat.mul_comm]
  exact le_smul_ceilDiv K.block_pos

omit [Preorder V] in
theorem index_lt_of_mem_zipIdx {xs : List V} {x : V × Nat} (h : x ∈ xs.zipIdx) :
    x.2 < xs.length := by
  obtain ⟨v, i⟩ := x
  exact (List.mk_mem_zipIdx_iff_getElem?.1 h |> List.getElem?_eq_some_iff.1).1

/-- **The block kernel and the reduction find the first maximum of the logits.** -/
theorem partialArgmax_reduced {xs : List V} (hne : xs ≠ []) (hlen : xs.length ≤ 2147483647) :
    IsFirstMax xs.zipIdx (reducePadded K 2147483647 (K.partialArgmax xs)) := by
  have hblocks := K.partialArgmax_first xs
  rw [← flatten_blocks K xs]
  refine IsFirstMax.flatten hblocks (reducePadded_first K ?_ fun x hx => ?_)
  · intro hnil
    rw [hnil, List.forall₂_nil_right_iff] at hblocks
    have hflat := flatten_blocks K xs
    rw [hblocks, List.flatten_nil] at hflat
    exact hne (List.zipIdx_eq_nil_iff.1 hflat.symm)
  · obtain ⟨block, hblock, hmax⟩ := forall₂_exists_left hblocks.flip hx
    have hmem : x ∈ xs.zipIdx := by
      rw [← flatten_blocks K xs]
      exact List.mem_flatten.2 ⟨block, hblock, hmax.mem⟩
    exact lt_of_lt_of_le (index_lt_of_mem_zipIdx hmem) hlen

theorem length_logits {base bias : List V} (h : base.length = bias.length) :
    (logits K base bias).length = base.length := by
  rw [logits, List.length_zipWith, ← h, Nat.min_self]

/-- A rank's pair is the first maximum of its shard, at its index in the vocabulary. -/
theorem greedyMarkovShardPair_first {base bias : List V} (start : Nat)
    (hlen : base.length = bias.length) (hne : base ≠ []) (hexact : start + base.length ≤ 2 ^ 24) :
    ∃ pair, greedyMarkovShardPair K base bias start = .ok pair ∧
      IsFirstMax ((logits K base bias).zipIdx start) pair := by
  have hlogits := length_logits K hlen
  have hnonempty : logits K base bias ≠ [] :=
    List.ne_nil_of_length_pos (by rw [hlogits]; exact List.length_pos_of_ne_nil hne)
  have hfirst := partialArgmax_reduced K hnonempty (by omega)
  have hlt := index_lt_of_mem_zipIdx hfirst.mem
  have hindex : (reducePadded K 2147483647 (K.partialArgmax (logits K base bias))).2 + start <
      2 ^ 24 := by omega
  refine ⟨((reducePadded K 2147483647 (K.partialArgmax (logits K base bias))).1,
    (reducePadded K 2147483647 (K.partialArgmax (logits K base bias))).2 + start), ?_, ?_⟩
  · rw [greedyMarkovShardPair, if_neg (not_not.2 hlen), if_neg (by omega)]
    simp only [toFloat32_of_lt hindex]
  · rw [List.zipIdx_eq_map_add]
    have hshift := hfirst.shift start
    simpa only [Nat.add_comm] using hshift

/-- The ranks' pairs are the first maxima of their shards, which make up the vocabulary. -/
theorem gatherPairs_first {base bias : List V} (start : Nat) (hlen : base.length = bias.length)
    (hexact : base.length ≤ 2 ^ 24) {shards : List Nat}
    (hshards : ∀ entries ∈ shards, 0 < entries) (hsum : start + shards.sum = base.length) :
    ∃ pairs blocks, gatherPairs K base bias start shards = .ok pairs ∧
      List.Forall₂ IsFirstMax blocks pairs ∧
      blocks.flatten = ((logits K base bias).drop start).zipIdx start := by
  induction shards generalizing start with
  | nil =>
    refine ⟨[], [], rfl, .nil, ?_⟩
    have hall : ((logits K base bias).drop start) = [] :=
      List.drop_eq_nil_of_le (by rw [length_logits K hlen]; simpa using hsum.ge)
    rw [hall, List.zipIdx_nil, List.flatten_nil]
  | cons entries shards ih =>
    rw [List.sum_cons] at hsum
    have hpos := hshards entries List.mem_cons_self
    have hslice : ∀ xs : List V, xs.length = base.length →
        ((xs.drop start).take entries).length = entries := fun xs hxs => by
      rw [List.length_take, List.length_drop, hxs]
      omega
    obtain ⟨pair, hpair, hfirst⟩ := greedyMarkovShardPair_first K start
      (show ((base.drop start).take entries).length = ((bias.drop start).take entries).length by
        rw [hslice base rfl, hslice bias hlen.symm])
      (List.ne_nil_of_length_pos (by rw [hslice base rfl]; exact hpos))
      (by rw [hslice base rfl]; omega)
    obtain ⟨pairs, blocks, hpairs, hblocks, hflatten⟩ :=
      @ih (start + entries) (fun e he => hshards e (List.mem_cons_of_mem _ he)) (by omega)
    refine ⟨pair :: pairs, _, ?_, .cons hfirst hblocks, ?_⟩
    · simp only [gatherPairs, hpair, hpairs, bind, Except.bind, pure, Except.pure]
    · have hcut : logits K ((base.drop start).take entries) ((bias.drop start).take entries) =
          ((logits K base bias).drop start).take entries := by
        simp only [logits, List.drop_zipWith, List.take_zipWith]
      have htake : (((logits K base bias).drop start).take entries).length = entries :=
        hslice _ (length_logits K hlen)
      rw [List.flatten_cons, hflatten, hcut, ← List.drop_drop]
      conv_rhs => rw [← List.take_append_drop entries ((logits K base bias).drop start),
        List.zipIdx_append, htake]

/-- **Sharding the vocabulary does not change the token**: it is the index of the first maximum
of the full vocabulary's logits, ties and the largest of all values included. -/
theorem vocabParallelToken_eq {base bias : List V} (hlen : base.length = bias.length)
    (hne : base ≠ []) (hexact : base.length ≤ 2 ^ 24) {shards : List Nat}
    (hshards : ∀ entries ∈ shards, 0 < entries) (hsum : shards.sum = base.length) :
    vocabParallelToken K shards base bias = .ok (sampleGreedyMarkov K base bias) := by
  obtain ⟨pairs, blocks, hpairs, hblocks, hflatten⟩ :=
    gatherPairs_first K 0 hlen hexact hshards (by rw [Nat.zero_add, hsum])
  rw [List.drop_zero] at hflatten
  have hlogits := length_logits K hlen
  have hnonempty : logits K base bias ≠ [] :=
    List.ne_nil_of_length_pos (by rw [hlogits]; exact List.length_pos_of_ne_nil hne)
  have hbounded : ∀ x ∈ pairs, x.2 < 1073741824 := fun x hx => by
    obtain ⟨block, hblock, hmax⟩ := forall₂_exists_left hblocks.flip hx
    have hmem : x ∈ (logits K base bias).zipIdx := by
      rw [← hflatten]
      exact List.mem_flatten.2 ⟨block, hblock, hmax.mem⟩
    have hlt := index_lt_of_mem_zipIdx hmem
    omega
  have hpairsne : pairs ≠ [] := by
    intro hnil
    rw [hnil, List.forall₂_nil_right_iff] at hblocks
    rw [hblocks, List.flatten_nil] at hflatten
    exact hnonempty (List.zipIdx_eq_nil_iff.1 hflatten.symm)
  have hsharded : IsFirstMax (logits K base bias).zipIdx (reducePadded K 1073741824 pairs) := by
    rw [← hflatten]
    exact IsFirstMax.flatten hblocks (reducePadded_first K hpairsne hbounded)
  have hfull := partialArgmax_reduced K hnonempty (by omega)
  simp only [vocabParallelToken, hpairs, bind, Except.bind, pure, Except.pure, selectFirstArgmax,
    sampleGreedyMarkov]
  rw [hsharded.index_eq hfull]

end Proofs

/-- **Vocabulary-parallel drafts are the full-vocabulary drafts**, at every position of every
request and whatever the lane reduction's order, as long as the vocabulary's indices are exact in
FP32 and no rank's shard is empty. -/
theorem vocabParallel_drafts {V : Type} [Preorder V] (K : ArgmaxKernels V)
    (markovBias : Nat → List V) (prev : Nat) (positions : List (List V)) (shards : List Nat)
    (hvocab : 0 < shards.sum) (hexact : shards.sum ≤ 2 ^ 24)
    (hshards : ∀ entries ∈ shards, 0 < entries)
    (hbase : ∀ base ∈ positions, base.length = shards.sum)
    (hbias : ∀ token, (markovBias token).length = shards.sum) :
    draftTokens (vocabParallelToken K shards) markovBias prev positions =
      draftTokens (fun base bias => .ok (sampleGreedyMarkov K base bias)) markovBias prev
        positions := by
  induction positions generalizing prev with
  | nil => rfl
  | cons base positions ih =>
    have hlen := hbase base List.mem_cons_self
    have hboth : base.length = (markovBias prev).length := by rw [hlen, hbias]
    have htoken := vocabParallelToken_eq K hboth
      (List.ne_nil_of_length_pos (by rw [hlen]; exact hvocab))
      (by rw [hlen]; exact hexact) hshards hlen.symm
    simp only [draftTokens, htoken, bind, Except.bind]
    rw [ih _ fun b hb => hbase b (List.mem_cons_of_mem _ hb)]

/-- Blocks of two lanes, each scanned, leave the first maximum of each. -/
theorem scanBlocks_first (xs : List Nat) :
    List.Forall₂ IsFirstMax ((List.range (xs.length ⌈/⌉ 2)).map (chunk 2 xs.zipIdx))
      (((List.range (xs.length ⌈/⌉ 2)).map (chunk 2 xs.zipIdx)).map fun lanes =>
        scanMax (lanes.headD (0, 0)) lanes.tail) := by
  rw [List.forall₂_map_right_iff, List.forall₂_same]
  intro lanes hlanes
  obtain ⟨k, hk, rfl⟩ := List.mem_map.1 hlanes
  refine scanMax_first_of_ne_nil (0, 0) (List.ne_nil_of_length_pos ?_)
  have hle : xs.length ⌈/⌉ 2 * 2 ≤ xs.length + 1 := by
    rw [Nat.ceilDiv_eq_add_pred_div]
    exact Nat.div_mul_le_self _ _
  have hk := List.mem_range.1 hk
  rw [chunk, List.length_take, List.length_drop, List.length_zipIdx]
  omega

/-- Kernels on numbers that scan the lanes one after the other, in blocks of two. -/
def scanKernels : ArgmaxKernels Nat where
  block := 2
  bottom := 0
  add := (· + ·)
  reduce lanes := scanMax (lanes.headD (0, 0)) lanes.tail
  partialArgmax xs := ((List.range (xs.length ⌈/⌉ 2)).map (chunk 2 xs.zipIdx)).map fun lanes =>
    scanMax (lanes.headD (0, 0)) lanes.tail
  block_pos := Nat.two_pos
  bottom_le := Nat.zero_le
  reduce_first _ hne := scanMax_first_of_ne_nil (0, 0) hne
  partialArgmax_first := scanBlocks_first

/-- Two positions over five entries in two shards, the largest logit in both. -/
theorem vocabParallel_drafts_five :
    draftTokens (vocabParallelToken scanKernels [3, 2]) (fun token => List.replicate 5 token) 1
        [[1, 7, 3, 7, 0], [0, 0, 2, 2, 2]] =
      draftTokens (fun base bias => .ok (sampleGreedyMarkov scanKernels base bias))
        (fun token => List.replicate 5 token) 1 [[1, 7, 3, 7, 0], [0, 0, 2, 2, 2]] :=
  vocabParallel_drafts scanKernels _ 1 [[1, 7, 3, 7, 0], [0, 0, 2, 2, 2]] [3, 2] (by decide)
    (by decide) (by decide) (by decide) (fun _ => List.length_replicate)

end LlmkubeRuntimes.Draft
