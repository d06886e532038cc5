import LlmkubeRuntimes.Prefill.Rows

/-!
# Which forwards run sequence-parallel

* `rowsAboveBytes`: the fewest tokens whose padded message exceeds a limit;
* `resolveMinRows`: the threshold of a configuration, `0` for never;
* `planRows`: the decision for one forward on one rank;
* `planRows_resolveMinRows`: a forward runs sequence-parallel exactly when nothing
  turns it off, it is longer than every decode forward, and its padded
  hidden-state message exceeds what the one-shot all-reduce takes.
-/

namespace LlmkubeRuntimes.Prefill

/-- What `resolve_min_rows` reads of the configuration. -/
structure VllmConfig where
  tensorParallelSize : Nat
  pipelineParallelSize : Nat
  useRequestBoundaryCheckpoints : Bool
  maxCudagraphCaptureSize : Option Nat
  maxNumSeqs : Nat
  numSpeculativeTokens : Option Nat
  hiddenSize : Nat
  itemsize : Nat

/-- The RoCE all-reduce of the TP group. -/
structure B12xRoceAllReduce where
  disabled : Bool
  maxSize : Nat

/-- The largest message `should_custom_ar` accepts; `0` when disabled. -/
def B12xRoceAllReduce.allReduceMaxBytes (comm : B12xRoceAllReduce) : Nat :=
  if comm.disabled then 0 else comm.maxSize

/-- The communicators of the process: the RoCE one of the group, if there is one. -/
structure Communicators where
  initialized : Bool
  b12xArComm : Option B12xRoceAllReduce

/-- `_one_shot_all_reduce_max_bytes`. -/
def oneShotAllReduceMaxBytes (comms : Communicators) : Nat :=
  if !comms.initialized then 0
  else
    match comms.b12xArComm with
    | some comm => comm.allReduceMaxBytes
    | none => 0

/-- The fewest tokens whose padded message exceeds `limit` bytes. -/
def rowsAboveBytes (limit rowBytes worldSize : Nat) : Nat :=
  (limit / rowBytes + 1) ⌈/⌉ worldSize * worldSize - worldSize + 1

/-- Why sequence parallelism is off altogether. -/
def offReason (c : VllmConfig) (staticSequenceParallel : Bool) : Option String :=
  if c.tensorParallelSize ≤ 1 then some "tensor parallel size is 1"
  else if c.pipelineParallelSize ≠ 1 then
    some "pipeline parallelism keeps full-row intermediate tensors"
  else if staticSequenceParallel then some "static sequence parallelism is enabled"
  else if c.useRequestBoundaryCheckpoints then some "request boundary checkpoints are enabled"
  else none

/-- The longest forward that decodes. -/
def decodeRows (c : VllmConfig) : Nat :=
  max (max (c.maxCudagraphCaptureSize.getD 0) (c.maxNumSeqs * (1 + c.numSpeculativeTokens.getD 0)))
    c.tensorParallelSize

/-- The smallest forward, in tokens, that runs sequence-parallel; `0` is never. -/
def resolveMinRows (c : VllmConfig) (comms : Communicators) (staticSequenceParallel : Bool) : Nat :=
  if (offReason c staticSequenceParallel).isSome then 0
  else
    let rows := decodeRows c + 1
    let limit := oneShotAllReduceMaxBytes comms
    if 0 < limit then
      max rows (rowsAboveBytes limit (c.hiddenSize * c.itemsize) c.tensorParallelSize)
    else rows

/-- The row layout for a forward of `numTokens` tokens, or `none`. -/
def planRows (numTokens minRows worldSize rank : Nat) : Except RowError (Option SPRows) :=
  if minRows = 0 ∨ worldSize ≤ 1 ∨ numTokens < minRows then .ok none
  else if rank < worldSize then .ok (some ⟨numTokens, worldSize, rank⟩)
  else .error (.rank rank worldSize)

/-! ## The threshold is exact -/

/-- **`rows_above_bytes` is the first forward whose padded message exceeds the limit.** -/
theorem rowsAboveBytes_le_iff {limit rowBytes world T : Nat} (hrow : 0 < rowBytes)
    (hworld : 0 < world) :
    rowsAboveBytes limit rowBytes world ≤ T ↔
      limit < SPRows.paddedRows ⟨T, world, 0⟩ * rowBytes := by
  -- `m` ranks' worth of rows are the first to exceed the limit.
  obtain ⟨m, hm⟩ : ∃ m, (limit / rowBytes + 1) ⌈/⌉ world = m + 1 := by
    refine Nat.exists_eq_succ_of_ne_zero fun h0 => ?_
    have hle := (ceilDiv_le_iff_le_mul hworld).1 (Nat.le_of_eq h0)
    rw [Nat.mul_zero] at hle
    exact Nat.not_succ_le_zero _ hle
  have hfirst : rowsAboveBytes limit rowBytes world = world * m + 1 := by
    rw [rowsAboveBytes, hm, Nat.succ_mul, Nat.add_sub_cancel, Nat.mul_comm]
  calc rowsAboveBytes limit rowBytes world ≤ T
      ↔ ¬ T ≤ world * m := by
        rw [hfirst]
        omega
    _ ↔ ¬ T ⌈/⌉ world ≤ m := by rw [ceilDiv_le_iff_le_mul hworld]
    _ ↔ (limit / rowBytes + 1) ⌈/⌉ world ≤ T ⌈/⌉ world := by
        rw [hm]
        omega
    _ ↔ limit / rowBytes + 1 ≤ world * (T ⌈/⌉ world) := ceilDiv_le_iff_le_mul hworld
    _ ↔ limit / rowBytes < SPRows.paddedRows ⟨T, world, 0⟩ := by
        rw [SPRows.paddedRows, Nat.mul_comm, Nat.succ_le_iff]
    _ ↔ limit < SPRows.paddedRows ⟨T, world, 0⟩ * rowBytes := Nat.div_lt_iff_lt_mul hrow

theorem offReason_eq_none {c : VllmConfig} {static : Bool} :
    offReason c static = none ↔ 1 < c.tensorParallelSize ∧ c.pipelineParallelSize = 1 ∧
      static = false ∧ c.useRequestBoundaryCheckpoints = false := by
  unfold offReason
  split_ifs <;> simp_all

theorem lt_decodeRows_iff {c : VllmConfig} {T : Nat} :
    decodeRows c < T ↔ c.maxCudagraphCaptureSize.getD 0 < T ∧
      c.maxNumSeqs * (1 + c.numSpeculativeTokens.getD 0) < T ∧ c.tensorParallelSize < T := by
  rw [decodeRows, Nat.max_lt, Nat.max_lt, and_assoc]

theorem resolveMinRows_le_iff {c : VllmConfig} {comms : Communicators} {static : Bool} {T : Nat}
    (hrow : 0 < c.hiddenSize * c.itemsize) (hoff : offReason c static = none) :
    resolveMinRows c comms static ≤ T ↔ decodeRows c < T ∧
      (0 < oneShotAllReduceMaxBytes comms → oneShotAllReduceMaxBytes comms <
        SPRows.paddedRows ⟨T, c.tensorParallelSize, 0⟩ * (c.hiddenSize * c.itemsize)) := by
  have hworld : 0 < c.tensorParallelSize := Nat.lt_of_succ_lt (offReason_eq_none.1 hoff).1
  simp only [resolveMinRows, hoff, Option.isSome_none, Bool.false_eq_true, if_false]
  split
  · next hlimit => simp only [Nat.max_le, rowsAboveBytes_le_iff hrow hworld, Nat.succ_le_iff, hlimit,
      true_implies]
  · next hlimit => simp only [hlimit, false_implies, and_true, Nat.succ_le_iff]

/-- When a forward of `T` tokens pays for its gathers: the group can run sequence-parallel, the
forward is longer than every one that decodes, and the one-shot all-reduce refuses its padded
hidden-state message. -/
structure Pays (c : VllmConfig) (comms : Communicators) (static : Bool) (T : Nat) : Prop where
  tensorParallel : 1 < c.tensorParallelSize
  pipeline : c.pipelineParallelSize = 1
  dynamic : static = false
  boundary : c.useRequestBoundaryCheckpoints = false
  graphs : c.maxCudagraphCaptureSize.getD 0 < T
  decode : c.maxNumSeqs * (1 + c.numSpeculativeTokens.getD 0) < T
  ranks : c.tensorParallelSize < T
  scatters : 0 < oneShotAllReduceMaxBytes comms → oneShotAllReduceMaxBytes comms <
    SPRows.paddedRows ⟨T, c.tensorParallelSize, 0⟩ * (c.hiddenSize * c.itemsize)

theorem pays_iff {c : VllmConfig} {comms : Communicators} {static : Bool} {T : Nat}
    (hrow : 0 < c.hiddenSize * c.itemsize) :
    Pays c comms static T ↔
      offReason c static = none ∧ resolveMinRows c comms static ≤ T := by
  constructor
  · intro h
    have hoff := offReason_eq_none.2 ⟨h.tensorParallel, h.pipeline, h.dynamic, h.boundary⟩
    refine ⟨hoff, (resolveMinRows_le_iff hrow hoff).2 ⟨?_, h.scatters⟩⟩
    exact lt_decodeRows_iff.2 ⟨h.graphs, h.decode, h.ranks⟩
  · rintro ⟨hoff, hle⟩
    obtain ⟨hlong, hscatters⟩ := (resolveMinRows_le_iff hrow hoff).1 hle
    obtain ⟨hgraphs, hdecode, hranks⟩ := lt_decodeRows_iff.1 hlong
    obtain ⟨htp, hpp, hstatic, hboundary⟩ := offReason_eq_none.1 hoff
    exact ⟨htp, hpp, hstatic, hboundary, hgraphs, hdecode, hranks, hscatters⟩

/-- **Which forwards run sequence-parallel**: on every rank alike, exactly those that pay. -/
theorem planRows_resolveMinRows (c : VllmConfig) (comms : Communicators) (static : Bool)
    (T rank : Nat) (hrow : 0 < c.hiddenSize * c.itemsize) (hrank : rank < c.tensorParallelSize) :
    (Pays c comms static T →
      planRows T (resolveMinRows c comms static) c.tensorParallelSize rank =
        .ok (some ⟨T, c.tensorParallelSize, rank⟩)) ∧
    (¬ Pays c comms static T →
      planRows T (resolveMinRows c comms static) c.tensorParallelSize rank = .ok none) := by
  rw [pays_iff hrow]
  rcases hoff : offReason c static with _ | reason
  · have hworld : ¬ c.tensorParallelSize ≤ 1 := Nat.not_le.2 (offReason_eq_none.1 hoff).1
    have hpos : resolveMinRows c comms static ≠ 0 := by
      intro h0
      have hle := ((resolveMinRows_le_iff (T := 0) hrow hoff).1 (Nat.le_of_eq h0)).1
      exact Nat.not_lt_zero _ hle
    constructor
    · rintro ⟨-, hT⟩
      have hlong : ¬ T < resolveMinRows c comms static := Nat.not_lt.2 hT
      rw [planRows, if_neg (by simp only [hpos, hworld, hlong, or_self, not_false_iff]),
        if_pos hrank]
    · intro hT
      rw [planRows, if_pos (Or.inr (Or.inr (Nat.not_le.1 fun hle => hT ⟨rfl, hle⟩)))]
  · have h0 : resolveMinRows c comms static = 0 := by
      rw [resolveMinRows, hoff, Option.isSome_some, if_pos rfl]
    refine ⟨fun h => absurd h.1 (Option.some_ne_none reason), fun _ => ?_⟩
    rw [planRows, if_pos (Or.inl h0)]

/-- 5120 `bfloat16` columns over three ranks and a 2 MiB all-reduce. -/
def spark : VllmConfig := ⟨3, 1, false, some 48, 8, some 5, 5120, 2⟩

/-- 205 tokens are padded to 207 rows, the first message the all-reduce refuses. -/
theorem planRows_spark :
    (Pays spark ⟨true, some ⟨false, 2 ^ 21⟩⟩ false 205 →
      planRows 205 (resolveMinRows spark ⟨true, some ⟨false, 2 ^ 21⟩⟩ false) 3 1 =
        .ok (some ⟨205, 3, 1⟩)) ∧
    (¬ Pays spark ⟨true, some ⟨false, 2 ^ 21⟩⟩ false 205 →
      planRows 205 (resolveMinRows spark ⟨true, some ⟨false, 2 ^ 21⟩⟩ false) 3 1 = .ok none) :=
  planRows_resolveMinRows spark _ false 205 1 (by decide) (by decide)

end LlmkubeRuntimes.Prefill
