import Mathlib.Data.Nat.ModEq
import Mathlib.Data.List.Nodup
import LlmkubeRuntimes.Lib.Traverse

/-!
# Slots of token positions

A position's slot is in a block of its request's row of the block table. With context
parallelism a virtual block is one KV block on every rank, its tokens dealt out in
runs.

* `Kernel`: what the slot-mapping kernel computes of a position;
* `place_bijective`: every position is at one place of one rank, and every place is
  some position's;
* `circularSlotIds`, `countOverruns`: slots with or without the clamp to the row;
* `circularSlotIds_clamp`: the clamp changes nothing unless the row is overrun, and
  makes a ring of a row with one block.
-/

namespace LlmkubeRuntimes.Glm53

/-! ## The kernel -/

/-- The constants of the kernel. A KV block is whole kernel blocks and whole runs. -/
structure Kernel where
  blockSize : Nat
  kvCacheBlockSize : Nat
  blocksPerKvBlock : Nat
  totalCpWorldSize : Nat
  cpKvCacheInterleaveSize : Nat
  blockSize_pos : 0 < blockSize
  blocks_pos : 0 < blocksPerKvBlock
  world_pos : 0 < totalCpWorldSize
  interleave_pos : 0 < cpKvCacheInterleaveSize
  kvCacheBlockSize_eq : kvCacheBlockSize = blocksPerKvBlock * blockSize
  interleave_dvd : cpKvCacheInterleaveSize ∣ kvCacheBlockSize

namespace Kernel

variable (k : Kernel)

def virtualBlockSize : Nat := k.kvCacheBlockSize * k.totalCpWorldSize

def virtualBlockIndices (pos : Nat) : Nat := pos / k.virtualBlockSize

def virtualBlockOffsets (pos : Nat) : Nat := pos - k.virtualBlockIndices pos * k.virtualBlockSize

def isLocal (rank pos : Nat) : Prop :=
  k.virtualBlockOffsets pos / k.cpKvCacheInterleaveSize % k.totalCpWorldSize = rank

instance (rank pos : Nat) : Decidable (k.isLocal rank pos) := inferInstanceAs (Decidable (_ = _))

def localBlockOffsets (pos : Nat) : Nat :=
  k.virtualBlockOffsets pos / (k.totalCpWorldSize * k.cpKvCacheInterleaveSize) *
    k.cpKvCacheInterleaveSize + k.virtualBlockOffsets pos % k.cpKvCacheInterleaveSize

def blockIndices (pos : Nat) : Nat :=
  k.virtualBlockIndices pos * k.blocksPerKvBlock + k.localBlockOffsets pos / k.blockSize

/-- The index in the row, never past it. -/
def clampedIndices (blockTableStride pos : Nat) : Nat :=
  min (k.blockIndices pos) (blockTableStride - 1)

variable {k}

theorem virtualBlockOffsets_eq (pos : Nat) :
    k.virtualBlockOffsets pos = pos % k.virtualBlockSize := by
  have hdiv := Nat.div_add_mod' pos k.virtualBlockSize
  rw [virtualBlockOffsets, virtualBlockIndices]
  omega

/-- The runs of the rank in front of the offset, and the place in the offset's run. -/
theorem localBlockOffsets_div_mod (pos : Nat) :
    k.localBlockOffsets pos / k.cpKvCacheInterleaveSize =
        k.virtualBlockOffsets pos / k.cpKvCacheInterleaveSize / k.totalCpWorldSize ∧
      k.localBlockOffsets pos % k.cpKvCacheInterleaveSize =
        k.virtualBlockOffsets pos % k.cpKvCacheInterleaveSize := by
  have hlt := Nat.mod_lt (k.virtualBlockOffsets pos) k.interleave_pos
  rw [localBlockOffsets, Nat.mul_comm k.totalCpWorldSize, ← Nat.div_div_eq_div_mul]
  constructor
  · rw [Nat.mul_comm, Nat.mul_add_div k.interleave_pos, Nat.div_eq_of_lt hlt, Nat.add_zero]
  · rw [Nat.mul_comm, Nat.mul_add_mod, Nat.mod_eq_of_lt hlt]

/-- An offset is the rank's turn in a round of runs. -/
theorem virtualBlockOffsets_of_place (pos : Nat) :
    k.virtualBlockOffsets pos =
      (k.localBlockOffsets pos / k.cpKvCacheInterleaveSize * k.totalCpWorldSize +
        k.virtualBlockOffsets pos / k.cpKvCacheInterleaveSize % k.totalCpWorldSize) *
          k.cpKvCacheInterleaveSize +
        k.localBlockOffsets pos % k.cpKvCacheInterleaveSize := by
  obtain ⟨hdiv, hmod⟩ := localBlockOffsets_div_mod (k := k) pos
  rw [hdiv, hmod, Nat.div_add_mod', Nat.div_add_mod']

/-- The position at offset `l` of a rank's part of virtual block `v`. -/
def positionOf (k : Kernel) (rank v l : Nat) : Nat :=
  v * k.virtualBlockSize + ((l / k.cpKvCacheInterleaveSize * k.totalCpWorldSize + rank) *
    k.cpKvCacheInterleaveSize + l % k.cpKvCacheInterleaveSize)

theorem eq_positionOf {rank pos : Nat} (h : k.isLocal rank pos) :
    pos = k.positionOf rank (k.virtualBlockIndices pos) (k.localBlockOffsets pos) := by
  have hoffset := virtualBlockOffsets_of_place (k := k) pos
  rw [h] at hoffset
  rw [positionOf, ← hoffset, virtualBlockOffsets_eq, virtualBlockIndices, Nat.div_add_mod']

section Place

variable {rank v l : Nat}

theorem offset_lt (hrank : rank < k.totalCpWorldSize) (hl : l < k.kvCacheBlockSize) :
    (l / k.cpKvCacheInterleaveSize * k.totalCpWorldSize + rank) * k.cpKvCacheInterleaveSize +
      l % k.cpKvCacheInterleaveSize < k.virtualBlockSize := by
  obtain ⟨rounds, hrounds⟩ := k.interleave_dvd
  have hmod := Nat.mod_lt l k.interleave_pos
  have hround : l / k.cpKvCacheInterleaveSize + 1 ≤ rounds := by
    refine (Nat.div_lt_iff_lt_mul k.interleave_pos).2 ?_
    rw [Nat.mul_comm, ← hrounds]
    exact hl
  have hturns : l / k.cpKvCacheInterleaveSize * k.totalCpWorldSize + rank + 1 ≤
      rounds * k.totalCpWorldSize := by
    have := Nat.mul_le_mul_right k.totalCpWorldSize hround
    rw [Nat.succ_mul] at this
    omega
  have := Nat.mul_le_mul_right k.cpKvCacheInterleaveSize hturns
  rw [Nat.succ_mul] at this
  rw [virtualBlockSize, hrounds, Nat.mul_comm k.cpKvCacheInterleaveSize, Nat.mul_right_comm]
  omega

theorem positionOf_place (hrank : rank < k.totalCpWorldSize) (hl : l < k.kvCacheBlockSize) :
    k.isLocal rank (k.positionOf rank v l) ∧ k.virtualBlockIndices (k.positionOf rank v l) = v ∧
      k.localBlockOffsets (k.positionOf rank v l) = l := by
  have hlt := offset_lt hrank hl
  have hmod := Nat.mod_lt l k.interleave_pos
  have hpos : 0 < k.virtualBlockSize := Nat.zero_lt_of_lt hlt
  have hoffset : k.virtualBlockOffsets (k.positionOf rank v l) =
      (l / k.cpKvCacheInterleaveSize * k.totalCpWorldSize + rank) * k.cpKvCacheInterleaveSize +
        l % k.cpKvCacheInterleaveSize := by
    rw [virtualBlockOffsets_eq, positionOf, Nat.mul_add_mod_of_lt hlt]
  have hrun : k.virtualBlockOffsets (k.positionOf rank v l) / k.cpKvCacheInterleaveSize =
      l / k.cpKvCacheInterleaveSize * k.totalCpWorldSize + rank := by
    rw [hoffset, Nat.mul_comm, Nat.mul_add_div k.interleave_pos, Nat.div_eq_of_lt hmod,
      Nat.add_zero]
  refine ⟨?_, ?_, ?_⟩
  · rw [isLocal, hrun, Nat.mul_comm, Nat.mul_add_mod, Nat.mod_eq_of_lt hrank]
  · rw [virtualBlockIndices, positionOf, Nat.mul_comm, Nat.mul_add_div hpos, Nat.div_eq_of_lt hlt,
      Nat.add_zero]
  · rw [localBlockOffsets, Nat.mul_comm k.totalCpWorldSize, ← Nat.div_div_eq_div_mul, hrun, hoffset,
      Nat.mul_add_mod_of_lt hmod, Nat.mul_comm (l / k.cpKvCacheInterleaveSize),
      Nat.mul_add_div k.world_pos, Nat.div_eq_of_lt hrank, Nat.add_zero, Nat.div_add_mod']

end Place

/-- The kernel block and the offset in it are the virtual block and the offset in the rank's
part. -/
theorem blockIndices_div_mod {pos : Nat} (h : k.localBlockOffsets pos < k.kvCacheBlockSize) :
    k.virtualBlockIndices pos = k.blockIndices pos / k.blocksPerKvBlock ∧
      k.localBlockOffsets pos = k.blockIndices pos % k.blocksPerKvBlock * k.blockSize +
        k.localBlockOffsets pos % k.blockSize := by
  have hlt : k.localBlockOffsets pos / k.blockSize < k.blocksPerKvBlock := by
    rw [Nat.div_lt_iff_lt_mul k.blockSize_pos, ← k.kvCacheBlockSize_eq]
    exact h
  have hpos := Nat.zero_lt_of_lt hlt
  constructor
  · rw [blockIndices, Nat.mul_comm, Nat.mul_add_div hpos, Nat.div_eq_of_lt hlt, Nat.add_zero]
  · rw [blockIndices, Nat.mul_add_mod_of_lt hlt, Nat.div_add_mod']

theorem localBlockOffsets_lt (pos : Nat) : k.localBlockOffsets pos < k.kvCacheBlockSize := by
  obtain ⟨rounds, hrounds⟩ := k.interleave_dvd
  have hmod := Nat.mod_lt (k.virtualBlockOffsets pos) k.interleave_pos
  have hvirtual : k.virtualBlockSize =
      k.totalCpWorldSize * k.cpKvCacheInterleaveSize * rounds := by
    rw [virtualBlockSize, hrounds, Nat.mul_comm, Nat.mul_assoc]
  have hpos : 0 < k.virtualBlockSize := by
    rw [virtualBlockSize, k.kvCacheBlockSize_eq]
    exact Nat.mul_pos (Nat.mul_pos k.blocks_pos k.blockSize_pos) k.world_pos
  have hround : k.virtualBlockOffsets pos /
      (k.totalCpWorldSize * k.cpKvCacheInterleaveSize) + 1 ≤ rounds := by
    refine Nat.div_lt_of_lt_mul ?_
    rw [← hvirtual, virtualBlockOffsets_eq]
    exact Nat.mod_lt pos hpos
  have := Nat.mul_le_mul_right k.cpKvCacheInterleaveSize hround
  rw [Nat.succ_mul, Nat.mul_comm rounds, ← hrounds] at this
  rw [localBlockOffsets]
  omega

/-- **Every position is at one place of one rank**, and every place of a rank, an offset in a
kernel block of its row, is exactly one position's; what the clamp leaves is in the row. -/
theorem place_bijective (k : Kernel) :
    (∀ pos, ∃! rank, rank < k.totalCpWorldSize ∧ k.isLocal rank pos) ∧
    (∀ rank idx offset, rank < k.totalCpWorldSize → offset < k.blockSize →
      ∃! pos, k.isLocal rank pos ∧ k.blockIndices pos = idx ∧
        k.localBlockOffsets pos % k.blockSize = offset) ∧
    ∀ stride pos, 0 < stride → k.clampedIndices stride pos < stride ∧
      (k.blockIndices pos < stride → k.clampedIndices stride pos = k.blockIndices pos) := by
  refine ⟨fun pos => ⟨_, ⟨Nat.mod_lt _ k.world_pos, rfl⟩, fun rank h => h.2.symm⟩,
    fun rank idx offset hrank hoffset => ?_, fun stride pos hstride => ⟨?_, fun hidx => ?_⟩⟩
  · have hlocal : idx % k.blocksPerKvBlock * k.blockSize + offset < k.kvCacheBlockSize := by
      have := Nat.mul_le_mul_right k.blockSize (Nat.succ_le_of_lt (Nat.mod_lt idx k.blocks_pos))
      rw [Nat.succ_mul] at this
      rw [k.kvCacheBlockSize_eq]
      omega
    obtain ⟨hrun, hvirtual, hoff⟩ :=
      positionOf_place (v := idx / k.blocksPerKvBlock) hrank hlocal
    refine ⟨k.positionOf rank (idx / k.blocksPerKvBlock)
      (idx % k.blocksPerKvBlock * k.blockSize + offset), ⟨hrun, ?_, ?_⟩, ?_⟩
    · rw [blockIndices, hvirtual, hoff, Nat.mul_comm (idx % _), Nat.mul_add_div k.blockSize_pos,
        Nat.div_eq_of_lt hoffset, Nat.add_zero, Nat.div_add_mod']
    · rw [hoff, Nat.mul_add_mod_of_lt hoffset]
    · rintro pos ⟨hpos, rfl, rfl⟩
      obtain ⟨hv, hl⟩ := blockIndices_div_mod (localBlockOffsets_lt (k := k) pos)
      rw [← hv, ← hl]
      exact eq_positionOf hpos
  · rw [clampedIndices]
    omega
  · rw [clampedIndices]
    omega

/-- Two ranks that take turns of two tokens. -/
def twoRanks : Kernel :=
  ⟨4, 8, 2, 2, 2, by decide, by decide, by decide, by decide, rfl, by decide⟩

theorem place_bijective_twoRanks :
    (∃! rank, rank < 2 ∧ twoRanks.isLocal rank 6) ∧
      (∃! pos, twoRanks.isLocal 1 pos ∧ twoRanks.blockIndices pos = 0 ∧
        twoRanks.localBlockOffsets pos % 4 = 2) ∧
      twoRanks.clampedIndices 2 6 = twoRanks.blockIndices 6 :=
  ⟨(place_bijective twoRanks).1 6, (place_bijective twoRanks).2.1 1 0 2 (by decide) (by decide),
    ((place_bijective twoRanks).2.2 2 6 (by decide)).2 (by decide)⟩

/-- Position 6 is the third of the second rank's part. -/
example : twoRanks.isLocal 1 6 ∧ twoRanks.blockIndices 6 = 0 ∧ twoRanks.localBlockOffsets 6 = 2 :=
  ⟨rfl, rfl, rfl⟩

/-- With one rank the place is the quotient and the remainder. -/
theorem place_of_one_rank (h : k.totalCpWorldSize = 1) (pos : Nat) :
    k.blockIndices pos = pos / k.blockSize ∧
      k.localBlockOffsets pos % k.blockSize = pos % k.blockSize := by
  have hlocal : k.localBlockOffsets pos = pos % (k.blockSize * k.blocksPerKvBlock) := by
    rw [localBlockOffsets, h, Nat.one_mul, Nat.div_add_mod', virtualBlockOffsets_eq,
      virtualBlockSize, h, Nat.mul_one, k.kvCacheBlockSize_eq, Nat.mul_comm]
  constructor
  · rw [blockIndices, hlocal, virtualBlockIndices, virtualBlockSize, h, Nat.mul_one,
      k.kvCacheBlockSize_eq, Nat.mul_comm k.blocksPerKvBlock, ← Nat.div_div_eq_div_mul,
      Nat.mod_mul_right_div_self, Nat.div_add_mod']
  · rw [hlocal, Nat.mod_mul_right_mod]

end Kernel

/-! ## The clamp -/

inductive SlotError where
  | valueError (message : String)
  | indexError (message : String)
  | zeroDivisionError (message : String)
  deriving DecidableEq, Repr

/-- `//` and `%` of two integers. -/
def divMod (pos blockSize : Int) : Except SlotError (Int × Int) :=
  if blockSize = 0 then .error (.zeroDivisionError "integer division or modulo by zero")
  else .ok (pos.fdiv blockSize, pos.fmod blockSize)

/-- How many positions are past a row of `stride` blocks. -/
def countOverruns (positions : List Int) (blockSize stride : Int) : Except SlotError Nat :=
  if blockSize < 1 ∨ stride < 1 then .error (.valueError "block_size and stride must be >= 1")
  else .ok (positions.countP fun pos => stride ≤ pos.fdiv blockSize)

/-- `block_table_row[idx]`, where a negative index counts from the end. -/
def rowAt (row : List Int) (idx : Int) : Except SlotError Int :=
  let i := if idx < 0 then idx + row.length else idx
  if i < 0 then .error (.indexError "list index out of range")
  else
    match row[i.toNat]? with
    | none => .error (.indexError "list index out of range")
    | some block => .ok block

/-- The slot of one position. -/
def slotId (row : List Int) (blockSize : Int) (clamp : Bool) (pos : Int) :
    Except SlotError Int := do
  let (idx, offset) ← divMod pos blockSize
  let stride : Int := row.length
  if clamp then
    return (← rowAt row (min idx (stride - 1))) * blockSize + offset
  else if idx < 0 ∨ stride ≤ idx then
    throw (.indexError s!"pos={pos} indexes block {idx} past stride {stride}")
  else
    return (← rowAt row idx) * blockSize + offset

def circularSlotIds (positions row : List Int) (blockSize : Int) (clamp : Bool) :
    Except SlotError (List Int) :=
  if row = [] then .error (.valueError "block_table_row must be non-empty")
  else positions.mapM (slotId row blockSize clamp)

section Clamp

variable {row : List Int} {blockSize : Int} {pos : Int}

/-- The entry of the row that a position is clamped to. -/
def entryOf (row : List Int) (blockSize pos : Int) : Nat :=
  let idx := min (pos.fdiv blockSize) (row.length - 1)
  (if idx < 0 then idx + row.length else idx).toNat

/-- The clamped slot of a position. -/
def slotOf (row : List Int) (blockSize pos : Int) : Int :=
  row.getD (entryOf row blockSize pos) 0 * blockSize + pos.fmod blockSize

/-- The position is not more than a row before zero. -/
def Reaches (row : List Int) (blockSize pos : Int) : Prop := -row.length ≤ pos.fdiv blockSize

theorem entryOf_lt (hrow : row ≠ []) (h : Reaches row blockSize pos) :
    entryOf row blockSize pos < row.length := by
  have hlen := List.length_pos_iff.2 hrow
  have hreach : -row.length ≤ pos.fdiv blockSize := h
  unfold entryOf
  dsimp only
  split <;> omega

/-- A clamped index that reaches the row names its entry. -/
theorem rowAt_clamped (hrow : row ≠ []) (h : Reaches row blockSize pos) :
    rowAt row (min (pos.fdiv blockSize) (row.length - 1)) =
      .ok (row.getD (entryOf row blockSize pos) 0) := by
  have hlt := entryOf_lt hrow h
  unfold rowAt
  unfold entryOf at hlt ⊢
  unfold Reaches at h
  dsimp only at hlt ⊢
  rw [if_neg (by split <;> omega), List.getElem?_eq_getElem hlt, List.getD_eq_getElem?_getD,
    List.getElem?_eq_getElem hlt]
  rfl

theorem slotId_clamp (hsize : blockSize ≠ 0) (hrow : row ≠ []) (h : Reaches row blockSize pos) :
    slotId row blockSize true pos = .ok (slotOf row blockSize pos) := by
  simp only [slotId, divMod, if_neg hsize, bind, Except.bind, if_true, rowAt_clamped hrow h]
  rfl

/-- A position further before zero is past the front of the row. -/
theorem slotId_clamp_error (hsize : blockSize ≠ 0) (h : ¬ Reaches row blockSize pos) :
    ∃ e, slotId row blockSize true pos = .error e := by
  have hrowAt : rowAt row (min (pos.fdiv blockSize) (row.length - 1)) =
      .error (.indexError "list index out of range") := by
    unfold Reaches at h
    exact if_pos (by split <;> omega)
  simp only [slotId, divMod, if_neg hsize, bind, Except.bind, if_true, hrowAt]
  exact ⟨_, rfl⟩

/-- Within the row the clamp makes no difference. -/
theorem slotId_plain (hsize : blockSize ≠ 0) (h : 0 ≤ pos.fdiv blockSize)
    (hover : pos.fdiv blockSize < row.length) :
    slotId row blockSize false pos = .ok (slotOf row blockSize pos) := by
  have hrow : row ≠ [] := by
    rintro rfl
    rw [List.length_nil] at hover
    omega
  have hmin : min (pos.fdiv blockSize) (row.length - 1) = pos.fdiv blockSize := by omega
  have hrowAt := rowAt_clamped hrow (show Reaches row blockSize pos by
    unfold Reaches
    omega)
  rw [hmin] at hrowAt
  simp only [slotId, divMod, if_neg hsize, bind, Except.bind, Bool.false_eq_true, if_false,
    if_neg (show ¬ (pos.fdiv blockSize < 0 ∨ row.length ≤ pos.fdiv blockSize) by omega), hrowAt]
  rfl

theorem slotId_plain_error (hsize : blockSize ≠ 0)
    (h : pos.fdiv blockSize < 0 ∨ row.length ≤ pos.fdiv blockSize) :
    ∃ e, slotId row blockSize false pos = .error e := by
  simp only [slotId, divMod, if_neg hsize, bind, Except.bind, Bool.false_eq_true, if_false,
    if_pos h]
  exact ⟨_, rfl⟩

/-- The replica's clamped slot is the kernel's with one rank. -/
theorem slotOf_eq_kernel {k : Kernel} (h : k.totalCpWorldSize = 1) (hrow : row ≠ []) (pos : Nat) :
    slotOf row k.blockSize pos = row.getD (k.clampedIndices row.length pos) 0 * k.blockSize +
      (k.localBlockOffsets pos % k.blockSize : Nat) := by
  obtain ⟨hidx, hoffset⟩ := Kernel.place_of_one_rank h pos
  have hlen := List.length_pos_iff.2 hrow
  have hentry : entryOf row k.blockSize pos = k.clampedIndices row.length pos := by
    rw [entryOf, Kernel.clampedIndices, hidx, ← Int.ofNat_fdiv]
    rw [if_neg (by omega)]
    omega
  rw [slotOf, hentry, hoffset, Int.ofNat_fmod]

/-- In a row of different blocks a slot tells the entry and the offset in the block. -/
theorem slotOf_eq_iff (hsize : 0 < blockSize) (hnodup : row.Nodup) {pos' : Int}
    (hlt : entryOf row blockSize pos < row.length)
    (hlt' : entryOf row blockSize pos' < row.length) :
    slotOf row blockSize pos = slotOf row blockSize pos' ↔
      pos.fmod blockSize = pos'.fmod blockSize ∧
        entryOf row blockSize pos = entryOf row blockSize pos' := by
  have hget (q : Int) (hq : entryOf row blockSize q < row.length) :
      slotOf row blockSize q =
        row.get ⟨entryOf row blockSize q, hq⟩ * blockSize + q.fmod blockSize := by
    rw [slotOf, List.getD_eq_getElem?_getD, List.getElem?_eq_getElem hq, Option.getD_some,
      List.get_eq_getElem]
  have hmod (q : Int) : 0 ≤ q.fmod blockSize ∧ q.fmod blockSize < blockSize :=
    ⟨Int.fmod_nonneg_of_pos q hsize, Int.fmod_lt_of_pos q hsize⟩
  rw [hget pos hlt, hget pos' hlt']
  constructor
  · intro heq
    have hoffset : pos.fmod blockSize = pos'.fmod blockSize := by
      have := congrArg (Int.fmod · blockSize) heq
      simpa only [Int.mul_add_fmod_self_right, Int.fmod_fmod] using this
    have hentry : row.get ⟨_, hlt⟩ = row.get ⟨_, hlt'⟩ := by
      rw [hoffset, Int.add_left_inj] at heq
      exact Int.eq_of_mul_eq_mul_right (Int.ne_of_gt hsize) heq
    exact ⟨hoffset, Fin.mk.inj (List.nodup_iff_injective_get.1 hnodup hentry)⟩
  · rintro ⟨hoffset, hentry⟩
    simp only [hoffset, hentry]

/-- **The clamp fails only for a position more than a row before zero**, and changes nothing
unless a position is negative or overruns the row, where without it the mapping raises. In a row
of different blocks two positions share a clamped slot exactly when they are as far into a block
and clamped to the same entry, which in a row of one block they always are. -/
theorem circularSlotIds_clamp (positions : List Int) (hsize : 0 < blockSize) (hrow : row ≠ []) :
    ∃ n : Nat, countOverruns positions blockSize row.length = .ok n ∧
      ((∃ p ∈ positions, p.fdiv blockSize < -row.length) →
        ∃ e, circularSlotIds positions row blockSize true = .error e) ∧
      ((∃ p ∈ positions, p < 0) ∨ n ≠ 0 →
        ∃ e, circularSlotIds positions row blockSize false = .error e) ∧
      ((∀ p ∈ positions, -row.length ≤ p.fdiv blockSize) → ∃ slots,
        circularSlotIds positions row blockSize true = .ok slots ∧
        ((∀ p ∈ positions, 0 ≤ p) → n = 0 →
          circularSlotIds positions row blockSize false = .ok slots) ∧
        (row.Nodup → ∀ (i j : Nat) (p p' s s' : Int), positions[i]? = some p →
          positions[j]? = some p' → slots[i]? = some s → slots[j]? = some s' →
          (s = s' ↔ p.fmod blockSize = p'.fmod blockSize ∧
            entryOf row blockSize p = entryOf row blockSize p'))) := by
  have hlen := List.length_pos_iff.2 hrow
  have hne : blockSize ≠ 0 := Int.ne_of_gt hsize
  have hneg : ∀ p : Int, p.fdiv blockSize < 0 ↔ p < 0 := fun p => by
    refine ⟨fun h => Int.not_le.1 fun hp => ?_, fun h => Int.fdiv_neg_of_neg_of_pos h hsize⟩
    have := Int.fdiv_nonneg hp (Int.le_of_lt hsize)
    omega
  have hloop : ∀ clamp, circularSlotIds positions row blockSize clamp =
      positions.mapM (slotId row blockSize clamp) := fun clamp => if_neg hrow
  refine ⟨_, if_neg (by omega), ?short, ?raises, fun hreach => ?slots⟩
  case short =>
    rintro ⟨p, hp, hshort⟩
    rw [hloop]
    exact Lib.mapM_error hp (slotId_clamp_error hne (by unfold Reaches; omega))
  case raises =>
    intro h
    obtain ⟨p, hp, hbad⟩ : ∃ p ∈ positions,
        p.fdiv blockSize < 0 ∨ row.length ≤ p.fdiv blockSize := by
      rcases h with ⟨p, hp, hlt⟩ | hover
      · exact ⟨p, hp, .inl ((hneg p).2 hlt)⟩
      · obtain ⟨p, hp, hle⟩ := List.countP_pos_iff.1 (Nat.pos_of_ne_zero hover)
        exact ⟨p, hp, .inr (of_decide_eq_true hle)⟩
    rw [hloop]
    exact Lib.mapM_error hp (slotId_plain_error hne hbad)
  case slots =>
    refine ⟨positions.map (slotOf row blockSize), ?_, fun hpos hover => ?_, ?_⟩
    · rw [hloop, Lib.mapM_ok fun p hp => slotId_clamp hne hrow (hreach p hp)]
    · have hin : ∀ p ∈ positions, p.fdiv blockSize < row.length := fun p hp => by
        have := List.countP_eq_zero.1 hover p hp
        simpa using this
      rw [hloop, Lib.mapM_ok fun p hp => slotId_plain hne ?_ (hin p hp)]
      exact Int.not_lt.1 (mt (hneg p).1 (Int.not_lt.2 (hpos p hp)))
    · intro hnodup i j p p' s s' hp hp' hs hs'
      rw [List.getElem?_map, hp, Option.map_some, Option.some.injEq] at hs
      rw [List.getElem?_map, hp', Option.map_some, Option.some.injEq] at hs'
      subst hs hs'
      exact slotOf_eq_iff hsize hnodup (entryOf_lt hrow (hreach p (List.mem_of_getElem? hp)))
        (entryOf_lt hrow (hreach p' (List.mem_of_getElem? hp')))

end Clamp

/-- A ring of four slots: positions -1, 1 and 5 are in its one block, the last past the row. -/
theorem circularSlotIds_clamp_ring :
    let positions : List Int := [-1, 1, 5]
    let row : List Int := [17]
    ∃ n : Nat, countOverruns positions 4 row.length = .ok n ∧
      ((∃ p ∈ positions, p.fdiv 4 < -row.length) →
        ∃ e, circularSlotIds positions row 4 true = .error e) ∧
      ((∃ p ∈ positions, p < 0) ∨ n ≠ 0 →
        ∃ e, circularSlotIds positions row 4 false = .error e) ∧
      ((∀ p ∈ positions, -row.length ≤ p.fdiv 4) → ∃ slots,
        circularSlotIds positions row 4 true = .ok slots ∧
        ((∀ p ∈ positions, 0 ≤ p) → n = 0 →
          circularSlotIds positions row 4 false = .ok slots) ∧
        (row.Nodup → ∀ (i j : Nat) (p p' s s' : Int), positions[i]? = some p →
          positions[j]? = some p' → slots[i]? = some s → slots[j]? = some s' →
          (s = s' ↔ p.fmod 4 = p'.fmod 4 ∧ entryOf row 4 p = entryOf row 4 p'))) :=
  circularSlotIds_clamp [-1, 1, 5] (by decide) (List.cons_ne_nil 17 [])

end LlmkubeRuntimes.Glm53
