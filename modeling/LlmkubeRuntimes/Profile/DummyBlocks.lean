import Mathlib.Algebra.Order.Floor.Div
import Mathlib.Data.Nat.ModEq
import LlmkubeRuntimes.Lib.Shards

/-!
# Blocks of dummy requests

Every KV cache group draws from one pool of blocks, block 0 being the reserved
null block, and the groups overlay the same memory.

* `assignDummyBlocks`: each group takes its own slice of the pool, each request
  its own whole blocks within the slice, wrapping inside it;
* `entry_assignDummyBlocks`: what stands in the tables afterwards;
* `dummyBlocks_owned`: no entry is in the null block, no two groups share a block,
  and no two requests of a group do unless the slice is too small for them.
-/

namespace LlmkubeRuntimes.Profile

open LlmkubeRuntimes.Lib

/-- The block table of a KV cache group: a row of kernel block ids for each request. -/
structure BlockTable where
  width : Nat
  rows : List (List Int)
  kernelBlockSize : Nat
  blocksPerKvBlock : Nat
  rows_width : ∀ row ∈ rows, row.length = width
  kernelBlockSize_pos : 0 < kernelBlockSize
  blocksPerKvBlock_pos : 0 < blocksPerKvBlock

namespace BlockTable

variable (t : BlockTable)

/-- Kernel blocks of a request of `seqLen` tokens, as far as the table has room. -/
def numBlocks (seqLen : Nat) : Nat := min (seqLen ⌈/⌉ t.kernelBlockSize) t.width

/-- KV blocks of a request. -/
def kvBlocks (seqLen : Nat) : Nat := t.numBlocks seqLen ⌈/⌉ t.blocksPerKvBlock

def entry (request column : Nat) : Option Int := t.rows[request]?.bind (·[column]?)

end BlockTable

/-- The KV block of position `offset` of a group, in its slice of `share` blocks. -/
def kvId (usable share group offset : Nat) : Nat := (group * share + offset % share) % usable + 1

/-- The kernel blocks of the group's requests, one request after the other. -/
def kernelIds (usable share group numReqs kvBlocks bpk : Nat) : List Int :=
  ((List.range (numReqs * kvBlocks)).map fun offset =>
    (List.range bpk).map fun k => ((kvId usable share group offset * bpk + k : Nat) : Int)).flatten

/-- The table with the first columns of the first `numReqs` rows written. -/
def writeGroup (usable share numReqs seqLen group : Nat) (t : BlockTable) : List (List Int) :=
  let kvBlocks := t.kvBlocks seqLen
  let ids := kernelIds usable share group numReqs kvBlocks t.blocksPerKvBlock
  t.rows.mapIdx fun request row =>
    if request < numReqs then
      (chunk (kvBlocks * t.blocksPerKvBlock) ids request).take (t.numBlocks seqLen) ++
        row.drop (t.numBlocks seqLen)
    else row

/-- The tables of all groups, or the error where only the null block is there. -/
def assignDummyBlocks (tables : List BlockTable) (numReqs seqLen numKvBlocks : Nat) :
    Except String (List (List (List Int))) :=
  let usable := numKvBlocks - 1
  if usable < 1 then .error "dummy block layouts need a block besides the null block"
  else
    let share := max (usable / tables.length) 1
    .ok (tables.mapIdx (writeGroup usable share numReqs seqLen))

/-! ## What is written -/

section Written

variable (usable share group seqLen : Nat) {numReqs : Nat}

theorem getElem?_kernelIds {kvBlocks bpk offset k : Nat} (hoffset : offset < numReqs * kvBlocks)
    (hk : k < bpk) :
    (kernelIds usable share group numReqs kvBlocks bpk)[offset * bpk + k]? =
      some ((kvId usable share group offset * bpk + k : Nat) : Int) := by
  have hlists : ∀ ids ∈ (List.range (numReqs * kvBlocks)).map fun offset =>
      (List.range bpk).map fun k => ((kvId usable share group offset * bpk + k : Nat) : Int),
      ids.length = bpk := by
    intro ids hids
    obtain ⟨o, -, rfl⟩ := List.mem_map.1 hids
    rw [List.length_map, List.length_range]
  rw [kernelIds, getElem?_flatten hlists hk, List.getElem?_map, List.getElem?_range hoffset,
    Option.map_some, Option.bind_some, List.getElem?_map, List.getElem?_range hk, Option.map_some]

/-- The KV block an entry is in, and where in it. -/
theorem getElem?_requestRow (t : BlockTable) {request column : Nat} (hreq : request < numReqs)
    (hcol : column < t.numBlocks seqLen) :
    ((chunk (t.kvBlocks seqLen * t.blocksPerKvBlock)
        (kernelIds usable share group numReqs (t.kvBlocks seqLen) t.blocksPerKvBlock)
        request).take (t.numBlocks seqLen))[column]? =
      some ((kvId usable share group
          (request * t.kvBlocks seqLen + column / t.blocksPerKvBlock) * t.blocksPerKvBlock +
        column % t.blocksPerKvBlock : Nat) : Int) := by
  have hbpk := t.blocksPerKvBlock_pos
  have hroom : t.numBlocks seqLen ≤ t.blocksPerKvBlock * t.kvBlocks seqLen :=
    le_smul_ceilDiv hbpk
  have hkv : column / t.blocksPerKvBlock < t.kvBlocks seqLen := by
    rw [Nat.div_lt_iff_lt_mul hbpk, Nat.mul_comm]
    exact lt_of_lt_of_le hcol hroom
  have hoffset : request * t.kvBlocks seqLen + column / t.blocksPerKvBlock <
      numReqs * t.kvBlocks seqLen := by
    have hle : (request + 1) * t.kvBlocks seqLen ≤ numReqs * t.kvBlocks seqLen :=
      Nat.mul_le_mul_right _ hreq
    rw [Nat.succ_mul] at hle
    omega
  have hat : request * (t.kvBlocks seqLen * t.blocksPerKvBlock) + column =
      (request * t.kvBlocks seqLen + column / t.blocksPerKvBlock) * t.blocksPerKvBlock +
        column % t.blocksPerKvBlock := by
    rw [Nat.add_mul, ← Nat.mul_assoc, Nat.add_assoc, Nat.div_add_mod']
  rw [List.getElem?_take_of_lt hcol, getElem?_chunk (by rw [Nat.mul_comm]; omega), hat,
    getElem?_kernelIds _ _ _ hoffset (Nat.mod_lt _ hbpk)]

theorem length_requestRow (t : BlockTable) {request : Nat} (hreq : request < numReqs) :
    ((chunk (t.kvBlocks seqLen * t.blocksPerKvBlock)
        (kernelIds usable share group numReqs (t.kvBlocks seqLen) t.blocksPerKvBlock)
        request).take (t.numBlocks seqLen)).length = t.numBlocks seqLen := by
  refine Nat.le_antisymm (List.length_take_le _ _) (Nat.not_lt.1 fun hlt => ?_)
  have hget := getElem?_requestRow usable share group seqLen t hreq hlt
  rw [List.getElem?_eq_none le_rfl] at hget
  exact Option.some_ne_none _ hget.symm

end Written

/-- An entry of the tables. -/
def entryOf (tables : List (List (List Int))) (group request column : Nat) : Option Int :=
  (tables[group]?.bind (·[request]?)).bind (·[column]?)

/-- The blocks of a group's slice. -/
def slice (tables : List BlockTable) (numKvBlocks : Nat) : Nat :=
  max ((numKvBlocks - 1) / tables.length) 1

/-- Where an entry was written, and what. -/
theorem entry_assignDummyBlocks {tables : List BlockTable} {numReqs seqLen numKvBlocks : Nat}
    {out : List (List (List Int))} (h : assignDummyBlocks tables numReqs seqLen numKvBlocks = .ok out)
    {group : Nat} {t : BlockTable} (ht : tables[group]? = some t) {request : Nat}
    (hreq : request < t.rows.length) (column : Nat) :
    1 < numKvBlocks ∧ entryOf out group request column =
      if request < numReqs ∧ column < t.numBlocks seqLen then
        some ((kvId (numKvBlocks - 1) (slice tables numKvBlocks) group
          (request * t.kvBlocks seqLen + column / t.blocksPerKvBlock) * t.blocksPerKvBlock +
            column % t.blocksPerKvBlock : Nat) : Int)
      else t.entry request column := by
  simp only [assignDummyBlocks] at h
  split at h
  · cases h
  · next husable =>
    cases h
    refine ⟨by omega, ?_⟩
    rw [entryOf, List.getElem?_mapIdx, ht, Option.map_some, Option.bind_some, writeGroup,
      List.getElem?_mapIdx, List.getElem?_eq_getElem hreq, Option.map_some, Option.bind_some,
      BlockTable.entry, List.getElem?_eq_getElem hreq, Option.bind_some]
    have hwidth := t.rows_width _ (List.getElem_mem hreq)
    by_cases hr : request < numReqs
    · have hlen := length_requestRow (numKvBlocks - 1)
        (slice tables numKvBlocks) group seqLen t hr
      rw [if_pos hr]
      by_cases hc : column < t.numBlocks seqLen
      · rw [if_pos ⟨hr, hc⟩, List.getElem?_append_left (by rw [← slice, hlen]; exact hc)]
        exact getElem?_requestRow _ _ _ _ t hr hc
      · rw [if_neg fun hboth => hc hboth.2, List.getElem?_append_right
          (by rw [← slice, hlen]; exact Nat.not_lt.1 hc), ← slice, hlen, List.getElem?_drop,
          Nat.add_sub_cancel' (Nat.not_lt.1 hc)]
    · rw [if_neg hr, if_neg fun hboth => hr hboth.1]

/-- Column `column` of a request was written, with a kernel block of KV block `block`. -/
structure Uses (tables : List BlockTable) (out : List (List (List Int))) (numReqs seqLen : Nat)
    (group request column block : Nat) : Prop where
  written : ∃ t, tables[group]? = some t ∧ request < numReqs ∧ request < t.rows.length ∧
    column < t.numBlocks seqLen ∧ ∃ kernel : Nat,
      entryOf out group request column = some (kernel : Int) ∧ block = kernel / t.blocksPerKvBlock

theorem block_of_uses {tables : List BlockTable} {numReqs seqLen numKvBlocks : Nat}
    {out : List (List (List Int))} (h : assignDummyBlocks tables numReqs seqLen numKvBlocks = .ok out)
    {group request column block : Nat}
    (huses : Uses tables out numReqs seqLen group request column block) :
    1 < numKvBlocks ∧ ∃ t, tables[group]? = some t ∧ request < numReqs ∧
      column < t.numBlocks seqLen ∧
      block = kvId (numKvBlocks - 1) (slice tables numKvBlocks) group
        (request * t.kvBlocks seqLen + column / t.blocksPerKvBlock) := by
  obtain ⟨t, ht, hreq, hrow, hcol, kernel, hentry, rfl⟩ := huses.written
  obtain ⟨hblocks, hwritten⟩ := entry_assignDummyBlocks h ht hrow column
  rw [if_pos ⟨hreq, hcol⟩, hentry, Option.some.injEq, Int.natCast_inj] at hwritten
  refine ⟨hblocks, t, ht, hreq, hcol, ?_⟩
  have hbpk := t.blocksPerKvBlock_pos
  rw [hwritten, Nat.mul_comm, Nat.mul_add_div hbpk, Nat.div_eq_of_lt (Nat.mod_lt _ hbpk),
    Nat.add_zero]

/-! ## Who owns a block -/

theorem kvId_bounds (usable : Nat) (husable : 0 < usable) (share group offset : Nat) :
    0 < kvId usable share group offset ∧ kvId usable share group offset ≤ usable :=
  ⟨Nat.succ_pos _, Nat.succ_le_of_lt (Nat.mod_lt _ husable)⟩

/-- Positions of a slice that fits the pool have blocks of their own. -/
theorem kvId_offset_inj {usable share group o o' : Nat} (hshare : share ≤ usable) (ho : o < share)
    (ho' : o' < share) (h : kvId usable share group o = kvId usable share group o') : o = o' := by
  have hmod : group * share + o ≡ group * share + o' [MOD usable] := by
    have heq := Nat.succ_injective h
    rwa [Nat.mod_eq_of_lt ho, Nat.mod_eq_of_lt ho'] at heq
  have hcancel := Nat.ModEq.add_left_cancel' (group * share) hmod
  rw [Nat.ModEq, Nat.mod_eq_of_lt (by omega), Nat.mod_eq_of_lt (by omega)] at hcancel
  exact hcancel

/-- Slices that all fit the pool have no block in common. -/
theorem kvId_group_inj {usable share groups g g' o o' : Nat} (hshare : 0 < share)
    (hfit : groups * share ≤ usable) (hg : g < groups) (hg' : g' < groups)
    (h : kvId usable share g o = kvId usable share g' o') : g = g' := by
  have hwithin : ∀ {k x}, k < groups → k * share + x % share < usable := fun {k x} hk => by
    have hx := Nat.mod_lt x hshare
    have hle : (k + 1) * share ≤ groups * share := Nat.mul_le_mul_right _ hk
    rw [Nat.succ_mul] at hle
    omega
  have heq := Nat.succ_injective h
  rw [Nat.mod_eq_of_lt (hwithin hg), Nat.mod_eq_of_lt (hwithin hg')] at heq
  have hdiv : ∀ k x, (k * share + x % share) / share = k := fun k x => by
    rw [Nat.mul_comm, Nat.mul_add_div hshare, Nat.div_eq_of_lt (Nat.mod_lt x hshare), Nat.add_zero]
  rw [← hdiv g o, heq, hdiv]

/-- **Dummy requests own their blocks.** No entry is in the null block or beyond the pool; with a
block for every group no two groups use one block; two positions of a group use one block only as
kernel blocks of one KV block of one request, if the group's requests fit its slice; and what is
not written stays. -/
theorem dummyBlocks_owned (tables : List BlockTable) (numReqs seqLen numKvBlocks : Nat)
    {out : List (List (List Int))}
    (h : assignDummyBlocks tables numReqs seqLen numKvBlocks = .ok out) :
    (∀ g r j block, Uses tables out numReqs seqLen g r j block → 0 < block ∧ block < numKvBlocks) ∧
    (tables.length < numKvBlocks → ∀ g g' r r' j j' block,
      Uses tables out numReqs seqLen g r j block →
      Uses tables out numReqs seqLen g' r' j' block → g = g') ∧
    (∀ g t, tables[g]? = some t → numReqs * t.kvBlocks seqLen ≤ slice tables numKvBlocks →
      ∀ r r' j j' block, Uses tables out numReqs seqLen g r j block →
        Uses tables out numReqs seqLen g r' j' block →
        r = r' ∧ j / t.blocksPerKvBlock = j' / t.blocksPerKvBlock) ∧
    (∀ g t r j, tables[g]? = some t → r < t.rows.length → ¬ (r < numReqs ∧ j < t.numBlocks seqLen) →
      entryOf out g r j = t.entry r j) := by
  refine ⟨fun g r j block huses => ?_, fun hgroups g g' r r' j j' block huses huses' => ?_,
    fun g t ht hfit r r' j j' block huses huses' => ?_, fun g t r j ht hr hnot => ?_⟩
  · obtain ⟨hblocks, t, ht, -, -, rfl⟩ := block_of_uses h huses
    have hbounds := kvId_bounds (numKvBlocks - 1) (by omega) (slice tables numKvBlocks) g
      (r * t.kvBlocks seqLen + j / t.blocksPerKvBlock)
    exact ⟨hbounds.1, by omega⟩
  · obtain ⟨-, t, ht, -, -, hblock⟩ := block_of_uses h huses
    obtain ⟨-, t', ht', -, -, hblock'⟩ := block_of_uses h huses'
    have hg := (List.getElem?_eq_some_iff.1 ht).1
    have hg' := (List.getElem?_eq_some_iff.1 ht').1
    have hdiv : 0 < (numKvBlocks - 1) / tables.length := Nat.div_pos (by omega) (by omega)
    have hslice : slice tables numKvBlocks = (numKvBlocks - 1) / tables.length :=
      Nat.max_eq_left hdiv
    refine kvId_group_inj (by rw [hslice]; exact hdiv) ?_ hg hg' (hblock.symm.trans hblock')
    rw [hslice]
    exact Nat.mul_div_le _ _
  · obtain ⟨hblocks, t₁, ht₁, hr, hj, hblock⟩ := block_of_uses h huses
    obtain ⟨-, t₂, ht₂, hr', hj', hblock'⟩ := block_of_uses h huses'
    obtain rfl : t₁ = t := Option.some.inj (ht₁.symm.trans ht)
    obtain rfl : t₂ = t₁ := Option.some.inj (ht₂.symm.trans ht)
    -- Offsets of KV blocks are below the group's number of them, and that fits the slice.
    have hkv : ∀ {k}, k < t₂.numBlocks seqLen → k / t₂.blocksPerKvBlock < t₂.kvBlocks seqLen :=
      fun {k} hk => by
        rw [Nat.div_lt_iff_lt_mul t₂.blocksPerKvBlock_pos, Nat.mul_comm]
        exact lt_of_lt_of_le hk (le_smul_ceilDiv t₂.blocksPerKvBlock_pos)
    have hoffset : ∀ {q k}, q < numReqs → k < t₂.numBlocks seqLen →
        q * t₂.kvBlocks seqLen + k / t₂.blocksPerKvBlock < slice tables numKvBlocks :=
      fun {q k} hq hk => by
        have hle : (q + 1) * t₂.kvBlocks seqLen ≤ numReqs * t₂.kvBlocks seqLen :=
          Nat.mul_le_mul_right _ hq
        have hlt := hkv hk
        rw [Nat.succ_mul] at hle
        omega
    have hshare : slice tables numKvBlocks ≤ numKvBlocks - 1 :=
      Nat.max_le.2 ⟨Nat.div_le_self _ _, by omega⟩
    have heq := kvId_offset_inj hshare (hoffset hr hj) (hoffset hr' hj')
      (hblock.symm.trans hblock')
    have hpos : 0 < t₂.kvBlocks seqLen := lt_of_le_of_lt (Nat.zero_le _) (hkv hj)
    have hdiv : ∀ q {k}, k < t₂.numBlocks seqLen →
        (q * t₂.kvBlocks seqLen + k / t₂.blocksPerKvBlock) / t₂.kvBlocks seqLen = q :=
      fun q {k} hk => by
        rw [Nat.mul_comm, Nat.mul_add_div hpos, Nat.div_eq_of_lt (hkv hk), Nat.add_zero]
    have hreq : r = r' := by rw [← hdiv r hj, heq, hdiv r' hj']
    subst hreq
    exact ⟨rfl, Nat.add_left_cancel heq⟩
  · rw [(entry_assignDummyBlocks h ht hr j).2, if_neg hnot]

theorem length_of_mem_replicate {n width : Nat} {row : List Int} (h : row.length = width) :
    ∀ r ∈ List.replicate n row, r.length = width := fun r hr => by
  rw [List.eq_of_mem_replicate hr, h]

/-- Two groups of two requests over a pool of nine blocks. -/
def smallTables : List BlockTable :=
  [⟨4, List.replicate 2 [-1, -1, -1, -1], 4, 2, length_of_mem_replicate rfl, Nat.succ_pos 3,
      Nat.two_pos⟩,
    ⟨3, List.replicate 2 [-1, -1, -1], 8, 1, length_of_mem_replicate rfl, Nat.succ_pos 7,
      Nat.succ_pos 0⟩]

def smallOut : List (List (List Int)) :=
  [[[2, 3, 4, -1], [6, 7, 8, -1]], [[5, 6, -1], [7, 8, -1]]]

theorem dummyBlocks_owned_small :
    (∀ g r j block, Uses smallTables smallOut 2 11 g r j block → 0 < block ∧ block < 9) ∧
    (smallTables.length < 9 → ∀ g g' r r' j j' block, Uses smallTables smallOut 2 11 g r j block →
      Uses smallTables smallOut 2 11 g' r' j' block → g = g') ∧
    (∀ g t, smallTables[g]? = some t → 2 * t.kvBlocks 11 ≤ slice smallTables 9 →
      ∀ r r' j j' block, Uses smallTables smallOut 2 11 g r j block →
        Uses smallTables smallOut 2 11 g r' j' block →
        r = r' ∧ j / t.blocksPerKvBlock = j' / t.blocksPerKvBlock) ∧
    (∀ g t r j, smallTables[g]? = some t → r < t.rows.length → ¬ (r < 2 ∧ j < t.numBlocks 11) →
      entryOf smallOut g r j = t.entry r j) :=
  dummyBlocks_owned smallTables 2 11 9 (by decide)

end LlmkubeRuntimes.Profile
