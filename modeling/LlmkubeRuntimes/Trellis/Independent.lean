import Mathlib.Data.Set.Function
import LlmkubeRuntimes.Lib.Steps
import LlmkubeRuntimes.Lib.Tensor

/-!
# Tensor-parallel trellis slices

The codes that `read_independent_layer` builds for one rank. A layer has three
matrices an expert; the intermediate size, which the ranks divide, is an axis of
each, the second of the first two matrices and the first of the last.

* `Layer`: the arguments, and the sizes computed from them;
* `readMatrix`: the slice of one matrix, in the order of `codes`;
* `readCodes`: the loops that fill `codes`;
* `CodeWord.native`: the word of a matrix that a word of the codes is;
* `slicing_lossless`: the codes of all ranks are those of one, and hold every word
  of every matrix once.
-/

namespace LlmkubeRuntimes.Trellis

open LlmkubeRuntimes.Lib

/-! ## The layer -/

/-- The arguments of `read_independent_layer`, and the bits of the manifest. -/
structure Layer where
  hiddenSize : Nat
  intermediateSize : Nat
  tpSize : Nat
  tpRank : Nat
  numExperts : Nat
  bits : Nat

namespace Layer

variable (l : Layer)

def words : Nat := 16 * l.bits

/-- `local` -/
def localSize : Nat := l.intermediateSize / l.tpSize

def first : Nat := l.tpRank * l.localSize

def tiles : Nat := l.hiddenSize / 16

def slots : Nat := l.localSize / 32

def codesShape : List Nat := [l.slots, l.numExperts, 3, 2, l.tiles, l.words]

/-- The shape of a matrix, output first. -/
def matrixShape (matrix : Nat) : Nat × Nat :=
  if matrix < 2 then (l.intermediateSize, l.hiddenSize) else (l.hiddenSize, l.intermediateSize)

/-- The shape of the tile words of a matrix. -/
def nativeShape (matrix : Nat) : List Nat :=
  [(l.matrixShape matrix).2 / 16, (l.matrixShape matrix).1 / 16, l.words]

/-- The ranks divide the intermediate size into rows of two tiles. -/
structure Divided : Prop where
  tp_pos : 0 < l.tpSize
  tp_dvd : l.tpSize ∣ l.intermediateSize
  slot_dvd : 32 ∣ l.intermediateSize / l.tpSize

end Layer

/-! ## Reading -/

inductive ReadError where
  | valueError (text : String)
  /-- `native tile shape mismatch for {stem}` -/
  | tileShape (expert matrix : Nat)
  /-- A view or a copy that torch refuses. -/
  | runtimeError
  deriving DecidableEq, Repr

section Read

variable {α : Type} (l : Layer)

/-- The tile words of a matrix that belong to the rank, in the order of `codes`. -/
def readMatrix (expert matrix : Nat) (view : Tensor α) : Except ReadError (Tensor α) :=
  if view.shape ≠ l.nativeShape matrix then .error (.tileShape expert matrix)
  else if matrix < 2 then
    let packed := view.slice 1 (l.first / 16) ((l.first + l.localSize) / 16)
    match packed.reshape [l.tiles, l.slots, 2, l.words] with
    | some rows => .ok (rows.permute [1, 2, 0, 3])
    | none => .error .runtimeError
  else
    let packed := view.slice 0 (l.first / 16) ((l.first + l.localSize) / 16)
    match packed.reshape [l.slots, 2, l.tiles, l.words] with
    | some rows => .ok rows
    | none => .error .runtimeError

/-- `codes[:, expert, matrix].copy_(block)` -/
def copyCodes (expert matrix : Nat) (block codes : Tensor α) : Except ReadError (Tensor α) :=
  if block.shape = [l.slots, 2, l.tiles, l.words] then
    .ok { codes with
      get := fun idx =>
        match idx with
        | [s, e, m, h, t, w] => if e = expert ∧ m = matrix then block.get [s, h, t, w] else codes.get idx
        | _ => codes.get idx }
  else .error .runtimeError

/-- The body of the loops. -/
def readStep (trellis : Nat → Nat → Tensor α) (expert matrix : Nat) (codes : Tensor α) :
    Except ReadError (Tensor α) :=
  match readMatrix l expert matrix (trellis expert matrix) with
  | .ok block => copyCodes l expert matrix block codes
  | .error e => .error e

/-- The codes of `read_independent_layer`, of the tile words of each expert and
matrix. `empty` is what `torch.empty` happens to hold. -/
def readCodes (trellis : Nat → Nat → Tensor α) (empty : List Nat → α) :
    Except ReadError (Tensor α) :=
  if l.numExperts = 0 then .error (.valueError "num_experts must be positive")
  else
    applyAll (fun expert => applyAll (readStep l trellis expert) (List.range 3))
      (List.range l.numExperts) ⟨l.codesShape, empty⟩

end Read

/-! ## Where words come from -/

/-- The place of a word in the tile words of the matrices: `row` is along the
intermediate size, `tile` along the hidden size. -/
@[ext]
structure NativeWord where
  expert : Nat
  matrix : Nat
  row : Nat
  tile : Nat
  word : Nat

namespace NativeWord

def index (q : NativeWord) : List Nat :=
  if q.matrix < 2 then [q.tile, q.row, q.word] else [q.row, q.tile, q.word]

/-- The word is one of the layer. -/
def In (l : Layer) (q : NativeWord) : Prop :=
  q.expert < l.numExperts ∧ q.matrix < 3 ∧ InBounds (l.nativeShape q.matrix) q.index

end NativeWord

/-- The place of a word in the codes of a rank. -/
structure CodeWord where
  rank : Nat
  slot : Nat
  expert : Nat
  matrix : Nat
  half : Nat
  tile : Nat
  word : Nat

namespace CodeWord

def index (p : CodeWord) : List Nat := [p.slot, p.expert, p.matrix, p.half, p.tile, p.word]

/-- The word is one of the codes of one of the ranks. -/
def In (l : Layer) (p : CodeWord) : Prop := p.rank < l.tpSize ∧ InBounds l.codesShape p.index

/-- The word of a matrix that a word of the codes is. -/
def native (l : Layer) (p : CodeWord) : NativeWord where
  expert := p.expert
  matrix := p.matrix
  row := 2 * (p.rank * l.slots + p.slot) + p.half
  tile := p.tile
  word := p.word

end CodeWord

/-! ## The codes of a rank -/

section Codes

variable {α : Type} {l : Layer} (hl : l.Divided)
include hl

theorem localSize_eq : l.localSize = 32 * l.slots := (Nat.mul_div_cancel' hl.slot_dvd).symm

theorem intermediateSize_eq : l.intermediateSize = l.tpSize * (32 * l.slots) := by
  rw [← localSize_eq hl, Layer.localSize, Nat.mul_div_cancel' hl.tp_dvd]

/-- The two-tile rows of all ranks. -/
theorem rows_eq : l.intermediateSize / 16 = l.tpSize * (l.slots * 2) := by
  rw [intermediateSize_eq hl, show l.tpSize * (32 * l.slots) = 16 * (l.tpSize * (l.slots * 2)) by ring,
    Nat.mul_div_cancel_left _ (by decide)]

theorem first_div : l.first / 16 = l.tpRank * (l.slots * 2) := by
  rw [Layer.first, localSize_eq hl,
    show l.tpRank * (32 * l.slots) = 16 * (l.tpRank * (l.slots * 2)) by ring,
    Nat.mul_div_cancel_left _ (by decide)]

theorem last_div : (l.first + l.localSize) / 16 = l.first / 16 + l.slots * 2 := by
  rw [localSize_eq hl]
  omega

/-- The range of a rank lies in the axis. -/
theorem slice_length (hrank : l.tpRank < l.tpSize) :
    min ((l.first + l.localSize) / 16) (l.intermediateSize / 16) - l.first / 16 = l.slots * 2 := by
  have hle : (l.tpRank + 1) * (l.slots * 2) ≤ l.tpSize * (l.slots * 2) := Nat.mul_le_mul_right _ hrank
  rw [Nat.succ_mul] at hle
  rw [last_div hl, rows_eq hl, first_div hl]
  omega

/-- The row of a slot's half is in the rank's range. -/
theorem row_eq (s h : Nat) : l.first / 16 + (s * 2 + h) = 2 * (l.tpRank * l.slots + s) + h := by
  rw [first_div hl]
  ring

/-- The first two matrices are sliced along their second axis, and permuted. -/
theorem readMatrix_permuted (hrank : l.tpRank < l.tpSize) (expert : Nat) {matrix : Nat}
    (hm : matrix < 2) {view : Tensor α} (hview : view.shape = l.nativeShape matrix) :
    ∃ block, readMatrix l expert matrix view = .ok block ∧
      block.shape = [l.slots, 2, l.tiles, l.words] ∧
      ∀ s h t w, InBounds [l.slots, 2, l.tiles, l.words] [s, h, t, w] →
        block.get [s, h, t, w] = view.get [t, 2 * (l.tpRank * l.slots + s) + h, w] := by
  have hshape : (view.slice 1 (l.first / 16) ((l.first + l.localSize) / 16)).shape =
      [l.tiles, l.slots * 2, l.words] := by
    rw [Tensor.slice, hview, Layer.nativeShape, Layer.matrixShape, if_pos hm]
    show [l.tiles, min ((l.first + l.localSize) / 16) (l.intermediateSize / 16) - l.first / 16,
      l.words] = _
    rw [slice_length hl hrank]
  obtain ⟨rows, hrows, hrshape, hget⟩ := Tensor.reshape_spec
    (view.slice 1 (l.first / 16) ((l.first + l.localSize) / 16)) [l.tiles, l.slots, 2, l.words] (by
      rw [hshape]
      simp only [List.prod_cons, List.prod_nil]
      ring)
  rw [readMatrix, if_neg (not_not.2 hview), if_pos hm]
  dsimp only
  rw [hrows]
  refine ⟨_, rfl, ?_, ?_⟩
  · rw [Tensor.permute, hrshape]
    rfl
  · rintro s h t w ⟨hs, hh, ht, hw, -⟩
    have hrow : s * 2 + h < l.slots * 2 := by omega
    have hsrc := hget [t, s, h, w] [t, s * 2 + h, w]
      (by rw [hshape]; exact ⟨ht, hrow, hw, trivial⟩)
      (by
        rw [hshape]
        simp only [ravel, List.prod_cons, List.prod_nil]
        ring)
    show rows.get [t, s, h, w] = _
    rw [hsrc, ← row_eq hl]
    rfl

/-- The last matrix is sliced along its first axis, and not permuted. -/
theorem readMatrix_plain (hrank : l.tpRank < l.tpSize) (expert : Nat) {matrix : Nat}
    (hm : ¬ matrix < 2) {view : Tensor α} (hview : view.shape = l.nativeShape matrix) :
    ∃ block, readMatrix l expert matrix view = .ok block ∧
      block.shape = [l.slots, 2, l.tiles, l.words] ∧
      ∀ s h t w, InBounds [l.slots, 2, l.tiles, l.words] [s, h, t, w] →
        block.get [s, h, t, w] = view.get [2 * (l.tpRank * l.slots + s) + h, t, w] := by
  have hshape : (view.slice 0 (l.first / 16) ((l.first + l.localSize) / 16)).shape =
      [l.slots * 2, l.tiles, l.words] := by
    rw [Tensor.slice, hview, Layer.nativeShape, Layer.matrixShape, if_neg hm]
    show [min ((l.first + l.localSize) / 16) (l.intermediateSize / 16) - l.first / 16, l.tiles,
      l.words] = _
    rw [slice_length hl hrank]
  obtain ⟨rows, hrows, hrshape, hget⟩ := Tensor.reshape_spec
    (view.slice 0 (l.first / 16) ((l.first + l.localSize) / 16)) [l.slots, 2, l.tiles, l.words] (by
      rw [hshape]
      simp only [List.prod_cons, List.prod_nil]
      ring)
  rw [readMatrix, if_neg (not_not.2 hview), if_neg hm]
  dsimp only
  rw [hrows]
  refine ⟨_, rfl, hrshape, ?_⟩
  rintro s h t w ⟨hs, hh, ht, hw, -⟩
  have hrow : s * 2 + h < l.slots * 2 := by omega
  have hsrc := hget [s, h, t, w] [s * 2 + h, t, w]
    (by rw [hshape]; exact ⟨hrow, ht, hw, trivial⟩)
    (by rw [hshape, ravel_split])
  rw [hsrc, ← row_eq hl]
  rfl

/-- **What a slice holds**: row `2 s + h` of the rank at slot `s`, half `h`. -/
theorem readMatrix_spec (hrank : l.tpRank < l.tpSize) (expert matrix : Nat) {view : Tensor α}
    (hview : view.shape = l.nativeShape matrix) :
    ∃ block, readMatrix l expert matrix view = .ok block ∧
      block.shape = [l.slots, 2, l.tiles, l.words] ∧
      ∀ s h t w, InBounds [l.slots, 2, l.tiles, l.words] [s, h, t, w] →
        block.get [s, h, t, w] =
          view.get (CodeWord.native l ⟨l.tpRank, s, expert, matrix, h, t, w⟩).index := by
  by_cases hm : matrix < 2
  · obtain ⟨block, hblock, hshape, hget⟩ := readMatrix_permuted hl hrank expert hm hview
    refine ⟨block, hblock, hshape, fun s h t w hb => ?_⟩
    rw [hget s h t w hb, CodeWord.native, NativeWord.index, if_pos hm]
  · obtain ⟨block, hblock, hshape, hget⟩ := readMatrix_plain hl hrank expert hm hview
    refine ⟨block, hblock, hshape, fun s h t w hb => ?_⟩
    rw [hget s h t w hb, CodeWord.native, NativeWord.index, if_neg hm]

/-- The codes hold the words of the experts before `expert`, and of its matrices
before `matrix`. -/
structure Filled (l : Layer) (trellis : Nat → Nat → Tensor α) (expert matrix : Nat)
    (codes : Tensor α) : Prop where
  shape : codes.shape = l.codesShape
  get : ∀ s e m h t w, InBounds l.codesShape [s, e, m, h, t, w] →
    e < expert ∨ e = expert ∧ m < matrix →
    codes.get [s, e, m, h, t, w] =
      (trellis e m).get (CodeWord.native l ⟨l.tpRank, s, e, m, h, t, w⟩).index

/-- One matrix more is filled in. -/
theorem readStep_spec (hrank : l.tpRank < l.tpSize) {trellis : Nat → Nat → Tensor α}
    {expert matrix : Nat} (hview : (trellis expert matrix).shape = l.nativeShape matrix)
    {codes : Tensor α} (hfilled : Filled l trellis expert matrix codes) :
    ∃ codes', readStep l trellis expert matrix codes = .ok codes' ∧
      Filled l trellis expert (matrix + 1) codes' := by
  obtain ⟨block, hblock, hshape, hget⟩ := readMatrix_spec hl hrank expert matrix hview
  rw [readStep, hblock]
  refine ⟨_, if_pos hshape, hfilled.shape, fun s e m h t w hb hdone => ?_⟩
  have ⟨hs, _, _, hh, ht, hw, _⟩ := hb
  show (if e = expert ∧ m = matrix then block.get [s, h, t, w] else codes.get [s, e, m, h, t, w]) = _
  by_cases heq : e = expert ∧ m = matrix
  · obtain ⟨rfl, rfl⟩ := heq
    rw [if_pos ⟨rfl, rfl⟩, hget s h t w ⟨hs, hh, ht, hw, trivial⟩]
  · rw [if_neg heq]
    exact hfilled.get s e m h t w hb (by omega)

/-- **The codes of a rank**, word by word. -/
theorem readCodes_spec (hrank : l.tpRank < l.tpSize) (hexperts : l.numExperts ≠ 0)
    {trellis : Nat → Nat → Tensor α}
    (hview : ∀ e < l.numExperts, ∀ m < 3, (trellis e m).shape = l.nativeShape m)
    (empty : List Nat → α) :
    ∃ codes, readCodes l trellis empty = .ok codes ∧ Filled l trellis l.numExperts 0 codes := by
  rw [readCodes, if_neg hexperts]
  refine applyAll_range _ _ _ (fun e codes => Filled l trellis e 0 codes) ?_ ?_
  · exact ⟨rfl, fun s e m h t w _ hdone => by omega⟩
  · intro e he codes hfilled
    obtain ⟨codes', hrun, hfilled'⟩ := applyAll_range (readStep l trellis e) 3 codes
      (fun m codes => Filled l trellis e m codes) hfilled
      fun m hm codes hcodes => readStep_spec hl hrank (hview e he m hm) hcodes
    refine ⟨codes', hrun, hfilled'.shape, fun s e' m h t w hb hdone => ?_⟩
    have hm : m < 3 := hb.2.2.1
    exact hfilled'.get s e' m h t w hb (by omega)

end Codes

/-! ## The ranks together -/

namespace Layer

def atRank (l : Layer) (rank : Nat) : Layer := { l with tpRank := rank }

/-- The layer read at tensor-parallel size 1. -/
def whole (l : Layer) : Layer := { l with tpSize := 1, tpRank := 0 }

theorem Divided.atRank {l : Layer} (hl : l.Divided) (rank : Nat) : (l.atRank rank).Divided :=
  ⟨hl.tp_pos, hl.tp_dvd, hl.slot_dvd⟩

theorem Divided.whole {l : Layer} (hl : l.Divided) : l.whole.Divided := by
  refine ⟨Nat.zero_lt_one, one_dvd _, ?_⟩
  show 32 ∣ l.intermediateSize / 1
  rw [Nat.div_one, intermediateSize_eq hl]
  exact ⟨l.tpSize * l.slots, by ring⟩

/-- One rank has the slots of all. -/
theorem Divided.slots_whole {l : Layer} (hl : l.Divided) : l.whole.slots = l.tpSize * l.slots := by
  show l.intermediateSize / 1 / 32 = l.tpSize * l.slots
  rw [Nat.div_one, intermediateSize_eq hl,
    show l.tpSize * (32 * l.slots) = 32 * (l.tpSize * l.slots) by ring,
    Nat.mul_div_cancel_left _ (by decide)]

end Layer

section Ranks

variable {l : Layer}

/-- The row of a word is the place of its rank, slot and half. -/
theorem row_eq_ravel (p : CodeWord) :
    (p.native l).row = ravel [l.tpSize, l.slots, 2] [p.rank, p.slot, p.half] := by
  simp only [CodeWord.native, ravel, List.prod_cons, List.prod_nil]
  ring

/-- The bounds of a word of the codes. -/
theorem code_in_iff {p : CodeWord} : p.In l ↔
    InBounds [l.tpSize, l.slots, 2] [p.rank, p.slot, p.half] ∧ p.expert < l.numExperts ∧
      p.matrix < 3 ∧ p.tile < l.tiles ∧ p.word < l.words := by
  simp only [CodeWord.In, CodeWord.index, Layer.codesShape, inBounds_cons, inBounds_nil, and_true]
  tauto

/-- The bounds of a word of a matrix. -/
theorem native_in_iff (hl : l.Divided) {q : NativeWord} : q.In l ↔ q.expert < l.numExperts ∧ q.matrix < 3 ∧
    q.row < [l.tpSize, l.slots, 2].prod ∧ q.tile < l.tiles ∧ q.word < l.words := by
  have hrows : [l.tpSize, l.slots, 2].prod = l.intermediateSize / 16 := by
    rw [rows_eq hl, List.prod_cons, List.prod_cons, List.prod_singleton]
  rw [hrows, NativeWord.In, NativeWord.index, Layer.nativeShape, Layer.matrixShape]
  by_cases hm : q.matrix < 2
  · rw [if_pos hm, if_pos hm]
    simp only [inBounds_cons, inBounds_nil, and_true, Layer.tiles]
    tauto
  · rw [if_neg hm, if_neg hm]
    simp only [inBounds_cons, inBounds_nil, and_true, Layer.tiles]

/-- **Every word of every matrix is in the codes of the ranks, once.** -/
theorem bijOn_native (hl : l.Divided) : Set.BijOn (CodeWord.native l) {p | p.In l} {q | q.In l} := by
  refine ⟨fun p hp => ?_, fun p hp p' hp' heq => ?_, fun q hq => ?_⟩
  · obtain ⟨hb, he, hm, ht, hw⟩ := code_in_iff.1 hp
    exact (native_in_iff hl).2 ⟨he, hm, by rw [row_eq_ravel]; exact ravel_lt hb, ht, hw⟩
  · have hrow := congrArg NativeWord.row heq
    rw [row_eq_ravel, row_eq_ravel] at hrow
    have hidx := ravel_inj (code_in_iff.1 hp).1 (code_in_iff.1 hp').1 hrow
    obtain ⟨rank, slot, expert, matrix, half, tile, word⟩ := p
    obtain ⟨rank', slot', expert', matrix', half', tile', word'⟩ := p'
    simp only [CodeWord.native, NativeWord.mk.injEq] at heq
    simp only [List.cons.injEq, and_true] at hidx
    obtain ⟨rfl, rfl, rfl⟩ := hidx
    obtain ⟨rfl, rfl, -, rfl, rfl⟩ := heq
    rfl
  · obtain ⟨he, hm, hr, ht, hw⟩ := (native_in_iff hl).1 hq
    have hb := inBounds_unravel hr
    have hravel := ravel_unravel hr
    obtain ⟨rank, rest, h1, -, hrest⟩ := inBounds_cons_iff.1 hb
    obtain ⟨slot, rest, rfl, -, hrest⟩ := inBounds_cons_iff.1 hrest
    obtain ⟨half, rest, rfl, -, hrest⟩ := inBounds_cons_iff.1 hrest
    rw [inBounds_nil_iff.1 hrest] at h1
    rw [h1] at hb hravel
    refine ⟨⟨rank, slot, q.expert, q.matrix, half, q.tile, q.word⟩, code_in_iff.2 ⟨hb, he, hm, ht, hw⟩, ?_⟩
    have hrow := row_eq_ravel (l := l) ⟨rank, slot, q.expert, q.matrix, half, q.tile, q.word⟩
    rw [hravel] at hrow
    exact NativeWord.ext rfl rfl hrow rfl rfl

/-- The codes of one rank are those of all, one after the other. -/
theorem same_catAll (hl : l.Divided) {α : Type} {trellis : Nat → Nat → Tensor α} {whole : Tensor α}
    {parts : Nat → Tensor α} (hwhole : Filled l.whole trellis l.numExperts 0 whole)
    (hparts : ∀ rank < l.tpSize, Filled (l.atRank rank) trellis l.numExperts 0 (parts rank)) :
    (Tensor.catAll parts (l.tpSize - 1)).Same whole := by
  have hlast : l.tpSize - 1 + 1 = l.tpSize := Nat.sub_add_cancel hl.tp_pos
  obtain ⟨hshape, hget⟩ := Tensor.catAll_spec parts l.slots (l.tpSize - 1)
    [l.numExperts, 3, 2, l.tiles, l.words] fun rank hrank => (hparts rank (by omega)).shape
  rw [hlast] at hshape hget
  have hwshape : whole.shape = l.tpSize * l.slots :: [l.numExperts, 3, 2, l.tiles, l.words] := by
    rw [hwhole.shape, ← hl.slots_whole]
    rfl
  refine ⟨hshape.trans hwshape.symm, fun idx hidx => ?_⟩
  rw [hshape] at hidx
  obtain ⟨s, rest, rfl, hs, hidx⟩ := inBounds_cons_iff.1 hidx
  obtain ⟨e, rest, rfl, he, hidx⟩ := inBounds_cons_iff.1 hidx
  obtain ⟨m, rest, rfl, hm, hidx⟩ := inBounds_cons_iff.1 hidx
  obtain ⟨h, rest, rfl, hh, hidx⟩ := inBounds_cons_iff.1 hidx
  obtain ⟨t, rest, rfl, ht, hidx⟩ := inBounds_cons_iff.1 hidx
  obtain ⟨w, rest, rfl, hw, hidx⟩ := inBounds_cons_iff.1 hidx
  rw [inBounds_nil_iff.1 hidx]
  have hpos : 0 < l.slots := Nat.pos_of_ne_zero fun h0 => by
    rw [h0, Nat.mul_zero] at hs
    exact Nat.not_lt_zero s hs
  have hrank : s / l.slots < l.tpSize := Nat.div_lt_of_lt_mul (by rwa [Nat.mul_comm])
  rw [hget s hs,
    (hparts _ hrank).get (s % l.slots) e m h t w ⟨Nat.mod_lt s hpos, he, hm, hh, ht, hw, trivial⟩
      (.inl he),
    hwhole.get s e m h t w ⟨by rwa [hl.slots_whole], he, hm, hh, ht, hw, trivial⟩ (.inl he)]
  have hrow : s / l.slots * l.slots + s % l.slots = 0 * l.whole.slots + s := by
    rw [Nat.div_add_mod', Nat.zero_mul, Nat.zero_add]
  show (trellis e m).get (NativeWord.index ⟨e, m, 2 * (s / l.slots * l.slots + s % l.slots) + h, t, w⟩) =
    (trellis e m).get (NativeWord.index ⟨e, m, 2 * (0 * l.whole.slots + s) + h, t, w⟩)
  rw [hrow]

end Ranks

/-- **Slicing is a lossless permutation**: every rank's codes are read, one after
the other they are the codes read at tensor-parallel size 1, and their words are
the words of the matrices, each of them once. -/
theorem slicing_lossless {α : Type} (l : Layer) (hl : l.Divided) (hexperts : l.numExperts ≠ 0)
    (trellis : Nat → Nat → Tensor α)
    (hview : ∀ e < l.numExperts, ∀ m < 3, (trellis e m).shape = l.nativeShape m)
    (emptyWhole : List Nat → α) (empty : Nat → List Nat → α) :
    (∃ whole parts, readCodes l.whole trellis emptyWhole = .ok whole ∧
      (∀ rank < l.tpSize, readCodes (l.atRank rank) trellis (empty rank) = .ok (parts rank)) ∧
      (Tensor.catAll parts (l.tpSize - 1)).Same whole ∧
      ∀ p : CodeWord, p.In l → (parts p.rank).get p.index =
        (trellis (p.native l).expert (p.native l).matrix).get (p.native l).index) ∧
    Set.BijOn (CodeWord.native l) {p | p.In l} {q | q.In l} := by
  obtain ⟨whole, hwhole, hfilled⟩ := readCodes_spec hl.whole Nat.zero_lt_one hexperts hview emptyWhole
  have hparts : ∀ rank, ∃ codes, rank < l.tpSize →
      readCodes (l.atRank rank) trellis (empty rank) = .ok codes ∧
        Filled (l.atRank rank) trellis l.numExperts 0 codes := by
    intro rank
    by_cases hrank : rank < l.tpSize
    · obtain ⟨codes, h⟩ := readCodes_spec (hl.atRank rank) hrank hexperts hview (empty rank)
      exact ⟨codes, fun _ => h⟩
    · exact ⟨whole, fun h => absurd h hrank⟩
  choose parts hparts using hparts
  refine ⟨⟨whole, parts, hwhole, fun rank hrank => (hparts rank hrank).1,
    same_catAll hl hfilled fun rank hrank => (hparts rank hrank).2, fun p hp => ?_⟩, bijOn_native hl⟩
  obtain ⟨hrank, hb⟩ := hp
  exact (hparts p.rank hrank).2.get p.slot p.expert p.matrix p.half p.tile p.word hb (.inl hb.2.1)

/-- Two experts on two ranks, with one tile of hidden size. -/
def smallLayer : Layer := ⟨16, 64, 2, 0, 2, 3⟩

/-- Tile words that are their own places. -/
def placeTrellis (expert matrix : Nat) : Tensor (Nat × Nat × List Nat) :=
  ⟨smallLayer.nativeShape matrix, fun idx => (expert, matrix, idx)⟩

theorem slicing_lossless_small :
    (∃ whole parts, readCodes smallLayer.whole placeTrellis (fun _ => (0, 0, [])) = .ok whole ∧
      (∀ rank < smallLayer.tpSize,
        readCodes (smallLayer.atRank rank) placeTrellis (fun _ => (0, 0, [])) = .ok (parts rank)) ∧
      (Tensor.catAll parts (smallLayer.tpSize - 1)).Same whole ∧
      ∀ p : CodeWord, p.In smallLayer → (parts p.rank).get p.index =
        (p.expert, p.matrix, (p.native smallLayer).index)) ∧
    Set.BijOn (CodeWord.native smallLayer) {p | p.In smallLayer} {q | q.In smallLayer} :=
  slicing_lossless smallLayer ⟨by decide, by decide, by decide⟩ (by decide) placeTrellis
    (fun _ _ _ _ => rfl) (fun _ => (0, 0, [])) (fun _ _ => (0, 0, []))

end LlmkubeRuntimes.Trellis
