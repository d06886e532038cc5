import Mathlib.Algebra.BigOperators.Fin
import LlmkubeRuntimes.Lib.Steps
import LlmkubeRuntimes.Prefill.Layer
import LlmkubeRuntimes.Prefill.Threshold

/-!
# A sequence-parallel forward is the full-row forward

* `VocabParallelEmbedding`: each rank looks up the ids of its vocabulary shard, and
  the sum over the ranks is exact (`forwardReduceScatter_exact`);
* `Model`: the decoder layers, the CED boundary, the drafter's hidden states and
  the MTP buffer;
* `Model.step`: one layer of the loop. Sequence parallelism ends at the boundary
  layer, which gets every row;
* `Model.forward`: the forward of all ranks, sequence-parallel from `minRows` tokens;
* `forward_sequenceParallel`: whatever `minRows` is, every rank ends with the
  caches, the hidden states and the drafter's states of the full-row forward.
-/

namespace LlmkubeRuntimes.Prefill

open LlmkubeRuntimes.Lib

/-! ## The embedding -/

/-- What a rank's lookup writes for an id: its row if the rank's shard has it, else zeros. -/
structure VocabParallelEmbedding (n : Nat) (ρ : Type) where
  partialRow : Fin n → Nat → ρ

namespace VocabParallelEmbedding

variable {n : Nat} {ρ : Type} [Zero ρ] (e : VocabParallelEmbedding n ρ)

def forward (sum : (Fin n → ρ) → ρ) (ids : List Nat) : Fin n → List ρ :=
  tpReduce sum fun r => ids.map (e.partialRow r)

/-- The lookup into a buffer of `paddedRows` rows, reduce-scattered. -/
def forwardReduceScatter (sum : (Fin n → ρ) → ρ) (ids : List Nat) (paddedRows : Nat) :
    Except RowError (Fin n → List ρ) :=
  if n = 1 ∨ paddedRows < ids.length ∨ paddedRows % n ≠ 0 then
    .error (.embedding ids.length paddedRows n)
  else .ok (reduceScatter sum paddedRows fun r => padTo paddedRows (ids.map (e.partialRow r)))

/-- The ranks get their rows of the embedding. -/
theorem forward_shards (sum : (Fin n → ρ) → ρ) {ids : List Nat} {T : Nat} (hn : 1 < n)
    (hids : ids.length = T) :
    ∃ full loc, e.forward sum ids = (fun _ => full) ∧
      e.forwardReduceScatter sum ids (SPRows.paddedRows ⟨T, n, 0⟩) = .ok loc ∧
      Shards (SPRows.localRows ⟨T, n, 0⟩) full loc ∧ full.length = T := by
  have hpos : 0 < n := Nat.lt_of_succ_lt hn
  have hlen : ∀ r : Fin n, (ids.map (e.partialRow r)).length = T := fun r => by
    rw [List.length_map, hids]
  have hok : ¬ (n = 1 ∨ SPRows.paddedRows ⟨T, n, 0⟩ < ids.length ∨
      SPRows.paddedRows ⟨T, n, 0⟩ % n ≠ 0) := by
    rw [hids, paddedRows_eq hpos, Nat.mul_mod_right, ← paddedRows_eq hpos]
    simp only [ne_eq, not_true_eq_false, or_false, not_or, Nat.not_lt]
    exact ⟨Nat.ne_of_gt hn, le_paddedRows hpos⟩
  refine ⟨_, _, ?_, if_neg hok, Shards.reduceScatter sum (T := T)
    (y := fun r => ids.map (e.partialRow r)) (paddedRows_eq hpos) (le_paddedRows hpos)
    fun r i hi => ?_, length_reduceRows _ _ _⟩
  · rw [forward, tpReduce, if_pos hn, allReduce_eq sum hlen]
  · rw [padTo, List.getElem?_append_left (by rw [hlen r]; exact hi)]

/-- The sum over the ranks of an id's partial rows, when one rank owns it. -/
theorem sum_partialRow {ρ : Type} [AddCommMonoid ρ] (e : VocabParallelEmbedding n ρ)
    {table : Nat → ρ} {id : Nat}
    (howner : ∃ r, e.partialRow r id = table id ∧ ∀ s, s ≠ r → e.partialRow s id = 0) :
    ∑ r, e.partialRow r id = table id := by
  obtain ⟨r, hr, hother⟩ := howner
  rw [Finset.sum_eq_single r (fun s _ hs => hother s hs) (fun h => absurd (Finset.mem_univ r) h), hr]

/-- **The reduce-scattered embedding is exact**: when every id has one owning rank and the other
ranks write zeros, each rank gets its rows of the table's, and zeros behind the last. -/
theorem forwardReduceScatter_exact {ρ : Type} [AddCommMonoid ρ] (e : VocabParallelEmbedding n ρ)
    (table : Nat → ρ) (ids : List Nat) (paddedRows : Nat) (hn : 1 < n)
    (hrows : ids.length ≤ paddedRows) (hmul : paddedRows % n = 0)
    (howner : ∀ id ∈ ids, ∃ r, e.partialRow r id = table id ∧
      ∀ s, s ≠ r → e.partialRow s id = 0) :
    e.forwardReduceScatter (fun x => ∑ r, x r) ids paddedRows =
      .ok fun r => chunk (paddedRows / n) (padTo paddedRows (ids.map table)) r := by
  have hok : ¬ (n = 1 ∨ paddedRows < ids.length ∨ paddedRows % n ≠ 0) := by
    simp only [hmul, ne_eq, not_true_eq_false, or_false, not_or, Nat.not_lt]
    exact ⟨Nat.ne_of_gt hn, hrows⟩
  have hsum : reduceRows (fun x : Fin n → ρ => ∑ r, x r) paddedRows
      (fun r => padTo paddedRows (ids.map (e.partialRow r))) = padTo paddedRows (ids.map table) := by
    apply List.ext_getElem?
    intro k
    rcases Nat.lt_or_ge k paddedRows with hk | hk
    · rw [getElem?_reduceRows _ hk]
      rcases Nat.lt_or_ge k ids.length with hid | hid
      · have hrow : ∀ f : Nat → ρ, (padTo paddedRows (ids.map f))[k]? = some (f ids[k]) := fun f => by
          rw [padTo, List.getElem?_append_left (by rw [List.length_map]; exact hid),
            List.getElem?_map, List.getElem?_eq_getElem hid, Option.map_some]
        rw [hrow table]
        simp only [List.getD_eq_getElem?_getD, hrow, Option.getD_some]
        rw [e.sum_partialRow (howner _ (List.getElem_mem hid))]
      · have hrow : ∀ f : Nat → ρ, (padTo paddedRows (ids.map f))[k]? = some 0 := fun f => by
          rw [padTo, List.getElem?_append_right (by rw [List.length_map]; exact hid),
            List.length_map, List.getElem?_replicate_of_lt (by omega)]
        rw [hrow table]
        simp only [List.getD_eq_getElem?_getD, hrow, Option.getD_some, Finset.sum_const_zero]
    · rw [List.getElem?_eq_none, List.getElem?_eq_none]
      · simp only [padTo, List.length_append, List.length_map, List.length_replicate]
        omega
      · rw [length_reduceRows]
        exact hk
  rw [forwardReduceScatter, if_neg hok]
  congr 1
  funext r
  rw [reduceScatter, hsum]

/-- Two ranks with two ids each, three tokens in four rows. -/
theorem forwardReduceScatter_exact_two :
    (⟨fun r id => if id / 2 = r then id + 1 else 0⟩ :
        VocabParallelEmbedding 2 Nat).forwardReduceScatter (fun x => ∑ r, x r) [0, 3, 1] 4 =
      .ok fun r => chunk (4 / 2) (padTo 4 ([0, 3, 1].map (· + 1))) r :=
  forwardReduceScatter_exact _ (· + 1) [0, 3, 1] 4 (by decide) (by decide) (by decide) (by decide)

end VocabParallelEmbedding

/-! ## The model -/

/-- The forward's modules. `compactLayer` is the CED boundary layer: it builds the decoder's
global KV from every row and goes on with the rows at the indices, as `compactInputs` does with
the inputs and `scatterRows` undoes. -/
structure Model (n : Nat) (ρ φ κ η : Type) where
  embedTokens : VocabParallelEmbedding n ρ
  startLayer : Nat
  layers : List (DecoderLayer n ρ φ κ η)
  cedDecoderStart : Option Nat
  compactLayer : Nat → List Nat → Inputs η → (Fin n → κ) → (Fin n → List (Carried ρ)) →
    (Fin n → κ) × (Fin n → List (Carried ρ))
  compactInputs : List Nat → Inputs η → Inputs η
  scatterRows : List Nat → Nat → List ρ → List ρ
  auxHiddenStateLayers : List Nat
  auxHiddenState : Carried ρ → ρ
  post : Carried ρ → ρ
  preMix : Carried ρ → ρ
  collapseNorm : ρ → ρ → ρ
  mtpHiddenBuffer : Bool
  prefillSpSkipsMtpBuffer : Bool

/-- Where the loop over the layers stands on every rank. -/
structure LoopState (n : Nat) (ρ κ η : Type) where
  caches : Fin n → κ
  rows : Fin n → List (Carried ρ)
  inputs : Inputs η
  sp : Option Nat
  compacted : Bool
  aux : List (Fin n → List ρ)

/-- What a forward leaves: the caches, the hidden states, the drafter's states, and the MTP
buffer's rows if it was filled. -/
structure Output (n : Nat) (ρ κ : Type) where
  caches : Fin n → κ
  hidden : Fin n → List ρ
  aux : List (Fin n → List ρ)
  mtp : Option (Fin n → List ρ)

/-- The tokens of a sequence-parallel forward, what every rank's `plan_rows` comes to. -/
def plan (T minRows n : Nat) : Option Nat :=
  if minRows = 0 ∨ n ≤ 1 ∨ T < minRows then none else some T

/-- Every row on every rank. -/
def allRows {n : Nat} {α : Type} (sp : Option Nat) (x : Fin n → List α) :
    Except RowError (Fin n → List α) :=
  match sp with
  | none => .ok x
  | some T => gatherRows T x

namespace Model

variable {n : Nat} {ρ φ κ η : Type} (m : Model n ρ φ κ η)

/-- Rows of every token again, where the decoder has compacted them. -/
def expand (ced : Option (List Nat)) (compacted : Bool) (T : Nat) (x : Fin n → List ρ) :
    Fin n → List ρ :=
  match ced, compacted with
  | some indices, true => fun r => m.scatterRows indices T (x r)
  | _, _ => x

/-- The compacted indices, at the layer where the decoder starts. -/
def boundaryIndices (ced : Option (List Nat)) (idx : Nat) : Option (List Nat) :=
  if m.cedDecoderStart = some idx then ced else none

/-- The hidden states a drafter reads after layer `idx`. -/
def collectAux (ced : Option (List Nat)) (T idx : Nat) (s : LoopState n ρ κ η) :
    Except RowError (LoopState n ρ κ η) :=
  if idx + 1 ∈ m.auxHiddenStateLayers then do
    let aux ← allRows s.sp fun r => (s.rows r).map m.auxHiddenState
    return { s with aux := s.aux ++ [m.expand ced s.compacted T aux] }
  else .ok s

/-- The boundary layer, on every row; what follows runs on the compacted rows of every rank. -/
def compact (indices : List Nat) (idx : Nat) (s : LoopState n ρ κ η)
    (rows : Fin n → List (Carried ρ)) : LoopState n ρ κ η :=
  let (caches, rows) := m.compactLayer idx indices s.inputs s.caches rows
  { s with caches, rows, inputs := m.compactInputs indices s.inputs, sp := none, compacted := true }

variable [Zero ρ]

/-- Layer `idx` itself. -/
def layerStep (sum : (Fin n → ρ) → ρ) (ced : Option (List Nat)) (idx : Nat)
    (layer : DecoderLayer n ρ φ κ η) (s : LoopState n ρ κ η) :
    Except RowError (LoopState n ρ κ η) :=
  match m.boundaryIndices ced idx with
  | none => do
    let (caches, rows) ← layer.forward sum s.inputs s.sp s.caches s.rows
    return { s with caches, rows }
  | some indices => do
    let rows ← allRows s.sp s.rows
    return m.compact indices idx s rows

/-- One turn of the loop over the layers. -/
def step (sum : (Fin n → ρ) → ρ) (ced : Option (List Nat)) (T : Nat)
    (layer : DecoderLayer n ρ φ κ η × Nat) (s : LoopState n ρ κ η) :
    Except RowError (LoopState n ρ κ η) := do
  let s ← m.layerStep sum ced layer.2 layer.1 s
  m.collectAux ced T layer.2 s

omit [Zero ρ] in
/-- What follows the layers: the MTP buffer, which wants every row, and the collapse, which does
not. -/
def finish (ced : Option (List Nat)) (T : Nat) (s : LoopState n ρ κ η) :
    Except RowError (Output n ρ κ) := do
  let hidden := fun r => (s.rows r).map m.post
  let preMix := fun r => (s.rows r).map m.preMix
  if m.mtpHiddenBuffer && !(s.sp.isSome && m.prefillSpSkipsMtpBuffer) then
    let hidden ← allRows s.sp hidden
    let preMix ← allRows s.sp preMix
    return ⟨s.caches,
      m.expand ced s.compacted T fun r => (hidden r).zipWith m.collapseNorm (preMix r),
      s.aux, some (m.expand ced s.compacted T hidden)⟩
  else
    let out ← allRows s.sp fun r => (hidden r).zipWith m.collapseNorm (preMix r)
    return ⟨s.caches, m.expand ced s.compacted T out, s.aux, none⟩

/-- The rows that enter the first layer. -/
def embed (sum : (Fin n → ρ) → ρ) (i : Inputs η) (inputsEmbeds : Option (List ρ)) :
    Option Nat → Except RowError (Fin n → List ρ)
  | none => .ok (match inputsEmbeds with
    | some embeds => fun _ => embeds
    | none => m.embedTokens.forward sum i.inputIds)
  | some T =>
    match inputsEmbeds with
    | some embeds => localSlices T embeds
    | none => m.embedTokens.forwardReduceScatter sum i.inputIds (SPRows.paddedRows ⟨T, n, 0⟩)

/-- With CED, whether there are encoder layers that run on every row. -/
def spLayersAvailable (ced : Option (List Nat)) : Bool :=
  ced.isNone || m.cedDecoderStart.any fun start => decide (m.startLayer < start)

/-- The forward of all ranks. -/
def forward (sum : (Fin n → ρ) → ρ) (minRows : Nat) (i : Inputs η)
    (inputsEmbeds : Option (List ρ)) (ced : Option (List Nat)) (caches : Fin n → κ) :
    Except RowError (Output n ρ κ) := do
  let T := i.positions.length
  let sp := if m.spLayersAvailable ced then plan T minRows n else none
  let x ← m.embed sum i inputsEmbeds sp
  let s ← applyAll (m.step sum ced T) (m.layers.zipIdx m.startLayer)
    ⟨caches, fun r => (x r).map Carried.embedded, i, sp, false, []⟩
  m.finish ced T s

end Model

/-! ## Every rank comes to the same plan -/

theorem planRows_eq_plan {T minRows n r : Nat} (hr : r < n) :
    planRows T minRows n r = .ok ((plan T minRows n).map fun T => ⟨T, n, r⟩) := by
  unfold planRows plan
  rw [if_pos hr]
  split <;> rfl

theorem one_lt_of_plan {T T' minRows n : Nat} (h : plan T minRows n = some T') : 1 < n ∧ T' = T := by
  unfold plan at h
  split at h
  · cases h
  · next hcond =>
    simp only [not_or, Nat.not_le] at hcond
    exact ⟨hcond.2.1, (Option.some.inj h).symm⟩

/-! ## The two forwards side by side -/

/-- The full-row loop and the sequence-parallel one: the same state, or the same but for the
rows, which the ranks hold in shards. -/
inductive Agree {n : Nat} {ρ κ η : Type} (T : Nat) :
    LoopState n ρ κ η → LoopState n ρ κ η → Prop where
  | whole {s : LoopState n ρ κ η} (h : s.sp = none) : Agree T s s
  | sharded {s : LoopState n ρ κ η} {full : List (Carried ρ)} {loc : Fin n → List (Carried ρ)}
      (hn : 1 < n) (hi : s.inputs.Rows T)
      (h : Shards (SPRows.localRows ⟨T, n, 0⟩) full loc) (hT : full.length = T) :
      Agree T { s with rows := fun _ => full, sp := none } { s with rows := loc, sp := some T }

namespace Model

variable {n : Nat} {ρ φ κ η : Type} [Zero ρ] (m : Model n ρ φ κ η) {T : Nat}

omit [Zero ρ] in
theorem collectAux_none (ced : Option (List Nat)) (idx : Nat) {s : LoopState n ρ κ η}
    (h : s.sp = none) : ∃ s', m.collectAux ced T idx s = .ok s' ∧ s'.sp = none := by
  unfold collectAux
  split
  · rw [h]
    exact ⟨_, rfl, rfl⟩
  · exact ⟨s, rfl, h⟩

omit [Zero ρ] in
theorem collectAux_agree (ced : Option (List Nat)) (idx : Nat) {s t : LoopState n ρ κ η}
    (h : Agree T s t) : ∃ s' t', m.collectAux ced T idx s = .ok s' ∧
      m.collectAux ced T idx t = .ok t' ∧ Agree T s' t' := by
  cases h with
  | whole h =>
    obtain ⟨s', hs', hsp⟩ := m.collectAux_none (T := T) ced idx h
    exact ⟨s', s', hs', hs', .whole hsp⟩
  | sharded hn hi h hT =>
    rename_i s full loc
    have hgather := gatherRows_of_shards (h.map m.auxHiddenState) (by rw [List.length_map, hT])
    by_cases haux : idx + 1 ∈ m.auxHiddenStateLayers
    · refine ⟨_, _, ?_, ?_, .sharded (s := { s with
        aux := s.aux ++ [m.expand ced s.compacted T fun _ => full.map m.auxHiddenState] })
        hn hi h hT⟩
      · simp only [collectAux, if_pos haux, allRows, bind, Except.bind, pure, Except.pure]
      · simp only [collectAux, if_pos haux, allRows, hgather, bind, Except.bind, pure, Except.pure]
    · refine ⟨_, _, ?_, ?_, .sharded hn hi h hT⟩
      · simp only [collectAux, if_neg haux]
      · simp only [collectAux, if_neg haux]

/-- A full-row layer raises nothing. -/
theorem layer_forward_none (l : DecoderLayer n ρ φ κ η) (sum : (Fin n → ρ) → ρ) (i : Inputs η)
    (caches : Fin n → κ) (rows : Fin n → List (Carried ρ)) :
    ∃ out, l.forward sum i none caches rows = .ok out :=
  ⟨_, rfl⟩

theorem layerStep_none (sum : (Fin n → ρ) → ρ) (ced : Option (List Nat)) (idx : Nat)
    (layer : DecoderLayer n ρ φ κ η) {s : LoopState n ρ κ η} (h : s.sp = none) :
    ∃ s', m.layerStep sum ced idx layer s = .ok s' ∧ s'.sp = none := by
  unfold layerStep
  split
  · obtain ⟨out, hout⟩ := layer_forward_none layer sum s.inputs s.caches s.rows
    rw [h, hout]
    exact ⟨_, rfl, rfl⟩
  · rw [h]
    exact ⟨_, rfl, rfl⟩

theorem layerStep_agree (sum : (Fin n → ρ) → ρ) (ced : Option (List Nat)) (idx : Nat)
    {layer : DecoderLayer n ρ φ κ η} (hreduced : layer.ffn.reduced = false)
    {s t : LoopState n ρ κ η} (h : Agree T s t) :
    ∃ s' t', m.layerStep sum ced idx layer s = .ok s' ∧
      m.layerStep sum ced idx layer t = .ok t' ∧ Agree T s' t' := by
  cases h with
  | whole h =>
    obtain ⟨s', hs', hsp⟩ := m.layerStep_none sum ced idx layer h
    exact ⟨s', s', hs', hs', .whole hsp⟩
  | sharded hn hi h hT =>
    rename_i s full loc
    unfold layerStep
    split
    · obtain ⟨caches', full', loc', hfull, hloc, h', hT'⟩ :=
        layer.forward_shards sum s.caches hn hreduced hi h hT
      refine ⟨_, _, ?_, ?_, .sharded (s := { s with caches := caches' }) hn hi h' hT'⟩
      · simp only [hfull, bind, Except.bind, pure, Except.pure]
      · simp only [hloc, bind, Except.bind, pure, Except.pure]
    · -- The boundary layer: the gathered rows are the full rows, and the states meet.
      next indices _ =>
      have hgather := gatherRows_of_shards h hT
      let met := m.compact indices idx s fun _ => full
      refine ⟨met, met, rfl, ?_, .whole rfl⟩
      simp only [allRows, hgather, bind, Except.bind, pure, Except.pure]
      rfl

/-- **A turn of the loop keeps the two forwards together.** -/
theorem step_agree (sum : (Fin n → ρ) → ρ) (ced : Option (List Nat))
    {layer : DecoderLayer n ρ φ κ η × Nat} (hreduced : layer.1.ffn.reduced = false)
    {s t : LoopState n ρ κ η} (h : Agree T s t) :
    ∃ s' t', m.step sum ced T layer s = .ok s' ∧ m.step sum ced T layer t = .ok t' ∧
      Agree T s' t' := by
  obtain ⟨s₁, t₁, hs₁, ht₁, h₁⟩ := m.layerStep_agree sum ced layer.2 hreduced h
  obtain ⟨s₂, t₂, hs₂, ht₂, h₂⟩ := m.collectAux_agree ced layer.2 h₁
  refine ⟨s₂, t₂, ?_, ?_, h₂⟩
  · simp only [step, hs₁, bind, Except.bind, hs₂]
  · simp only [step, ht₁, bind, Except.bind, ht₂]

omit [Zero ρ] in
/-- Where the forwards are together they end alike, but for an MTP buffer that only the
full-row forward fills. -/
theorem finish_agree (ced : Option (List Nat)) {s t : LoopState n ρ κ η} (h : Agree T s t) :
    ∃ a b, m.finish ced T s = .ok a ∧ m.finish ced T t = .ok b ∧ b.caches = a.caches ∧
      b.hidden = a.hidden ∧ b.aux = a.aux ∧
      (b.mtp = a.mtp ∨ m.prefillSpSkipsMtpBuffer = true ∧ b.mtp = none) := by
  cases h with
  | whole h =>
    have hok : ∃ a, m.finish ced T s = .ok a := by
      unfold finish
      rw [h]
      split
      · exact ⟨_, rfl⟩
      · exact ⟨_, rfl⟩
    obtain ⟨a, ha⟩ := hok
    exact ⟨a, a, ha, ha, rfl, rfl, rfl, Or.inl rfl⟩
  | sharded hn hi h hT =>
    rename_i s full loc
    have hlen : ∀ f : Carried ρ → ρ, (full.map f).length = T := fun f => by
      rw [List.length_map, hT]
    have hpost := gatherRows_of_shards (h.map m.post) (hlen m.post)
    have hpre := gatherRows_of_shards (h.map m.preMix) (hlen m.preMix)
    have hout := gatherRows_of_shards
      ((h.map m.post).zipWith (h.map m.preMix) ((hlen _).trans (hlen _).symm) m.collapseNorm)
      (by rw [List.length_zipWith, hlen, hlen, Nat.min_self])
    let out : Option (Fin n → List ρ) → Output n ρ κ := fun mtp =>
      ⟨s.caches, m.expand ced s.compacted T fun _ =>
        (full.map m.post).zipWith m.collapseNorm (full.map m.preMix), s.aux, mtp⟩
    let buffer := m.expand ced s.compacted T fun _ => full.map m.post
    rcases hbuffer : m.mtpHiddenBuffer with _ | _
    · refine ⟨out none, out none, ?_, ?_, rfl, rfl, rfl, Or.inl rfl⟩
      · simp only [finish, hbuffer, Bool.false_and, Bool.false_eq_true, if_false, allRows, bind,
          Except.bind, pure, Except.pure, out]
      · simp only [finish, hbuffer, Bool.false_and, Bool.false_eq_true, if_false, allRows, hout,
          bind, Except.bind, pure, Except.pure, out]
    · have hfull : m.finish ced T { s with rows := fun _ => full, sp := none } =
          .ok (out (some buffer)) := by
        simp only [finish, hbuffer, Option.isSome_none, Bool.false_and, Bool.not_false,
          Bool.true_and, if_true, allRows, bind, Except.bind, pure, Except.pure, out, buffer]
      rcases hskip : m.prefillSpSkipsMtpBuffer with _ | _
      · refine ⟨out (some buffer), out (some buffer), hfull, ?_, rfl, rfl, rfl, Or.inl rfl⟩
        simp only [finish, hbuffer, hskip, Bool.and_false, Bool.not_false, Bool.true_and, if_true,
          allRows, hpost, hpre, bind, Except.bind, pure, Except.pure, out, buffer]
      · refine ⟨out (some buffer), out none, hfull, ?_, rfl, rfl, rfl, Or.inr ⟨rfl, rfl⟩⟩
        simp only [finish, hbuffer, hskip, Option.isSome_some, Bool.and_self, Bool.not_true,
          Bool.and_false, Bool.false_eq_true, if_false, allRows, hout, bind, Except.bind, pure,
          Except.pure, out]

/-- Before the first layer the two forwards are together. -/
theorem embed_agree (sum : (Fin n → ρ) → ρ) {i : Inputs η} {inputsEmbeds : Option (List ρ)}
    (hi : i.Rows T) (hembeds : ∀ e ∈ inputsEmbeds, e.length = T) (caches : Fin n → κ)
    {sp : Option Nat} (hsp : ∀ T' ∈ sp, 1 < n ∧ T' = T) :
    ∃ x y, m.embed sum i inputsEmbeds none = .ok x ∧ m.embed sum i inputsEmbeds sp = .ok y ∧
      Agree T ⟨caches, fun r => (x r).map Carried.embedded, i, none, false, []⟩
        ⟨caches, fun r => (y r).map Carried.embedded, i, sp, false, []⟩ := by
  cases sp with
  | none => exact ⟨_, _, rfl, rfl, .whole rfl⟩
  | some T' =>
    obtain ⟨hn, rfl⟩ := hsp T' rfl
    have hsharded : ∀ {full : List ρ} {loc : Fin n → List ρ},
        Shards (SPRows.localRows ⟨T', n, 0⟩) full loc → full.length = T' →
        Agree T' ⟨caches, fun _ => full.map Carried.embedded, i, none, false, []⟩
          ⟨caches, fun r => (loc r).map Carried.embedded, i, some T', false, []⟩ :=
      fun h hT => .sharded (s := ⟨caches, fun _ => [], i, none, false, []⟩) hn hi
        (h.map Carried.embedded) (by rw [List.length_map, hT])
    cases inputsEmbeds with
    | some embeds =>
      obtain ⟨loc, hloc, h⟩ := localSlices_shards (Nat.lt_of_succ_lt hn) (hembeds embeds rfl)
      exact ⟨fun _ => embeds, loc, rfl, hloc, hsharded h (hembeds embeds rfl)⟩
    | none =>
      obtain ⟨full, loc, hfull, hloc, h, hT⟩ := m.embedTokens.forward_shards sum hn hi.inputIds
      exact ⟨fun _ => full, loc, by simp only [embed, hfull], hloc, hsharded h hT⟩

end Model

/-- **Sequence parallelism changes no result**: from whatever number of tokens on a forward runs
sequence-parallel, with or without CED compaction, no check raises and every rank ends with the
caches, the hidden states and the drafter's hidden states of the full-row forward; its MTP buffer
too, unless the drafter does not read it. -/
theorem forward_sequenceParallel {n : Nat} {ρ φ κ η : Type} [Zero ρ] (m : Model n ρ φ κ η)
    (sum : (Fin n → ρ) → ρ) (minRows : Nat) (i : Inputs η) (inputsEmbeds : Option (List ρ))
    (ced : Option (List Nat)) (caches : Fin n → κ) (hi : i.Rows i.positions.length)
    (hembeds : ∀ e ∈ inputsEmbeds, e.length = i.positions.length)
    (hreduced : ∀ l ∈ m.layers, l.ffn.reduced = false) :
    ∃ full out, m.forward sum 0 i inputsEmbeds ced caches = .ok full ∧
      m.forward sum minRows i inputsEmbeds ced caches = .ok out ∧ out.caches = full.caches ∧
      out.hidden = full.hidden ∧ out.aux = full.aux ∧
      (out.mtp = full.mtp ∨ m.prefillSpSkipsMtpBuffer = true ∧ out.mtp = none) := by
  let sp := if m.spLayersAvailable ced then plan i.positions.length minRows n else none
  have hsp : ∀ T' ∈ sp, 1 < n ∧ T' = i.positions.length := by
    intro T' hT'
    simp only [sp] at hT'
    split at hT'
    · exact one_lt_of_plan hT'
    · cases hT'
  have hoff : (if m.spLayersAvailable ced then plan i.positions.length 0 n else none) = none := by
    simp only [plan, true_or, if_true, ite_self]
  obtain ⟨x, y, hx, hy, hagree⟩ := m.embed_agree sum hi hembeds caches hsp
  obtain ⟨s, t, hs, ht, hagree⟩ := applyAll_lockstep (m.step sum ced i.positions.length)
    (m.step sum ced i.positions.length) (m.layers.zipIdx m.startLayer)
    (fun l hl s t h => m.step_agree sum ced
      (hreduced _ (List.fst_mem_of_mem_zipIdx hl)) h) hagree
  obtain ⟨a, b, ha, hb, hsame⟩ := m.finish_agree ced hagree
  refine ⟨a, b, ?_, ?_, hsame⟩
  · simp only [Model.forward, hoff, hx, bind, Except.bind, hs, ha]
  · simp only [Model.forward, bind, Except.bind]
    simp only [sp] at hy ht
    simp only [hy, ht, hb]

/-- A layer on numbers whose attention and experts read every row. -/
def sumLayer : DecoderLayer 2 Nat Nat Nat Nat where
  engram := some ⟨fun h => h, fun mask k s => if mask = some false then s else s + k⟩
  state
    | .embedded x => x
    | .layer x residual _ _ _ => x + residual
  pre _ s := ⟨s.getD 0, 0, 0, s.getD 0, 0⟩
  attn :=
    { front := fun x => x
      compressor := false
      cacheContextKv := fun _ _ fronts c => c + fronts.sum
      prepareGlobalKv := fun _ _ _ c => c
      mqa := fun r _ fronts c => (c, fronts.map fun x => r * (x + fronts.sum))
      prepareGlobalKv_of_not := fun _ _ _ _ _ => rfl
      length_mqa := fun _ _ _ _ => List.length_map _ }
  postPre m o := { m with x := m.x + o }
  ffn :=
    { shared := none
      routed := fun r _ x => x.map fun y => y + r * x.sum
      add := fun x y => x + y
      trunc := fun x => x
      reduced := false
      length_shared := fun _ h => absurd h (Option.not_mem_none _)
      length_routed := fun _ _ _ => List.length_map _ }

/-- Two such layers over two ranks that own the even and the odd ids. -/
def sumModel : Model 2 Nat Nat Nat Nat where
  embedTokens := ⟨fun r id => if id % 2 = r then id + 1 else 0⟩
  startLayer := 0
  layers := [sumLayer, sumLayer]
  cedDecoderStart := some 1
  compactLayer _ indices _ caches rows := (caches, fun r => indices.filterMap ((rows r)[·]?))
  compactInputs _ i := i
  scatterRows _ _ x := x
  auxHiddenStateLayers := [1]
  auxHiddenState
    | .embedded x => x
    | .layer x _ _ _ _ => x
  post
    | .embedded x => x
    | .layer x residual _ _ _ => x + residual
  preMix _ := 0
  collapseNorm x _ := x
  mtpHiddenBuffer := true
  prefillSpSkipsMtpBuffer := false

/-- Five tokens with a compacted decoder, sequence-parallel from four tokens on. -/
theorem forward_sequenceParallel_five :
    ∃ full out, sumModel.forward (fun x => ∑ r, x r) 0
        ⟨[0, 1, 2, 3, 4], [7, 2, 5, 5, 0], some [1, 2, 3, 4, 5], none⟩ none (some [4])
        (fun _ => 0) = .ok full ∧
      sumModel.forward (fun x => ∑ r, x r) 4
        ⟨[0, 1, 2, 3, 4], [7, 2, 5, 5, 0], some [1, 2, 3, 4, 5], none⟩ none (some [4])
        (fun _ => 0) = .ok out ∧
      out.caches = full.caches ∧ out.hidden = full.hidden ∧ out.aux = full.aux ∧
      (out.mtp = full.mtp ∨ sumModel.prefillSpSkipsMtpBuffer = true ∧ out.mtp = none) :=
  forward_sequenceParallel sumModel _ 4 ⟨[0, 1, 2, 3, 4], [7, 2, 5, 5, 0], some [1, 2, 3, 4, 5], none⟩
    none (some [4]) (fun _ => 0)
    ⟨rfl, rfl, by simp, by simp⟩ (by simp) (by simp [sumModel, sumLayer])

end LlmkubeRuntimes.Prefill
