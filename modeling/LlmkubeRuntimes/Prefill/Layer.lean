import LlmkubeRuntimes.Prefill.Rows

/-!
# A decoder layer on every rank

The ranks run the same code in lockstep, so a layer takes what every rank holds
to what every rank holds. `sp` says whether the forward is sequence-parallel:
the ranks then hold their own rows between collectives, else every row.

* `Engram.forward`: the gate, on the real local rows;
* `Attention.forward`: gathers its input or, without a compressor, the row-wise
  front of it, and reduce-scatters its output;
* `MoE.forward`: gathers its input and reduce-scatters shared and routed experts;
* `DecoderLayer.forward_shards`: a sequence-parallel layer does to the ranks' rows
  what the full-row layer does to all rows, and leaves the same caches.

The kernels and the ranks' sum are parameters: `ρ` is a row of any tensor, `φ`
the row of the attention front, `κ` a rank's caches, `η` the hashes of a token.
-/

namespace LlmkubeRuntimes.Prefill

open LlmkubeRuntimes.Lib

/-- What every rank is given of the tokens of a forward. -/
structure Inputs (η : Type) where
  positions : List Nat
  inputIds : List Nat
  engramHashes : Option (List η)
  engramMask : Option (List Bool)

/-- A row of each for every token. -/
structure Inputs.Rows {η : Type} (i : Inputs η) (T : Nat) : Prop where
  positions : i.positions.length = T
  inputIds : i.inputIds.length = T
  hashes : ∀ h ∈ i.engramHashes, h.length = T
  mask : ∀ m ∈ i.engramMask, m.length = T

/-! ## The Engram gate -/

/-- The Engram module of a layer, row by row: the projected lookup of a token's hashes and
`run_engram_mix`, with the token's mask if there is one. -/
structure Engram (ρ η : Type) where
  wkv : η → ρ
  mix : Option Bool → ρ → ρ → ρ

namespace Engram

variable {ρ η : Type} (e : Engram ρ η)

/-- `run_engram_mix` on rows of the state and of `kv`. -/
def runMix (state kv : List ρ) : Option (List Bool) → List ρ
  | none => state.zipWith (fun s k => e.mix none k s) kv
  | some mask => state.zipWith (fun s t => e.mix (some t.2) t.1 s) (kv.zip mask)

/-- The gate of one rank. The lookup covers every token; under sequence parallelism only the
real local rows are gated and the pad rows pass through. -/
def forward (hidden : List ρ) (hashes : List η) (mask : Option (List Bool)) :
    Option SPRows → List ρ
  | none => e.runMix hidden (hashes.map e.wkv) mask
  | some s =>
    if s.realRows = 0 then hidden
    else e.runMix (hidden.take s.realRows) (((hashes.map e.wkv).drop s.start).take s.realRows)
        (mask.map fun m => (m.drop s.start).take s.realRows) ++ hidden.drop s.realRows

/-- What the gate adds to the state of each token. -/
def tokens (kv : List ρ) : Option (List Bool) → List (ρ × Option Bool)
  | none => kv.map fun k => (k, none)
  | some mask => kv.zip (mask.map some)

theorem runMix_eq (state kv : List ρ) (mask : Option (List Bool)) :
    e.runMix state kv mask = state.zipWith (fun s t => e.mix t.2 t.1 s) (tokens kv mask) := by
  cases mask with
  | none => rw [runMix, tokens, List.zipWith_map_right]
  | some m => rw [runMix, tokens, List.zip_map_right, List.zipWith_map_right]; rfl

theorem tokens_slice (kv : List ρ) (mask : Option (List Bool)) (a b : Nat) :
    tokens ((kv.drop a).take b) (mask.map fun m => (m.drop a).take b) =
      ((tokens kv mask).drop a).take b := by
  cases mask with
  | none => simp only [tokens, Option.map_none, List.map_drop, List.map_take]
  | some m => simp only [tokens, Option.map_some, List.zip, List.drop_zipWith, List.take_zipWith,
      List.map_drop, List.map_take]

theorem length_tokens {kv : List ρ} {mask : Option (List Bool)} {T : Nat} (hkv : kv.length = T)
    (hmask : ∀ m ∈ mask, m.length = T) : (tokens kv mask).length = T := by
  cases mask with
  | none => rw [tokens, List.length_map, hkv]
  | some m => rw [tokens, List.length_zip, List.length_map, hkv, hmask m rfl, Nat.min_self]

/-- Gating the real local rows of every rank gates every row. -/
theorem forward_shards {n T : Nat} {full : List ρ} {loc : Fin n → List ρ} {hashes : List η}
    {mask : Option (List Bool)} (h : Shards (SPRows.localRows ⟨T, n, 0⟩) full loc)
    (hT : full.length = T) (hhashes : hashes.length = T) (hmask : ∀ m ∈ mask, m.length = T) :
    Shards (SPRows.localRows ⟨T, n, 0⟩) (e.forward full hashes mask none)
        (fun r => e.forward (loc r) hashes mask (some ⟨T, n, r⟩)) ∧
      (e.forward full hashes mask none).length = T := by
  have hkv : (hashes.map e.wkv).length = T := by rw [List.length_map, hhashes]
  have htokens := length_tokens hkv hmask
  have hlocal : (fun r : Fin n => e.forward (loc r) hashes mask (some ⟨T, n, r⟩)) = fun r =>
      ((loc r).take (SPRows.realRows ⟨T, n, r⟩)).zipWith (fun s t => e.mix t.2 t.1 s)
        (((tokens (hashes.map e.wkv) mask).drop (r * SPRows.localRows ⟨T, n, 0⟩)).take
          (SPRows.realRows ⟨T, n, r⟩)) ++ (loc r).drop (SPRows.realRows ⟨T, n, r⟩) := by
    funext r
    rw [forward]
    split
    · next h0 => rw [h0, List.take_zero, List.take_zero, List.zipWith_nil_left, List.nil_append,
        List.drop_zero]
    · rw [runMix_eq, tokens_slice, start_eq]
  rw [hlocal, forward, runMix_eq]
  refine ⟨h.zipReal (htokens.trans hT.symm) _ fun r => ?_, ?_⟩
  · rw [realRows_eq, hT]
  · rw [List.length_zipWith, htokens, hT, Nat.min_self]

end Engram

/-! ## Attention -/

/-- The TP sum of partial rows; a single rank has none. -/
def tpReduce {n : Nat} {ρ : Type} [Zero ρ] (sum : (Fin n → ρ) → ρ) (x : Fin n → List ρ) :
    Fin n → List ρ :=
  if 1 < n then allReduce sum x else x

/-- The attention of a layer. `front` is the row-wise part: `fused_wqa_wkv`, the two norms and
the index weights. `mqa` is all that follows the caches, up to a rank's partial WO rows. Only a
layer with a compressor builds global KV from the hidden rows. -/
structure Attention (n : Nat) (ρ φ κ : Type) where
  front : ρ → φ
  compressor : Bool
  cacheContextKv : Fin n → List Nat → List φ → κ → κ
  prepareGlobalKv : Fin n → List Nat → List ρ → κ → κ
  mqa : Fin n → List Nat → List φ → κ → κ × List ρ
  prepareGlobalKv_of_not : compressor = false → ∀ r positions hidden c,
    prepareGlobalKv r positions hidden c = c
  length_mqa : ∀ r positions fronts c, (mqa r positions fronts c).2.length = fronts.length

namespace Attention

variable {n : Nat} {ρ φ κ : Type} (a : Attention n ρ φ κ)

/-- The front of every row, and the hidden rows where they are at hand. -/
def rows (x : Fin n → List ρ) :
    Option Nat → Except RowError ((Fin n → List φ) × Option (Fin n → List ρ))
  | none => .ok (fun r => (x r).map a.front, some x)
  | some T =>
    if a.compressor then do
      let hidden ← gatherRows T x
      return (fun r => (hidden r).map a.front, some hidden)
    else do
      -- The front's rows are narrower than the hidden rows.
      let fronts ← gatherRows T fun r => (x r).map a.front
      return (fronts, none)

/-- One rank's caches and partial rows. -/
def body (r : Fin n) (positions : List Nat) (fronts : List φ) (hidden : Option (List ρ)) (c : κ) :
    κ × List ρ :=
  let cached := a.cacheContextKv r positions fronts c
  let prepared :=
    match hidden with
    | some hidden => a.prepareGlobalKv r positions hidden cached
    | none => cached
  a.mqa r positions fronts prepared

/-- The partial rows do not depend on whether the hidden rows are at hand. -/
theorem body_of_not_compressor (h : a.compressor = false) (r : Fin n) (positions : List Nat)
    (fronts : List φ) (hidden : List ρ) (c : κ) :
    a.body r positions fronts (some hidden) c = a.body r positions fronts none c := by
  simp only [body, a.prepareGlobalKv_of_not h]

theorem length_body (r : Fin n) (positions : List Nat) (fronts : List φ)
    (hidden : Option (List ρ)) (c : κ) :
    (a.body r positions fronts hidden c).2.length = fronts.length := by
  unfold body
  exact a.length_mqa _ _ _ _

/-- The ranks' rows give the front of every row, and the hidden rows unless nothing reads
them. -/
theorem rows_of_shards {T : Nat} {full : List ρ} {loc : Fin n → List ρ}
    (h : Shards (SPRows.localRows ⟨T, n, 0⟩) full loc) (hT : full.length = T) :
    ∃ hidden, a.rows loc (some T) = .ok (fun _ => full.map a.front, hidden) ∧
      ∀ r positions c, a.body r positions (full.map a.front) (hidden.map (· r)) c =
        a.body r positions (full.map a.front) (some full) c := by
  rcases hc : a.compressor with _ | _
  · refine ⟨none, ?_, fun r positions c => (a.body_of_not_compressor hc r positions _ full c).symm⟩
    have hgather := gatherRows_of_shards (h.map a.front) (by rw [List.length_map, hT])
    simp only [rows, hc, Bool.false_eq_true, if_false, hgather, bind, Except.bind, pure, Except.pure]
  · refine ⟨some fun _ => full, ?_, fun r positions c => rfl⟩
    have hgather := gatherRows_of_shards h hT
    simp only [rows, hc, if_true, hgather, bind, Except.bind, pure, Except.pure]

variable [Zero ρ]

/-- `_o_proj`: the WO rows of every rank, summed. -/
def oProj (sum : (Fin n → ρ) → ρ) (out : Fin n → List ρ) :
    Option Nat → Except RowError (Fin n → List ρ)
  | none => .ok (tpReduce sum out)
  | some T => do
    expectRows (.wo T) T out
    reduceScatterRows sum T fun r => SPRows.padded ⟨T, n, r⟩ (out r)

def forward (sum : (Fin n → ρ) → ρ) (positions : List Nat) (sp : Option Nat) (caches : Fin n → κ)
    (x : Fin n → List ρ) : Except RowError ((Fin n → κ) × (Fin n → List ρ)) := do
  let (fronts, hidden) ← a.rows x sp
  let done := fun r => a.body r positions (fronts r) (hidden.map (· r)) (caches r)
  let out ← oProj sum (fun r => (done r).2) sp
  return (fun r => (done r).1, out)

/-- **Attention on the ranks' rows is attention on every row**: the same caches, and the ranks'
rows of the same output. -/
theorem forward_shards (sum : (Fin n → ρ) → ρ) (positions : List Nat) (caches : Fin n → κ) {T : Nat}
    {full : List ρ} {loc : Fin n → List ρ} (hn : 1 < n)
    (h : Shards (SPRows.localRows ⟨T, n, 0⟩) full loc) (hT : full.length = T) :
    ∃ caches' full' loc',
      a.forward sum positions none caches (fun _ => full) = .ok (caches', fun _ => full') ∧
      a.forward sum positions (some T) caches loc = .ok (caches', loc') ∧
      Shards (SPRows.localRows ⟨T, n, 0⟩) full' loc' ∧ full'.length = T := by
  let done := fun r => a.body r positions (full.map a.front) (some full) (caches r)
  have hdone : ∀ r, (done r).2.length = T := fun r => by
    rw [a.length_body, List.length_map, hT]
  obtain ⟨hidden, hrows, hbody⟩ := a.rows_of_shards h hT
  obtain ⟨loc', hscatter, hshards⟩ :=
    reduceScatterRows_padded sum (Nat.lt_of_succ_lt hn) (T := T) (x := fun r => (done r).2) hdone
  refine ⟨fun r => (done r).1, reduceRows sum T fun r => (done r).2, loc', ?_, ?_, hshards,
    length_reduceRows _ _ _⟩
  · simp only [forward, rows, oProj, bind, Except.bind, pure, Except.pure, tpReduce, if_pos hn,
      Option.map_some]
    rw [allReduce_eq sum hdone]
  · simp only [forward, hrows, bind, Except.bind, pure, Except.pure, hbody]
    simp only [oProj, bind, Except.bind]
    rw [expectRows_ok hdone, hscatter]

end Attention

/-! ## Experts -/

/-- The MoE of a layer: a rank's shared and routed experts, and the cut to the hidden width.
`reduced` stands for the configurations whose output the runner does not reduce. -/
structure MoE (n : Nat) (ρ : Type) where
  shared : Option (Fin n → List ρ → List ρ)
  routed : Fin n → List Nat → List ρ → List ρ
  add : ρ → ρ → ρ
  trunc : ρ → ρ
  reduced : Bool
  length_shared : ∀ f ∈ shared, ∀ r x, (f r x).length = x.length
  length_routed : ∀ r ids x, (routed r ids x).length = x.length

namespace MoE

variable {n : Nat} {ρ : Type} (m : MoE n ρ)

/-- A rank's shared and routed experts together. -/
def combined (r : Fin n) (ids : List Nat) (x : List ρ) : List ρ :=
  match m.shared with
  | none => m.routed r ids x
  | some shared => (shared r x).zipWith m.add (m.routed r ids x)

theorem length_combined (r : Fin n) (ids : List Nat) (x : List ρ) :
    (m.combined r ids x).length = x.length := by
  rcases h : m.shared with _ | shared
  · simp only [combined, h, m.length_routed]
  · simp only [combined, h, List.length_zipWith, m.length_routed, m.length_shared shared h,
      Nat.min_self]

variable [Zero ρ]

/-- `_reduce_scatter_final_output` on every rank. -/
def reduceScatterFinalOutput (sum : (Fin n → ρ) → ρ) (states : Fin n → List ρ) (paddedRows : Nat) :
    Except RowError (Fin n → List ρ) :=
  if m.reduced then .error .reducedMoE
  else .ok fun r =>
    (reduceScatter sum paddedRows (fun r => padTo paddedRows (states r)) r).map m.trunc

/-- The experts on every rank, behind a gather under sequence parallelism. -/
def forward (sum : (Fin n → ρ) → ρ) (ids : List Nat) (x : Fin n → List ρ) :
    Option Nat → Except RowError (Fin n → List ρ)
  | none =>
    let states := fun r => m.combined r ids (x r)
    .ok fun r => ((if m.reduced then states else tpReduce sum states) r).map m.trunc
  | some T => do
    let gathered ← gatherRows T x
    m.reduceScatterFinalOutput sum (fun r => m.combined r ids (gathered r))
      (SPRows.paddedRows ⟨T, n, 0⟩)

/-- **The experts on the ranks' rows are the experts on every row.** -/
theorem forward_shards (sum : (Fin n → ρ) → ρ) (ids : List Nat) {T : Nat} {full : List ρ}
    {loc : Fin n → List ρ} (hn : 1 < n) (hreduced : m.reduced = false)
    (h : Shards (SPRows.localRows ⟨T, n, 0⟩) full loc) (hT : full.length = T) :
    ∃ full' loc', m.forward sum ids (fun _ => full) none = .ok (fun _ => full') ∧
      m.forward sum ids loc (some T) = .ok loc' ∧
      Shards (SPRows.localRows ⟨T, n, 0⟩) full' loc' ∧ full'.length = T := by
  have hpos : 0 < n := Nat.lt_of_succ_lt hn
  have hlen : ∀ r, (m.combined r ids full).length = T := fun r => by rw [m.length_combined, hT]
  have hscatter : Shards (SPRows.localRows ⟨T, n, 0⟩)
      (reduceRows sum T fun r => m.combined r ids full)
      (reduceScatter sum (SPRows.paddedRows ⟨T, n, 0⟩) fun r =>
        padTo (SPRows.paddedRows ⟨T, n, 0⟩) (m.combined r ids full)) :=
    Shards.reduceScatter sum (paddedRows_eq hpos) (le_paddedRows hpos) fun r i hi => by
      rw [padTo, List.getElem?_append_left (by rw [hlen r]; exact hi)]
  refine ⟨_, _, ?_, ?_, hscatter.map m.trunc, ?_⟩
  · simp only [forward, hreduced, Bool.false_eq_true, if_false, tpReduce, if_pos hn]
    rw [allReduce_eq sum hlen]
  · simp only [forward, gatherRows_of_shards h hT, bind, Except.bind, reduceScatterFinalOutput,
      hreduced, Bool.false_eq_true, if_false]
  · rw [List.length_map, length_reduceRows]

end MoE

/-! ## A decoder layer -/

/-- What a row carries between layers: its embedding, before any layer, or the layer's output
with the residual and the mixes. -/
inductive Carried (ρ : Type) where
  | embedded (x : ρ)
  | layer (x residual postMix resMix preMix : ρ)

/-- A row between the mHC kernels of a layer. -/
structure Mixed (ρ : Type) where
  residual : ρ
  postMix : ρ
  resMix : ρ
  x : ρ
  preMix : ρ

/-- The row a layer returns, with the output of its experts. -/
def Mixed.carry {ρ : Type} (m : Mixed ρ) (x : ρ) : Carried ρ :=
  .layer x m.residual m.postMix m.resMix m.preMix

/-- A decoder layer: the residual stream its Engram gates, and the row-wise mHC kernels
`pre`, which takes the gated state where there is one, and `post_pre`. -/
structure DecoderLayer (n : Nat) (ρ φ κ η : Type) where
  engram : Option (Engram ρ η)
  state : Carried ρ → ρ
  pre : Carried ρ → Option ρ → Mixed ρ
  attn : Attention n ρ φ κ
  postPre : Mixed ρ → ρ → Mixed ρ
  ffn : MoE n ρ

namespace DecoderLayer

variable {n : Nat} {ρ φ κ η : Type} (l : DecoderLayer n ρ φ κ η)

/-- One rank's rows up to the attention. -/
def entry (i : Inputs η) (rows : List (Carried ρ)) (sp : Option SPRows) : List (Mixed ρ) :=
  match l.engram, i.engramHashes with
  | some engram, some hashes =>
    rows.zipWith (fun c s => l.pre c (some s))
      (engram.forward (rows.map l.state) hashes i.engramMask sp)
  | _, _ => rows.map fun c => l.pre c none

variable [Zero ρ]

def forward (sum : (Fin n → ρ) → ρ) (i : Inputs η) (sp : Option Nat) (caches : Fin n → κ)
    (rows : Fin n → List (Carried ρ)) :
    Except RowError ((Fin n → κ) × (Fin n → List (Carried ρ))) := do
  let mixed := fun r : Fin n => l.entry i (rows r) (sp.map fun T => ⟨T, n, r⟩)
  let (caches, o) ← l.attn.forward sum i.positions sp caches fun r => (mixed r).map Mixed.x
  let mixed := fun r => (mixed r).zipWith l.postPre (o r)
  let x ← l.ffn.forward sum i.inputIds (fun r => (mixed r).map Mixed.x) sp
  return (caches, fun r => (mixed r).zipWith Mixed.carry (x r))

omit [Zero ρ] in
theorem entry_shards {i : Inputs η} {T : Nat} {full : List (Carried ρ)}
    {loc : Fin n → List (Carried ρ)} (hi : i.Rows T)
    (h : Shards (SPRows.localRows ⟨T, n, 0⟩) full loc) (hT : full.length = T) :
    Shards (SPRows.localRows ⟨T, n, 0⟩) (l.entry i full none)
        (fun r => l.entry i (loc r) (some ⟨T, n, r⟩)) ∧ (l.entry i full none).length = T := by
  have hplain : Shards (SPRows.localRows ⟨T, n, 0⟩) (full.map fun c => l.pre c none)
      (fun r => (loc r).map fun c => l.pre c none) ∧ (full.map fun c => l.pre c none).length = T :=
    ⟨h.map _, by rw [List.length_map, hT]⟩
  rcases he : l.engram with _ | engram
  · simpa only [entry, he] using hplain
  · rcases hh : i.engramHashes with _ | hashes
    · simpa only [entry, he, hh] using hplain
    · obtain ⟨hgate, hlen⟩ := engram.forward_shards (h.map l.state) (by rw [List.length_map, hT])
        (hi.hashes hashes hh) hi.mask
      simp only [entry, he, hh]
      exact ⟨h.zipWith hgate (hT.trans hlen.symm) _, by rw [List.length_zipWith, hlen, hT,
        Nat.min_self]⟩

/-- **A layer on the ranks' rows is the layer on every row.** -/
theorem forward_shards (sum : (Fin n → ρ) → ρ) {i : Inputs η} (caches : Fin n → κ) {T : Nat}
    {full : List (Carried ρ)} {loc : Fin n → List (Carried ρ)} (hn : 1 < n)
    (hreduced : l.ffn.reduced = false) (hi : i.Rows T)
    (h : Shards (SPRows.localRows ⟨T, n, 0⟩) full loc) (hT : full.length = T) :
    ∃ caches' full' loc',
      l.forward sum i none caches (fun _ => full) = .ok (caches', fun _ => full') ∧
      l.forward sum i (some T) caches loc = .ok (caches', loc') ∧
      Shards (SPRows.localRows ⟨T, n, 0⟩) full' loc' ∧ full'.length = T := by
  obtain ⟨hentry, hentryT⟩ := l.entry_shards hi h hT
  obtain ⟨caches', o, oloc, hattn, hattnloc, ho, hoT⟩ :=
    l.attn.forward_shards sum i.positions caches hn (hentry.map Mixed.x)
      (by rw [List.length_map, hentryT])
  have hmixed := hentry.zipWith ho (hentryT.trans hoT.symm) l.postPre
  have hmixedT : ((l.entry i full none).zipWith l.postPre o).length = T := by
    rw [List.length_zipWith, hentryT, hoT, Nat.min_self]
  obtain ⟨x, xloc, hffn, hffnloc, hx, hxT⟩ :=
    l.ffn.forward_shards sum i.inputIds hn hreduced (hmixed.map Mixed.x)
      (by rw [List.length_map, hmixedT])
  refine ⟨caches', _, _, ?_, ?_, hmixed.zipWith hx (hmixedT.trans hxT.symm) Mixed.carry, ?_⟩
  · simp only [forward, Option.map_none, hattn, bind, Except.bind, hffn, pure, Except.pure]
  · simp only [forward, Option.map_some, hattnloc, bind, Except.bind, hffnloc, pure, Except.pure]
  · rw [List.length_zipWith, hmixedT, hxT, Nat.min_self]

end DecoderLayer

end LlmkubeRuntimes.Prefill
