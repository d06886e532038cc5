import Mathlib.Algebra.Order.Floor.Div
import LlmkubeRuntimes.Lib.Shards

/-!
# The gather workspace of the sparse indexer

The splitter packs a step's prefill requests into chunks that fit the gather
workspace and the logits budget, by their compressed sequence lengths.

* `splitPrefillChunks`: the chunks of a batch;
* `splitPrefillChunks_rows`: every query row is in one chunk, in order, and a chunk
  is over a budget only where a single request or a single row is;
* `getMaxPrefillBufferSize`, `buildIndexer`: the workspace in each mode, and the
  cross-check of the compression ratio at startup;
* `rightsize_same_chunks`: a builder that starts splits every batch the scheduler
  can form as it would with the stock workspace.
-/

namespace LlmkubeRuntimes.Glm53

open LlmkubeRuntimes.Lib

/-- A prefill request of a step: its query tokens and its sequence length. -/
structure Request where
  query : Nat
  seqLen : Nat

/-- A chunk: the requests of its slice, and the query rows among theirs. -/
structure Chunk where
  reqs : Nat × Nat
  queries : Nat × Nat
  deriving DecidableEq, Repr

section Split

variable (workspaceSize maxLogitsElems : Nat)

/-- Requests that fit with those before, whose query rows are `m` and sequence lengths `n`: how many
there are, and the sums with them. -/
def fill : List Request → Nat → Nat → Nat × Nat × Nat
  | [], m, n => (0, m, n)
  | r :: rs, m, n =>
    if n + r.seqLen ≤ workspaceSize ∧ (m + r.query) * (n + r.seqLen) ≤ maxLogitsElems then
      let (k, m, n) := fill rs (m + r.query) (n + r.seqLen)
      (k + 1, m, n)
    else (0, m, n)

/-- A slice's query rows, as many at a time as the logits budget has room for. -/
def subChunks (reqs : Nat × Nat) (m n : Nat) : List Chunk :=
  let maxQ := if 0 < n then max 1 (maxLogitsElems / n) else max 1 m
  (List.range (m ⌈/⌉ maxQ)).map fun i => ⟨reqs, i * maxQ, i * maxQ + min maxQ (m - i * maxQ)⟩

/-- The chunks of the requests from `start` on; a request that does not fit alone is a slice of its
own. -/
def splitFrom (start : Nat) : List Request → List Chunk
  | [] => []
  | r :: rs =>
    let (k, m, n) := fill workspaceSize maxLogitsElems (r :: rs) 0 0
    if k = 0 then
      subChunks maxLogitsElems (start, start + 1) r.query r.seqLen ++ splitFrom (start + 1) rs
    else
      subChunks maxLogitsElems (start, start + k) m n ++
        splitFrom (start + k) (rs.drop (k - 1))
termination_by reqs => reqs.length

end Split

def splitPrefillChunks (reqs : List Request) (workspaceSize maxLogitsBytes : Nat) : List Chunk :=
  splitFrom workspaceSize (maxLogitsBytes / 4) 0 reqs

def queries (reqs : List Request) : Nat := (reqs.map Request.query).sum

def seqLens (reqs : List Request) : Nat := (reqs.map Request.seqLen).sum

/-- The query rows of requests, the first one being request `first`. -/
def rows (first : Nat) (reqs : List Request) : List (Nat × Nat) :=
  (reqs.zipIdx first).flatMap fun r => (List.range r.1.query).map fun q => (r.2, q)

namespace Chunk

variable (c : Chunk)

/-- The requests of a chunk's slice. -/
def slice (reqs : List Request) : List Request := (reqs.drop c.reqs.1).take (c.reqs.2 - c.reqs.1)

/-- The query rows of a chunk. -/
def rows (reqs : List Request) : List (Nat × Nat) :=
  ((Glm53.rows c.reqs.1 (c.slice reqs)).drop c.queries.1).take (c.queries.2 - c.queries.1)

/-- A chunk within the budgets, but for a single request or a single row. -/
structure Fits (workspaceSize maxLogitsElems : Nat) (reqs : List Request) : Prop where
  workspace : seqLens (c.slice reqs) ≤ workspaceSize ∨ (c.slice reqs).length = 1
  logits : (c.queries.2 - c.queries.1) * seqLens (c.slice reqs) ≤ maxLogitsElems ∨
    c.queries.2 - c.queries.1 = 1
  rows : c.queries.1 < c.queries.2

end Chunk

/-! ## Rows and sums -/

@[simp] theorem queries_cons (r : Request) (rs : List Request) :
    queries (r :: rs) = r.query + queries rs := rfl

@[simp] theorem seqLens_cons (r : Request) (rs : List Request) :
    seqLens (r :: rs) = r.seqLen + seqLens rs := rfl

theorem rows_append (first : Nat) (xs ys : List Request) :
    rows first (xs ++ ys) = rows first xs ++ rows (first + xs.length) ys := by
  rw [rows, rows, rows, List.zipIdx_append, List.flatMap_append, Nat.add_comm first]

theorem length_rows (first : Nat) (reqs : List Request) :
    (rows first reqs).length = queries reqs := by
  induction reqs generalizing first with
  | nil => rfl
  | cons r rs ih =>
    have htail := ih (first + 1)
    simp only [rows, List.zipIdx_cons, List.flatMap_cons, List.length_append, List.length_map,
      List.length_range, queries_cons] at htail ⊢
    rw [htail]

/-- What `fill` takes: requests with their sums, within the budgets. -/
theorem fill_spec {workspaceSize maxLogitsElems : Nat} (reqs : List Request) (m n : Nat) :
    ∃ k ≤ reqs.length, fill workspaceSize maxLogitsElems reqs m n =
        (k, m + queries (reqs.take k), n + seqLens (reqs.take k)) ∧
      (0 < k → n + seqLens (reqs.take k) ≤ workspaceSize) := by
  induction reqs generalizing m n with
  | nil => exact ⟨0, Nat.le_refl 0, rfl, fun h => absurd h (Nat.lt_irrefl 0)⟩
  | cons r rs ih =>
    rw [fill]
    split
    · next hfit =>
      obtain ⟨k, hk, heq, hbudget⟩ := ih (m + r.query) (n + r.seqLen)
      refine ⟨k + 1, Nat.succ_le_succ hk, ?_, fun _ => ?_⟩
      · simp only [heq, List.take_succ_cons, queries_cons, seqLens_cons, Nat.add_assoc]
      · rw [List.take_succ_cons, seqLens_cons, ← Nat.add_assoc]
        rcases Nat.eq_zero_or_pos k with rfl | hpos
        · exact hfit.1
        · exact hbudget hpos
    · exact ⟨0, Nat.zero_le _, rfl, fun h => absurd h (Nat.lt_irrefl 0)⟩

/-- A slice and the chunks behind it. -/
theorem splitFrom_cons (workspaceSize maxLogitsElems start : Nat) {reqs : List Request}
    (hne : reqs ≠ []) :
    ∃ k, 0 < k ∧ k ≤ reqs.length ∧ (seqLens (reqs.take k) ≤ workspaceSize ∨ k = 1) ∧
      splitFrom workspaceSize maxLogitsElems start reqs =
        subChunks maxLogitsElems (start, start + k) (queries (reqs.take k))
            (seqLens (reqs.take k)) ++
          splitFrom workspaceSize maxLogitsElems (start + k) (reqs.drop k) := by
  obtain ⟨r, rs, rfl⟩ := List.exists_cons_of_ne_nil hne
  obtain ⟨k, hk, hfill, hbudget⟩ :=
    @fill_spec workspaceSize maxLogitsElems (r :: rs) 0 0
  simp only [Nat.zero_add] at hfill hbudget
  rw [splitFrom]
  simp only [hfill]
  cases k with
  | zero => exact ⟨1, Nat.one_pos, Nat.succ_le_succ (Nat.zero_le _), Or.inr rfl, rfl⟩
  | succ k => exact ⟨k + 1, Nat.succ_pos k, hk, Or.inl (hbudget (Nat.succ_pos k)), rfl⟩

/-! ## The chunks of a slice -/

section Slice

variable {maxLogitsElems start k : Nat} {reqs : List Request}

theorem slice_eq (queries : Nat × Nat) :
    Chunk.slice ⟨(start, start + k), queries⟩ reqs = (reqs.drop start).take k := by
  simp only [Chunk.slice, Nat.add_sub_cancel_left]

/-- The chunks of a slice have its rows. -/
theorem subChunks_rows :
    ((subChunks maxLogitsElems (start, start + k) (queries ((reqs.drop start).take k))
        (seqLens ((reqs.drop start).take k))).map (Chunk.rows · reqs)).flatten =
      rows start ((reqs.drop start).take k) := by
  have hlen := length_rows start ((reqs.drop start).take k)
  generalize hrows : rows start ((reqs.drop start).take k) = all at hlen
  rw [subChunks]
  generalize hq : (if 0 < seqLens ((reqs.drop start).take k) then
    max 1 (maxLogitsElems / seqLens ((reqs.drop start).take k))
    else max 1 (queries ((reqs.drop start).take k))) = maxQ
  have hpos : 0 < maxQ := by
    rw [← hq]
    split <;> exact lt_of_lt_of_le Nat.one_pos (Nat.le_max_left _ _)
  have hchunk : (fun c => Chunk.rows c reqs) ∘ (fun i => (⟨(start, start + k),
      i * maxQ, i * maxQ + min maxQ (queries ((reqs.drop start).take k) - i * maxQ)⟩ : Chunk)) =
      chunk maxQ all := funext fun i => by
    simp only [Function.comp_apply, Chunk.rows, slice_eq, hrows, Nat.add_sub_cancel_left]
    refine List.take_eq_take_iff.2 ?_
    rw [List.length_drop, hlen]
    omega
  rw [List.map_map, hchunk, flatten_chunks, List.take_of_length_le]
  rw [hlen, Nat.mul_comm]
  exact le_smul_ceilDiv hpos

/-- The chunks of a slice are within the logits budget, but for single rows. -/
theorem subChunks_fits {workspaceSize : Nat} (hk : k ≤ (reqs.drop start).length)
    (hworkspace : seqLens ((reqs.drop start).take k) ≤ workspaceSize ∨ k = 1) :
    ∀ c ∈ subChunks maxLogitsElems (start, start + k) (queries ((reqs.drop start).take k))
        (seqLens ((reqs.drop start).take k)), c.Fits workspaceSize maxLogitsElems reqs := by
  intro c hc
  simp only [subChunks] at hc
  generalize hq : (if 0 < seqLens ((reqs.drop start).take k) then
    max 1 (maxLogitsElems / seqLens ((reqs.drop start).take k))
    else max 1 (queries ((reqs.drop start).take k))) = maxQ at hc
  obtain ⟨i, hi, rfl⟩ := List.mem_map.1 hc
  have hpos : 0 < maxQ := by
    rw [← hq]
    split <;> exact lt_of_lt_of_le Nat.one_pos (Nat.le_max_left _ _)
  have hlt : i * maxQ < queries ((reqs.drop start).take k) := by
    by_contra hge
    have hle : queries ((reqs.drop start).take k) ⌈/⌉ maxQ ≤ i := by
      rw [ceilDiv_le_iff_le_mul hpos]
      exact Nat.le_of_not_lt (by rwa [Nat.mul_comm] at hge)
    exact absurd (List.mem_range.1 hi) (Nat.not_lt.2 hle)
  refine ⟨?_, ?_, ?_⟩
  · rw [slice_eq]
    refine hworkspace.imp_right fun h => ?_
    rw [List.length_take, h]
    omega
  · rw [slice_eq, Nat.add_sub_cancel_left]
    rcases Nat.eq_zero_or_pos (seqLens ((reqs.drop start).take k)) with hzero | hn
    · exact Or.inl (by rw [hzero, Nat.mul_zero]; exact Nat.zero_le _)
    · rw [if_pos hn] at hq
      rcases Nat.eq_zero_or_pos (maxLogitsElems / seqLens ((reqs.drop start).take k)) with h | h
      · rw [h] at hq
        exact Or.inr (by omega)
      · refine Or.inl (le_trans (Nat.mul_le_mul_right _ ?_) (Nat.div_mul_le_self maxLogitsElems _))
        omega
  · exact Nat.lt_add_of_pos_right (by omega)

end Slice

/-- **Every query row is in one chunk**, in the batch's order, and no chunk is empty or over a
budget, unless a single request is longer than the workspace or a single row over the logits'. -/
theorem splitPrefillChunks_rows (reqs : List Request) (workspaceSize maxLogitsBytes : Nat) :
    ((splitPrefillChunks reqs workspaceSize maxLogitsBytes).map (Chunk.rows · reqs)).flatten =
        rows 0 reqs ∧
      ∀ c ∈ splitPrefillChunks reqs workspaceSize maxLogitsBytes,
        c.Fits workspaceSize (maxLogitsBytes / 4) reqs := by
  have hfrom : ∀ len start, (reqs.drop start).length = len →
      ((splitFrom workspaceSize (maxLogitsBytes / 4) start (reqs.drop start)).map
          (Chunk.rows · reqs)).flatten = rows start (reqs.drop start) ∧
        ∀ c ∈ splitFrom workspaceSize (maxLogitsBytes / 4) start (reqs.drop start),
          c.Fits workspaceSize (maxLogitsBytes / 4) reqs := by
    intro len
    induction len using Nat.strongRecOn with
    | ind len ih =>
      intro start hlen
      by_cases hne : reqs.drop start = []
      · rw [hne, splitFrom]
        exact ⟨rfl, fun c hc => absurd hc List.not_mem_nil⟩
      · obtain ⟨k, hpos, hk, hworkspace, heq⟩ :=
          splitFrom_cons workspaceSize (maxLogitsBytes / 4) start hne
        rw [List.drop_drop] at heq
        obtain ⟨hrows, hfits⟩ := ih (reqs.drop (start + k)).length
          (by rw [← hlen, ← List.drop_drop, List.length_drop]; omega) (start + k) rfl
        rw [heq, List.map_append, List.flatten_append, subChunks_rows, hrows]
        refine ⟨?_, fun c hc => ?_⟩
        · conv_rhs => rw [← List.take_append_drop k (reqs.drop start), rows_append,
            List.length_take, Nat.min_eq_left hk, List.drop_drop]
        · rcases List.mem_append.1 hc with hc | hc
          · exact subChunks_fits hk hworkspace c hc
          · exact hfits c hc
  exact hfrom _ 0 rfl

/-! ## A workspace that nothing overflows -/

/-- A workspace with room for all sequences leaves the slices to the logits budget. -/
theorem fill_congr {ws ws' maxLogitsElems : Nat} (reqs : List Request) (m n : Nat)
    (h : n + seqLens reqs ≤ ws) (h' : n + seqLens reqs ≤ ws') :
    fill ws maxLogitsElems reqs m n = fill ws' maxLogitsElems reqs m n := by
  induction reqs generalizing m n with
  | nil => rfl
  | cons r rs ih =>
    rw [seqLens_cons, ← Nat.add_assoc] at h h'
    have hfit : n + r.seqLen ≤ ws := by omega
    have hfit' : n + r.seqLen ≤ ws' := by omega
    simp only [fill, hfit, hfit', true_and, ih _ _ h h']

theorem seqLens_drop_le (k : Nat) (reqs : List Request) :
    seqLens (reqs.drop k) ≤ seqLens reqs := by
  conv_rhs => rw [← List.take_append_drop k reqs]
  rw [seqLens, seqLens, List.map_append, List.sum_append]
  exact Nat.le_add_left _ _

theorem splitFrom_congr {ws ws' maxLogitsElems : Nat} (start : Nat) (reqs : List Request)
    (h : seqLens reqs ≤ ws) (h' : seqLens reqs ≤ ws') :
    splitFrom ws maxLogitsElems start reqs = splitFrom ws' maxLogitsElems start reqs := by
  induction hlen : reqs.length using Nat.strongRecOn generalizing start reqs with
  | ind len ih =>
    cases reqs with
    | nil => rw [splitFrom, splitFrom]
    | cons r rs =>
      rw [List.length_cons] at hlen
      rw [seqLens_cons] at h h'
      have hdrop : ∀ k start, splitFrom ws maxLogitsElems start (rs.drop k) =
          splitFrom ws' maxLogitsElems start (rs.drop k) := fun k start => by
        have hle := seqLens_drop_le k rs
        exact ih (rs.drop k).length (by rw [List.length_drop]; omega) start _ (by omega) (by omega)
          rfl
      have hrest := hdrop 0
      rw [List.drop_zero] at hrest
      have hfill := @fill_congr ws ws' maxLogitsElems (r :: rs) 0 0
        (by rw [seqLens_cons]; omega) (by rw [seqLens_cons]; omega)
      rw [splitFrom, splitFrom, hfill]
      simp only [hdrop, hrest]

/-! ## The size of the workspace -/

/-- What the sizing reads of the configuration: `indexKpool` is the integer of `index_kpool`, if it
is there and is one. -/
structure Config where
  maxModelLen : Nat
  indexKpool : Option Int
  maxNumSeqs : Nat
  maxNumBatchedTokens : Nat
  numSpeculativeTokens : Option Int

inductive Mode where
  | stock
  | rightsize
  deriving DecidableEq, Repr

/-- Why a builder does not start. -/
inductive WorkspaceError where
  | mode (raw : String)
  | dcp (compressRatio : Nat)
  | ratios (config spec : Nat)
  | tooSmall (size need : Nat)
  deriving DecidableEq, Repr

/-- The mode of `GLM53_INDEXER_WORKSPACE`, taken literally; stock where it is not set. -/
def workspaceMode : Option String → Except WorkspaceError Mode
  | none => .ok .stock
  | some raw =>
    if raw = "stock" then .ok .stock
    else if raw = "rightsize" then .ok .rightsize
    else .error (.mode raw)

namespace Config

variable (c : Config)

def stockWorkspaceEntries : Nat := c.maxModelLen * 40

/-- The pool width of the indexer, 1 being no compression. -/
def indexerCompressRatio : Nat :=
  match c.indexKpool with
  | none => 1
  | some ratio => if 1 < ratio then ratio.toNat else 1

/-- How long a request's sequence may be in a step, its drafts included. -/
def span : Nat := c.maxModelLen + (max 0 (c.numSpeculativeTokens.getD 0)).toNat

/-- The most compressed entries that a step's prefill requests take, but never more than stock. -/
def rightsizedWorkspaceEntries : Nat :=
  let ratio := c.indexerCompressRatio
  if ratio ≤ 1 then c.stockWorkspaceEntries
  else
    let maxPrefillReqs := max 1 (min c.maxNumSeqs c.maxNumBatchedTokens)
    min (c.span ⌈/⌉ ratio * maxPrefillReqs) c.stockWorkspaceEntries

def getMaxPrefillBufferSize (env : Option String) : Except WorkspaceError Nat := do
  let mode ← workspaceMode env
  if mode ≠ .rightsize then return c.stockWorkspaceEntries
  let entries := c.rightsizedWorkspaceEntries
  if c.stockWorkspaceEntries ≤ entries then return c.stockWorkspaceEntries
  return entries

end Config

/-- The metadata builder: its workspace, and the ratio that it compresses sequence lengths by. -/
structure Builder where
  maxPrefillBufferSize : Nat
  compressRatio : Nat

/-- The builder at startup; `specRatio` is the ratio of an MLA cache spec. -/
def buildIndexer (c : Config) (env : Option String) (specRatio : Option Nat)
    (dcpWorldSize : Nat) : Except WorkspaceError Builder := do
  let size ← c.getMaxPrefillBufferSize env
  let compressRatio := specRatio.getD 1
  if 1 < dcpWorldSize ∧ 1 < compressRatio then throw (.dcp compressRatio)
  let mode ← workspaceMode env
  if mode = .rightsize then
    if c.indexerCompressRatio ≠ compressRatio then
      throw (.ratios c.indexerCompressRatio compressRatio)
    let need := c.rightsizedWorkspaceEntries
    if size < min need c.stockWorkspaceEntries then throw (.tooSmall size need)
  return ⟨size, compressRatio⟩

/-- A batch that the scheduler can form: every request has a query token, and neither the requests,
their query tokens nor a sequence are more than configured. -/
structure Legal (c : Config) (batch : List Request) : Prop where
  seqs : batch.length ≤ c.maxNumSeqs
  tokens : queries batch ≤ c.maxNumBatchedTokens
  query : ∀ r ∈ batch, 0 < r.query
  span : ∀ r ∈ batch, r.seqLen ≤ c.span

/-- The requests as the splitter is given them. -/
def Builder.compress (b : Builder) (batch : List Request) : List Request :=
  batch.map fun r => ⟨r.query, r.seqLen / b.compressRatio⟩

/-- The chunks of a step. -/
def Builder.chunks (b : Builder) (batch : List Request) (maxLogitsBytes : Nat) : List Chunk :=
  splitPrefillChunks (b.compress batch) b.maxPrefillBufferSize maxLogitsBytes

theorem length_le_queries {batch : List Request} (h : ∀ r ∈ batch, 0 < r.query) :
    batch.length ≤ queries batch := by
  induction batch with
  | nil => exact Nat.le_refl 0
  | cons r rs ih =>
    have hr := h r List.mem_cons_self
    have hrs := ih fun r hr => h r (List.mem_cons_of_mem _ hr)
    rw [List.length_cons, queries_cons]
    omega

theorem seqLens_le {bound : Nat} {reqs : List Request} (h : ∀ r ∈ reqs, r.seqLen ≤ bound) :
    seqLens reqs ≤ bound * reqs.length := by
  induction reqs with
  | nil => exact Nat.zero_le _
  | cons r rs ih =>
    have hr := h r List.mem_cons_self
    have hrs := ih fun r hr => h r (List.mem_cons_of_mem _ hr)
    rw [List.length_cons, seqLens_cons, Nat.mul_succ]
    omega

/-- What a legal batch takes, compressed. -/
theorem seqLens_compress_le {c : Config} {batch : List Request} (h : Legal c batch) (b : Builder)
    (hratio : 0 < b.compressRatio) :
    seqLens (b.compress batch) ≤
      c.span ⌈/⌉ b.compressRatio * max 1 (min c.maxNumSeqs c.maxNumBatchedTokens) := by
  have hlen : batch.length ≤ min c.maxNumSeqs c.maxNumBatchedTokens :=
    Nat.le_min.2 ⟨h.seqs, le_trans (length_le_queries h.query) h.tokens⟩
  refine le_trans (@seqLens_le (c.span ⌈/⌉ b.compressRatio) _ fun r hr => ?_)
    (Nat.mul_le_mul_left _ ?_)
  · obtain ⟨q, hq, rfl⟩ := List.mem_map.1 hr
    refine le_trans (Nat.div_le_div_right (h.span q hq)) ?_
    exact Nat.div_le_of_le_mul (le_smul_ceilDiv hratio)
  · rw [Builder.compress, List.length_map]
    exact le_trans hlen (Nat.le_max_right _ _)

theorem Config.rightsized_le (c : Config) :
    c.rightsizedWorkspaceEntries ≤ c.stockWorkspaceEntries := by
  simp only [Config.rightsizedWorkspaceEntries]
  split
  · exact le_rfl
  · exact Nat.min_le_right _ _

/-- The size in each mode. -/
theorem Config.bufferSize_eq (c : Config) {env : Option String} {mode : Mode}
    (h : workspaceMode env = .ok mode) : c.getMaxPrefillBufferSize env =
      .ok (match mode with
        | .stock => c.stockWorkspaceEntries
        | .rightsize => c.rightsizedWorkspaceEntries) := by
  simp only [Config.getMaxPrefillBufferSize, h, bind, Except.bind, pure, Except.pure]
  cases mode with
  | stock => rfl
  | rightsize =>
    rw [if_neg (not_not.2 rfl)]
    split
    · next hle => rw [Nat.le_antisymm hle c.rightsized_le]
    · rfl

/-- What a builder that starts has: the stock workspace, or one that its own ratio sizes below. -/
theorem buildIndexer_size {c : Config} {env : Option String} {specRatio : Option Nat}
    {dcpWorldSize : Nat} {b : Builder} (h : buildIndexer c env specRatio dcpWorldSize = .ok b) :
    b.maxPrefillBufferSize = c.stockWorkspaceEntries ∨
      b.maxPrefillBufferSize < c.stockWorkspaceEntries ∧ 1 < b.compressRatio ∧
        b.maxPrefillBufferSize =
          c.span ⌈/⌉ b.compressRatio * max 1 (min c.maxNumSeqs c.maxNumBatchedTokens) := by
  cases hmode : workspaceMode env with
  | error e =>
    simp only [buildIndexer, Config.getMaxPrefillBufferSize, hmode, bind, Except.bind] at h
    cases h
  | ok mode =>
    simp only [buildIndexer, c.bufferSize_eq hmode, hmode, bind, Except.bind, pure, Except.pure,
      throw, throwThe, MonadExceptOf.throw] at h
    split at h
    · cases h
    cases mode with
    | stock =>
      rw [if_neg (show Mode.stock ≠ Mode.rightsize by decide)] at h
      cases h
      exact Or.inl rfl
    | rightsize =>
      by_cases hratio : c.indexerCompressRatio = specRatio.getD 1
      swap
      · rw [if_pos rfl, if_pos hratio] at h
        cases h
      -- The builder's ratio is the one that the workspace was sized by, so it is not too small.
      rw [if_pos rfl, if_neg (not_not.2 hratio),
        if_neg (Nat.not_lt.2 (Nat.min_le_left _ _))] at h
      cases h
      rcases Nat.eq_or_lt_of_le c.rightsized_le with heq | hlt
      · exact Or.inl heq
      · refine Or.inr ⟨hlt, ?_, ?_⟩
        all_goals
          simp only [Config.rightsizedWorkspaceEntries] at hlt ⊢
          split at hlt
          · exact absurd hlt (Nat.lt_irrefl _)
        · rw [← hratio]
          omega
        · next hone =>
          rw [if_neg hone, ← hratio]
          exact Nat.min_eq_left (Nat.le_of_not_le fun hge => by
            rw [Nat.min_eq_right hge] at hlt
            exact Nat.lt_irrefl _ hlt)

/-- **Right-sizing changes no chunk**: whatever the mode, a builder that starts has at most the
stock workspace, and splits every batch that the scheduler can form as with all of it. -/
theorem rightsize_same_chunks {c : Config} {env : Option String} {specRatio : Option Nat}
    {dcpWorldSize : Nat} {b : Builder} (h : buildIndexer c env specRatio dcpWorldSize = .ok b)
    {batch : List Request} (hbatch : Legal c batch) (maxLogitsBytes : Nat) :
    b.maxPrefillBufferSize ≤ c.stockWorkspaceEntries ∧
      b.chunks batch maxLogitsBytes =
        splitPrefillChunks (b.compress batch) c.stockWorkspaceEntries maxLogitsBytes := by
  rcases buildIndexer_size h with hstock | ⟨hlt, hratio, hsize⟩
  · exact ⟨hstock.le, by rw [Builder.chunks, hstock]⟩
  · have hfits : seqLens (b.compress batch) ≤ b.maxPrefillBufferSize := by
      rw [hsize]
      exact seqLens_compress_le hbatch b (Nat.zero_lt_of_lt hratio)
    exact ⟨hlt.le, splitFrom_congr 0 _ hfits (le_trans hfits hlt.le)⟩

/-- A million tokens in pools of four. -/
def millionTokens : Config := ⟨1000000, some 4, 16, 2048, some 7⟩

theorem buildIndexer_millionTokens :
    buildIndexer millionTokens (some "rightsize") (some 4) 1 = .ok ⟨4000032, 4⟩ := by
  rfl

theorem legal_millionTokens : Legal millionTokens [⟨1000, 700000⟩, ⟨1, 1000007⟩] := by
  refine ⟨by decide, by decide, fun r hr => ?_, fun r hr => ?_⟩
  all_goals
    rcases List.mem_cons.1 hr with rfl | hr
    · decide
    rw [List.mem_singleton.1 hr]
    decide

theorem rightsize_same_chunks_millionTokens :
    4000032 ≤ millionTokens.stockWorkspaceEntries ∧
      Builder.chunks ⟨4000032, 4⟩ [⟨1000, 700000⟩, ⟨1, 1000007⟩] (2 ^ 29) =
        splitPrefillChunks (Builder.compress ⟨4000032, 4⟩ [⟨1000, 700000⟩, ⟨1, 1000007⟩])
          millionTokens.stockWorkspaceEntries (2 ^ 29) :=
  rightsize_same_chunks buildIndexer_millionTokens legal_millionTokens (2 ^ 29)

end LlmkubeRuntimes.Glm53
