import Mathlib.Algebra.GroupWithZero.Nat
import Mathlib.Data.Int.Order.Basic
import Mathlib.Data.List.Basic
import Mathlib.Data.List.GetD
import LlmkubeRuntimes.Lib.Traverse

/-!
# Host hashes of a chunk

`host_engram_hashes` and the part of `_prefetch_engram_rows` that computes the IDs
of a chunk, with numpy's arrays as lists of one element per token.

* `Geometry.hostEngramHashes`: the hash of tokens with the compressed IDs before them;
* `Geometry.prefetchIds`: the IDs of a chunk of a token row, its history looked up
  in the row;
* `Geometry.prefetchChunks`: the IDs of consecutive chunks.

`none` is an `IndexError` of the token map. The row of a token is a function of
the four compressed IDs up to it (`hostEngramHashes_eq`), and the compressed IDs
around a chunk are those of the whole row (`chunk_cache`).
-/

namespace LlmkubeRuntimes.Engram

/-- What `_engram_host_geometry` keeps of a hash plan, and `IMAGE_SENTINEL_BASE_ID`. -/
structure Geometry where
  tokenMap : List Int64
  multipliers : Nat → Int64
  primes : Nat → Int64
  offsets : Nat → Int64
  padId : Int64
  vocabSize : Int
  imageSentinel : Int64

/-- `%` on `int64` arrays: the remainder has the sign of the divisor, and is 0 for 0. -/
def npMod (a b : Int64) : Int64 := if b = 0 then 0 else Int64.ofInt (a.toInt.fmod b.toInt)

/-- `row[start:stop]` -/
def slice {α : Type*} (row : List α) (start stop : Nat) : List α := (row.take stop).drop start

section Lists

variable {α β : Type*} {xs : List α}

theorem length_slice (start stop : Nat) :
    (slice xs start stop).length = min stop xs.length - start := by
  rw [slice, List.length_drop, List.length_take]

theorem getD_slice {start stop i : Nat} (h : start + i < stop) (d : α) :
    (slice xs start stop).getD i d = xs.getD (start + i) d := by
  simp only [slice, List.getD_eq_getElem?_getD, List.getElem?_drop, List.getElem?_take_of_lt h]

theorem slice_append_slice {a b c : Nat} (hab : a ≤ b) (hbc : b ≤ c) (hb : b ≤ xs.length) :
    slice xs a b ++ slice xs b c = slice xs a c := by
  have htake := List.take_append_drop b (xs.take c)
  rw [List.take_take, Nat.min_eq_left hbc] at htake
  have hlen : a ≤ (xs.take b).length := by rw [List.length_take]; omega
  rw [slice, slice, slice, ← List.drop_append_of_le_length hlen, htake]

/-- A slice that begins in the first part, and ends in the second. -/
theorem slice_append (xs ys : List α) (start n : Nat) :
    slice (xs ++ ys) start (xs.length + n) = xs.drop start ++ slice ys (start - xs.length) n := by
  rw [slice, List.take_append, List.take_of_length_le (Nat.le_add_right _ _),
    Nat.add_sub_cancel_left, List.drop_append]
  rfl

theorem mapM_slice {f : α → Option β} {ys : List β} (h : xs.mapM f = some ys) (start stop : Nat) :
    (slice xs start stop).mapM f = some (slice ys start stop) := by
  rw [Lib.mapM_eq_some] at h ⊢
  rw [slice, slice, List.map_drop, List.map_take, h, List.map_drop, List.map_take]

theorem slice_map_range (f : Nat → α) {start count n : Nat} (h : start + count ≤ n) :
    slice ((List.range n).map f) start (start + count) =
      (List.range count).map fun i => f (start + i) := by
  refine List.ext_getElem (by simp [length_slice]; omega) fun i _ _ => ?_
  simp [slice]

end Lists

/-- The entries of `rolling`, `blocked` and `out` for one token. -/
structure Hashed where
  rolling : Int64
  blocked : Bool
  out : List Int64

namespace Geometry

variable (g : Geometry)

/-- `np.where(valid, token_map[np.where(valid, token, 0)], -1)` -/
def compress (valid : Bool) (token : Int64) : Option Int64 :=
  (g.tokenMap[if valid then token.toInt.toNat else 0]?).map fun id => if valid then id else -1

/-- `range((lag - 1) * 8, lag * 8) if lag else ()` -/
def lagHeads (lag : Nat) : List Nat :=
  if lag = 0 then [] else (List.range 8).map ((lag - 1) * 8 + ·)

/-- One round of the loop over the lags, for one token. -/
def lagStep (lag : Nat) (h : Hashed) (source : Int64) : Hashed :=
  let blocked := h.blocked || source == -1
  let rolling := h.rolling ^^^ (if blocked then g.padId else source) * g.multipliers lag
  { rolling
    blocked
    out := h.out ++ (lagHeads lag).map fun head => npMod rolling (g.primes head) + g.offsets head }

/-- One round of the loop over the lags, for `n` tokens. -/
def lagRound (cache : List Int64) (n : Nat) (hs : List Hashed) (lag : Nat) : List Hashed :=
  hs.zipWith (g.lagStep lag) (slice cache (3 - lag) (3 - lag + n))

def hostEngramHashes (tokens : List Int64) (keep : List Bool) (history : List Int64) :
    Option (List (List Int64)) := do
  let n := tokens.length
  let valid := keep.zipWith (fun k t => k && 0 ≤ t.toInt && t.toInt < g.vocabSize) tokens
  let compressed ← (valid.zip tokens).mapM fun (v, t) => g.compress v t
  let cache := history ++ compressed
  let hs := (List.range 4).foldl (g.lagRound cache n) (.replicate n ⟨0, false, []⟩)
  some (hs.map (·.out))

/-- `tokens != IMAGE_SENTINEL_BASE_ID` -/
def keep (tokens : List Int64) : List Bool := tokens.map fun t => t != g.imageSentinel

/-- The runner's lookback rule: the compressed IDs of the tokens before a chunk. -/
def lookback (raw : List Int64) : Option (List Int64) := do
  let mapped ← raw.mapM fun t =>
    g.compress (0 ≤ t.toInt && t.toInt < g.vocabSize && t != g.imageSentinel) t
  some (.replicate (3 - raw.length) (-1) ++ mapped)

/-- The IDs `_prefetch_engram_rows` computes of a chunk for one table. -/
def prefetchIds (row : List Int64) (start count : Nat) : Option (List Int64) := do
  let tokens := slice row start (start + count)
  let raw := slice row (start - 3) start
  let history ← g.lookback raw
  let rows ← g.hostEngramHashes tokens (g.keep tokens) history
  some rows.flatten

/-- The hashes of a whole row, which has no history. -/
def hashWhole (row : List Int64) : Option (List (List Int64)) :=
  g.hostEngramHashes row (g.keep row) (.replicate 3 (-1))

/-- The IDs of consecutive chunks from `start` on, one after the other. -/
def prefetchChunks (row : List Int64) (start : Nat) : List Nat → Option (List Int64)
  | [] => some []
  | count :: counts => do
    let ids ← g.prefetchIds row start count
    let rest ← prefetchChunks row (start + count) counts
    some (ids ++ rest)

/-! ## Compressed IDs -/

/-- The compressed ID of a token of the row. -/
def compressed (t : Int64) : Option Int64 :=
  g.compress (t != g.imageSentinel && 0 ≤ t.toInt && t.toInt < g.vocabSize) t

/-- The lookback rule compresses a token as the chunk it is in does. -/
theorem lookback_eq (raw : List Int64) :
    g.lookback raw = (raw.mapM g.compressed).map (.replicate (3 - raw.length) (-1) ++ ·) := by
  have hrule : (fun t => g.compress (0 ≤ t.toInt && t.toInt < g.vocabSize && t != g.imageSentinel) t) =
      g.compressed := by
    funext t
    rw [compressed, Bool.and_comm, Bool.and_assoc]
  rw [lookback, hrule]
  cases raw.mapM g.compressed <;> rfl

/-- The compressed IDs inside `host_engram_hashes`. -/
theorem compressed_tokens (tokens : List Int64) :
    ((((g.keep tokens).zipWith (fun k t => k && 0 ≤ t.toInt && t.toInt < g.vocabSize) tokens).zip
      tokens).mapM fun (v, t) => g.compress v t) = tokens.mapM g.compressed := by
  induction tokens with
  | nil => rfl
  | cons t tokens ih =>
    rw [keep, List.map_cons, List.zipWith_cons_cons, List.zip_cons_cons, List.mapM_cons,
      List.mapM_cons]
    exact congrArg _ (funext fun id => congrArg (· >>= _) ih)

/-! ## The row of a token -/

/-- The hash of one token from the compressed IDs `source 0` to `source 3` up to it. -/
def hashToken (source : Nat → Int64) : List Int64 :=
  ((List.range 4).foldl (fun h lag => g.lagStep lag h (source (3 - lag))) ⟨0, false, []⟩).out

theorem hashToken_congr {source source' : Nat → Int64} (h : ∀ j < 4, source j = source' j) :
    g.hashToken source = g.hashToken source' := by
  refine congrArg Hashed.out (List.foldl_ext _ _ _ fun hashed lag _ => ?_)
  rw [h (3 - lag) (by omega)]

theorem slice_eq_map (xs : List Int64) (start n : Nat) (h : start + n ≤ xs.length) :
    slice xs start (start + n) = (List.range n).map fun i => xs.getD (start + i) 0 := by
  refine List.ext_getElem (by simp [slice]; omega) fun i hi hi' => ?_
  have hin : start + i < xs.length := by simp at hi'; omega
  simp [slice, List.getElem?_eq_getElem hin]

/-- The rounds of the loop treat every token alone. -/
theorem foldl_lagRound (cache : List Int64) (n : Nat) (hcache : n + 3 ≤ cache.length)
    (lags : List Nat) (f : Nat → Hashed) :
    lags.foldl (g.lagRound cache n) ((List.range n).map f) =
      (List.range n).map fun i =>
        lags.foldl (fun h lag => g.lagStep lag h (cache.getD (i + (3 - lag)) 0)) (f i) := by
  induction lags generalizing f with
  | nil => rfl
  | cons lag lags ih =>
    have hround : g.lagRound cache n ((List.range n).map f) lag =
        (List.range n).map fun i => g.lagStep lag (f i) (cache.getD (i + (3 - lag)) 0) := by
      rw [lagRound, slice_eq_map _ _ _ (by omega), List.zipWith_map, List.zipWith_self]
      exact List.map_congr_left fun i _ => by rw [Nat.add_comm]
    rw [List.foldl_cons, hround, ih]
    rfl

/-- **The row of a token depends on the four compressed IDs up to it.** -/
theorem hostEngramHashes_eq (tokens history : List Int64) (hhistory : history.length = 3) :
    g.hostEngramHashes tokens (g.keep tokens) history = (tokens.mapM g.compressed).map fun ids =>
      (List.range tokens.length).map fun i =>
        g.hashToken fun j => (history ++ ids).getD (i + j) 0 := by
  rw [hostEngramHashes, compressed_tokens]
  cases hids : tokens.mapM g.compressed with
  | none => rfl
  | some ids =>
    have hlen := Lib.length_of_mapM hids
    have hcache : tokens.length + 3 ≤ (history ++ ids).length := by
      rw [List.length_append, hhistory, hlen]; omega
    have hstart : List.replicate tokens.length (⟨0, false, []⟩ : Hashed) =
        (List.range tokens.length).map fun _ => ⟨0, false, []⟩ := by
      rw [List.map_const', List.length_range]
    simp only [Option.bind_eq_bind, Option.bind_some, hstart, g.foldl_lagRound _ _ hcache,
      List.map_map, Option.map_some]
    rfl

/-! ## Chunks -/

variable {row ids : List Int64} {start count : Nat}

/-- **The compressed IDs around a chunk are those of the whole row.** -/
theorem chunk_cache (hin : start + count ≤ row.length) (hids : row.mapM g.compressed = some ids) :
    ∃ history, g.lookback (slice row (start - 3) start) = some history ∧ history.length = 3 ∧
      history ++ slice ids start (start + count) =
        slice (.replicate 3 (-1) ++ ids) start (3 + (start + count)) := by
  have hlen := Lib.length_of_mapM hids
  have hraw : (slice row (start - 3) start).length = start - (start - 3) := by
    rw [length_slice, Nat.min_eq_left (by omega)]
  refine ⟨.replicate (3 - start) (-1) ++ slice ids (start - 3) start, ?_, ?_, ?_⟩
  · have hpad : 3 - (start - (start - 3)) = 3 - start := by omega
    rw [lookback_eq, mapM_slice hids, hraw, hpad]
    rfl
  · rw [List.length_append, List.length_replicate, length_slice]
    omega
  · have hwhole := slice_append (.replicate 3 (-1)) ids start (start + count)
    rw [List.length_replicate, List.drop_replicate] at hwhole
    rw [hwhole, List.append_assoc, slice_append_slice (by omega) (by omega) (by omega)]

/-- The hash of the token at a place of the whole row. -/
def hashAt (ids : List Int64) (i : Nat) : List Int64 :=
  g.hashToken fun j => (List.replicate 3 (-1) ++ ids).getD (i + j) 0

theorem prefetchIds_eq (hin : start + count ≤ row.length)
    (hids : row.mapM g.compressed = some ids) :
    g.prefetchIds row start count =
      some ((List.range count).map fun i => g.hashAt ids (start + i)).flatten := by
  obtain ⟨history, hlookback, hlen, hcache⟩ := g.chunk_cache hin hids
  have htokens : (slice row start (start + count)).length = count := by
    rw [length_slice, Nat.min_eq_left hin, Nat.add_sub_cancel_left]
  rw [prefetchIds, hlookback]
  simp only [Option.bind_eq_bind, Option.bind_some]
  rw [hostEngramHashes_eq _ _ _ hlen, mapM_slice hids, Option.map_some, Option.bind_some, hcache,
    htokens]
  refine congrArg (fun rows => some (List.flatten rows)) (List.map_congr_left fun i hi => ?_)
  refine g.hashToken_congr fun j hj => ?_
  have hi := List.mem_range.1 hi
  rw [getD_slice (by omega), Nat.add_assoc]

theorem prefetchChunks_eq (hids : row.mapM g.compressed = some ids) (counts : List Nat)
    (hin : start + counts.sum ≤ row.length) :
    g.prefetchChunks row start counts =
      some ((List.range counts.sum).map fun i => g.hashAt ids (start + i)).flatten := by
  induction counts generalizing start with
  | nil => rfl
  | cons count counts ih =>
    rw [List.sum_cons] at hin ⊢
    rw [prefetchChunks, g.prefetchIds_eq (by omega) hids, ih (by omega), List.range_add]
    simp [Nat.add_assoc, Function.comp_def]

/-- A chunk that is hashed has all its tokens looked up. -/
theorem compressed_of_prefetchIds (h : (g.prefetchIds row start count).isSome) :
    ∀ t ∈ slice row start (start + count), (g.compressed t).isSome := by
  rw [← Lib.isSome_mapM]
  cases htokens : (slice row start (start + count)).mapM g.compressed with
  | some ids => rfl
  | none =>
    rw [prefetchIds] at h
    simp only [hostEngramHashes, compressed_tokens, htokens] at h
    cases hlookback : g.lookback (slice row (start - 3) start) <;> simp [hlookback] at h

theorem compressed_of_prefetchChunks {counts : List Nat}
    (hin : start + counts.sum ≤ row.length) (h : (g.prefetchChunks row start counts).isSome) :
    ∀ t ∈ slice row start (start + counts.sum), (g.compressed t).isSome := by
  induction counts generalizing start with
  | nil => simp [slice]
  | cons count counts ih =>
    rw [List.sum_cons] at hin ⊢
    rw [prefetchChunks] at h
    cases hids : g.prefetchIds row start count with
    | none => simp [hids] at h
    | some ids =>
      cases hrest : g.prefetchChunks row (start + count) counts with
      | none => simp [hrest] at h
      | some rest =>
        have hfirst : ∀ t ∈ slice row start (start + count), (g.compressed t).isSome :=
          g.compressed_of_prefetchIds (by rw [hids]; rfl)
        rw [← Nat.add_assoc, ← slice_append_slice (Nat.le_add_right start count)
          (Nat.le_add_right _ counts.sum) (by omega)]
        intro t ht
        rcases List.mem_append.1 ht with ht | ht
        · exact hfirst t ht
        · exact ih (by omega) (by rw [hrest]; rfl) t ht

/-- The token map covers the vocabulary. -/
theorem compressed_isSome (hvocab : g.vocabSize ≤ g.tokenMap.length) (hmap : g.tokenMap ≠ [])
    (t : Int64) : (g.compressed t).isSome := by
  have hpos := List.length_pos_iff.2 hmap
  rw [compressed, compress, Option.isSome_map, isSome_getElem?]
  split
  · rename_i hvalid
    simp only [Bool.and_eq_true, decide_eq_true_eq] at hvalid
    omega
  · exact hpos

theorem hashToken_length (source : Nat → Int64) : (g.hashToken source).length = 24 := rfl

/-- **Host hashing of a chunk is host hashing of the whole prompt.** The IDs of every
chunk are those of its rows of the whole prompt, however the prompt is chunked the
IDs are the same, one error of the token map included, and there is none if the map
covers the vocabulary. -/
theorem prefetchIds_chunk (row : List Int64) :
    (∀ rows, g.hashWhole row = some rows →
      rows.length = row.length ∧ (∀ ids ∈ rows, ids.length = 24) ∧
      ∀ start count, start + count ≤ row.length →
        g.prefetchIds row start count = some (slice rows start (start + count)).flatten) ∧
    (∀ counts : List Nat, counts.sum = row.length →
      g.prefetchChunks row 0 counts = (g.hashWhole row).map List.flatten) ∧
    (g.vocabSize ≤ g.tokenMap.length → g.tokenMap ≠ [] → (g.hashWhole row).isSome) := by
  have hwhole : g.hashWhole row = (row.mapM g.compressed).map fun ids =>
      (List.range row.length).map (g.hashAt ids) := g.hostEngramHashes_eq _ _ rfl
  cases hids : row.mapM g.compressed with
  | none =>
    rw [hids, Option.map_none] at hwhole
    rw [hwhole]
    have hnone : ¬ ∀ t ∈ row, (g.compressed t).isSome := by
      rw [← Lib.isSome_mapM, hids]
      exact Bool.false_ne_true
    refine ⟨fun rows h => (Option.some_ne_none rows h.symm).elim, fun counts hsum => ?_,
      fun hvocab hmap => absurd (fun t _ => g.compressed_isSome hvocab hmap t) hnone⟩
    rw [Option.map_none, ← Option.not_isSome_iff_eq_none]
    intro hchunks
    have hall := g.compressed_of_prefetchChunks (Nat.le_of_eq (by omega)) hchunks
    rw [hsum, Nat.zero_add, slice, List.take_length, List.drop_zero] at hall
    exact hnone hall
  | some ids =>
    rw [hids, Option.map_some] at hwhole
    rw [hwhole]
    refine ⟨?_, fun counts hsum => ?_, fun _ _ => rfl⟩
    · rintro rows ⟨⟩
      refine ⟨by simp, fun ids' hmem => ?_, fun start count hin => ?_⟩
      · obtain ⟨i, -, rfl⟩ := List.mem_map.1 hmem
        exact g.hashToken_length _
      · rw [g.prefetchIds_eq hin hids, slice_map_range _ hin]
    · rw [g.prefetchChunks_eq hids counts (Nat.le_of_eq (by omega)), hsum]
      simp

/-- Six tokens, of which 3 has no compressed ID and 5 is the image sentinel. -/
def sixTokens : Geometry where
  tokenMap := [4, 0, 2, -1, 3, 1]
  multipliers lag := Int64.ofNat (2 * lag + 3)
  primes head := Int64.ofNat (head + 11)
  offsets head := Int64.ofNat (100 * head)
  padId := 2
  vocabSize := 6
  imageSentinel := 5

theorem prefetchIds_chunk_sixTokens :
    ∃ rows, sixTokens.hashWhole [0, 3, 1, 5, 2, 9, 4] = some rows ∧
      sixTokens.prefetchIds [0, 3, 1, 5, 2, 9, 4] 2 3 = some (slice rows 2 5).flatten ∧
      sixTokens.prefetchChunks [0, 3, 1, 5, 2, 9, 4] 0 [2, 3, 2] = some rows.flatten := by
  obtain ⟨hrow, hchunks, hsome⟩ := prefetchIds_chunk sixTokens [0, 3, 1, 5, 2, 9, 4]
  obtain ⟨rows, hrows⟩ := Option.isSome_iff_exists.1 (hsome (by decide) (by decide))
  refine ⟨rows, hrows, (hrow rows hrows).2.2 2 3 (by decide), ?_⟩
  rw [hchunks [2, 3, 2] (by decide), hrows, Option.map_some]

end Geometry

end LlmkubeRuntimes.Engram
