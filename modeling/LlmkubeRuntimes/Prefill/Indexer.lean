import LlmkubeRuntimes.Lib.Steps
import LlmkubeRuntimes.Prefill.Rows

/-!
# The indexer split over the ranks

Every row selects the positions it attends to, row by row: a layer's scores and
selection depend on its index keys, the row's query and, after the layer that is
the candidate source, on what that layer wrote for the row.

* `IndexLayer.selectRows`: the loop over chunks of query rows;
* `fullStep`, `splitStep`: a layer selecting for every row on every rank, or for
  each rank's own rows with the selected positions gathered;
* `selectRows_eq`: the chunks do not show;
* `split_selects_like_full`: over the layers of a forward the two leave the same
  selected positions on every rank, and the same candidates for its own rows.
-/

namespace LlmkubeRuntimes.Prefill

open LlmkubeRuntimes.Lib

/-- The indexer of a layer. `select` is score and select for one row: the index keys, the global
row, its query and its candidates give the selected positions and new candidates. -/
structure IndexLayer (φ κ σ γ : Type) where
  layerId : Nat
  chunkRows : Nat
  select : κ → Nat → φ → Option γ → σ × γ
  chunkRows_pos : 0 < chunkRows

/-- A rank's buffers by row: the selected positions and the candidates. -/
structure IndexBuffers (σ γ : Type) where
  topk : Nat → σ
  candidates : Nat → γ

/-- The buffer with `rows` written from `first` on. -/
def writeRows {α : Type} (buffer : Nat → α) (first : Nat) (rows : List α) (k : Nat) : α :=
  if first ≤ k then (rows[k - first]?).getD (buffer k) else buffer k

namespace IndexLayer

variable {φ κ σ γ : Type} (l : IndexLayer φ κ σ γ) (source : Nat)

/-- What `select` gives for row `row`; only layers behind the source read candidates. -/
def selectRow (c : κ) (candidates : Nat → γ) (row : Nat) (query : φ) : σ × γ :=
  l.select c row query (if source < l.layerId then some (candidates row) else none)

/-- One chunk: rows `row`, `row + 1`, … of the batch. The source layer writes candidates. -/
def selectChunk (c : κ) (candidates : Nat → γ) (row : Nat) (query : List φ) :
    List σ × (Nat → γ) :=
  let out := query.mapIdx fun i q => l.selectRow source c candidates (row + i) q
  (out.map Prod.fst,
    if l.layerId = source then writeRows candidates row (out.map Prod.snd) else candidates)

/-- `select_rows`: chunk after chunk of query rows, the first of them global row `row`. -/
def selectRows (c : κ) (candidates : Nat → γ) (row : Nat) (query : List φ) :
    List σ × (Nat → γ) :=
  if query.length ≤ l.chunkRows then l.selectChunk source c candidates row query
  else
    let (now, candidates) :=
      l.selectChunk source c candidates row (query.take l.chunkRows)
    let (later, candidates) :=
      selectRows c candidates (row + l.chunkRows) (query.drop l.chunkRows)
    (now ++ later, candidates)
termination_by query.length
decreasing_by
  have hpos := l.chunkRows_pos
  rw [List.length_drop]
  omega

end IndexLayer

/-! ## The chunks do not show -/

section Chunks

variable {φ κ σ γ : Type}

theorem writeRows_append {α : Type} (buffer : Nat → α) (first : Nat) (xs ys : List α) :
    writeRows (writeRows buffer first xs) (first + xs.length) ys =
      writeRows buffer first (xs ++ ys) := by
  funext k
  unfold writeRows
  rcases Nat.lt_or_ge k (first + xs.length) with hk | hk
  · rw [if_neg (Nat.not_le.2 hk)]
    split
    · rw [List.getElem?_append_left (by omega)]
    · rfl
  · have hnone : xs[k - first]? = none := List.getElem?_eq_none (by omega)
    rw [if_pos hk, if_pos (by omega), if_pos (by omega), List.getElem?_append_right (by omega),
      hnone, Option.getD_none, Nat.sub_sub]

/-- What a chunk selects does not depend on what the source layer writes meanwhile. -/
theorem selectRow_write (l : IndexLayer φ κ σ γ) (source : Nat) (c : κ) (candidates : Nat → γ)
    (first : Nat) (rows : List γ) (row : Nat) (query : φ) :
    l.selectRow source c
        (if l.layerId = source then writeRows candidates first rows else candidates) row query =
      l.selectRow source c candidates row query := by
  unfold IndexLayer.selectRow
  split_ifs <;> first | rfl | omega

theorem selectChunk_append (l : IndexLayer φ κ σ γ) (source : Nat) (c : κ) (candidates : Nat → γ)
    (row : Nat) (xs ys : List φ) :
    let now := l.selectChunk source c candidates row xs
    let later := l.selectChunk source c now.2 (row + xs.length) ys
    l.selectChunk source c candidates row (xs ++ ys) = (now.1 ++ later.1, later.2) := by
  simp only [IndexLayer.selectChunk, List.mapIdx_append, selectRow_write, List.map_append]
  have hat : ∀ i, row + (i + xs.length) = row + xs.length + i := fun i => by omega
  simp only [hat]
  split
  · have happend := writeRows_append candidates row
      ((xs.mapIdx fun i q => l.selectRow source c candidates (row + i) q).map Prod.snd)
      ((ys.mapIdx fun i q => l.selectRow source c candidates (row + xs.length + i) q).map Prod.snd)
    rw [List.length_map, List.length_mapIdx] at happend
    rw [happend]
  · rfl

/-- **The loop over chunks is one pass over the rows.** -/
theorem selectRows_eq (l : IndexLayer φ κ σ γ) (source : Nat) (c : κ) (candidates : Nat → γ)
    (row : Nat) (query : List φ) :
    l.selectRows source c candidates row query = l.selectChunk source c candidates row query := by
  fun_induction l.selectRows source c candidates row query with
  | case1 candidates row query h => rfl
  | case2 candidates row query h now candidates₁ hnow later candidates₂ hlater ih =>
    have happend := selectChunk_append l source c candidates row (query.take l.chunkRows)
      (query.drop l.chunkRows)
    have hlen : (query.take l.chunkRows).length = l.chunkRows := by
      rw [List.length_take]
      omega
    rw [List.take_append_drop, hlen] at happend
    rw [happend, hnow, ← ih, hlater]

end Chunks

/-! ## A layer on every rank -/

section Split

variable {n : Nat} {φ κ σ γ : Type}

/-- A layer's turn: its index keys and the query of every row. -/
structure IndexTurn (φ κ σ γ : Type) where
  layer : IndexLayer φ κ σ γ
  keys : κ
  query : List φ

/-- Every rank selects for every row. -/
def fullStep (source : Nat) (t : IndexTurn φ κ σ γ) (b : Fin n → IndexBuffers σ γ) :
    Except RowError (Fin n → IndexBuffers σ γ) :=
  .ok fun r =>
    let (selected, candidates) := t.layer.selectRows source t.keys (b r).candidates 0 t.query
    ⟨writeRows (b r).topk 0 selected, candidates⟩

/-- The query rows of a rank. -/
def ownRows (T : Nat) (query : List φ) (r : Fin n) : List φ :=
  (query.drop (SPRows.start ⟨T, n, r⟩)).take (SPRows.realRows ⟨T, n, r⟩)

/-- Each rank selects for its own rows into a buffer of its local rows, the rest of which is
left as it was allocated, and the ranks' buffers are gathered. -/
def splitStep (source T : Nat) (unwritten : σ) (t : IndexTurn φ κ σ γ)
    (b : Fin n → IndexBuffers σ γ) : Except RowError (Fin n → IndexBuffers σ γ) := do
  let own := fun r : Fin n => t.layer.selectRows source t.keys (b r).candidates
    (SPRows.start ⟨T, n, r⟩) (ownRows T t.query r)
  let gathered ← gatherRows T fun r => (own r).1 ++
    List.replicate (SPRows.localRows ⟨T, n, r⟩ - SPRows.realRows ⟨T, n, r⟩) unwritten
  return fun r => ⟨writeRows (b r).topk 0 (gathered r), (own r).2⟩

/-- A rank has written the row in the split. -/
def Owns (T : Nat) (r : Fin n) (k : Nat) : Prop :=
  SPRows.start ⟨T, n, r⟩ ≤ k ∧ k < SPRows.start ⟨T, n, r⟩ + SPRows.realRows ⟨T, n, r⟩

/-- The buffers of the two: the same selected positions, and once the source layer ran the same
candidates for a rank's own rows; the ranks that select for every row have the same candidates. -/
structure SameSelection (T : Nat) (ran : Bool) (full split : Fin n → IndexBuffers σ γ) : Prop where
  topk : ∀ r, (split r).topk = (full r).topk
  candidates : ran = true → ∀ r k, Owns T r k → (split r).candidates k = (full r).candidates k
  replicated : ran = true → ∀ r r' k, k < T → (full r).candidates k = (full r').candidates k

theorem length_ownRows {T : Nat} {query : List φ} (hT : query.length = T) (r : Fin n) :
    (ownRows T query r).length = SPRows.realRows ⟨T, n, r⟩ := by
  simp only [ownRows, List.length_take, List.length_drop, hT, SPRows.realRows]
  omega

theorem getElem?_ownRows {T : Nat} (query : List φ) (r : Fin n) {i : Nat}
    (hi : i < SPRows.realRows ⟨T, n, r⟩) :
    (ownRows T query r)[i]? = query[SPRows.start ⟨T, n, r⟩ + i]? := by
  rw [ownRows, List.getElem?_take_of_lt hi, List.getElem?_drop]

/-- What the two select for a row of the rank is the same if it has the candidates it reads. -/
theorem selectRow_congr (l : IndexLayer φ κ σ γ) {source : Nat} (c : κ) {cands cands' : Nat → γ}
    {k : Nat} (h : source < l.layerId → cands k = cands' k) (query : φ) :
    l.selectRow source c cands k query = l.selectRow source c cands' k query := by
  unfold IndexLayer.selectRow
  split
  · next hlater => rw [h hlater]
  · rfl

theorem writeRows_of_lt {α : Type} (buffer : Nat → α) {first k : Nat} {rows : List α} {x : α}
    (hk : first ≤ k) (h : rows[k - first]? = some x) : writeRows buffer first rows k = x := by
  rw [writeRows, if_pos hk, h, Option.getD_some]

/-- A selected row, in the pass over rows `first`, `first + 1`, … -/
theorem getElem?_selectChunk (l : IndexLayer φ κ σ γ) (source : Nat) (c : κ) (cands : Nat → γ)
    (first : Nat) (query : List φ) (i : Nat) :
    (l.selectChunk source c cands first query).1[i]? =
      query[i]?.map fun q => (l.selectRow source c cands (first + i) q).1 := by
  rw [IndexLayer.selectChunk, List.getElem?_map, List.getElem?_mapIdx, Option.map_map]
  rfl

/-- The candidates of a row the source layer passed over. -/
theorem selectChunk_candidates (l : IndexLayer φ κ σ γ) {source : Nat} (c : κ) (cands : Nat → γ)
    {first k : Nat} {query : List φ} {q : φ} (hsource : l.layerId = source) (hk : first ≤ k)
    (hq : query[k - first]? = some q) :
    (l.selectChunk source c cands first query).2 k = (l.selectRow source c cands k q).2 := by
  rw [IndexLayer.selectChunk, if_pos hsource]
  refine writeRows_of_lt cands hk ?_
  rw [List.getElem?_map, List.getElem?_mapIdx, hq, Option.map_some, Option.map_some,
    Nat.add_sub_cancel' hk]

section Step

variable {source T : Nat} {t : IndexTurn φ κ σ γ} {ran : Bool}
  {full split : Fin n → IndexBuffers σ γ}

/-- The ranks' buffers hold the selected positions of every row. -/
theorem splitStep_shards (hn : 0 < n) (unwritten : σ) (hT : t.query.length = T)
    (h : SameSelection T ran full split) (hread : source < t.layer.layerId → ran = true)
    (r₀ : Fin n) :
    Shards (SPRows.localRows ⟨T, n, 0⟩)
      (t.layer.selectChunk source t.keys (full r₀).candidates 0 t.query).1
      fun r : Fin n => (t.layer.selectChunk source t.keys (split r).candidates
          (SPRows.start ⟨T, n, r⟩) (ownRows T t.query r)).1 ++
        List.replicate (SPRows.localRows ⟨T, n, r⟩ - SPRows.realRows ⟨T, n, r⟩) unwritten := by
  have hlen : ∀ cands first (query : List φ),
      (t.layer.selectChunk source t.keys cands first query).1.length = query.length :=
    fun cands first query => by
      rw [IndexLayer.selectChunk, List.length_map, List.length_mapIdx]
  refine ⟨fun r => ?_, ?_, fun r i hi hk => ?_⟩
  · rw [List.length_append, List.length_replicate, hlen, length_ownRows hT]
    exact Nat.add_sub_cancel' realRows_le
  · rw [hlen, hT]
    exact le_world_mul_localRows hn
  · rw [hlen, hT] at hk
    have hreal : i < SPRows.realRows ⟨T, n, r⟩ := by
      rw [realRows_eq]
      omega
    rw [List.getElem?_append_left (by rw [hlen, length_ownRows hT]; exact hreal),
      getElem?_selectChunk, getElem?_selectChunk, getElem?_ownRows t.query r hreal, Nat.zero_add]
    congr 1
    funext q
    rw [selectRow_congr t.layer t.keys (fun hlater => ?_) q, start_eq]
    have hran := hread hlater
    rw [h.candidates hran r _ ⟨Nat.le_add_right _ _, Nat.add_lt_add_left hreal _⟩]
    exact h.replicated hran r r₀ _ hk

/-- **One layer keeps the two together**, provided a layer behind the source runs after it. -/
theorem splitStep_same (hn : 0 < n) (unwritten : σ) (hT : t.query.length = T)
    (h : SameSelection T ran full split) (hread : source < t.layer.layerId → ran = true) :
    ∃ full' split', fullStep source t full = .ok full' ∧
      splitStep source T unwritten t split = .ok split' ∧
      SameSelection T (ran || decide (t.layer.layerId = source)) full' split' := by
  have hshards := splitStep_shards hn unwritten hT h hread
  have hgather := gatherRows_of_shards (hshards ⟨0, hn⟩)
    (by rw [IndexLayer.selectChunk, List.length_map, List.length_mapIdx, hT])
  have hsame : ∀ r, (t.layer.selectChunk source t.keys (full r).candidates 0 t.query).1 =
      (t.layer.selectChunk source t.keys (full ⟨0, hn⟩).candidates 0 t.query).1 := fun r => by
    have h₁ := (hshards r).gather
    have h₂ := (hshards ⟨0, hn⟩).gather
    simp only [IndexLayer.selectChunk, List.length_map, List.length_mapIdx] at h₁ h₂ ⊢
    rw [← h₁, ← h₂]
  have hrow : ∀ {k}, k < T → ∃ q, t.query[k]? = some q := fun hk =>
    ⟨_, List.getElem?_eq_getElem (by rw [hT]; exact hk)⟩
  let split' : Fin n → IndexBuffers σ γ := fun r =>
    ⟨writeRows (split r).topk 0
        (t.layer.selectChunk source t.keys (full ⟨0, hn⟩).candidates 0 t.query).1,
      (t.layer.selectChunk source t.keys (split r).candidates (SPRows.start ⟨T, n, r⟩)
        (ownRows T t.query r)).2⟩
  have hsplit : splitStep source T unwritten t split = .ok split' := by
    simp only [splitStep, selectRows_eq, hgather, bind, Except.bind, pure, Except.pure, split']
  refine ⟨_, split', rfl, hsplit, fun r => ?_, fun hran r k hk => ?_, fun hran r r' k hk => ?_⟩
  · simp only [split', selectRows_eq, h.topk, hsame r]
  · simp only [split', selectRows_eq]
    by_cases hsource : t.layer.layerId = source
    · have hkT : k < T := by
        have hle := hk.1
        have hlt := hk.2
        rw [start_eq] at hle
        rw [realRows_eq, start_eq] at hlt
        omega
      obtain ⟨q, hq⟩ := hrow hkT
      have hown : (ownRows T t.query r)[k - SPRows.start ⟨T, n, r⟩]? = some q := by
        have hlt := hk.2
        have hle := hk.1
        rw [getElem?_ownRows t.query r (by omega), Nat.add_sub_cancel' hle, hq]
      rw [selectChunk_candidates t.layer t.keys _ hsource hk.1 hown,
        selectChunk_candidates t.layer t.keys _ hsource (Nat.zero_le k) hq,
        selectRow_congr t.layer t.keys fun hlater => absurd hlater (by omega)]
    · simp only [hsource, decide_false, Bool.or_false] at hran
      simp only [IndexLayer.selectChunk, if_neg hsource]
      exact h.candidates hran r k hk
  · simp only [selectRows_eq]
    by_cases hsource : t.layer.layerId = source
    · obtain ⟨q, hq⟩ := hrow hk
      rw [selectChunk_candidates t.layer t.keys _ hsource (Nat.zero_le k) hq,
        selectChunk_candidates t.layer t.keys _ hsource (Nat.zero_le k) hq,
        selectRow_congr t.layer t.keys fun hlater => absurd hlater (by omega)]
    · simp only [hsource, decide_false, Bool.or_false] at hran
      simp only [IndexLayer.selectChunk, if_neg hsource]
      exact h.replicated hran r r' k hk

end Step

end Split

/-! ## The layers of a forward -/

section Run

variable {n : Nat} {φ κ σ γ : Type}

theorem run_same {source T : Nat} (hn : 0 < n) (unwritten : σ)
    (turns : List (IndexTurn φ κ σ γ)) (hT : ∀ t ∈ turns, t.query.length = T) {ran : Bool}
    {full split : Fin n → IndexBuffers σ γ} (h : SameSelection T ran full split)
    (hsorted : turns.Pairwise fun t u => t.layer.layerId < u.layer.layerId)
    (hsource : ran = true ∨ ∀ t ∈ turns, source < t.layer.layerId →
      ∃ u ∈ turns, u.layer.layerId = source) :
    ∃ full' split', applyAll (fullStep source) turns full = .ok full' ∧
      applyAll (splitStep source T unwritten) turns split = .ok split' ∧
      SameSelection T (ran || turns.any fun t => decide (t.layer.layerId = source))
        full' split' := by
  induction turns generalizing ran full split with
  | nil => exact ⟨full, split, rfl, rfl, by simpa using h⟩
  | cons t turns ih =>
    obtain ⟨hlater, hsorted⟩ := List.pairwise_cons.1 hsorted
    -- A source layer that is still to come would be ahead of a layer that reads it.
    have hread : source < t.layer.layerId → ran = true := by
      intro hlt
      rcases hsource with hran | hsource
      · exact hran
      · obtain ⟨u, hu, hid⟩ := hsource t List.mem_cons_self hlt
        rcases List.mem_cons.1 hu with rfl | hu
        · omega
        · exact absurd (hlater u hu) (by omega)
    obtain ⟨full₁, split₁, hfull, hsplit, h₁⟩ :=
      splitStep_same hn unwritten (hT t List.mem_cons_self) h hread
    have hsource₁ : (ran || decide (t.layer.layerId = source)) = true ∨
        ∀ u ∈ turns, source < u.layer.layerId → ∃ v ∈ turns, v.layer.layerId = source := by
      rcases hsource with hran | hsource
      · exact Or.inl (by rw [hran, Bool.true_or])
      · by_cases hid : t.layer.layerId = source
        · exact Or.inl (by rw [decide_eq_true hid, Bool.or_true])
        · refine Or.inr fun u hu hlt => ?_
          obtain ⟨v, hv, hvid⟩ := hsource u (List.mem_cons_of_mem t hu) hlt
          rcases List.mem_cons.1 hv with rfl | hv
          · exact absurd hvid hid
          · exact ⟨v, hv, hvid⟩
    obtain ⟨full₂, split₂, hfull₂, hsplit₂, h₂⟩ :=
      ih (fun u hu => hT u (List.mem_cons_of_mem t hu)) h₁ hsorted hsource₁
    refine ⟨full₂, split₂, applyAll_cons.2 ⟨full₁, hfull, hfull₂⟩,
      applyAll_cons.2 ⟨split₁, hsplit, hsplit₂⟩, ?_⟩
    rwa [Bool.or_assoc] at h₂

/-- **The split selects what the full-row indexer selects.** Over the layers of a forward, from
whatever the buffers held: no check raises, every rank's selected positions are those of selecting
every row, and once the source layer ran a rank's own rows have the candidates they would have. -/
theorem split_selects_like_full {source T : Nat} (hn : 0 < n) (unwritten : σ)
    (turns : List (IndexTurn φ κ σ γ)) (full split : Fin n → IndexBuffers σ γ)
    (hT : ∀ t ∈ turns, t.query.length = T) (htopk : ∀ r, (split r).topk = (full r).topk)
    (hsorted : turns.Pairwise fun t u => t.layer.layerId < u.layer.layerId)
    (hsource : ∀ t ∈ turns, source < t.layer.layerId → ∃ u ∈ turns, u.layer.layerId = source) :
    ∃ full' split', applyAll (fullStep source) turns full = .ok full' ∧
      applyAll (splitStep source T unwritten) turns split = .ok split' ∧
      (∀ r, (split' r).topk = (full' r).topk) ∧
      ((∃ t ∈ turns, t.layer.layerId = source) → ∀ r k, Owns T r k →
        (split' r).candidates k = (full' r).candidates k) := by
  have hstart : SameSelection T false full split :=
    ⟨htopk, fun h => absurd h Bool.false_ne_true, fun h => absurd h Bool.false_ne_true⟩
  obtain ⟨full', split', hfull, hsplit, h⟩ :=
    run_same hn unwritten turns hT hstart hsorted (Or.inr hsource)
  refine ⟨full', split', hfull, hsplit, h.topk, fun hran => h.candidates ?_⟩
  rw [Bool.false_or, List.any_eq_true]
  obtain ⟨t, ht, hid⟩ := hran
  exact ⟨t, ht, decide_eq_true hid⟩

end Run

/-- A layer that selects the query itself and adds up what it read. -/
def countLayer (layerId : Nat) : IndexLayer Nat Nat (Nat × Nat) Nat where
  layerId := layerId
  chunkRows := 2
  select keys row query candidate := ((keys + query, candidate.getD 0), row + query)
  chunkRows_pos := Nat.two_pos

/-- Five rows over three ranks, the last of which has one, with the source between two layers. -/
theorem split_selects_like_full_five :
    ∃ full' split', applyAll (fullStep (n := 3) 1) [⟨countLayer 0, 7, [5, 4, 3, 2, 1]⟩,
        ⟨countLayer 1, 8, [0, 2, 4, 6, 8]⟩, ⟨countLayer 2, 9, [1, 1, 2, 3, 5]⟩]
        (fun _ => ⟨fun _ => (0, 0), fun k => k⟩) = .ok full' ∧
      applyAll (splitStep (n := 3) 1 5 (9, 9)) [⟨countLayer 0, 7, [5, 4, 3, 2, 1]⟩,
        ⟨countLayer 1, 8, [0, 2, 4, 6, 8]⟩, ⟨countLayer 2, 9, [1, 1, 2, 3, 5]⟩]
        (fun r => ⟨fun _ => (0, 0), fun _ => r⟩) = .ok split' ∧
      (∀ r, (split' r).topk = (full' r).topk) ∧
      ((∃ t ∈ [⟨countLayer 0, 7, [5, 4, 3, 2, 1]⟩, ⟨countLayer 1, 8, [0, 2, 4, 6, 8]⟩,
          (⟨countLayer 2, 9, [1, 1, 2, 3, 5]⟩ : IndexTurn Nat Nat (Nat × Nat) Nat)],
          t.layer.layerId = 1) →
        ∀ r k, Owns 5 r k → (split' r).candidates k = (full' r).candidates k) :=
  split_selects_like_full (by decide) (9, 9) _ _ _ (by simp) (fun _ => rfl) (by simp [countLayer])
    (by simp [countLayer])

end LlmkubeRuntimes.Prefill
