import LlmkubeRuntimes.TopK.Ties

/-!
# The top-k of a row in chunks

A row's keys arrive in chunks. Each chunk's selection is over its own candidates
and those carried from the chunks before, and what it selects is carried on.

* `IsPivot`: the score key of the last candidate selected by score;
* `selectRow`: the candidates above the pivot and the ties of the lowest positions,
  by the buffered arm or the exact fallback;
* `foldRow`: the chunks of a row, one after the other;
* `selectRow_top`: a chunk's selection is by score, ties by position;
* `foldRow_top`: so is the row's, and neither the chunks nor the threads matter.
-/

namespace LlmkubeRuntimes.TopK

open LlmkubeRuntimes.Lib

/-- Fewer than `topk` candidates are above the pivot, and as many or more reach it. -/
structure IsPivot (scoreKey : Nat → BitVec 32) (count topk : Nat) (pivotKey : BitVec 32) : Prop where
  above : (List.range count).countP (fun e => decide (pivotKey < scoreKey e)) < topk
  reached : topk ≤ (List.range count).countP fun e => decide (pivotKey ≤ scoreKey e)

/-- The order of the threads' updates over a row of `count` candidates, and whether the candidates
overflow the buffer of the buffered arm. -/
structure RowSchedule (count : Nat) where
  overflow : Bool
  greater : List Nat
  collected : List Nat
  buffered : ∀ nTies, Schedule nTies
  fallback : Schedule count
  greater_perm : greater.Perm (List.range count)
  collected_perm : collected.Perm (List.range count)

/-- The selection of a row by its score keys, once their pivot is found: the candidates above it
take the first slots, the ties the rest. -/
def selectRow (row : Row) (scoreKey : Nat → BitVec 32) (pivotKey : BitVec 32) (topk : Nat)
    {count : Nat} (s : RowSchedule count) (out : List Nat) : List Nat :=
  let (exGreater, out) :=
    writeWinners (fun e => decide (pivotKey < scoreKey e)) topk 0 s.greater (0, out)
  if s.overflow then
    selectLowestPositionTies row (.row scoreKey pivotKey) s.fallback (topk - exGreater) exGreater out
  else
    let sCand := s.collected.filter fun e => decide (scoreKey e = pivotKey)
    selectLowestPositionTies row (.buffer sCand) (s.buffered sCand.length) (topk - exGreater)
      exGreater out

/-- A chunk of a row's keys. -/
structure Chunk where
  len : Nat
  schedule : ∀ count, RowSchedule count

section Chunks

variable (score : Nat → BitVec 32) (pivotOf : (Nat → BitVec 32) → Nat → BitVec 32)
  (topk rowStart : Nat)

/-- The logical positions selected from a chunk's candidates and the carried ones; `topk` or fewer
are all selected. -/
def foldChunk (isFirst : Bool) (offset : Nat) (carry : List Nat) (c : Chunk) : List Nat :=
  let row : Row := ⟨isFirst, rowStart, offset, c.len, 0, carry⟩
  let count := c.len + carry.length
  let scoreKey vidx := score (row.position vidx)
  if count ≤ topk then (List.range count).map row.position
  else
    (selectRow row scoreKey (pivotOf scoreKey count) topk (c.schedule count)
      (List.replicate topk 0)).map row.position

/-- The selection carried through the chunks from `offset` on. -/
def foldRow : Bool → Nat → List Nat → List Chunk → List Nat
  | _, _, carry, [] => carry
  | isFirst, offset, carry, c :: cs =>
    foldRow false (offset + c.len)
      (foldChunk score pivotOf topk rowStart isFirst offset carry c) cs

/-- Higher scores first, ties by position. -/
def Ahead (p q : Nat) : Prop := score q < score p ∨ score p = score q ∧ p < q

end Chunks

/-! ## One chunk -/

section Row

variable {row : Row} {scoreKey : Nat → BitVec 32} {pivotKey : BitVec 32} {count topk : Nat}

theorem ties_row : ties (.row scoreKey pivotKey) count =
    (List.range count).filter fun e => decide (scoreKey e = pivotKey) := by
  rw [ties, ← List.filterMap_eq_filter]
  refine List.filterMap_congr fun e _ => ?_
  simp only [Tied.candidate, Option.guard_apply, decide_eq_true_eq]

theorem ties_buffer (sBuf : List Nat) : ties (.buffer sBuf) sBuf.length = sBuf := by
  have hget : ∀ n ≤ sBuf.length,
      (List.range n).filterMap (Tied.buffer sBuf).candidate = sBuf.take n := fun n => by
    induction n with
    | zero => exact fun _ => rfl
    | succ n ih =>
      intro hn
      have hsome : (Tied.buffer sBuf).candidate n = some sBuf[n] := List.getElem?_eq_getElem hn
      rw [List.range_succ, List.filterMap_append, ih (Nat.le_of_lt hn), List.take_add_one,
        List.filterMap_cons_some hsome, List.filterMap_nil, List.getElem?_eq_getElem hn]
      rfl
  rw [ties, hget _ (Nat.le_refl _), List.take_length]

/-- The ties that are left fill up what the candidates above the pivot leave free. -/
theorem select_above_ties {tied : Tied} {nTies : Nat} (s : Schedule nTies) {high out : List Nat}
    (hlt : ∀ e < count, row.position e < 2 ^ 32)
    (hnodup : ((List.range count).map row.position).Nodup)
    (htied : (ties tied nTies).Perm
      ((List.range count).filter fun e => decide (scoreKey e = pivotKey)))
    (hhigh : high.Perm ((List.range count).filter fun e => decide (pivotKey < scoreKey e)))
    (hpivot : IsPivot scoreKey count topk pivotKey) (hout : topk ≤ out.length) :
    ∃ top, selectLowestPositionTies row tied s (topk - high.length) high.length
        (high ++ out.drop high.length) = top ++ out.drop topk ∧
      IsTop (fun a b => scoreKey b < scoreKey a ∨ scoreKey a = scoreKey b ∧
        row.position a < row.position b) topk (List.range count) top := by
  have habove := hpivot.above
  have hreached := hpivot.reached
  rw [List.countP_eq_length_filter, ← hhigh.length_eq] at habove
  have hsplit := countP_split (fun e => pivotKey ≤ scoreKey e) (fun e => pivotKey < scoreKey e)
    (fun e => scoreKey e = pivotKey)
    (fun e => by rw [BitVec.le_def, BitVec.lt_def, ← BitVec.toNat_inj]; omega)
    (fun e => by rw [BitVec.lt_def, ← BitVec.toNat_inj]; omega) (List.range count)
  have hties : topk ≤ high.length + (ties tied nTies).length := by
    rw [hsplit, List.countP_eq_length_filter, ← hhigh.length_eq, List.countP_eq_length_filter,
      ← htied.length_eq] at hreached
    exact hreached
  have hmem : ∀ c ∈ ties tied nTies, c ∈ List.range count := fun c hc =>
    (List.mem_filter.1 (htied.mem_iff.1 hc)).1
  have hnodup' : ((ties tied nTies).map row.position).Nodup :=
    ((htied.map row.position).nodup_iff).2 (hnodup.sublist (List.filter_sublist.map row.position))
  obtain ⟨chosen, hrun, htop⟩ := selectLowestPositionTies_lowest s
    (fun c hc => hlt c (List.mem_range.1 (hmem c hc))) hnodup'
    (show topk - high.length ≤ (ties tied nTies).length by omega)
    (show high.length + (topk - high.length) ≤ (high ++ out.drop high.length).length by
      rw [List.length_append, List.length_drop]; omega)
  refine ⟨high ++ chosen, ?_, ?_⟩
  · rw [hrun, List.take_left, show high.length + (topk - high.length) = topk by omega,
      List.drop_append, List.drop_eq_nil_of_le (show high.length ≤ topk by omega), List.nil_append,
      List.drop_drop, show high.length + (topk - high.length) = topk by omega]
  · have hscore : ∀ c ∈ ties tied nTies, scoreKey c = pivotKey := fun c hc =>
      of_decide_eq_true (List.mem_filter.1 (htied.mem_iff.1 hc)).2
    have hclasses := IsTop.perm_classes (fun e => decide (pivotKey < scoreKey e))
      (fun e => decide (scoreKey e = pivotKey)) (fun e => decide (scoreKey e < pivotKey))
      (fun e => by
        refine Bool.eq_iff_iff.2 ?_
        simp only [decide_eq_true_eq, Bool.and_eq_true, Bool.not_eq_true',
          decide_eq_false_iff_not, BitVec.lt_def, ← BitVec.toNat_inj]
        omega)
      (fun e he => by rw [of_decide_eq_true he, decide_eq_false (BitVec.lt_irrefl _)])
      (List.range count)
    refine IsTop.of_split (by omega) hties
      (hclasses.trans (hhigh.symm.append (htied.symm.append_right _))) (fun a ha b hb => Or.inl ?_)
      (fun a ha b hb => Or.inl ?_) (htop.imp fun a ha b hb hpos => Or.inr ⟨?_, hpos⟩)
    · have hkey := of_decide_eq_true (List.mem_filter.1 (hhigh.mem_iff.1 ha)).2
      rcases List.mem_append.1 hb with hb | hb
      · rw [hscore b hb]
        exact hkey
      · exact BitVec.lt_trans (of_decide_eq_true (List.mem_filter.1 hb).2) hkey
    · rw [hscore a ha]
      exact of_decide_eq_true (List.mem_filter.1 hb).2
    · rw [hscore a ha, hscore b hb]

/-- **A chunk's selection is by score, and by position where scores tie**, by either arm. -/
theorem selectRow_top (s : RowSchedule count) {out : List Nat}
    (hlt : ∀ e < count, row.position e < 2 ^ 32)
    (hnodup : ((List.range count).map row.position).Nodup)
    (hpivot : IsPivot scoreKey count topk pivotKey) (hout : topk ≤ out.length) :
    ∃ top, selectRow row scoreKey pivotKey topk s out = top ++ out.drop topk ∧
      IsTop (fun a b => scoreKey b < scoreKey a ∨ scoreKey a = scoreKey b ∧
        row.position a < row.position b) topk (List.range count) top := by
  have hhigh := s.greater_perm.filter fun e => decide (pivotKey < scoreKey e)
  have hfit : 0 + (s.greater.filter fun e => decide (pivotKey < scoreKey e)).length ≤ topk := by
    have habove := hpivot.above
    rw [List.countP_eq_length_filter, ← hhigh.length_eq] at habove
    omega
  have hwrite := writeWinners_eq (fun e => decide (pivotKey < scoreKey e))
    (show 0 + topk ≤ out.length by omega) s.greater 0 hfit
  simp only [Nat.zero_add, List.take_zero, List.nil_append] at hwrite
  simp only [selectRow, hwrite]
  split
  · exact select_above_ties s.fallback hlt hnodup (by rw [ties_row]) hhigh hpivot hout
  · refine select_above_ties (s.buffered _) hlt hnodup ?_ hhigh hpivot hout
    rw [ties_buffer]
    exact s.collected_perm.filter _

end Row

/-! ## The chunks of a row -/

theorem ahead_trans (score : Nat → BitVec 32) (p q r : Nat) (h : Ahead score p q)
    (h' : Ahead score q r) : Ahead score p r := by
  simp only [Ahead, BitVec.lt_def, ← BitVec.toNat_inj] at h h' ⊢
  omega

theorem ahead_asymm (score : Nat → BitVec 32) (p q : Nat) (h : Ahead score p q) :
    ¬ Ahead score q p := by
  simp only [Ahead, BitVec.lt_def, ← BitVec.toNat_inj] at h ⊢
  omega

section Fold

variable {score : Nat → BitVec 32} {pivotOf : (Nat → BitVec 32) → Nat → BitVec 32}
  {topk rowStart : Nat}

/-- A chunk's candidates are its own positions and the carried ones. -/
theorem map_position {isFirst : Bool} {offset len : Nat} {carry : List Nat}
    (hfirst : isFirst = true → carry = []) :
    (List.range (len + carry.length)).map (Row.position ⟨isFirst, rowStart, offset, len, 0, carry⟩) =
      List.range' (rowStart + offset) len ++ carry := by
  refine List.ext_getElem (by simp) fun e he he' => ?_
  rw [List.length_map, List.length_range] at he
  simp only [List.getElem_map, List.getElem_range, Row.position]
  by_cases hlen : e < len
  · rw [List.getElem_append_left (by simpa using hlen), List.getElem_range']
    simp only [hlen, if_true, ite_self]
    omega
  · have hnot : isFirst = false := by
      rw [Bool.eq_false_iff]
      intro h
      rw [hfirst h, List.length_nil] at he
      omega
    rw [List.getElem_append_right (by simpa using hlen)]
    simp only [hnot, hlen, if_false, Bool.false_eq_true, List.length_range', Nat.zero_add]
    rw [List.getD_eq_getElem _ _ (by omega)]

/-- **A chunk's selection, with what it carries on.** -/
theorem foldChunk_top {isFirst : Bool} {offset : Nat} {carry : List Nat} (c : Chunk)
    (hpivot : ∀ scoreKey count, topk < count → IsPivot scoreKey count topk (pivotOf scoreKey count))
    (hfirst : isFirst = true → carry = [])
    (hlt : ∀ p ∈ List.range' (rowStart + offset) c.len ++ carry, p < 2 ^ 32)
    (hnodup : (List.range' (rowStart + offset) c.len ++ carry).Nodup) :
    IsTop (Ahead score) topk (List.range' (rowStart + offset) c.len ++ carry)
      (foldChunk score pivotOf topk rowStart isFirst offset carry c) := by
  have hmap := @map_position rowStart isFirst offset c.len carry hfirst
  rw [← hmap] at hlt hnodup ⊢
  simp only [foldChunk]
  split
  · next hle => exact IsTop.of_length_le (by rw [List.length_map, List.length_range]; exact hle)
  · next hgt =>
    obtain ⟨top, hrun, htop⟩ := selectRow_top (c.schedule (c.len + carry.length))
      (fun e he => hlt _ (List.mem_map_of_mem (List.mem_range.2 he))) hnodup
      (hpivot (fun vidx => score (Row.position ⟨isFirst, rowStart, offset, c.len, 0, carry⟩ vidx))
        _ (by omega)) (show topk ≤ (List.replicate topk 0).length by rw [List.length_replicate])
    rw [List.drop_replicate, Nat.sub_self, List.replicate_zero, List.append_nil] at hrun
    rw [hrun]
    exact htop.map

/-- **Neither the chunks nor the threads matter**: a row's selection is its `topk` highest scores,
ties by the lowest position, and any other chunks and orders of the threads' updates select the
same positions. -/
theorem foldRow_top (chunks : List Chunk)
    (hpivot : ∀ scoreKey count, topk < count → IsPivot scoreKey count topk (pivotOf scoreKey count))
    (hrow : rowStart + (chunks.map Chunk.len).sum ≤ 2 ^ 32) :
    IsTop (Ahead score) topk (List.range' rowStart (chunks.map Chunk.len).sum)
        (foldRow score pivotOf topk rowStart true 0 [] chunks) ∧
      ∀ chunks' : List Chunk, (chunks'.map Chunk.len).sum = (chunks.map Chunk.len).sum →
        (foldRow score pivotOf topk rowStart true 0 [] chunks').Perm
          (foldRow score pivotOf topk rowStart true 0 [] chunks) := by
  have hrun : ∀ (chunks : List Chunk) (isFirst : Bool) (offset : Nat) (carry : List Nat),
      (isFirst = true → carry = []) →
      rowStart + offset + (chunks.map Chunk.len).sum ≤ 2 ^ 32 →
      IsTop (Ahead score) topk (List.range' rowStart offset) carry →
      IsTop (Ahead score) topk (List.range' rowStart (offset + (chunks.map Chunk.len).sum))
        (foldRow score pivotOf topk rowStart isFirst offset carry chunks) := by
    intro chunks
    induction chunks with
    | nil => exact fun _ _ _ _ _ h => h
    | cons c chunks ih =>
      intro isFirst offset carry hfirst hend h
      rw [List.map_cons, List.sum_cons] at hend ⊢
      rw [foldRow, ← Nat.add_assoc]
      refine ih false (offset + c.len) _ (fun h => absurd h Bool.false_ne_true) (by omega) ?_
      have hcarry : ∀ p ∈ carry, p < rowStart + offset := fun p hp => by
        have hmem := List.mem_range'_1.1 (h.mem hp)
        exact hmem.2
      have hchunk := @foldChunk_top score pivotOf topk rowStart isFirst offset carry c
        hpivot hfirst
        (fun p hp => by
          rcases List.mem_append.1 hp with hp | hp
          · have hmem := List.mem_range'_1.1 hp
            omega
          · have hlt := hcarry p hp
            omega)
        (List.nodup_append'.2 ⟨List.nodup_range', h.nodup List.nodup_range', fun p hp hp' => by
          have hmem := List.mem_range'_1.1 hp
          have hlt := hcarry p hp'
          omega⟩)
      rw [← List.range'_append_1]
      exact h.fold (ahead_trans score) (hchunk.congr List.perm_append_comm (.refl _))
  have htop : ∀ chunks : List Chunk, rowStart + (chunks.map Chunk.len).sum ≤ 2 ^ 32 →
      IsTop (Ahead score) topk (List.range' rowStart (chunks.map Chunk.len).sum)
        (foldRow score pivotOf topk rowStart true 0 [] chunks) := fun chunks h => by
    have hall := hrun chunks true 0 [] (fun _ => rfl) (by omega)
      (IsTop.of_length_le (Nat.zero_le _))
    rwa [Nat.zero_add] at hall
  refine ⟨htop chunks hrow, fun chunks' hsum => ?_⟩
  have htop' := htop chunks' (by rw [hsum]; exact hrow)
  rw [hsum] at htop'
  exact htop'.perm (ahead_asymm score) (htop chunks hrow)

end Fold

/-- The largest key that `topk` candidates reach. -/
def topkKey (topk : Nat) (scoreKey : Nat → BitVec 32) (count : Nat) : BitVec 32 :=
  BitVec.ofNat 32 (Nat.findGreatest
    (fun k => topk ≤ (List.range count).countP fun e => decide (k ≤ (scoreKey e).toNat))
    (2 ^ 32 - 1))

theorem isPivot_topkKey {topk : Nat} (hpos : 0 < topk) (scoreKey : Nat → BitVec 32) {count : Nat}
    (hcount : topk < count) : IsPivot scoreKey count topk (topkKey topk scoreKey count) := by
  have hspec := Nat.findGreatest_spec
    (P := fun k => topk ≤ (List.range count).countP fun e => decide (k ≤ (scoreKey e).toNat))
    (Nat.zero_le (2 ^ 32 - 1)) (by simpa using Nat.le_of_lt hcount)
  have hgreatest := fun k => Nat.findGreatest_is_greatest
    (P := fun k => topk ≤ (List.range count).countP fun e => decide (k ≤ (scoreKey e).toNat))
    (n := 2 ^ 32 - 1) (k := k)
  have hle := Nat.findGreatest_le
    (P := fun k => topk ≤ (List.range count).countP fun e => decide (k ≤ (scoreKey e).toNat))
    (2 ^ 32 - 1)
  rw [topkKey]
  generalize Nat.findGreatest
    (fun k => topk ≤ (List.range count).countP fun e => decide (k ≤ (scoreKey e).toNat))
    (2 ^ 32 - 1) = p at hspec hgreatest hle ⊢
  have hnat : (BitVec.ofNat 32 p).toNat = p := by
    rw [BitVec.toNat_ofNat, Nat.mod_eq_of_lt (by omega)]
  refine ⟨?_, ?_⟩
  · simp only [BitVec.lt_def, hnat]
    rcases Nat.lt_or_ge p (2 ^ 32 - 1) with hlt | hge
    · exact Nat.not_le.1 (hgreatest (p + 1) (Nat.lt_succ_self p) hlt)
    · rw [List.countP_eq_zero.2 fun e _ => by
        rw [decide_eq_true_iff]
        have hkey := (scoreKey e).isLt
        omega]
      exact hpos
  · simpa only [BitVec.le_def, hnat] using hspec

/-- A chunk of either arm. -/
def chunkOf (overflow : Bool) (len : Nat) : Chunk :=
  ⟨len, fun count => ⟨overflow, (fromLast count).writes, (inOrder count).writes, inOrder,
    fromLast count, (fromLast count).writes_perm, (inOrder count).writes_perm⟩⟩

/-- Five tied scores in chunks of three and two. -/
theorem foldRow_top_five :
    IsTop (Ahead fun _ => 7#32) 2 (List.range' 4 5)
        (foldRow (fun _ => 7#32) (topkKey 2) 2 4 true 0 [] [chunkOf true 3, chunkOf false 2]) ∧
      ∀ chunks' : List Chunk, (chunks'.map Chunk.len).sum = 5 →
        (foldRow (fun _ => 7#32) (topkKey 2) 2 4 true 0 [] chunks').Perm
          (foldRow (fun _ => 7#32) (topkKey 2) 2 4 true 0 [] [chunkOf true 3, chunkOf false 2]) :=
  foldRow_top [chunkOf true 3, chunkOf false 2]
    (fun scoreKey _ h => isPivot_topkKey (Nat.succ_pos 1) scoreKey h) (by decide)

end LlmkubeRuntimes.TopK
