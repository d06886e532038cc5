import Mathlib.Algebra.Order.Group.Int
import Mathlib.Data.List.Basic
import Mathlib.Data.List.Count

/-!
# Dead verification rows

A request is verified on its last sampled token and its drafts, one row each.
Rows past the first draft whose survival is below a threshold are marked as
padding, which routed experts skip, and the request commits at most one token
past its last live row.

* `cut`, `markDead`: what the draft combine computes for the requests of a batch;
* `lt_cut_iff`: the cut counts the drafts before the first dead one;
* `markDead_iff`: exactly the rows of drafts whose survival is below the threshold
  are marked, in whatever order the requests run;
* `verify`, `commit`: the sampled tokens and how many of them are committed;
* `commit_deadRows`: what is committed is what plain verification commits, cut
  short, and only live rows predicted it.

Confidences are compared as logarithms: `L` stands for those, with exact sums.
-/

namespace LlmkubeRuntimes.Draft

/-! ## Marking -/

/-- A request of the batch: its query rows, and the logarithms of its drafts' confidences. -/
structure Request (L : Type) where
  queryStart : Nat
  queryEnd : Nat
  logConfidence : List L
  drafts : Nat

/-- The running sums. -/
def cumsum {L : Type} [AddCommMonoid L] : L → List L → List L
  | _, [] => []
  | total, x :: xs => (total + x) :: cumsum (total + x) xs

section Marking

variable {L : Type} [AddCommMonoid L] [LinearOrder L]

/-- The survival of each draft of the request. -/
def Request.logSurvival (r : Request L) : List L := cumsum 0 (r.logConfidence.take r.drafts)

/-- The number of live drafts; requests without drafts are never clamped. -/
def cut (logTau : L) (blockSize : Nat) (r : Request L) : Nat :=
  if 0 < r.drafts then r.logSurvival.countP fun s => logTau ≤ s else blockSize + 1

/-- The rows one request marks: of its drafts' rows, those from the cut on. -/
def Dead (logTau : L) (blockSize : Nat) (r : Request L) (row : Nat) : Prop :=
  0 < r.drafts ∧ r.queryEnd - r.drafts + cut logTau blockSize r ≤ row ∧ row < r.queryEnd

instance (logTau : L) (blockSize : Nat) (r : Request L) (row : Nat) :
    Decidable (Dead logTau blockSize r row) :=
  inferInstanceAs (Decidable (_ ∧ _ ∧ _))

def markRequest (logTau : L) (blockSize : Nat) (isPadding : Nat → Bool) (r : Request L) (row : Nat) :
    Bool :=
  if Dead logTau blockSize r row then true else isPadding row

/-- The padding rows after the draft combine of the batch. -/
def markDead (logTau : L) (blockSize : Nat) (requests : List (Request L)) (isPadding : Nat → Bool) :
    Nat → Bool :=
  requests.foldl (markRequest logTau blockSize) isPadding

end Marking

/-- Where the rows of a request are: its drafts are its last rows, behind the row of the last
sampled token, and each has a confidence. -/
structure Request.Decodes {L : Type} (r : Request L) : Prop where
  rows : r.queryStart + r.drafts < r.queryEnd
  confidences : r.drafts ≤ r.logConfidence.length

/-- The row of the last sampled token, behind which the drafts' rows are. -/
def Request.sampledRow {L : Type} (r : Request L) : Nat := r.queryEnd - r.drafts - 1

/-! ## Verification -/

/-- The tokens a request samples: draft after draft is judged by the logits of the row before
it, and replaced by another token where it is rejected; behind the last draft is a bonus. -/
def verify {Λ τ : Type} (judge : Nat → Λ → τ → Bool × τ) (bonus : Nat → Λ → τ) (logits : Nat → Λ) :
    Nat → List τ → List τ
  | row, [] => [bonus row (logits row)]
  | row, draft :: drafts =>
    let (accepted, token) := judge row (logits row) draft
    token :: if accepted then verify judge bonus logits (row + 1) drafts else []

/-- The tokens committed of those sampled: `_get_num_sampled_and_rejected_kernel`. -/
def commit {τ : Type} (deadRowCut : Option Nat) (chunkedPrefilling : Bool) (sampled : List τ) :
    List τ :=
  let numSampled :=
    match deadRowCut with
    | some c => min sampled.length (c + 1)
    | none => sampled.length
  sampled.take (if chunkedPrefilling then 0 else numSampled)

/-! ## The cut -/

section Cut

variable {L : Type} [AddCommMonoid L]

theorem length_cumsum (total : L) (xs : List L) : (cumsum total xs).length = xs.length := by
  induction xs generalizing total with
  | nil => rfl
  | cons x xs ih => rw [cumsum, List.length_cons, List.length_cons, ih]

variable [LinearOrder L] [IsOrderedAddMonoid L]

/-- No running sum exceeds what it started from. -/
theorem le_of_mem_cumsum {total : L} {xs : List L} (hxs : ∀ x ∈ xs, x ≤ 0) :
    ∀ s ∈ cumsum total xs, s ≤ total := by
  induction xs generalizing total with
  | nil => exact fun s hs => absurd hs List.not_mem_nil
  | cons x xs ih =>
    have hhead : total + x ≤ total := add_le_of_nonpos_right (hxs x List.mem_cons_self)
    intro s hs
    rcases List.mem_cons.1 hs with rfl | hs
    · exact hhead
    · exact le_trans (ih (fun y hy => hxs y (List.mem_cons_of_mem x hy)) s hs) hhead

/-- Survival only falls, so counting the drafts above the threshold counts those before the
first below it. -/
theorem lt_countP_cumsum {tau total : L} {xs : List L} (hxs : ∀ x ∈ xs, x ≤ 0) (j : Nat) :
    j < (cumsum total xs).countP (fun s => tau ≤ s) ↔ ∃ s, (cumsum total xs)[j]? = some s ∧ tau ≤ s := by
  induction xs generalizing total j with
  | nil => simp [cumsum]
  | cons x xs ih =>
    have hrest : ∀ y ∈ xs, y ≤ 0 := fun y hy => hxs y (List.mem_cons_of_mem x hy)
    rw [cumsum, List.countP_cons]
    by_cases hx : tau ≤ total + x
    · cases j with
      | zero => simp [hx]
      | succ j => simpa [hx] using ih hrest j
    · -- Below the threshold once, below it from there on.
      have hbelow : ∀ s ∈ cumsum (total + x) xs, ¬ tau ≤ s := fun s hs hle =>
        hx (le_trans hle (le_of_mem_cumsum hrest s hs))
      have hnone : (cumsum (total + x) xs).countP (fun s => tau ≤ s) = 0 :=
        List.countP_eq_zero.2 fun s hs => by simpa using hbelow s hs
      rw [hnone, if_neg (by simpa using hx), Nat.add_zero, iff_false_left (Nat.not_lt_zero j)]
      rintro ⟨s, hs, hle⟩
      rcases List.mem_cons.1 (List.mem_of_getElem? hs) with rfl | hs
      · exact hx hle
      · exact hbelow s hs hle

/-- **The cut is where the first draft falls below the threshold.** -/
theorem lt_cut_iff {tau : L} (blockSize : Nat) {r : Request L} (hdrafts : 0 < r.drafts)
    (hconf : ∀ x ∈ r.logConfidence, x ≤ 0) (j : Nat) :
    j < cut tau blockSize r ↔ ∃ s, r.logSurvival[j]? = some s ∧ tau ≤ s := by
  rw [cut, if_pos hdrafts]
  exact lt_countP_cumsum (fun x hx => hconf x (List.mem_of_mem_take hx)) j

end Cut

/-! ## The marked rows -/

section Rows

variable {L : Type} [AddCommMonoid L] [LinearOrder L]

/-- **Exactly the dead rows are marked.** -/
theorem mem_markDead {tau : L} {blockSize : Nat} {requests : List (Request L)}
    {isPadding : Nat → Bool} {row : Nat} :
    markDead tau blockSize requests isPadding row = true ↔
      isPadding row = true ∨ ∃ r ∈ requests, Dead tau blockSize r row := by
  induction requests generalizing isPadding with
  | nil => simp [markDead]
  | cons r requests ih =>
    have hstep := @ih (markRequest tau blockSize isPadding r)
    rw [markDead] at hstep ⊢
    rw [List.foldl_cons, hstep, List.exists_mem_cons_iff, markRequest]
    by_cases hdead : Dead tau blockSize r row
    · simp [hdead]
    · simp [hdead]

/-- **Exactly the rows of drafts whose survival is below the threshold are marked**, in whatever
order the requests run. -/
theorem markDead_iff [IsOrderedAddMonoid L] {tau : L} {blockSize : Nat}
    {requests : List (Request L)} (hdecodes : ∀ r ∈ requests, r.Decodes)
    (hconf : ∀ r ∈ requests, ∀ x ∈ r.logConfidence, x ≤ 0) (isPadding : Nat → Bool) (row : Nat) :
    markDead tau blockSize requests isPadding row = true ↔
      isPadding row = true ∨ ∃ r ∈ requests, ∃ j s, r.logSurvival[j]? = some s ∧ s < tau ∧
        row = r.queryEnd - r.drafts + j := by
  rw [mem_markDead]
  refine or_congr Iff.rfl (exists_congr fun r => and_congr_right fun hr => ?_)
  have hrows := (hdecodes r hr).rows
  have hlen : r.logSurvival.length = r.drafts := by
    rw [Request.logSurvival, length_cumsum, List.length_take]
    exact Nat.min_eq_left (hdecodes r hr).confidences
  constructor
  · rintro ⟨hpos, hcut, hend⟩
    have hj : row - (r.queryEnd - r.drafts) < r.logSurvival.length := by omega
    refine ⟨_, _, List.getElem?_eq_getElem hj, ?_, by omega⟩
    refine not_le.1 fun hle => ?_
    have hlive := (lt_cut_iff blockSize hpos (hconf r hr) _).2
      ⟨_, List.getElem?_eq_getElem hj, hle⟩
    omega
  · rintro ⟨j, s, hs, hlt, rfl⟩
    have hj : j < r.drafts := by
      rw [← hlen]
      exact (List.getElem?_eq_some_iff.1 hs).1
    refine ⟨by omega, Nat.add_le_add_left (Nat.not_lt.1 fun hlive => ?_) _, by omega⟩
    obtain ⟨s', hs', hle⟩ :=
      (lt_cut_iff blockSize (by omega) (hconf r hr) j).1 hlive
    rw [hs, Option.some.injEq] at hs'
    exact absurd (hs' ▸ hle) (not_le.2 hlt)

/-- Five drafts, of which two survive; logarithms are whole numbers here. -/
def fiveDrafts : Request Int := ⟨0, 6, [-1, -2, -7, -1, -1], 5⟩

/-- Two requests with five drafts each and a prefill. -/
def mixedBatch : List (Request Int) :=
  [fiveDrafts, ⟨6, 12, [-9, -1, -1, -1, -1], 5⟩, ⟨12, 20, [], 0⟩]

theorem mixedBatch_decodes : ∀ r ∈ mixedBatch, r.Decodes := by
  intro r hr
  simp only [mixedBatch, List.mem_cons, List.not_mem_nil, or_false] at hr
  rcases hr with rfl | rfl | rfl <;> exact ⟨by decide, by decide⟩

theorem markDead_iff_mixedBatch :
    markDead (-6) 8 mixedBatch (fun _ => false) 4 = true ↔
      false = true ∨ ∃ r ∈ mixedBatch, ∃ j s, r.logSurvival[j]? = some s ∧ s < -6 ∧
        4 = r.queryEnd - r.drafts + j :=
  markDead_iff mixedBatch_decodes (by decide) (fun _ => false) 4

/-- No two requests have a row in common. -/
def Disjoint (requests : List (Request L)) : Prop :=
  requests.Pairwise fun r s => r.queryEnd ≤ s.queryStart

omit [AddCommMonoid L] [LinearOrder L] in
theorem eq_of_common_row {requests : List (Request L)} (h : Disjoint requests) {r s : Request L}
    (hr : r ∈ requests) (hs : s ∈ requests) {row : Nat}
    (hrow : r.queryStart ≤ row ∧ row < r.queryEnd) (hrow' : s.queryStart ≤ row ∧ row < s.queryEnd) :
    r = s := by
  induction h with
  | nil => exact absurd hr List.not_mem_nil
  | cons hhead _ ih =>
    rcases List.mem_cons.1 hr with rfl | hr' <;> rcases List.mem_cons.1 hs with rfl | hs'
    · rfl
    · have := hhead s hs'
      omega
    · have := hhead r hr'
      omega
    · exact ih hr' hs'

/-- A request's rows before its first dead one are as they were. -/
theorem markDead_of_live {tau : L} {blockSize : Nat} {requests : List (Request L)}
    (hdisjoint : Disjoint requests) (hdecodes : ∀ r ∈ requests, r.Decodes)
    (isPadding : Nat → Bool) {r : Request L} (hr : r ∈ requests) {row : Nat}
    (hrow : r.queryStart ≤ row ∧ row < r.queryEnd) (hlive : ¬ Dead tau blockSize r row) :
    markDead tau blockSize requests isPadding row = isPadding row := by
  rw [Bool.eq_iff_iff, mem_markDead]
  constructor
  · rintro (h | ⟨s, hs, hdead⟩)
    · exact h
    · have hle := hdead.2.1
      have hrows := (hdecodes s hs).rows
      have hsrow : s.queryStart ≤ row ∧ row < s.queryEnd := ⟨by omega, hdead.2.2⟩
      rw [eq_of_common_row hdisjoint hr hs hrow hsrow] at hlive
      exact absurd hdead hlive
  · exact Or.inl

end Rows

/-! ## What is committed -/

section Commit

variable {Λ τ : Type} (judge : Nat → Λ → τ → Bool × τ) (bonus : Nat → Λ → τ)

/-- The first tokens depend on the first rows' logits only. -/
theorem verify_take {logits logits' : Nat → Λ} {row c : Nat} {drafts : List τ}
    (h : ∀ i ≤ c, i ≤ drafts.length → logits (row + i) = logits' (row + i)) :
    (verify judge bonus logits row drafts).take (c + 1) =
      (verify judge bonus logits' row drafts).take (c + 1) := by
  induction drafts generalizing row c with
  | nil => rw [verify, verify, ← Nat.add_zero row, h 0 (Nat.zero_le c) (Nat.zero_le _)]
  | cons draft drafts ih =>
    have hrow : logits row = logits' row := h 0 (Nat.zero_le c) (Nat.zero_le _)
    rw [verify, verify, hrow]
    simp only [List.take_succ_cons]
    congr 1
    split
    · cases c with
      | zero => rw [List.take_zero, List.take_zero]
      | succ c =>
        refine ih fun i hi hdrafts => ?_
        have hat : row + 1 + i = row + (i + 1) := by omega
        rw [hat, h (i + 1) (by omega) (by simpa using hdrafts)]
    · rfl

theorem length_verify_le (logits : Nat → Λ) (row : Nat) (drafts : List τ) :
    (verify judge bonus logits row drafts).length ≤ drafts.length + 1 := by
  induction drafts generalizing row with
  | nil => rw [verify, List.length_singleton]; exact Nat.le_add_left 1 _
  | cons draft drafts ih =>
    rw [verify, List.length_cons, List.length_cons]
    split
    · exact Nat.succ_le_succ (ih (row + 1))
    · simp

theorem verify_ne_nil (logits : Nat → Λ) (row : Nat) (drafts : List τ) :
    verify judge bonus logits row drafts ≠ [] := by
  cases drafts with
  | nil => exact List.cons_ne_nil _ _
  | cons draft drafts => exact List.cons_ne_nil _ _

/-- Clamping the count is cutting the tokens. -/
theorem commit_some (c : Nat) (chunked : Bool) (sampled : List τ) :
    commit (some c) chunked sampled = (commit none chunked sampled).take (c + 1) := by
  unfold commit
  cases chunked with
  | true => simp
  | false =>
    simp only [Bool.false_eq_true, if_false]
    rw [List.take_take, Nat.min_comm]

end Commit

/-- **Dead rows change nothing but how much is committed.** The target's logits at a row of a
request depend on the padding among the request's rows up to it. Then what a request commits with
its dead rows marked is the beginning of what it commits without, at most one token past its live
drafts, every token of it was predicted by a row that was not marked, and a request that is not
being prefilled commits a token. -/
theorem commit_deadRows {L Λ τ : Type} [AddCommMonoid L] [LinearOrder L] (logTau : L)
    (blockSize : Nat) (requests : List (Request L)) (isPadding : Nat → Bool)
    (logits : (Nat → Bool) → Nat → Λ) (judge : Nat → Λ → τ → Bool × τ) (bonus : Nat → Λ → τ)
    (hdisjoint : Disjoint requests) (hdecodes : ∀ r ∈ requests, r.Decodes)
    (hcausal : ∀ r ∈ requests, ∀ p p' row, r.queryStart ≤ row → row < r.queryEnd →
      (∀ i, r.queryStart ≤ i → i ≤ row → p i = p' i) → logits p row = logits p' row)
    {r : Request L} (hr : r ∈ requests) (drafts : List τ) (hdrafts : drafts.length = r.drafts)
    (chunked : Bool) :
    let marked := markDead logTau blockSize requests isPadding
    let plain := verify judge bonus (logits isPadding) r.sampledRow drafts
    let committed := commit (some (cut logTau blockSize r)) chunked
      (verify judge bonus (logits marked) r.sampledRow drafts)
    committed = (commit none chunked plain).take (cut logTau blockSize r + 1) ∧
      (∀ i < committed.length, marked (r.sampledRow + i) = isPadding (r.sampledRow + i)) ∧
      (chunked = false → committed ≠ []) := by
  intro marked plain committed
  have hrows := (hdecodes r hr).rows
  -- The rows that predict the tokens up to the cut are live.
  have hlive : ∀ i ≤ cut logTau blockSize r, i ≤ drafts.length →
      ∀ k, r.queryStart ≤ k → k ≤ r.sampledRow + i → marked k = isPadding k := by
    intro i hi hle k hstart hk
    refine markDead_of_live hdisjoint hdecodes isPadding hr ⟨hstart, ?_⟩ fun hdead => ?_
    · rw [Request.sampledRow] at hk
      omega
    · have hcut := hdead.2.1
      rw [Request.sampledRow] at hk
      omega
  have hsame : ∀ i ≤ cut logTau blockSize r, i ≤ drafts.length →
      logits marked (r.sampledRow + i) = logits isPadding (r.sampledRow + i) := fun i hi hle =>
    hcausal r hr _ _ _ (by rw [Request.sampledRow]; omega) (by rw [Request.sampledRow]; omega)
      fun k hstart hk => hlive i hi hle k hstart hk
  have htake : (verify judge bonus (logits marked) r.sampledRow drafts).take
      (cut logTau blockSize r + 1) = plain.take (cut logTau blockSize r + 1) :=
    verify_take judge bonus hsame
  have hcommitted : committed = (commit none chunked plain).take (cut logTau blockSize r + 1) := by
    simp only [committed]
    rw [commit_some]
    cases chunked with
    | true => rfl
    | false => simpa only [commit, Bool.false_eq_true, if_false, List.take_length] using htake
  refine ⟨hcommitted, fun i hi => ?_, fun hchunked => ?_⟩
  · have hplain : (commit none chunked plain).length ≤ drafts.length + 1 := by
      refine le_trans ?_ (length_verify_le judge bonus (logits isPadding) r.sampledRow drafts)
      rw [commit, List.length_take]
      exact Nat.min_le_right _ _
    rw [hcommitted, List.length_take] at hi
    exact hlive i (by omega) (by omega) _ (by rw [Request.sampledRow]; omega) le_rfl
  · rw [hcommitted, hchunked]
    simp only [commit, Bool.false_eq_true, if_false, List.take_length]
    exact List.ne_nil_of_length_pos (by
      rw [List.length_take]
      have hpos : 0 < plain.length := List.length_pos_of_ne_nil
        (verify_ne_nil judge bonus (logits isPadding) r.sampledRow drafts)
      omega)

/-- A target that reads each row alone, and fails on padding. -/
def rowLogits (isPadding : Nat → Bool) (row : Nat) : Nat := if isPadding row then 0 else row

/-- Five drafts, all accepted, of which two are live. -/
theorem commit_deadRows_mixedBatch :
    let marked := markDead (-6) 8 mixedBatch fun _ => false
    let plain := verify (fun _ _ draft => (true, draft)) (fun _ x => x)
      (rowLogits fun _ => false) fiveDrafts.sampledRow [10, 11, 12, 13, 14]
    let committed := commit (some (cut (-6) 8 fiveDrafts)) false
      (verify (fun _ _ draft => (true, draft)) (fun _ x => x) (rowLogits marked)
        fiveDrafts.sampledRow [10, 11, 12, 13, 14])
    committed = (commit none false plain).take (cut (-6) 8 fiveDrafts + 1) ∧
      (∀ i < committed.length, marked (fiveDrafts.sampledRow + i) = false) ∧
      (false = false → committed ≠ []) :=
  commit_deadRows (-6) 8 mixedBatch (fun _ => false) rowLogits _ _ (by
      rw [Disjoint, mixedBatch]
      decide) mixedBatch_decodes
    (fun r _ p p' row hstart _ h => by simp only [rowLogits, h row hstart le_rfl])
    (r := fiveDrafts) List.mem_cons_self [10, 11, 12, 13, 14] rfl false

end LlmkubeRuntimes.Draft
