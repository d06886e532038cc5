import LlmkubeRuntimes.Lib.Steps

/-!
# Grammars of structured output

A grammar feeds tokens to a matcher, in batches as long as a step's drafts, and
keeps beside it how many tokens it processed and whether the matcher has stopped.

* `Matcher`: what the matcher accepts after what it has accepted;
* `Grammar.acceptTokens`, `validateTokens`, `rollback`, `reset`: the calls;
* `accepted`, `refused`: how far a batch gets, by the matcher alone;
* `acceptTokens_eq`, `validateTokens_eq`: the calls in these words;
* `grammar_run`: any run of calls keeps a plain history of accepted tokens;
* `accept_in_batches`: how tokens are cut into batches does not matter;
* `advanceDrafts_validated`: drafts behind a reasoning end never fail to advance.
-/

namespace LlmkubeRuntimes.Glm53

open LlmkubeRuntimes.Lib

variable {Tok : Type}

/-- A matcher: whether it takes a token after those accepted so far, and whether these end the
grammar. -/
structure Matcher (Tok : Type) where
  allows : List Tok → Tok → Bool
  stopped : List Tok → Bool
  stopped_nil : stopped [] = false

/-- A grammar: the tokens its matcher accepted, and what the grammar keeps beside it. `overruns`
counts the calls of a stopped matcher, `errors` the failures logged. -/
structure Grammar (Tok : Type) where
  history : List Tok
  overruns : Nat
  numProcessedTokens : Int
  isTerminated : Bool
  errors : Nat
  deriving DecidableEq, Repr

/-- What a call raises: the matcher refuses to go behind its start, or a draft that was scheduled
under the grammar does not advance it. -/
inductive CallError (Tok : Type) where
  | rollback (numTokens : Nat)
  | assertion (token : Tok)
  deriving DecidableEq, Repr

namespace Grammar

variable (M : Matcher Tok)

def fresh : Grammar Tok := ⟨[], 0, 0, false, 0⟩

/-- The matcher's `accept_token`. -/
def acceptToken (g : Grammar Tok) (token : Tok) : Bool × Grammar Tok :=
  if M.stopped g.history then (false, { g with overruns := g.overruns + 1 })
  else if M.allows g.history token then (true, { g with history := g.history ++ [token] })
  else (false, g)

/-- The matcher's `rollback`, which refuses to go behind its start. -/
def rollbackTokens (numTokens : Nat) (g : Grammar Tok) : Except (CallError Tok) (Grammar Tok) :=
  if g.history.length < numTokens then .error (.rollback numTokens)
  else .ok { g with history := g.history.take (g.history.length - numTokens) }

def acceptLoop : List Tok → Grammar Tok → Bool × Grammar Tok
  | [], g => (true, g)
  | token :: tokens, g =>
    match g.acceptToken M token with
    | (false, g) => (false, { g with errors := g.errors + 1 })
    | (true, g) =>
      let g := { g with
        numProcessedTokens := g.numProcessedTokens + 1, isTerminated := M.stopped g.history }
      if g.isTerminated then (true, g) else acceptLoop tokens g

/-- Advance by a batch; tokens behind the grammar's end are ignored. -/
def acceptTokens (tokens : List Tok) (g : Grammar Tok) : Bool × Grammar Tok :=
  if g.isTerminated then (true, g) else acceptLoop M tokens g

def validateLoop : List Tok → Grammar Tok → List Tok × Grammar Tok
  | [], g => ([], g)
  | token :: tokens, g =>
    match g.acceptToken M token with
    | (false, g) => ([], g)
    | (true, g) =>
      if M.stopped g.history then ([token], g)
      else
        let (accepted, g) := validateLoop tokens g
        (token :: accepted, g)

/-- The first tokens of a batch that the matcher accepts; the matcher is rolled back behind them. -/
def validateTokens (tokens : List Tok) (g : Grammar Tok) : Except (CallError Tok) (List Tok × Grammar Tok) :=
  if g.isTerminated then .ok ([], g)
  else
    let (accepted, g) := validateLoop M tokens g
    if 0 < accepted.length then (rollbackTokens accepted.length g).map (accepted, ·)
    else .ok (accepted, g)

def rollback (numTokens : Nat) (g : Grammar Tok) : Except (CallError Tok) (Grammar Tok) :=
  (rollbackTokens numTokens g).map fun g =>
    { g with numProcessedTokens := g.numProcessedTokens - numTokens,
             isTerminated := M.stopped g.history }

def reset (g : Grammar Tok) : Grammar Tok :=
  { g with history := [], numProcessedTokens := 0, isTerminated := false }

end Grammar

/-- A call of a grammar. -/
inductive Call (Tok : Type) where
  | accept (tokens : List Tok)
  | validate (tokens : List Tok)
  | rollback (numTokens : Nat)
  | reset

def Grammar.call (M : Matcher Tok) : Call Tok → Grammar Tok → Except (CallError Tok) (Grammar Tok)
  | .accept tokens, g => .ok (g.acceptTokens M tokens).2
  | .validate tokens, g => (g.validateTokens M tokens).map Prod.snd
  | .rollback numTokens, g => g.rollback M numTokens
  | .reset, g => .ok g.reset

/-- A draft of the current window: behind a reasoning end it is validated before it advances the
grammar, elsewhere a draft that does not advance it is a fault. -/
def advanceDraft (M : Matcher Tok) (postReasoningEnd : Bool) (token : Tok)
    (s : Nat × Grammar Tok) : Except (CallError Tok) (Nat × Grammar Tok) :=
  if s.2.isTerminated then .ok s
  else if postReasoningEnd then do
    let (valid, g) ← s.2.validateTokens M [token]
    if valid.isEmpty then return (s.1, g)
    let (accepted, g) := g.acceptTokens M [token]
    return (if accepted then s.1 + 1 else s.1, g)
  else
    let (accepted, g) := s.2.acceptTokens M [token]
    if accepted then .ok (s.1 + 1, g) else .error (.assertion token)

/-- The drafts of a window, with the number of advancements. -/
def advanceDrafts (M : Matcher Tok) (postReasoningEnd : Bool) (tokens : List Tok)
    (g : Grammar Tok) : Except (CallError Tok) (Nat × Grammar Tok) :=
  applyAll (advanceDraft M postReasoningEnd) tokens (0, g)

/-! ## How far a batch gets -/

section Batch

variable (M : Matcher Tok)

/-- The tokens accepted after `h`, up to one that is refused or the end of the grammar. -/
def accepted : List Tok → List Tok → List Tok
  | _, [] => []
  | h, token :: tokens =>
    if M.stopped h then []
    else if M.allows h token then token :: accepted (h ++ [token]) tokens
    else []

/-- Is a token refused before the grammar ends? -/
def refused : List Tok → List Tok → Bool
  | _, [] => false
  | h, token :: tokens =>
    if M.stopped h then false
    else if M.allows h token then refused (h ++ [token]) tokens
    else true

theorem accepted_of_stopped {h : List Tok} (hstop : M.stopped h = true) (tokens : List Tok) :
    accepted M h tokens = [] ∧ refused M h tokens = false := by
  cases tokens with
  | nil => exact ⟨rfl, rfl⟩
  | cons token tokens => rw [accepted, refused, if_pos hstop, if_pos hstop]; exact ⟨rfl, rfl⟩

/-- The first part of a batch, and the second after it if nothing was refused. -/
theorem accepted_append (h xs ys : List Tok) :
    accepted M h (xs ++ ys) =
        accepted M h xs ++
          (if refused M h xs then [] else accepted M (h ++ accepted M h xs) ys) ∧
      refused M h (xs ++ ys) = (refused M h xs || refused M (h ++ accepted M h xs) ys) := by
  induction xs generalizing h with
  | nil => simp [accepted, refused]
  | cons x xs ih =>
    rw [List.cons_append, accepted, refused, accepted, refused]
    by_cases hstop : M.stopped h = true
    · have hnone := accepted_of_stopped M hstop ys
      simp only [hstop, if_true, List.append_nil, hnone.1, hnone.2, Bool.false_eq_true, if_false]
      exact ⟨trivial, rfl⟩
    · by_cases hallow : M.allows h x = true
      · obtain ⟨hacc, href⟩ := ih (h ++ [x])
        simp only [hstop, hallow, if_true, if_false, Bool.false_eq_true, hacc, href,
          List.cons_append, List.append_assoc, List.nil_append, and_self]
      · simp only [hstop, hallow, if_false, Bool.false_eq_true, if_true, List.append_nil,
          Bool.true_or, and_self]

end Batch

/-! ## The calls by the matcher alone -/

section Calls

variable (M : Matcher Tok)

/-- What a grammar keeps beside its matcher is right, and no stopped matcher was called. -/
structure Sound (g : Grammar Tok) : Prop where
  terminated : g.isTerminated = M.stopped g.history
  processed : g.numProcessedTokens = g.history.length
  overruns : g.overruns = 0

/-- The grammar after a batch. -/
def after (g : Grammar Tok) (tokens : List Tok) : Grammar Tok :=
  { g with
    history := g.history ++ accepted M g.history tokens
    numProcessedTokens := g.numProcessedTokens + (accepted M g.history tokens).length
    isTerminated := M.stopped (g.history ++ accepted M g.history tokens)
    errors := g.errors + if refused M g.history tokens then 1 else 0 }

theorem after_nil {g : Grammar Tok} (h : g.isTerminated = M.stopped g.history) :
    after M g [] = g := by
  simp only [after, accepted, refused, List.append_nil, List.length_nil, Int.natCast_zero,
    Int.add_zero, Bool.false_eq_true, if_false, Nat.add_zero, ← h]

theorem acceptLoop_eq (tokens : List Tok) {g : Grammar Tok} (h : g.isTerminated = false)
    (hstop : M.stopped g.history = false) :
    Grammar.acceptLoop M tokens g = (!refused M g.history tokens, after M g tokens) := by
  induction tokens generalizing g with
  | nil => rw [Grammar.acceptLoop, after_nil M (h.trans hstop.symm)]; rfl
  | cons token tokens ih =>
    rw [Grammar.acceptLoop, Grammar.acceptToken, hstop]
    by_cases hallow : M.allows g.history token = true
    · simp only [Bool.false_eq_true, if_false, hallow, if_true]
      by_cases hend : M.stopped (g.history ++ [token]) = true
      · obtain ⟨hacc, href⟩ := accepted_of_stopped M hend tokens
        simp [after, accepted, refused, hstop, hallow, hend, hacc, href]
      · rw [if_neg hend, ih (Bool.eq_false_iff.2 hend) (Bool.eq_false_iff.2 hend)]
        simp [after, accepted, refused, hstop, hallow]
        omega
    · simp [after, accepted, refused, hstop, hallow, h]

/-- **A batch advances the grammar up to its end**, and fails where a token is refused before. -/
theorem acceptTokens_eq (tokens : List Tok) {g : Grammar Tok}
    (h : g.isTerminated = M.stopped g.history) :
    g.acceptTokens M tokens = (!refused M g.history tokens, after M g tokens) := by
  rw [Grammar.acceptTokens]
  split
  · next hterm =>
    obtain ⟨hacc, href⟩ := accepted_of_stopped M (h.symm.trans hterm) tokens
    simp [after, hacc, href, ← h]
  · next hterm =>
    have hterm := Bool.eq_false_iff.2 hterm
    exact acceptLoop_eq M tokens hterm (h.symm.trans hterm)

theorem validateLoop_eq (tokens : List Tok) {g : Grammar Tok} (hstop : M.stopped g.history = false) :
    Grammar.validateLoop M tokens g = (accepted M g.history tokens,
      { g with history := g.history ++ accepted M g.history tokens }) := by
  induction tokens generalizing g with
  | nil => simp [Grammar.validateLoop, accepted]
  | cons token tokens ih =>
    rw [Grammar.validateLoop, Grammar.acceptToken, hstop]
    by_cases hallow : M.allows g.history token = true
    · simp only [Bool.false_eq_true, if_false, hallow, if_true]
      by_cases hend : M.stopped (g.history ++ [token]) = true
      · simp [accepted, hstop, hallow, hend, (accepted_of_stopped M hend tokens).1]
      · rw [if_neg hend, ih (Bool.eq_false_iff.2 hend)]
        simp [accepted, hstop, hallow]
    · simp [accepted, hstop, hallow]

/-- **Validating predicts advancing and leaves the grammar as it is.** -/
theorem validateTokens_eq (tokens : List Tok) {g : Grammar Tok}
    (h : g.isTerminated = M.stopped g.history) :
    g.validateTokens M tokens = .ok (accepted M g.history tokens, g) := by
  rw [Grammar.validateTokens]
  split
  · next hterm => rw [(accepted_of_stopped M (h.symm.trans hterm) tokens).1]
  · next hterm =>
    rw [validateLoop_eq M tokens (h.symm.trans (Bool.eq_false_iff.2 hterm))]
    simp only
    split
    · simp only [Grammar.rollbackTokens, List.length_append,
        if_neg (Nat.not_lt.2 (Nat.le_add_left _ _)), Except.map, Nat.add_sub_cancel,
        List.take_left]
    · next hnone =>
      rw [List.length_eq_zero_iff.1 (Nat.eq_zero_of_not_pos hnone), List.append_nil]

theorem Sound.after {g : Grammar Tok} (h : Sound M g) (tokens : List Tok) :
    Sound M (after M g tokens) := by
  refine ⟨rfl, ?_, h.overruns⟩
  simp only [Glm53.after, h.processed, List.length_append, Int.natCast_add]

/-! ## Runs -/

/-- Batches one after the other, up to one that fails. -/
def acceptBatches : List (List Tok) → Grammar Tok → Bool × Grammar Tok
  | [], g => (true, g)
  | tokens :: batches, g =>
    match g.acceptTokens M tokens with
    | (true, g) => acceptBatches batches g
    | (false, g) => (false, g)

/-- **How tokens are cut into batches does not matter**, for the result as for the grammar. -/
theorem accept_in_batches (batches : List (List Tok)) {g : Grammar Tok} (h : Sound M g) :
    acceptBatches M batches g = g.acceptTokens M batches.flatten := by
  induction batches generalizing g with
  | nil =>
    rw [acceptBatches, List.flatten_nil, acceptTokens_eq M [] h.terminated,
      after_nil M h.terminated]
    rfl
  | cons tokens batches ih =>
    obtain ⟨hacc, href⟩ := accepted_append M g.history tokens batches.flatten
    rw [acceptBatches, List.flatten_cons, acceptTokens_eq M _ h.terminated,
      acceptTokens_eq M _ h.terminated, href]
    by_cases hrefused : refused M g.history tokens = true
    · simp [after, hacc, href, hrefused]
    · have hrefused := Bool.eq_false_iff.2 hrefused
      simp only [hrefused, Bool.not_false, Bool.false_or]
      rw [ih (h.after M tokens), acceptTokens_eq M _ (h.after M tokens).terminated]
      simp only [after, hacc, href, hrefused, Bool.false_eq_true, if_false, Bool.false_or,
        List.append_assoc, List.length_append, Int.natCast_add, Int.add_assoc, Nat.add_zero]

/-! ## Drafts -/

/-- The drafts of a window that advance the grammar, those refused being passed over. -/
def advanced : List Tok → List Tok → List Tok
  | _, [] => []
  | h, token :: tokens =>
    if M.stopped h then []
    else if M.allows h token then token :: advanced (h ++ [token]) tokens
    else advanced h tokens

theorem advanced_of_stopped {h : List Tok} (hstop : M.stopped h = true) (tokens : List Tok) :
    advanced M h tokens = [] := by
  cases tokens with
  | nil => rfl
  | cons token tokens => rw [advanced, if_pos hstop]

/-- **Drafts behind a reasoning end never fail to advance**: no failure is logged, and the grammar
takes those that it allows. -/
theorem advanceDrafts_validated (tokens : List Tok) {g : Grammar Tok} (h : Sound M g) :
    ∃ g', advanceDrafts M true tokens g =
        .ok ((advanced M g.history tokens).length, g') ∧ Sound M g' ∧
      g'.history = g.history ++ advanced M g.history tokens ∧ g'.errors = g.errors := by
  have hrun : ∀ (tokens : List Tok) (n : Nat) (g : Grammar Tok), Sound M g →
      ∃ g', applyAll (advanceDraft M true) tokens (n, g) =
          .ok (n + (advanced M g.history tokens).length, g') ∧ Sound M g' ∧
        g'.history = g.history ++ advanced M g.history tokens ∧ g'.errors = g.errors := by
    intro tokens
    induction tokens with
    | nil =>
      intro n g h
      exact ⟨g, rfl, h, (List.append_nil _).symm, rfl⟩
    | cons token tokens ih =>
      intro n g h
      rw [applyAll, advanceDraft]
      by_cases hterm : g.isTerminated = true
      · have hstop := h.terminated.symm.trans hterm
        obtain ⟨g', hrun, hsound, hhistory, herrors⟩ := ih n g h
        rw [advanced_of_stopped M hstop] at hrun hhistory
        rw [if_pos hterm, advanced_of_stopped M hstop]
        exact ⟨g', hrun, hsound, hhistory, herrors⟩
      · have hstop := h.terminated.symm.trans (Bool.eq_false_iff.2 hterm)
        rw [if_neg hterm, if_pos rfl, validateTokens_eq M _ h.terminated]
        by_cases hallow : M.allows g.history token = true
        · obtain ⟨g', hrun, hsound, hhistory, herrors⟩ := ih (n + 1) _ (h.after M [token])
          have hone : accepted M g.history [token] = [token] := by
            simp [accepted, hstop, hallow]
          have hnone : refused M g.history [token] = false := by
            simp [refused, hstop, hallow]
          simp only [bind, Except.bind, pure, Except.pure, hone, List.isEmpty_cons,
            Bool.false_eq_true, if_false, acceptTokens_eq M _ h.terminated, hnone, Bool.not_false,
            if_true]
          have hnext : (after M g [token]).history = g.history ++ [token] := by
            rw [after, hone]
          have hlogged : (after M g [token]).errors = g.errors := by
            rw [after, hnone]
            rfl
          rw [hnext] at hrun hhistory
          rw [advanced, hstop, if_neg Bool.false_ne_true, if_pos hallow]
          refine ⟨g', ?_, hsound, ?_, herrors.trans hlogged⟩
          · rw [List.length_cons, Nat.add_comm (advanced M _ _).length, ← Nat.add_assoc]
            exact hrun
          · rw [hhistory, List.append_assoc]
            rfl
        · obtain ⟨g', hrun, hsound, hhistory, herrors⟩ := ih n g h
          have hnone : accepted M g.history [token] = [] := by
            simp [accepted, hstop, hallow]
          simp only [bind, Except.bind, pure, Except.pure, hnone, List.isEmpty_nil, if_true]
          rw [advanced, hstop, if_neg Bool.false_ne_true, if_neg hallow]
          exact ⟨g', hrun, hsound, hhistory, herrors⟩
  obtain ⟨g', hall, hrest⟩ := hrun tokens 0 g h
  rw [Nat.zero_add] at hall
  exact ⟨g', hall, hrest⟩

end Calls

/-- Numbers below one hundred, ended by 99. -/
def endedBy99 : Matcher Nat :=
  ⟨fun _ token => decide (token < 100), fun h => h.getLast? = some 99, rfl⟩

/-- A batch beyond the grammar's end. -/
example : (Grammar.fresh.acceptTokens endedBy99 [7, 99, 8]).2 = ⟨[7, 99], 0, 2, true, 0⟩ := by
  decide

theorem accept_in_batches_endedBy99 :
    acceptBatches endedBy99 [[7], [], [99, 8]] Grammar.fresh =
      Grammar.fresh.acceptTokens endedBy99 [[7], [], [99, 8]].flatten :=
  accept_in_batches endedBy99 _ ⟨rfl, rfl, rfl⟩

theorem advanceDrafts_validated_endedBy99 :
    ∃ g', advanceDrafts endedBy99 true [7, 200, 99, 8] Grammar.fresh =
        .ok ((advanced endedBy99 [] [7, 200, 99, 8]).length, g') ∧ Sound endedBy99 g' ∧
      g'.history = [] ++ advanced endedBy99 [] [7, 200, 99, 8] ∧ g'.errors = 0 :=
  advanceDrafts_validated endedBy99 [7, 200, 99, 8] ⟨rfl, rfl, rfl⟩

end LlmkubeRuntimes.Glm53
