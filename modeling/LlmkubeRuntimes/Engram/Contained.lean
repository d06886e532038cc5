import LlmkubeRuntimes.Engram.Task
import LlmkubeRuntimes.Lib.Find
import LlmkubeRuntimes.Lib.Traverse

/-!
# Reader failures stay contained

* `failures`: the errors of the jobs that raise, in order;
* `Fetched`: a prediction is of the whole chunk, and all its reads succeeded;
* `Contained`: what a task leaves behind.
-/

namespace LlmkubeRuntimes.Engram.Task.Tables

open LlmkubeRuntimes.Lib

variable {τ ε : Type} (E : Tables τ)

/-- The error a job raises. -/
def failure (j : τ × Job × Reading ε) : Option (Raised ε) :=
  match E.readDisk j.2.1 j.2.2 with
  | .ok _ => none
  | .error error => some error

/-- The errors of the jobs that raise. -/
def failures (jobs : List (τ × Job × Reading ε)) : List (Raised ε) := jobs.filterMap E.failure

/-- The prediction is of the whole chunk, with the IDs of every table, all read. -/
structure Fetched (chunk : Chunk τ) (fetching : τ → Fetching ε) (p : Pending τ Int64) : Prop where
  whole : (slice chunk.source.row chunk.source.start
    (chunk.source.start + chunk.source.count)).length = chunk.source.count
  tokens : p.tokens = chunk.source.count
  rowSet : p.rowSet = chunk.rowSet
  tables : p.ids.map Prod.fst = chunk.engrams
  read : ∀ x ∈ p.ids, E.predicted (ε := ε) chunk x.1 = .ok x.2 ∧
    E.prefetchRows x.1 x.2 (fetching x.1) = .ok ()

/-- The gate and the number of a release. -/
def released : Event τ → Option (τ × UInt32)
  | .release table sequence => some (table, sequence)
  | .prefetch => none

/-- What a task leaves behind that runs in `s` to its end in `t`. -/
structure Contained (T : Submitted τ ε) (queue : List (Submitted τ ε)) (s t : State τ ε) : Prop where
  /-- Every gate is released once, with the number of its job. -/
  released : t.log.filterMap released = T.jobs.map fun j => (j.1, j.2.1.sequence)
  /-- If the future is its own, the next join raises the first error of a job, or what a
  prefetch does not catch. -/
  raises : s.future = some none → queue = [] → ∀ error, t.join = .error error ↔
    (E.failures T.jobs).head? = some error ∨
      E.failures T.jobs = [] ∧ ∃ chunk, T.chunk = some chunk ∧
        E.prefetchEngramRows chunk T.fetching = .error error ∧ error.isException = false
  /-- If its future was dropped, the next join does not depend on it. -/
  dropped : s.future = none → t.join = .ok ()
  /-- There is no prefetch if a job raised. -/
  prefetch : .prefetch ∈ t.log → E.failures T.jobs = []
  /-- A prediction is set only by a prefetch that read all of it, and then it is. -/
  pending : ∀ p, t.pending = some p → s.pending = some p ∨
    E.failures T.jobs = [] ∧ ∃ chunk, T.chunk = some chunk ∧ E.Fetched chunk T.fetching p
  fetched : ∀ p chunk, E.failures T.jobs = [] → T.chunk = some chunk →
    E.Fetched chunk T.fetching p → t.pending = some p

/-! ## The jobs -/

theorem readDiskAsync_log (l : Loop τ ε) (j : τ × Job × Reading ε) :
    (E.readDiskAsync l j).log = l.log ++ [.release j.1 j.2.1.sequence] := by
  unfold readDiskAsync
  cases E.readDisk j.2.1 j.2.2 <;> rfl

theorem readDiskAsync_failure (l : Loop τ ε) (j : τ × Job × Reading ε) :
    (E.readDiskAsync l j).failure = l.failure.or (E.failure j) := by
  unfold readDiskAsync failure
  cases E.readDisk j.2.1 j.2.2 with
  | ok hit => exact Option.or_none.symm
  | error error => rfl

theorem foldl_log (jobs : List (τ × Job × Reading ε)) (l : Loop τ ε) :
    (jobs.foldl E.readDiskAsync l).log =
      l.log ++ jobs.map fun j => .release j.1 j.2.1.sequence := by
  induction jobs generalizing l with
  | nil => exact (List.append_nil _).symm
  | cons j jobs ih => rw [List.foldl_cons, ih, readDiskAsync_log, List.append_assoc]; rfl

/-- The loop keeps the first error. -/
theorem foldl_failure (jobs : List (τ × Job × Reading ε)) (l : Loop τ ε) :
    (jobs.foldl E.readDiskAsync l).failure = l.failure.or (E.failures jobs).head? := by
  induction jobs generalizing l with
  | nil => exact Option.or_none.symm
  | cons j jobs ih =>
    rw [List.foldl_cons, ih, readDiskAsync_failure, Option.or_assoc, failures, failures]
    cases h : E.failure j with
    | none => rw [List.filterMap_cons_none h, Option.none_or]
    | some error => rw [List.filterMap_cons_some h]; rfl

/-! ## The prefetch -/

section Prefetch

variable {chunk : Chunk τ} {fetching : τ → Fetching ε}

theorem prefetchTable_eq_ok {table : τ} {x : τ × List Int64} :
    E.prefetchTable chunk fetching table = .ok x ↔
      x.1 = table ∧ E.predicted (ε := ε) chunk x.1 = .ok x.2 ∧
        E.prefetchRows x.1 x.2 (fetching x.1) = .ok () := by
  simp only [prefetchTable, bind_eq_ok]
  constructor
  · rintro ⟨ids, hids, ⟨⟩, hread, ⟨⟩⟩
    exact ⟨rfl, hids, hread⟩
  · rintro ⟨rfl, hids, hread⟩
    exact ⟨x.2, hids, (), hread, rfl⟩

theorem mapM_prefetchTable {tables : List τ} {xs : List (τ × List Int64)} :
    tables.mapM (E.prefetchTable chunk fetching) = .ok xs ↔
      xs.map Prod.fst = tables ∧ ∀ x ∈ xs, E.predicted (ε := ε) chunk x.1 = .ok x.2 ∧
        E.prefetchRows x.1 x.2 (fetching x.1) = .ok () := by
  induction tables generalizing xs with
  | nil =>
    rw [List.mapM_nil, List.map_eq_nil_iff]
    constructor
    · rintro ⟨⟩
      exact ⟨rfl, fun x hx => absurd hx List.not_mem_nil⟩
    · rintro ⟨rfl, -⟩
      rfl
  | cons table tables ih =>
    simp only [List.mapM_cons, bind_eq_ok, prefetchTable_eq_ok, ih]
    constructor
    · rintro ⟨x, ⟨rfl, hx⟩, xs, ⟨rfl, hxs⟩, ⟨⟩⟩
      exact ⟨rfl, List.forall_mem_cons.2 ⟨hx, hxs⟩⟩
    · rintro ⟨htables, hall⟩
      obtain ⟨x, xs, rfl, rfl, rfl⟩ := List.map_eq_cons_iff.1 htables
      obtain ⟨hx, hxs⟩ := List.forall_mem_cons.1 hall
      exact ⟨x, ⟨rfl, hx⟩, xs, ⟨rfl, hxs⟩, rfl⟩

/-- **A prediction comes from a prefetch that read all of it.** -/
theorem prefetchEngramRows_eq_ok {p : Pending τ Int64} :
    E.prefetchEngramRows chunk fetching = .ok (some p) ↔ E.Fetched chunk fetching p := by
  unfold prefetchEngramRows
  dsimp only
  split
  · rename_i hshort
    exact ⟨fun h => (Option.some_ne_none p (Except.ok.inj h).symm).elim,
      fun h => absurd h.whole hshort⟩
  · rename_i hwhole
    simp only [bind_eq_ok, mapM_prefetchTable]
    constructor
    · rintro ⟨xs, ⟨htables, hread⟩, ⟨⟩⟩
      exact ⟨not_not.1 hwhole, rfl, rfl, htables, hread⟩
    · obtain ⟨tokens, rowSet, ids⟩ := p
      rintro ⟨-, rfl, rfl, htables, hread⟩
      exact ⟨ids, ⟨htables, hread⟩, rfl⟩

end Prefetch

/-! ## The task -/

theorem filterMap_released (jobs : List (τ × Job × Reading ε)) :
    (jobs.map fun j => Event.release j.1 j.2.1.sequence).filterMap released =
      jobs.map fun j => (j.1, j.2.1.sequence) := by
  rw [List.filterMap_map, ← List.filterMap_eq_map]
  rfl

section ReadPrefetch

variable (s : State τ ε) (chunk : Option (Chunk τ)) (fetching : τ → Fetching ε)

theorem readPrefetch_log :
    (E.readPrefetch s chunk fetching).1.log.filterMap released = s.log.filterMap released := by
  cases chunk with
  | none => rfl
  | some chunk =>
    have happend : (s.log ++ [Event.prefetch]).filterMap released = s.log.filterMap released := by
      simp [released]
    unfold readPrefetch
    dsimp only
    split
    · exact happend
    · exact happend
    · split <;> exact happend

/-- Only what a prefetch does not catch is raised. -/
theorem readPrefetch_result (error : Raised ε) :
    (E.readPrefetch s chunk fetching).2 = .error error ↔
      ∃ c, chunk = some c ∧ E.prefetchEngramRows c fetching = .error error ∧
        error.isException = false := by
  cases chunk with
  | none => simp [readPrefetch]
  | some chunk =>
    unfold readPrefetch
    dsimp only
    split
    · rename_i hrun
      simp [hrun]
    · rename_i hrun
      simp [hrun]
    · rename_i error' hrun
      split
      · rename_i hcaught
        simp only [reduceCtorEq, false_iff]
        rintro ⟨_, ⟨⟩, hrun', hcaught'⟩
        cases hrun.symm.trans hrun'
        exact Bool.false_ne_true (hcaught'.symm.trans hcaught)
      · rename_i hcaught
        simp only [Except.error.injEq]
        constructor
        · rintro rfl
          exact ⟨chunk, rfl, hrun, Bool.eq_false_iff.2 hcaught⟩
        · rintro ⟨_, ⟨⟩, hrun', -⟩
          exact Except.error.inj (hrun.symm.trans hrun')

/-- A prediction is set by a prefetch that read all of it, or it was there. -/
theorem readPrefetch_pending {p : Pending τ Int64}
    (h : (E.readPrefetch s chunk fetching).1.pending = some p) :
    s.pending = some p ∨ ∃ c, chunk = some c ∧ E.Fetched c fetching p := by
  cases chunk with
  | none => exact .inl h
  | some chunk =>
    unfold readPrefetch at h
    dsimp only at h
    split at h
    · exact .inl h
    · rename_i hrun
      cases h
      exact .inr ⟨chunk, rfl, (E.prefetchEngramRows_eq_ok).1 hrun⟩
    · split at h
      · cases h
      · exact .inl h

theorem readPrefetch_fetched {p : Pending τ Int64} {c : Chunk τ} (hchunk : chunk = some c)
    (hfetched : E.Fetched c fetching p) :
    (E.readPrefetch s chunk fetching).1.pending = some p := by
  subst hchunk
  unfold readPrefetch
  dsimp only
  rw [E.prefetchEngramRows_eq_ok.2 hfetched]

end ReadPrefetch

/-! What `_read_engram_rows` does, with and without an error of a job. -/

theorem readEngramRows_of_failure {T : Submitted τ ε} (s : State τ ε) {error : Raised ε}
    (h : (E.failures T.jobs).head? = some error) :
    E.readEngramRows s T = ({ s with log := T.jobs.map fun j => .release j.1 j.2.1.sequence },
      .error error) := by
  unfold readEngramRows
  dsimp only
  rw [E.foldl_failure, Option.none_or, h, E.foldl_log, List.nil_append]

theorem readEngramRows_of_read {T : Submitted τ ε} (s : State τ ε) (h : E.failures T.jobs = []) :
    ∃ stats, E.readEngramRows s T = E.readPrefetch
      { s with stats, log := T.jobs.map fun j => .release j.1 j.2.1.sequence } T.chunk T.fetching := by
  unfold readEngramRows
  dsimp only
  rw [E.foldl_failure, Option.none_or, h, E.foldl_log, List.nil_append]
  exact ⟨_, rfl⟩

/-- The state a task ends in, but for the future and the queue. -/
theorem run_cons {s : State τ ε} {T : Submitted τ ε} {queue : List (Submitted τ ε)}
    (h : s.workQueue = T :: queue) : E.run s = { (E.readEngramRows s T).1 with
      future := if queue.isEmpty then s.future.map fun _ => some (E.readEngramRows s T).2
        else s.future
      workQueue := queue
      ended := s.ended ++ [T] } := by
  rw [run, h]

/-- **A task leaves what it should behind.** -/
theorem run_contained {s : State τ ε} {T : Submitted τ ε} {queue : List (Submitted τ ε)}
    (h : s.workQueue = T :: queue) : E.Contained T queue s (E.run s) := by
  have hdropped : s.future = none → (E.run s).join = .ok () := fun hnone => by
    rw [run_cons E h, State.join, hnone]
    simp
  have hjoin : s.future = some none → queue = [] → (E.run s).join = (E.readEngramRows s T).2 :=
    fun hheld hqueue => by
      rw [run_cons E h, State.join, hheld, hqueue]
      rfl
  rw [run_cons E h] at hdropped hjoin ⊢
  cases hfailures : E.failures T.jobs with
  | nil =>
    obtain ⟨stats, hrun⟩ := E.readEngramRows_of_read s hfailures
    rw [hrun] at hdropped hjoin ⊢
    refine ⟨?_, fun hheld hqueue error => ?_, hdropped, fun _ => hfailures, fun p hp => ?_,
      fun p chunk _ => E.readPrefetch_fetched _ _ _⟩
    · exact (E.readPrefetch_log _ _ _).trans (filterMap_released T.jobs)
    · rw [hjoin hheld hqueue, readPrefetch_result]
      simp [hfailures]
    · exact (E.readPrefetch_pending _ _ _ hp).imp_right fun hfetched => ⟨hfailures, hfetched⟩
  | cons error errors =>
    rw [E.readEngramRows_of_failure s (by rw [hfailures, List.head?_cons])] at hdropped hjoin ⊢
    refine ⟨filterMap_released T.jobs, fun hheld hqueue error => ?_, hdropped, fun hmem => ?_,
      fun p hp => .inl hp, fun p chunk hnone => ?_⟩
    · rw [hjoin hheld hqueue]
      simp [hfailures]
    · simp at hmem
    · rw [hfailures] at hnone
      cases hnone

/-! ## Calls and tasks in any order -/

section Steps

variable {E}

/-- The prediction was left by a task that read all of it. -/
def Made (E : Tables τ) (ended : List (Submitted τ ε)) (p : Pending τ Int64) : Prop :=
  ∃ T ∈ ended, E.failures T.jobs = [] ∧ ∃ chunk, T.chunk = some chunk ∧ E.Fetched chunk T.fetching p

theorem Made.concat {ended : List (Submitted τ ε)} {p : Pending τ Int64} (h : E.Made ended p)
    (T : Submitted τ ε) : E.Made (ended ++ [T]) p := by
  obtain ⟨T', hT', hmade⟩ := h
  exact ⟨T', List.mem_append_left _ hT', hmade⟩

/-- A prediction that is pending, or whose rows a job expects, was made by a task. -/
structure Predicts (E : Tables τ) (s : State τ ε) : Prop where
  pending : ∀ p, s.pending = some p → E.Made s.ended p
  expected : ∀ T ∈ s.workQueue, ∀ j ∈ T.jobs, ∀ ids, j.2.1.expected = some ids →
    ∃ p, E.Made s.ended p ∧ p.tokens = j.2.1.tokens ∧ p.rowSet = j.2.1.rowSet ∧ (j.1, ids) ∈ p.ids

/-- Rows are taken as they are only where IDs were expected. -/
theorem expected_of_hit {job : Job} {o : Reading ε} (h : E.readDisk job o = .ok true) :
    ∃ ids, job.expected = some ids := by
  cases hexpected : job.expected with
  | some ids => exact ⟨ids, rfl⟩
  | none =>
    simp only [readDisk, bind_eq_ok, hexpected, Option.any_none, Bool.false_and, Bool.false_eq_true,
      if_false] at h
    obtain ⟨idsHost, -, hit, ⟨⟩, hread⟩ := h
    simp only [Bool.false_eq_true, if_false, bind_eq_ok] at hread
    obtain ⟨-, -, ⟨⟩⟩ := hread

theorem predicts_run {s : State τ ε} (h : E.Predicts s) : E.Predicts (E.run s) := by
  cases hqueue : s.workQueue with
  | nil => rwa [run, hqueue]
  | cons T queue =>
    have hended : (E.run s).ended = s.ended ++ [T] := by rw [run_cons E hqueue]
    have hrest : (E.run s).workQueue = queue := by rw [run_cons E hqueue]
    refine ⟨fun p hp => ?_, fun T' hT' j hj ids hids => ?_⟩
    · rw [hended]
      rcases (E.run_contained hqueue).pending p hp with hp | hfetched
      · exact (h.pending p hp).concat T
      · exact ⟨T, List.mem_concat_self, hfetched⟩
    · rw [hrest] at hT'
      obtain ⟨p, hmade, hp⟩ := h.expected T' (hqueue ▸ List.mem_cons_of_mem T hT') j hj ids hids
      exact ⟨p, hended ▸ hmade.concat T, hp⟩

variable [DecidableEq τ] {s : State τ ε}

/-- What a job expects is of the prediction of the step. -/
theorem pending_of_expected {tokens : Nat} {staged : List (τ × UInt32 × Reading ε)}
    {next : Option (Source × List Geometry)} {fetching : τ → Fetching ε}
    {j : τ × Job × Reading ε} (hj : j ∈ (E.submit s tokens staged next fetching).jobs)
    {ids : List Int64} (hids : j.2.1.expected = some ids) :
    ∃ p, s.pending = some p ∧ p.tokens = j.2.1.tokens ∧ p.rowSet = j.2.1.rowSet ∧
      (j.1, ids) ∈ p.ids := by
  obtain ⟨⟨table, sequence, reading⟩, -, rfl⟩ := List.mem_map.1 hj
  obtain ⟨p, hp, hlookup⟩ := Option.bind_eq_some_iff.1 hids
  obtain ⟨hpending, htokens⟩ := Option.filter_eq_some_iff.1 hp
  refine ⟨p, hpending, of_decide_eq_true htokens, ?_, mem_of_lookup hlookup⟩
  simp only [hp, Option.map_some, Option.getD_some]

/-- A call whose join raises drops the future and does nothing else. -/
theorem step_of_raises {error : Raised ε} (hjoin : s.join = .error error) {a : Action τ ε}
    (ha : a ≠ .run) : E.step s a = { s with future := none } := by
  cases a with
  | prepare => simp only [step, hjoin]
  | prepareDummy => simp only [step, hjoin]
  | run => exact absurd rfl ha

theorem predicts_step (h : E.Predicts s) (a : Action τ ε) : E.Predicts (E.step s a) := by
  by_cases ha : a = .run
  · rw [ha]
    exact predicts_run h
  cases hjoin : s.join with
  | error error =>
    rw [step_of_raises hjoin ha]
    exact ⟨h.pending, h.expected⟩
  | ok =>
    cases a with
    | run => exact absurd rfl ha
    | prepareDummy =>
      simp only [step, hjoin]
      exact ⟨fun p hp => (by cases hp), h.expected⟩
    | prepare tokens staged next fetching =>
      simp only [step, hjoin]
      refine ⟨fun p hp => (by cases hp), fun T hT j hj ids hids => ?_⟩
      rcases List.mem_append.1 hT with hT | hT
      · exact h.expected T hT j hj ids hids
      · rw [List.mem_singleton.1 hT] at hj
        obtain ⟨p, hp, hof⟩ := pending_of_expected hj hids
        exact ⟨p, h.pending p hp, hof⟩

theorem predicts_reach (h : E.system.Reach System.Any s) : E.Predicts s := by
  refine h.inv ?_ fun s a t hs _ hstep => ?_
  · rintro s rfl
    exact ⟨fun p hp => (by cases hp), fun T hT => (by cases hT)⟩
  · cases hstep
    exact predicts_step hs a

/-- **Reader failures stay contained.** A task releases every gate once, the next join
raises the first error of a job or what a prefetch does not catch if the task ends before
the join's deadline, a join whose deadline passes raises `TimeoutError` and drops the future,
and rows are taken as they are only if a task before read all of a whole prediction. -/
theorem reader_contained (h : E.system.Reach System.Any s) {T : Submitted τ ε}
    {queue : List (Submitted τ ε)} (hnext : s.workQueue = T :: queue) :
    E.Contained T queue s (E.step s .run) ∧
    (s.future = some none → s.join = .error .timeoutError ∧
      ∀ a, a ≠ .run → E.step s a = { s with future := none }) ∧
    ∀ j ∈ T.jobs, E.readDisk j.2.1 j.2.2 = .ok true →
      ∃ T' ∈ s.ended, ∃ chunk p ids, E.failures T'.jobs = [] ∧ T'.chunk = some chunk ∧
        E.Fetched chunk T'.fetching p ∧ p.tokens = j.2.1.tokens ∧ p.rowSet = j.2.1.rowSet ∧
        j.2.1.expected = some ids ∧ (j.1, ids) ∈ p.ids := by
  refine ⟨E.run_contained hnext, fun hheld => ?_, fun j hj hhit => ?_⟩
  · have hjoin : s.join = .error .timeoutError := by rw [State.join, hheld]
    exact ⟨hjoin, fun a ha => step_of_raises hjoin ha⟩
  · obtain ⟨ids, hids⟩ := expected_of_hit hhit
    obtain ⟨p, ⟨T', hT', hnone, chunk, hchunk, hfetched⟩, htokens, hset, hmem⟩ :=
      (predicts_reach h).expected T (hnext ▸ List.mem_cons_self) j hj ids hids
    exact ⟨T', hT', chunk, p, ids, hnone, hchunk, hfetched, htokens, hset, hids, hmem⟩

end Steps

/-! ## One table -/

def oneEngram : Tables Unit where
  engrams := [()]
  layerHashIndex _ := 0
  maxLookups _ := 1000
  verify := false
  corrupt := false

/-- Three tokens in the middle of a row. -/
def threeTokens : Source := ⟨[0, 3, 1, 5, 2, 9, 4], 2, 3⟩

/-- A read of the given IDs. -/
def reads (ids : List Int64) : Reading Unit := ⟨.ok ids, .ok true, .ok ()⟩

/-- A step of two tokens that predicts the three tokens; the wait for the IDs and the prefetch
end as given. -/
def predicting (idsReady : Except (Raised Unit) (List Int64)) (fetched : Except (Raised Unit) Unit) :
    Action Unit Unit :=
  .prepare 2 [((), 1, ⟨idsReady, .ok true, .ok ()⟩)] (some (threeTokens, [.sixTokens])) fun _ =>
    ⟨.ok (), fetched⟩

/-- The state after some steps. -/
def afterwards (as : List (Action Unit Unit)) : State Unit Unit := as.foldl oneEngram.step start

/-- The 48 IDs of two tokens. -/
def twoIds : List Int64 := .replicate 48 0

/-- The prefetch of a step in which no job raises is interrupted. -/
def interruptedPrefetch : State Unit Unit :=
  afterwards [predicting (.ok twoIds) (.error (.baseException ())), .run]

/-- A task in which no job raises has not ended when the next join gives up. -/
def slowTask : State Unit Unit := afterwards [predicting (.ok twoIds) (.ok ())]

/-- A job raises after the next join has given up on its task. -/
def lateError : State Unit Unit :=
  afterwards [predicting (.error (.exception ())) (.ok ()), .prepareDummy, .run]

/-- In the first two no job raises and the join does; in the last a job raises, and no
join raises its error. -/
theorem joins_raise_otherwise :
    (interruptedPrefetch.join = .error (.baseException ()) ∧
      interruptedPrefetch.ended.map (oneEngram.failures ·.jobs) = [[]]) ∧
    (slowTask.join = .error .timeoutError ∧
      slowTask.workQueue.map (oneEngram.failures ·.jobs) = [[]]) ∧
    lateError.join = .ok () ∧ lateError.ended.map (oneEngram.failures ·.jobs) = [[.exception ()]] :=
  ⟨⟨rfl, rfl⟩, ⟨rfl, rfl⟩, rfl, rfl⟩

/-- The IDs of the three tokens. -/
def threeIds : List Int64 :=
  (Geometry.sixTokens.prefetchIds threeTokens.row threeTokens.start threeTokens.count).getD []

theorem reach_afterwards (as : List (Action Unit Unit)) :
    oneEngram.system.Reach System.Any (afterwards as) := by
  induction as using List.reverseRecOn with
  | nil => exact .start rfl
  | append_singleton as a ih =>
    refine ih.next (a := a) trivial ?_
    rw [afterwards, afterwards, List.foldl_concat]
    rfl

/-- The step after takes the rows of the three tokens as they are. -/
theorem reader_contained_hit :
    ∃ s : State Unit Unit, oneEngram.system.Reach System.Any s ∧
      (oneEngram.step s .run).log.filterMap released = [((), 2)] ∧
      ∃ T chunk p, T ∈ s.ended ∧ oneEngram.Fetched chunk T.fetching p ∧ p.tokens = 3 ∧
        p.rowSet = true ∧ p.ids ≠ [] := by
  have hreach := reach_afterwards [predicting (.ok twoIds) (.ok ()), .run,
    .prepare 3 [((), 2, reads threeIds)] none fun _ => ⟨.ok (), .ok ()⟩]
  obtain ⟨hcontained, -, hhits⟩ := reader_contained hreach rfl
  obtain ⟨T, hT, chunk, p, ids, -, -, hfetched, htokens, hset, -, hmem⟩ :=
    hhits _ List.mem_cons_self (by decide +kernel)
  exact ⟨_, hreach, hcontained.released, T, chunk, p, hT, hfetched, htokens, hset,
    List.ne_nil_of_mem hmem⟩

end LlmkubeRuntimes.Engram.Task.Tables
