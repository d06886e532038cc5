import LlmkubeRuntimes.Engram.Invariant

/-!
# Every step keeps the invariant

One lemma for each action, and `inv_reach` for whole runs.
-/

namespace LlmkubeRuntimes.Engram

open LlmkubeRuntimes.Lib

variable {τ ι ρ : Type}

theorem Phased.staging {todo : List τ} {rowSet : RowSet} {ids : τ → List ι}
    {predicted : Option (Pending τ ι)} {prefetch : Option Prefetch} {reader : Reader τ ι}
    {jobs : List (Job τ ι)} {pending : Option (Pending τ ι)}
    (h : Phased (.staging todo rowSet ids predicted prefetch) reader jobs pending) :
    (∃ raised, reader = .idle raised) ∧ pending = none ∧ (todo ++ jobs.map Job.table).Nodup := by
  cases reader with
  | idle raised => exact ⟨⟨raised, rfl⟩, h⟩
  | reading => exact h.elim
  | fetching => exact h.elim

/-- A reader at work leaves no prediction pending. -/
theorem Phased.busy {main : Main τ ι} {reader : Reader τ ι} {jobs : List (Job τ ι)}
    {pending : Option (Pending τ ι)} (h : Phased main reader jobs pending)
    (hreader : ∀ raised, reader ≠ .idle raised) :
    pending = none ∧ ∀ todo rowSet ids p prefetch, main ≠ .staging todo rowSet ids p prefetch := by
  unfold Phased at h
  split at h <;> simp_all

theorem Phased.fetching {main : Main τ ι} {prefetch : Prefetch} {todo : List τ}
    {expected : List (τ × List ι)} {current : Option (List ι × Nat)} {jobs : List (Job τ ι)}
    {pending : Option (Pending τ ι)}
    (h : Phased main (.fetching prefetch todo expected current) jobs pending) :
    jobs = [] ∧ pending = none := by
  cases main with
  | ready => exact h
  | staging => exact h.elim

/-- While the main thread does not stage, it rests. -/
theorem phased_rest {main : Main τ ι} {reader : Reader τ ι} {jobs : List (Job τ ι)}
    {pending : Option (Pending τ ι)}
    (hmain : ∀ todo rowSet ids p prefetch, main ≠ .staging todo rowSet ids p prefetch)
    (h : Phased .ready reader jobs pending) : Phased main reader jobs pending := by
  cases main with
  | ready => exact h
  | staging => exact absurd rfl (hmain _ _ _ _ _)

/-- What the reader's task still has changes nothing while the main thread does not stage. -/
theorem Alternates.rest {main : Main τ ι} {workQueue : List (WorkItem τ ι)}
    {jobs staged : List (Job τ ι)} (h : Alternates main workQueue jobs staged)
    (hmain : ∀ todo rowSet ids p prefetch, main ≠ .staging todo rowSet ids p prefetch)
    (jobs' : List (Job τ ι)) : Alternates main workQueue jobs' staged := by
  cases main with
  | ready => exact h
  | staging => exact absurd rfl (hmain _ _ _ _ _)

/-- While the main thread does not stage, nothing is staged. -/
theorem Alternates.staged_nil {main : Main τ ι} {workQueue : List (WorkItem τ ι)}
    {jobs staged : List (Job τ ι)} (h : Alternates main workQueue jobs staged)
    (hmain : ∀ todo rowSet ids p prefetch, main ≠ .staging todo rowSet ids p prefetch) :
    staged = [] := by
  cases main with
  | ready => exact h.2
  | staging => exact absurd rfl (hmain _ _ _ _ _)

namespace Engrams

variable [DecidableEq τ] {E : Engrams τ ι ρ} {s t : State τ ι ρ}

/-! ## The main thread -/

omit [DecidableEq τ] in
theorem resting_iff : s.resting = true ↔ ∃ raised, s.reader = .idle raised := by
  unfold State.resting
  cases s.reader <;> simp

omit [DecidableEq τ] in
/-- The join passes, or raises, with the future dropped. -/
theorem join_eq_some {raised : Bool} (h : s.join = some (t, raised)) :
    t = { s with future := false } ∧ (s.future = true → s.resting = true) ∧
      (s.future = false → raised = false) := by
  unfold State.join at h
  split at h
  · rename_i hfuture
    split at h
    · rename_i hreader
      cases h
      exact ⟨rfl, fun _ => resting_iff.2 ⟨_, hreader⟩, by simp [hfuture]⟩
    · cases h
  · rename_i hfuture
    cases h
    rw [Bool.not_eq_true] at hfuture
    obtain ⟨⟩ := s
    exact ⟨by simp_all, by simp_all, fun _ => rfl⟩

theorem Inv.unread_nil (h : E.Inv s) (hmain : s.main = .ready) (hreader : s.resting = true) :
    s.unread = [] := by
  obtain ⟨raised, hreader⟩ := resting_iff.1 hreader
  have := h.phased
  rw [hmain, hreader] at this
  exact this

theorem Inv.staging {todo : List τ} {rowSet : RowSet} {ids : τ → List ι}
    {predicted : Option (Pending τ ι)} {prefetch : Option Prefetch} (h : E.Inv s)
    (hmain : s.main = .staging todo rowSet ids predicted prefetch) :
    (∃ raised, s.reader = .idle raised) ∧ s.pending = none ∧
      (todo ++ s.unread.map Job.table).Nodup := by
  have hphased := h.phased
  rw [hmain] at hphased
  exact hphased.staging

theorem Inv.prefetching {prefetch : Prefetch} {todo : List τ} {expected : List (τ × List ι)}
    {current : Option (List ι × Nat)} (h : E.Inv s)
    (hreader : s.reader = .fetching prefetch todo expected current) :
    s.unread = [] ∧ s.pending = none := by
  have hphased := h.phased
  rw [hreader] at hphased
  exact hphased.fetching

/-- Whether the future is held plays no part. -/
theorem Inv.future (h : E.Inv s) (future : Bool) : E.Inv { s with future } := { h with }

theorem inv_prepare {tokens : Nat} {ids : τ → List ι} {next : Option Nat} (h : E.Inv s)
    (hrests : s.future = true ∨ s.resting = true) (hs : E.prepare s tokens ids next = some t) :
    E.Inv t := by
  unfold prepare at hs
  split at hs
  · rename_i hmain hjoin
    cases hs
    obtain ⟨rfl, -⟩ := join_eq_some hjoin
    exact h.future false
  · rename_i hmain hjoin
    obtain ⟨rfl, hheld, -⟩ := join_eq_some hjoin
    have hresting := hrests.elim hheld id
    have hunread := h.unread_nil hmain hresting
    obtain ⟨raised, hreader⟩ := resting_iff.1 hresting
    obtain ⟨hjobs, -⟩ := List.append_eq_nil_iff.1 hunread
    split at hs
    · cases hs
      exact { h with
        phased := by
          show Phased _ s.reader s.unread none
          rw [hreader, hunread]
          simpa [Phased] using E.nodup
        alternates := ⟨h.alternates.1, hjobs⟩
        expected := by
          refine ⟨?_, ?_, by simp⟩
          · show ∀ u ∈ s.unread, _
            simp [hunread]
          intro todo rowSet ids' p prefetch hstaging
          simp only [Main.staging.injEq] at hstaging
          obtain ⟨-, hrowSet, -, hp, -⟩ := hstaging
          rw [hp] at hrowSet
          exact ⟨hrowSet.symm, h.expected.pending p (Option.filter_eq_some_iff.1 hp).1⟩ }
    · cases hs
  · cases hs

/-- A dummy step keeps the invariant beside any task. -/
theorem inv_prepareDummy (h : E.Inv s) (hs : prepareDummy s = some t) : E.Inv t := by
  unfold prepareDummy at hs
  split at hs
  · rename_i hmain hjoin
    cases hs
    obtain ⟨rfl, -⟩ := join_eq_some hjoin
    exact h.future false
  · rename_i hmain hjoin
    cases hs
    obtain ⟨rfl, -⟩ := join_eq_some hjoin
    have hphased := h.phased
    rw [hmain] at hphased
    exact { h with
      phased := by
        show Phased s.main s.reader s.unread none
        rw [hmain]
        cases hreader : s.reader with
        | idle => rwa [hreader] at hphased
        | reading => rfl
        | fetching => exact ⟨(h.prefetching hreader).1, rfl⟩
      expected := ⟨h.expected.jobs, h.expected.staging, by simp⟩ }
  · cases hs

theorem inv_joinTimesOut (h : E.Inv s) (hs : joinTimesOut s = some t) : E.Inv t := by
  unfold joinTimesOut at hs
  split at hs
  · split at hs
    · cases hs
      exact h.future false
    · cases hs
  · cases hs

theorem inv_submit (h : E.Inv s) (hs : submit s = some t) : E.Inv t := by
  unfold submit at hs
  split at hs
  · rename_i rowSet ids pending prefetch hmain
    obtain ⟨⟨raised, hreader⟩, hpending, -⟩ := h.staging hmain
    obtain ⟨hqueue, hjobs⟩ := h.alternates
    rw [hmain] at hjobs
    have hunread : s.unread = s.staged := by rw [State.unread, hjobs, List.nil_append]
    dsimp only at hs
    rw [if_pos (resting_iff.2 ⟨raised, hreader⟩)] at hs
    cases hs
    have hall : State.unread { s with
        main := .ready
        future := true
        staged := []
        jobs := s.staged
        reader := .reading none false prefetch } = s.unread := by
      rw [hunread]
      exact List.append_nil _
    exact {
      queued := h.queued
      unread := by rw [hall]; exact h.unread
      gated := by rw [hall]; exact h.gated
      copied := by rw [hall]; exact h.copied
      phased := hpending
      alternates := ⟨hqueue, rfl⟩
      served := by rw [hall]; exact h.served
      expected := by
        rw [hall]
        refine ⟨fun u hu ids hids _ => h.expected.jobs u hu ids hids (by simp [hreader]), by simp, ?_⟩
        exact h.expected.pending
      reading := by simp [Reading]
      fetching := by simp [Fetching] }
  · cases hs

theorem waits_newJob {used : Place τ → Bool} {done : Place τ → Event}
    {copyQueue rowsQueue : List (Job τ ι)} {idsReady : τ → Event}
    (h : Queued idsReady done used copyQueue rowsQueue) (place : Place τ) :
    (if used place then some (done place).recorded else none).getD 0 = (done place).recorded := by
  by_cases hused : used place
  · rw [if_pos hused]
    rfl
  · rw [if_neg hused, h.fresh place (by simpa using hused)]
    rfl

theorem inv_stage (h : E.Inv s) (hs : stage s = some t) : E.Inv t := by
  unfold stage at hs
  split at hs
  · rename_i table todo rowSet ids predicted prefetch hmain
    cases hs
    obtain ⟨⟨raised, hreader⟩, hpending, hnodup⟩ := h.staging hmain
    obtain ⟨hqueue, hjobs⟩ := h.alternates
    rw [List.cons_append, List.nodup_cons, List.mem_append, not_or] at hnodup
    obtain ⟨⟨htodo, hfresh⟩, hnodup⟩ := hnodup
    have hwaits := waits_newJob h.queued (rowSet, table)
    set job := s.newJob table rowSet (ids table) predicted
    have hpush : s.jobs ++ (s.staged ++ [job]) = s.unread ++ [job] := (List.append_assoc _ _ _).symm
    constructor <;> simp only [State.unread, hpush]
    case queued => exact h.queued.push rfl rfl
    case unread => exact h.unread.push hfresh rfl rfl (congrArg (· + 1) hwaits) rfl
    case gated => exact h.gated.push h.queued rfl
    case copied => exact h.copied.push hfresh
    case phased =>
      rw [hreader]
      refine ⟨hpending, ?_⟩
      rw [List.map_append, List.map_singleton, ← List.append_assoc, ← List.concat_eq_append]
      exact hnodup.concat fun hmem => (List.mem_append.1 hmem).elim htodo hfresh
    case alternates =>
      rw [hmain] at hjobs
      exact ⟨hqueue, hjobs⟩
    case served =>
      intro d hd hnot
      rw [List.mem_append, not_or] at hnot
      rcases List.mem_append.1 hd with hd | hd
      · exact h.served d hd hnot.1
      · exact absurd hd hnot.2
    case expected =>
      refine ⟨?_, ?_, h.expected.pending⟩
      · intro u hu ids' hids _
        rcases List.mem_append.1 hu with hu | hu
        · exact h.expected.jobs u hu ids' hids (by simp [hreader])
        · rw [List.mem_singleton.1 hu] at hids ⊢
          obtain ⟨p, rfl, hlookup⟩ := Option.bind_eq_some_iff.1 hids
          obtain ⟨rfl, hrows⟩ := h.expected.staging _ _ _ _ _ hmain
          exact hrows _ (mem_of_lookup hlookup)
      · intro todo' rowSet' ids' p prefetch' heq
        cases heq
        exact h.expected.staging _ _ _ _ _ hmain
    case reading => simp [Reading, hreader]
    case fetching => simp [Fetching, hreader]
  · cases hs

/-! ## The streams -/

/-- Past the gate, the head of the queue is no job that is still read. -/
theorem gated_of_reached {job : Job τ ι} {queue : List (Job τ ι)} {decoding : Decoding}
    (h : E.Inv s) (hqueue : s.rowsQueue = job :: queue)
    (hreached : reached (s.gate job.table) job.sequence = true) :
    Gated s.rowsQueue s.unread decoding := by
  refine ⟨fun job' queue' heq _ hjob => ?_, fun hnil => ?_⟩
  · rw [hqueue, List.cons.injEq] at heq
    obtain ⟨rfl, -⟩ := heq
    have hclosed := h.unread.closed job hjob
    rw [← h.unread.sequence job hjob] at hclosed
    rw [not_reached hclosed] at hreached
    cases hreached
  · rw [hqueue] at hnil
    cases hnil

/-- The decode at the head of the queue ends. -/
theorem inv_decoded {job : Job τ ι} {queue : List (Job τ ι)} (h : E.Inv s)
    (hqueue : s.rowsQueue = job :: queue) (hrunning : s.decoding = .running) :
    E.Inv { s with
      rowsQueue := queue
      decoding := .ids
      done := Function.update s.done job.place (s.done job.place).complete } := by
  have hjob : job ∉ s.unread := h.gated.running job queue hqueue hrunning
  have hsub : ∀ d ∈ queue, d ∈ s.rowsQueue := fun d hd => hqueue ▸ List.mem_cons_of_mem job hd
  have hqueued := h.queued
  rw [hqueue] at hqueued
  have halone : ∀ u, Alone s.rowsQueue u → Alone queue u := fun u hu d hd =>
    hu d (hsub d hd)
  exact {
    queued := ⟨hqueued.copy, hqueued.rows.pop, fun place hplace => by
      rw [recorded_complete]
      exact hqueued.fresh place hplace⟩
    unread := { h.unread with
      queued := fun u hu => by
        have hu' := h.unread.queued u hu
        rw [hqueue] at hu'
        rcases List.mem_cons.1 hu' with rfl | hu'
        · exact absurd hu hjob
        · exact hu'
      lastDone := fun u hu => by
        rw [recorded_complete]
        exact h.unread.lastDone u hu }
    gated := ⟨by simp, by simp⟩
    copied := { h.copied with
      alone := fun u hu => (h.copied.alone u hu).imp id (halone u) }
    phased := h.phased
    alternates := h.alternates
    served := fun d hd => h.served d (hsub d hd)
    expected := h.expected
    reading := fun slot failure prefetch u rest hreader hjobs => by
      obtain ⟨hrows, hids, hu⟩ := h.reading slot failure prefetch u rest hreader hjobs
      exact ⟨hrows, hids, halone u hu⟩
    fetching := fun prefetch todo expected current hreader => by
      obtain ⟨hnodup, hrows, hcurrent⟩ := h.fetching prefetch todo expected current hreader
      refine ⟨hnodup, hrows, fun table rest ids slot htodo hslot => ?_⟩
      obtain ⟨hholds, hfree⟩ := hcurrent table rest ids slot htodo hslot
      exact ⟨hholds, fun d hd => hfree d (hsub d hd)⟩ }

theorem inv_sideStream (h : E.Inv s) (hs : sideStream s = some t) : E.Inv t := by
  unfold sideStream at hs
  split at hs
  · cases hs
  · rename_i job queue hqueue
    split at hs
    · split at hs
      · cases hs
        exact { h with
          gated := by
            refine ⟨by simp, fun hnil => ?_⟩
            rw [hqueue] at hnil
            cases hnil }
      · cases hs
    · split at hs
      · rename_i hreached
        cases hs
        exact { h with gated := gated_of_reached (s := s) h hqueue hreached }
      · cases hs
    · rename_i hrunning
      cases hs
      exact inv_decoded h hqueue hrunning

/-- Once the wait on the staging stream is over, the decode of an unread job is the only one
on its planes. -/
theorem alone_of_passed {job : Job τ ι} (h : E.Inv s) (hjob : job ∈ s.unread)
    (hpassed : job.waits.all (s.done job.place).passed) : Alone s.rowsQueue job := by
  refine fun d hd hplace => h.queued.rows.eq_of_passed ?_ hd (h.unread.queued job hjob) hplace rfl
  have hwaits := h.unread.waits job hjob
  rw [h.unread.lastDone job hjob] at hwaits
  cases hwait : job.waits with
  | none =>
    simp only [hwait, Option.getD_none] at hwaits
    omega
  | some n =>
    simp only [hwait, Option.getD_some] at hwaits
    simp only [hwait, Option.all_some, Event.passed, decide_eq_true_eq] at hpassed
    omega

theorem inv_stagingStream (h : E.Inv s) (hs : stagingStream s = some t) : E.Inv t := by
  unfold stagingStream at hs
  split at hs
  · cases hs
  · rename_i job queue hqueue
    have hcopied := h.copied
    rw [hqueue] at hcopied
    split at hs
    · rename_i hcopying
      rw [hcopying] at hcopied
      split at hs
      · rename_i hpassed
        cases hs
        have hstart := hcopied.start fun hjob => alone_of_passed h hjob hpassed
        exact { h with copied := hqueue ▸ hstart }
      · cases hs
    · rename_i slot hcopying
      rw [hcopying] at hcopied
      split at hs
      · rename_i id hid
        cases hs
        exact { h with copied := hqueue ▸ hcopied.write hid }
      · rename_i hlen
        cases hs
        have hqueued := h.queued
        rw [hqueue] at hqueued
        exact { h with
          queued := ⟨hqueued.copy.pop, hqueued.rows, hqueued.fresh⟩
          unread := { h.unread with
            lastIds := fun u hu => by
              rw [recorded_complete]
              exact h.unread.lastIds u hu }
          copied := hcopied.complete (List.getElem?_eq_none_iff.1 hlen) fun hjob =>
            hqueued.copy.of_head (h.unread.lastIds job hjob)
          reading := fun slot failure prefetch u rest hreader hjobs => by
            obtain ⟨hrows, hids, hu⟩ := h.reading slot failure prefetch u rest hreader hjobs
            exact ⟨hrows, fun e he => hids e (hqueue ▸ List.mem_cons_of_mem job he), hu⟩ }

/-! ## The reader -/

omit [DecidableEq τ] in
theorem unread_cons {job : Job τ ι} {jobs : List (Job τ ι)} (hjobs : s.jobs = job :: jobs) :
    s.unread = job :: (jobs ++ s.staged) := by
  rw [State.unread, hjobs]
  rfl

/-- A task that has finished its jobs leaves none unread. -/
theorem Inv.unread_done (h : E.Inv s) (hreader : ∀ raised, s.reader ≠ .idle raised)
    (hjobs : s.jobs = []) : s.unread = [] := by
  rw [State.unread, hjobs, h.alternates.staged_nil (h.phased.busy hreader).2]
  rfl

/-- Finishing the first job keeps the invariant if its decode is served or its read has
raised. -/
theorem inv_release {slot : Option Nat} {failure failure' : Bool}
    {prefetch prefetch' : Option Prefetch} {job : Job τ ι} {jobs : List (Job τ ι)}
    {failed : List (Nat × τ)} (h : E.Inv s)
    (hreader : s.reader = .reading slot failure prefetch) (hjobs : s.jobs = job :: jobs)
    (hfailed : ∀ x ∈ s.failed, x ∈ failed)
    (hserved : (job.step, job.table) ∈ failed ∨ E.Holds s.planes job.place job.ids job.ids.length) :
    E.Inv { s.release job jobs failure' prefetch' with failed := failed } := by
  have hcons := unread_cons hjobs
  have htail : ∀ u ∈ jobs ++ s.staged, u ∈ s.unread := fun u hu =>
    hcons ▸ List.mem_cons_of_mem job hu
  have hunread := h.unread
  rw [hcons] at hunread
  have hhead : ∀ u ∈ jobs ++ s.staged, u ≠ job := fun u hu heq => by
    have hnodup := hunread.nodup
    rw [List.map_cons, List.nodup_cons] at hnodup
    exact hnodup.1 (heq ▸ List.mem_map_of_mem hu)
  obtain ⟨hpending, hmain⟩ := h.phased.busy (by simp [hreader])
  exact {
    queued := h.queued
    unread := hunread.pop
    gated := ⟨fun d queue heq hrunning hd => h.gated.running d queue heq hrunning (htail d hd),
      h.gated.empty⟩
    copied := { h.copied with
      alone := fun u hu => h.copied.alone u (htail u hu)
      ids := fun u hu => h.copied.ids u (htail u hu) }
    phased := phased_rest hmain hpending
    alternates := h.alternates.rest hmain jobs
    served := fun d hd hnot => by
      by_cases heq : d = job
      · rw [heq]
        exact hserved
      · refine (h.served d hd ?_).imp_left (hfailed _)
        rw [hcons, List.mem_cons, not_or]
        exact ⟨heq, hnot⟩
    expected := {
      jobs := fun u hu ids hids _ => h.expected.jobs u (htail u hu) ids hids fun _ _ _ _ hhd => by
        rw [hcons, List.head?_cons, Option.some.injEq] at hhd
        exact hhead u hu hhd.symm
      staging := h.expected.staging
      pending := h.expected.pending }
    reading := by simp [Reading, State.release]
    fetching := by simp [Fetching, State.release] }

omit [DecidableEq τ] in
theorem finish_eq {raised : Bool} (h : s.workQueue = []) :
    s.finish raised = { s with reader := .idle raised } := by
  rw [State.finish, h]

/-- The reader comes to rest: no task waits. -/
theorem inv_finish {raised : Bool} (h : E.Inv s) (hreader : ∀ raised, s.reader ≠ .idle raised)
    (hunread : s.unread = [])
    {pending : Option (Pending τ ι)} (hpending : ∀ p, pending = some p →
      ∀ x ∈ p.ids, E.Holds s.planes (p.rowSet, x.1) x.2 x.2.length) :
    E.Inv ({ s with pending }.finish raised) := by
  obtain ⟨-, hmain⟩ := h.phased.busy hreader
  rw [finish_eq (s := { s with pending }) h.alternates.1]
  exact { h with
    phased := phased_rest hmain hunread
    expected := ⟨fun u hu => absurd (hunread ▸ hu : u ∈ []) List.not_mem_nil,
      fun _ _ _ _ _ heq => absurd heq (hmain _ _ _ _ _), hpending⟩
    reading := by simp [Reading]
    fetching := by simp [Fetching] }

theorem inv_readRaises (h : E.Inv s) (hs : readRaises s = some t) : E.Inv t := by
  unfold readRaises at hs
  split at hs
  · rename_i hreader hjobs
    cases hs
    exact inv_release h hreader hjobs (fun x hx => List.mem_cons_of_mem _ hx)
      (.inl List.mem_cons_self)
  · cases hs

/-- The reader goes on prefetching. -/
theorem inv_fetching {prefetch : Prefetch} {todo todo' : List τ}
    {expected expected' : List (τ × List ι)} {current current' : Option (List ι × Nat)}
    {planes : Place τ → Nat → ρ} (h : E.Inv s)
    (hreader : s.reader = .fetching prefetch todo expected current)
    (hserved : E.Served planes s.failed s.rowsQueue s.unread)
    (hfetching : E.Fetching planes (.fetching prefetch todo' expected' current') s.rowsQueue) :
    E.Inv { s with planes := planes, reader := .fetching prefetch todo' expected' current' } := by
  obtain ⟨-, hmain⟩ := h.phased.busy (by simp [hreader])
  obtain ⟨hunread, hpending⟩ := h.prefetching hreader
  exact { h with
    phased := phased_rest hmain ⟨hunread, hpending⟩
    served := hserved
    expected := ⟨fun u hu => absurd (hunread ▸ hu : u ∈ []) List.not_mem_nil, fun _ _ _ _ _ heq => absurd heq (hmain _ _ _ _ _),
      by simp [hpending]⟩
    reading := by simp [Reading]
    fetching := hfetching }

theorem inv_prefetchRows {ids : List ι} (h : E.Inv s) (hs : prefetchRows s ids = some t) :
    E.Inv t := by
  unfold prefetchRows at hs
  split at hs
  · rename_i prefetch table todo expected hreader
    dsimp only at hs
    split at hs
    · rename_i hfree
      cases hs
      obtain ⟨hnodup, hrows, -⟩ := h.fetching _ _ _ _ hreader
      -- no decode on the set is queued: its event says so, or it was never used
      have hunused : ∀ d ∈ s.rowsQueue, d.place ≠ (prefetch.rowSet, table) := by
        intro d hd hplace
        by_cases hused : s.used (prefetch.rowSet, table)
        · exact h.queued.rows.of_query (hfree.2 hused) d hd hplace
        · have hrecord := h.queued.fresh _ (by simpa using hused)
          have := h.queued.rows.mem hd
          rw [hplace] at this
          omega
      refine inv_fetching h hreader h.served ?_
      intro prefetch' todo' expected' current heq
      cases heq
      refine ⟨hnodup, hrows, fun table' rest ids' slot htodo hcurrent => ?_⟩
      cases htodo
      cases hcurrent
      exact ⟨fun i id hi _ => by omega, hunused⟩
    · cases hs
  · cases hs

theorem inv_prefetchRaises {caught : Bool} (h : E.Inv s) (hs : prefetchRaises s caught = some t) :
    E.Inv t := by
  unfold prefetchRaises at hs
  split at hs
  · rename_i hreader
    have hunread := (h.prefetching hreader).1
    split at hs
    · cases hs
      exact inv_finish h (by simp [hreader]) hunread (by simp)
    · cases hs
      exact inv_finish h (by simp [hreader]) hunread h.expected.pending
  · cases hs

theorem inv_prefetchReturns (h : E.Inv s) (hs : prefetchReturns s = some t) : E.Inv t := by
  unfold prefetchReturns at hs
  split at hs
  · rename_i hreader
    cases hs
    exact inv_finish h (by simp [hreader]) (h.prefetching hreader).1 h.expected.pending
  · cases hs

/-- A row written for the first job leaves the rows of every other decode and of every other
job alone. -/
theorem inv_write {slot : Nat} {failure : Bool} {prefetch : Option Prefetch} {job : Job τ ι}
    {jobs : List (Job τ ι)} (h : E.Inv s)
    (hreader : s.reader = .reading (some slot) failure prefetch) (hjobs : s.jobs = job :: jobs)
    (hslot : slot < job.ids.length) :
    E.Inv { s.write job.place slot (E.row job.table (s.idsHost job.table slot)) with
      reader := .reading (some (slot + 1)) failure prefetch } := by
  obtain ⟨hrows, hids, halone⟩ := h.reading _ _ _ _ _ hreader hjobs
  obtain ⟨hpending, hmain⟩ := h.phased.busy (by simp [hreader])
  have hcons := unread_cons hjobs
  have hjob : job ∈ s.unread := hcons ▸ List.mem_cons_self
  -- the copy of the job's IDs is over, so the slot holds the ID the step has there
  obtain ⟨id, hid⟩ : ∃ id, job.ids[slot]? = some id := ⟨_, List.getElem?_eq_getElem hslot⟩
  have hhost : s.idsHost job.table slot = id := by
    rcases h.copied.ids job hjob with hqueued | ⟨-, hcopied⟩
    · exact absurd rfl (hids job hqueued)
    · exact hcopied slot id hslot hid
  rw [hhost]
  have hothers : ∀ u ∈ s.unread, u ≠ job → u.place ≠ job.place := by
    intro u hu hne hplace
    have hnodup := h.unread.nodup
    rw [hcons, List.map_cons, List.nodup_cons] at hnodup
    rw [hcons] at hu
    rcases List.mem_cons.1 hu with heq | hu
    · exact hne heq
    · have htable : u.table = job.table := congrArg Prod.snd hplace
      exact hnodup.1 (htable ▸ List.mem_map_of_mem hu)
  exact { h with
    phased := phased_rest hmain hpending
    served := fun d hd hnot => (h.served d hd hnot).imp_right fun hholds =>
      hholds.update_of_ne fun hplace => hnot (halone d hd hplace ▸ hjob)
    expected := {
      jobs := fun u hu ids hexpected hcurrent => by
        have hne : u ≠ job := by
          rintro rfl
          exact hcurrent _ _ _ rfl (congrArg List.head? hcons)
        refine (h.expected.jobs u hu ids hexpected fun _ _ _ _ hhead => ?_).update_of_ne
          (hothers u hu hne)
        rw [hcons, List.head?_cons, Option.some.injEq] at hhead
        exact hne hhead.symm
      staging := fun _ _ _ _ _ heq => absurd heq (hmain _ _ _ _ _)
      pending := fun p hp => by
        rw [State.write, hpending] at hp
        cases hp }
    reading := fun slot' failure' prefetch' u rest heq hjobs' => by
      cases heq
      rw [State.write, hjobs, List.cons.injEq] at hjobs'
      obtain ⟨rfl, -⟩ := hjobs'
      exact ⟨hrows.write hid, hids, halone⟩
    fetching := by simp [Fetching] }

/-- A prefetched row leaves the rows of every queued decode alone. -/
theorem inv_prefetched {prefetch : Prefetch} {table : τ} {todo : List τ}
    {expected : List (τ × List ι)} {ids : List ι} {slot : Nat} {id : ι} (h : E.Inv s)
    (hreader : s.reader = .fetching prefetch (table :: todo) expected (some (ids, slot)))
    (hid : ids[slot]? = some id) :
    E.Inv { s.write (prefetch.rowSet, table) slot (E.row table id) with
      reader := .fetching prefetch (table :: todo) expected (some (ids, slot + 1)) } := by
  obtain ⟨hnodup, hrows, hcurrent⟩ := h.fetching _ _ _ _ hreader
  obtain ⟨hholds, hfree⟩ := hcurrent _ _ _ _ rfl rfl
  refine inv_fetching (s := s) h hreader ?_ ?_
  · exact fun d hd hnot => (h.served d hd hnot).imp_right fun hheld =>
      hheld.update_of_ne (hfree d hd)
  · intro prefetch' todo' expected' current' heq
    cases heq
    refine ⟨hnodup, fun x hx => (hrows x hx).update_of_ne fun hplace => ?_, ?_⟩
    · rw [List.cons_append, List.nodup_cons] at hnodup
      have htable : x.1 = table := congrArg Prod.snd hplace
      exact hnodup.1 (List.mem_append_right _ (htable ▸ List.mem_map_of_mem hx))
    · intro table' rest ids' slot' htodo hslot
      cases htodo
      cases hslot
      exact ⟨hholds.write hid, hfree⟩

/-- The reader has read every job and begins to prefetch. -/
theorem inv_startFetching {slot : Option Nat} {failure : Bool} {prefetch : Option Prefetch}
    {next : Prefetch} (h : E.Inv s) (hreader : s.reader = .reading slot failure prefetch)
    (hunread : s.unread = []) : E.Inv { s with reader := .fetching next E.tables [] none } := by
  obtain ⟨hnone, hmain⟩ := h.phased.busy (by simp [hreader])
  exact { h with
    phased := phased_rest hmain ⟨hunread, hnone⟩
    expected := ⟨fun u hu => absurd (hunread ▸ hu : u ∈ []) List.not_mem_nil, h.expected.staging,
      h.expected.pending⟩
    reading := by simp [Reading]
    fetching := by
      intro prefetch todo expected current heq
      cases heq
      exact ⟨by simpa using E.nodup, by simp, by simp⟩ }

/-- The IDs of the first job are there and its read begins. -/
theorem inv_startReading {failure : Bool} {prefetch : Option Prefetch} {job : Job τ ι}
    {jobs : List (Job τ ι)} (h : E.Inv s) (hreader : s.reader = .reading none failure prefetch)
    (hjobs : s.jobs = job :: jobs) (hids : ∀ e ∈ s.copyQueue, e.table ≠ job.table) :
    E.Inv { s with reader := .reading (some 0) failure prefetch } := by
  obtain ⟨hnone, hmain⟩ := h.phased.busy (by simp [hreader])
  have halone : Alone s.rowsQueue job := by
    refine (h.copied.alone job (unread_cons hjobs ▸ List.mem_cons_self)).resolve_left
      fun hmem => ?_
    refine hids job ?_ rfl
    cases hcopying : s.copying with
    | none => rwa [hcopying] at hmem
    | some slot =>
      rw [hcopying] at hmem
      exact List.mem_of_mem_tail hmem
  exact { h with
    phased := phased_rest hmain hnone
    expected := {
      jobs := fun u hu ids hexpected _ => h.expected.jobs u hu ids hexpected (by simp [hreader])
      staging := h.expected.staging
      pending := h.expected.pending }
    reading := fun slot failure' prefetch' u rest heq hjobs' => by
      cases heq
      rw [hjobs, List.cons.injEq] at hjobs'
      obtain ⟨rfl, -⟩ := hjobs'
      exact ⟨fun i id hi _ => by omega, hids, halone⟩
    fetching := by simp [Fetching] }

/-- The rows of a table are prefetched and its IDs are noted. -/
theorem inv_expect {prefetch : Prefetch} {table : τ} {todo : List τ} {expected : List (τ × List ι)}
    {ids : List ι} {slot : Nat} (h : E.Inv s)
    (hreader : s.reader = .fetching prefetch (table :: todo) expected (some (ids, slot)))
    (hlen : ids.length ≤ slot) :
    E.Inv { s with reader := .fetching prefetch todo (expected ++ [(table, ids)]) none } := by
  obtain ⟨hnodup, hrows, hcurrent⟩ := h.fetching _ _ _ _ hreader
  obtain ⟨hholds, -⟩ := hcurrent _ _ _ _ rfl rfl
  refine inv_fetching h hreader h.served fun prefetch' todo' expected' current' heq => ?_
  cases heq
  refine ⟨?_, forall_mem_push hrows (hholds.all hlen), by simp⟩
  rw [List.map_append, ← List.append_assoc]
  exact (List.perm_append_singleton table _).nodup_iff.2 hnodup

omit [DecidableEq τ] in
@[simp]
theorem unread_start (idsHost : τ → Nat → ι) (planes : Place τ → Nat → ρ) :
    (start idsHost planes).unread = [] := rfl

/-- Before the first step no decode is queued and no prediction is pending. -/
theorem inv_start (idsHost : τ → Nat → ι) (planes : Place τ → Nat → ρ) :
    E.Inv (start idsHost planes) where
  queued := ⟨fun _ => .new, fun _ => .new, fun _ _ => rfl⟩
  unread := ⟨List.nodup_nil, by simp, by simp, by simp, by simp, by simp, by simp, fun _ _ => rfl⟩
  gated := ⟨by simp, fun _ => rfl⟩
  copied := ⟨by simp, by simp, by simp [start], fun _ => rfl⟩
  phased := rfl
  alternates := ⟨rfl, rfl⟩
  served := by simp [Served, start]
  expected := ⟨by simp, by simp [start], by simp [start]⟩
  reading := by simp [Reading, start]
  fetching := by simp [Fetching, start]

variable [DecidableEq ι] [DecidableEq ρ]

/-- Taking the prefetched rows is right: they are those of the IDs the step has. -/
theorem holds_of_takes {failure : Bool} {prefetch : Option Prefetch} {job : Job τ ι}
    {jobs : List (Job τ ι)} (h : E.Inv s) (hreader : s.reader = .reading none failure prefetch)
    (hjobs : s.jobs = job :: jobs) (hcopied : HostIds s.idsHost job job.ids.length)
    (htakes : E.takes s job = true) : E.Holds s.planes job.place job.ids job.ids.length := by
  unfold takes at htakes
  split at htakes
  · cases htakes
  · rename_i expected hexpected
    simp only [decide_eq_true_eq] at htakes
    obtain ⟨hlen, heq, -⟩ := htakes
    have hrows := h.expected.jobs job (unread_cons hjobs ▸ List.mem_cons_self) expected hexpected
      (by simp [hreader])
    intro i id hi hid
    refine hrows i id (by omega) ?_
    rw [heq, List.getElem?_map, List.getElem?_range hi, Option.map_some, hcopied i id hi hid]

theorem inv_reader (h : E.Inv s) (hs : E.reader s = some t) : E.Inv t := by
  unfold reader at hs
  split at hs
  · cases hs
  · rename_i slot failure prefetch hreader
    split at hs
    · rename_i hjobs
      have hbusy : ∀ raised, s.reader ≠ .idle raised := by simp [hreader]
      have hunread := h.unread_done hbusy hjobs
      split at hs
      · cases hs
        exact inv_finish h hbusy hunread h.expected.pending
      · split at hs
        · cases hs
          exact inv_finish h hbusy hunread h.expected.pending
        · cases hs
          exact inv_startFetching h hreader hunread
    · rename_i job jobs hjobs
      split at hs
      · rename_i hready
        have hids := h.queued.copy.of_query hready
        split at hs
        · rename_i htakes
          cases hs
          have hcopied := (h.copied.ids job (unread_cons hjobs ▸ List.mem_cons_self)).resolve_left
            fun hmem => hids job hmem rfl
          exact inv_release h hreader hjobs (fun _ hx => hx)
            (.inr (holds_of_takes h hreader hjobs hcopied.2 htakes))
        · cases hs
          exact inv_startReading h hreader hjobs hids
      · cases hs
    · rename_i job jobs slot hjobs
      split at hs
      · rename_i hslot
        cases hs
        exact inv_write h hreader hjobs hslot
      · rename_i hslot
        cases hs
        obtain ⟨hrows, -⟩ := h.reading _ _ _ _ _ hreader hjobs
        exact inv_release h hreader hjobs (fun _ hx => hx) (.inr (hrows.all (by omega)))
  · rename_i prefetch todo expected current hreader
    split at hs
    · cases hs
      obtain ⟨-, hrows, -⟩ := h.fetching _ _ _ _ hreader
      refine inv_finish h (by simp [hreader]) (h.prefetching hreader).1 fun p hp => ?_
      cases hp
      exact hrows
    · cases hs
    · split at hs
      · rename_i hid
        cases hs
        exact inv_prefetched h hreader hid
      · rename_i hlen
        cases hs
        exact inv_expect h hreader (List.getElem?_eq_none_iff.1 hlen)

/-! ## Runs -/

/-- The condition of a step: where a join has dropped the future of a task that runs,
`prepare_disk_engram` is not called. -/
def Joins (s : State τ ι ρ) : Action τ ι → Prop
  | .prepare .. => s.future = true ∨ s.resting = true
  | _ => True

instance (s : State τ ι ρ) (a : Action τ ι) : Decidable (Joins s a) := by
  unfold Joins
  split <;> infer_instance

theorem inv_step {a : Action τ ι} (h : E.Inv s) (hok : Joins s a) (hs : E.step s a = some t) :
    E.Inv t := by
  cases a with
  | prepare tokens ids next => exact inv_prepare h hok hs
  | prepareDummy => exact inv_prepareDummy h hs
  | joinTimesOut => exact inv_joinTimesOut h hs
  | stage => exact inv_stage h hs
  | submit => exact inv_submit h hs
  | stagingStream => exact inv_stagingStream h hs
  | sideStream => exact inv_sideStream h hs
  | reader => exact inv_reader h hs
  | readRaises => exact inv_readRaises h hs
  | prefetchRows ids => exact inv_prefetchRows h hs
  | prefetchRaises caught => exact inv_prefetchRaises h hs
  | prefetchReturns => exact inv_prefetchReturns h hs

theorem inv_reach (h : E.system.Reach Joins s) : E.Inv s :=
  h.inv (I := E.Inv) (by
    rintro s ⟨idsHost, planes, rfl⟩
    exact inv_start idsHost planes) fun _ _ _ hi hok hs => inv_step hi hok hs

end Engrams

end LlmkubeRuntimes.Engram
