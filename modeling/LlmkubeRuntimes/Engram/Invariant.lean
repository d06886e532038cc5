import LlmkubeRuntimes.Engram.Prefetch
import LlmkubeRuntimes.Lib.Find

/-!
# The invariant of asynchronous Engram rows

* `Queued`: the events follow the queues of the two streams;
* `Unread`: a job the reader has not finished is the last of its table and its
  set, and its gate is closed;
* `Copied`: what the staging stream has done for such a job;
* `Phased`, `Alternates`: which thread may move;
* `Served`, `Expected`, `Reading`, `Fetching`: what the staging planes hold.

`Inv` is their conjunction, and `inv_step` shows that every step keeps it that does
not stage beside a task of the reader.
-/

namespace LlmkubeRuntimes.Engram

open LlmkubeRuntimes.Lib

variable {τ ι ρ : Type}

/-- The jobs the reader has not finished, where no task waits. -/
def State.unread (s : State τ ι ρ) : List (Job τ ι) := s.jobs ++ s.staged

/-- The row IDs of a job are in the host copy, up to a slot. -/
def HostIds (idsHost : τ → Nat → ι) (job : Job τ ι) (n : Nat) : Prop :=
  ∀ i id, i < n → job.ids[i]? = some id → idsHost job.table i = id

/-- No other decode on the job's planes is queued. -/
def Alone (rowsQueue : List (Job τ ι)) (job : Job τ ι) : Prop :=
  ∀ d ∈ rowsQueue, d.place = job.place → d = job

/-- The jobs whose wait on the staging stream is not over. -/
def uncopied (copyQueue : List (Job τ ι)) (copying : Option Nat) : List (Job τ ι) :=
  match copying with
  | none => copyQueue
  | some _ => copyQueue.tail

/-- The rows of the IDs are in the planes, up to a slot. -/
def Engrams.Holds (E : Engrams τ ι ρ) (planes : Place τ → Nat → ρ) (place : Place τ) (ids : List ι)
    (n : Nat) : Prop :=
  ∀ i id, i < n → ids[i]? = some id → planes place i = E.row place.2 id

/-- A slot past the end means all slots. -/
theorem Engrams.Holds.all {E : Engrams τ ι ρ} {planes : Place τ → Nat → ρ} {place : Place τ}
    {ids : List ι} {n : Nat} (h : E.Holds planes place ids n) (hn : ids.length ≤ n) :
    E.Holds planes place ids ids.length := fun i id hi hid => h i id (by omega) hid

variable [DecidableEq τ]

structure Queued (idsReady : τ → Event) (done : Place τ → Event) (used : Place τ → Bool)
    (copyQueue rowsQueue : List (Job τ ι)) : Prop where
  copy : Event.Follows idsReady Job.table Job.idsReady copyQueue
  rows : Event.Follows done Job.place Job.done rowsQueue
  fresh : ∀ place, used place = false → (done place).recorded = 0

structure Unread (idsReady : τ → Event) (done : Place τ → Event) (next gate : τ → UInt32)
    (rowsQueue jobs : List (Job τ ι)) : Prop where
  nodup : (jobs.map Job.table).Nodup
  queued : ∀ u ∈ jobs, u ∈ rowsQueue
  lastIds : ∀ u ∈ jobs, u.idsReady = (idsReady u.table).recorded
  lastDone : ∀ u ∈ jobs, u.done = (done u.place).recorded
  waits : ∀ u ∈ jobs, u.waits.getD 0 + 1 = u.done
  sequence : ∀ u ∈ jobs, u.sequence = next u.table
  closed : ∀ u ∈ jobs, gate u.table + 1 = next u.table
  level : ∀ table ∉ jobs.map Job.table, gate table = next table

/-- The decode that runs is not of an unread job. -/
structure Gated (rowsQueue jobs : List (Job τ ι)) (decoding : Decoding) : Prop where
  running : ∀ job queue, rowsQueue = job :: queue → decoding = .running → job ∉ jobs
  empty : rowsQueue = [] → decoding = .ids

structure Copied (copyQueue rowsQueue jobs : List (Job τ ι)) (copying : Option Nat)
    (idsHost : τ → Nat → ι) : Prop where
  alone : ∀ u ∈ jobs, u ∈ uncopied copyQueue copying ∨ Alone rowsQueue u
  ids : ∀ u ∈ jobs, u ∈ copyQueue ∨
    (∀ e ∈ copyQueue, e.table ≠ u.table) ∧ HostIds idsHost u u.ids.length
  progress : ∀ slot job queue, copying = some slot → copyQueue = job :: queue →
    HostIds idsHost job slot
  empty : copyQueue = [] → copying = none

/-- Only one of the main thread and the reader is at work, and a prediction is pending only
while both rest. -/
def Phased (main : Main τ ι) (reader : Reader τ ι) (jobs : List (Job τ ι))
    (pending : Option (Pending τ ι)) : Prop :=
  match main, reader with
  | .staging todo _ _ _ _, .idle _ => pending = none ∧ (todo ++ jobs.map Job.table).Nodup
  | .staging .., _ => False
  | _, .idle _ => jobs = []
  | _, .reading .. => pending = none
  | _, .fetching .. => jobs = [] ∧ pending = none

/-- No task waits, and a job is staged or in the task that runs according to the main thread. -/
def Alternates (main : Main τ ι) (workQueue : List (WorkItem τ ι)) (jobs staged : List (Job τ ι)) :
    Prop :=
  workQueue = [] ∧
    match main with
    | .ready => staged = []
    | .staging .. => jobs = []

namespace Engrams

variable (E : Engrams τ ι ρ)

/-- A decode that is queued and not of an unread job finds the rows of its IDs, unless its
read raised. -/
def Served (planes : Place τ → Nat → ρ) (failed : List (Nat × τ))
    (rowsQueue jobs : List (Job τ ι)) : Prop :=
  ∀ d ∈ rowsQueue, d ∉ jobs →
    (d.step, d.table) ∈ failed ∨ E.Holds planes d.place d.ids d.ids.length

/-- A set holds the rows a prefetch read into it, until the read of the job begins. -/
structure Expected (planes : Place τ → Nat → ρ) (main : Main τ ι) (reader : Reader τ ι)
    (jobs : List (Job τ ι)) (pending : Option (Pending τ ι)) : Prop where
  jobs : ∀ u ∈ jobs, ∀ ids, u.expected = some ids →
    (∀ slot failure prefetch, reader = .reading (some slot) failure prefetch →
      jobs.head? ≠ some u) →
    E.Holds planes u.place ids ids.length
  staging : ∀ todo rowSet ids p prefetch, main = .staging todo rowSet ids (some p) prefetch →
    rowSet = p.rowSet ∧ ∀ x ∈ p.ids, E.Holds planes (p.rowSet, x.1) x.2 x.2.length
  pending : ∀ p, pending = some p → ∀ x ∈ p.ids, E.Holds planes (p.rowSet, x.1) x.2 x.2.length

/-- While the reader reads the rows of a job. -/
def Reading (planes : Place τ → Nat → ρ) (reader : Reader τ ι)
    (copyQueue rowsQueue jobs : List (Job τ ι)) : Prop :=
  ∀ slot failure prefetch u rest, reader = .reading (some slot) failure prefetch →
    jobs = u :: rest →
    E.Holds planes u.place u.ids slot ∧ (∀ e ∈ copyQueue, e.table ≠ u.table) ∧ Alone rowsQueue u

/-- While the reader prefetches. -/
def Fetching (planes : Place τ → Nat → ρ) (reader : Reader τ ι) (rowsQueue : List (Job τ ι)) :
    Prop :=
  ∀ prefetch todo expected current, reader = .fetching prefetch todo expected current →
    (todo ++ expected.map (·.1)).Nodup ∧
      (∀ x ∈ expected, E.Holds planes (prefetch.rowSet, x.1) x.2 x.2.length) ∧
      ∀ table rest ids slot, todo = table :: rest → current = some (ids, slot) →
        E.Holds planes (prefetch.rowSet, table) ids slot ∧
          ∀ d ∈ rowsQueue, d.place ≠ (prefetch.rowSet, table)

structure Inv (s : State τ ι ρ) : Prop where
  queued : Queued s.idsReady s.done s.used s.copyQueue s.rowsQueue
  unread : Unread s.idsReady s.done s.sequence s.gate s.rowsQueue s.unread
  gated : Gated s.rowsQueue s.unread s.decoding
  copied : Copied s.copyQueue s.rowsQueue s.unread s.copying s.idsHost
  phased : Phased s.main s.reader s.unread s.pending
  alternates : Alternates s.main s.workQueue s.jobs s.staged
  served : E.Served s.planes s.failed s.rowsQueue s.unread
  expected : E.Expected s.planes s.main s.reader s.unread s.pending
  reading : E.Reading s.planes s.reader s.copyQueue s.rowsQueue s.jobs
  fetching : E.Fetching s.planes s.reader s.rowsQueue

end Engrams

/-! ## Slots, gates and records -/

theorem HostIds.write {idsHost : τ → Nat → ι} {job : Job τ ι} {n : Nat} {id : ι}
    (h : HostIds idsHost job n) (hid : job.ids[n]? = some id) :
    HostIds (Function.update idsHost job.table (Function.update (idsHost job.table) n id)) job
      (n + 1) := by
  intro i id' hi hid'
  rw [Function.update_self]
  by_cases hin : i = n
  · subst hin
    rw [Function.update_self]
    exact Option.some.inj (hid.symm.trans hid')
  · rw [Function.update_of_ne hin]
    exact h i id' (by omega) hid'

theorem HostIds.update_of_ne {idsHost : τ → Nat → ι} {job : Job τ ι} {n : Nat} {table : τ}
    {f : Nat → ι} (hne : table ≠ job.table) (h : HostIds idsHost job n) :
    HostIds (Function.update idsHost table f) job n := by
  intro i id hi hid
  rw [Function.update_of_ne (Ne.symm hne)]
  exact h i id hi hid

theorem Engrams.Holds.write {E : Engrams τ ι ρ} {planes : Place τ → Nat → ρ} {place : Place τ}
    {ids : List ι} {n : Nat} {id : ι} (h : E.Holds planes place ids n) (hid : ids[n]? = some id) :
    E.Holds (Function.update planes place (Function.update (planes place) n (E.row place.2 id)))
      place ids (n + 1) := by
  intro i id' hi hid'
  rw [Function.update_self]
  by_cases hin : i = n
  · subst hin
    rw [Function.update_self]
    rw [Option.some.inj (hid.symm.trans hid')]
  · rw [Function.update_of_ne hin]
    exact h i id' (by omega) hid'

theorem Engrams.Holds.update_of_ne {E : Engrams τ ι ρ} {planes : Place τ → Nat → ρ}
    {place place' : Place τ} {ids : List ι} {n : Nat} {f : Nat → ρ} (hne : place ≠ place')
    (h : E.Holds planes place ids n) : E.Holds (Function.update planes place' f) place ids n := by
  intro i id hi hid
  rw [Function.update_of_ne hne]
  exact h i id hi hid

/-- A gate that is one behind is closed. -/
theorem not_reached {gate sequence : UInt32} (h : gate + 1 = sequence) :
    reached gate sequence = false := by
  subst h
  have hsub : gate - (gate + 1) = -1 := by
    grind
  rw [reached, hsub]
  decide

theorem recorded_complete {κ : Type} [DecidableEq κ] (events : κ → Event) (k x : κ) :
    (Function.update events k (events k).complete x).recorded = (events x).recorded := by
  by_cases hx : x = k
  · subst hx
    rw [Function.update_self]
    rfl
  · rw [Function.update_of_ne hx]

/-! ## A job is staged -/

theorem forall_mem_push {α : Type} {p : α → Prop} {l : List α} {a : α} (h : ∀ x ∈ l, p x)
    (ha : p a) : ∀ x ∈ l ++ [a], p x :=
  List.forall_mem_append.2 ⟨h, List.forall_mem_singleton.2 ha⟩

/-- What holds of the items and of a map at their keys holds with one more item, whose key
is new and is updated. -/
theorem forall_mem_push_update {α κ β : Type} [DecidableEq κ] {key : α → κ} (p : α → β → Prop)
    {f : κ → β} {l : List α} {a : α} {b : β} (hfresh : ∀ x ∈ l, key x ≠ key a)
    (h : ∀ x ∈ l, p x (f (key x))) (ha : p a b) :
    ∀ x ∈ l ++ [a], p x (Function.update f (key a) b (key x)) := by
  refine forall_mem_push (fun x hx => ?_) ?_
  · rw [Function.update_of_ne (hfresh x hx)]
    exact h x hx
  · rw [Function.update_self]
    exact ha

section Push

variable {idsReady : τ → Event} {done : Place τ → Event} {used : Place τ → Bool}
  {next gate : τ → UInt32} {copyQueue rowsQueue jobs : List (Job τ ι)} {copying : Option Nat}
  {idsHost : τ → Nat → ι} {decoding : Decoding} {job : Job τ ι}

theorem Queued.push (h : Queued idsReady done used copyQueue rowsQueue)
    (hids : job.idsReady = (idsReady job.table).recorded + 1)
    (hdone : job.done = (done job.place).recorded + 1) :
    Queued (Function.update idsReady job.table (idsReady job.table).record)
      (Function.update done job.place (done job.place).record)
      (Function.update used job.place true) (copyQueue ++ [job]) (rowsQueue ++ [job]) where
  copy := h.copy.push hids
  rows := h.rows.push hdone
  fresh place hplace := by
    by_cases hp : place = job.place
    · subst hp
      rw [Function.update_self] at hplace
      cases hplace
    · rw [Function.update_of_ne hp] at hplace ⊢
      exact h.fresh place hplace

theorem Unread.push (h : Unread idsReady done next gate rowsQueue jobs)
    (hfresh : job.table ∉ jobs.map Job.table)
    (hids : job.idsReady = (idsReady job.table).recorded + 1)
    (hdone : job.done = (done job.place).recorded + 1)
    (hwaits : job.waits.getD 0 + 1 = job.done) (hsequence : job.sequence = next job.table + 1) :
    Unread (Function.update idsReady job.table (idsReady job.table).record)
      (Function.update done job.place (done job.place).record)
      (Function.update next job.table job.sequence) gate (rowsQueue ++ [job]) (jobs ++ [job]) := by
  have htable : ∀ u ∈ jobs, u.table ≠ job.table := fun u hu heq =>
    hfresh (heq ▸ List.mem_map_of_mem hu)
  have hplace : ∀ u ∈ jobs, u.place ≠ job.place := fun u hu heq =>
    htable u hu (congrArg Prod.snd heq)
  exact {
    nodup := by
      rw [List.map_append, List.map_singleton, ← List.concat_eq_append]
      exact h.nodup.concat hfresh
    queued := forall_mem_push (fun u hu => List.mem_append_left _ (h.queued u hu))
      List.mem_concat_self
    lastIds := forall_mem_push_update (fun u (e : Event) => u.idsReady = e.recorded) htable
      h.lastIds hids
    lastDone := forall_mem_push_update (fun u (e : Event) => u.done = e.recorded) hplace
      h.lastDone hdone
    waits := forall_mem_push h.waits hwaits
    sequence := forall_mem_push_update (fun u n => u.sequence = n) htable h.sequence rfl
    closed := forall_mem_push_update (fun u n => gate u.table + 1 = n) htable h.closed
      (by rw [hsequence, h.level _ hfresh])
    level := by
      intro table hnew
      rw [List.map_append, List.mem_append, not_or] at hnew
      have hne : table ≠ job.table := by simpa using hnew.2
      rw [Function.update_of_ne hne]
      exact h.level table hnew.1 }

theorem Gated.push (h : Gated rowsQueue jobs decoding)
    (hqueued : Queued idsReady done used copyQueue rowsQueue)
    (hdone : job.done = (done job.place).recorded + 1) :
    Gated (rowsQueue ++ [job]) (jobs ++ [job]) decoding where
  running d queue heq hrunning hd := by
    cases hrows : rowsQueue with
    | nil =>
      rw [h.empty hrows] at hrunning
      cases hrunning
    | cons d' rest =>
      rw [hrows, List.cons_append, List.cons.injEq] at heq
      obtain ⟨rfl, -⟩ := heq
      rcases List.mem_append.1 hd with hd | hd
      · exact h.running d' rest hrows hrunning hd
      · -- the new job's record is beyond those of the queue
        have hmem := hqueued.rows.mem (hrows ▸ List.mem_cons_self : d' ∈ rowsQueue)
        rw [List.mem_singleton.1 hd] at hmem
        omega
  empty h := by simp at h

omit [DecidableEq τ] in
theorem Copied.push (h : Copied copyQueue rowsQueue jobs copying idsHost)
    (hfresh : job.table ∉ jobs.map Job.table) :
    Copied (copyQueue ++ [job]) (rowsQueue ++ [job]) (jobs ++ [job]) copying idsHost := by
  have htable : ∀ u ∈ jobs, job.table ≠ u.table := fun u hu heq =>
    hfresh (heq ▸ List.mem_map_of_mem hu)
  have huncopied : uncopied (copyQueue ++ [job]) copying = uncopied copyQueue copying ++ [job] := by
    cases copying with
    | none => rfl
    | some slot =>
      cases hqueue : copyQueue with
      | nil => exact absurd (h.empty hqueue) (by simp)
      | cons e queue => rfl
  exact {
    alone := by
      rw [huncopied]
      refine forall_mem_push (fun u hu => ?_) (.inl List.mem_concat_self)
      refine (h.alone u hu).imp (List.mem_append_left _) fun halone => ?_
      exact forall_mem_push halone fun hplace =>
        absurd (congrArg Prod.snd hplace) (htable u hu)
    ids := by
      refine forall_mem_push (fun u hu => ?_) (.inl List.mem_concat_self)
      exact (h.ids u hu).imp (List.mem_append_left _) fun ⟨hne, hids⟩ =>
        ⟨forall_mem_push hne (htable u hu), hids⟩
    progress := by
      intro slot e queue hcopying heq
      cases hqueue : copyQueue with
      | nil =>
        rw [h.empty hqueue] at hcopying
        cases hcopying
      | cons e' rest =>
        rw [hqueue, List.cons_append, List.cons.injEq] at heq
        obtain ⟨rfl, -⟩ := heq
        exact h.progress slot e' rest hcopying hqueue
    empty := by simp }

end Push

/-! ## The staging stream runs -/

section Copy

variable {queue rowsQueue jobs : List (Job τ ι)} {idsHost : τ → Nat → ι} {job : Job τ ι} {slot : Nat}

omit [DecidableEq τ] in
/-- The wait of the first job is over. -/
theorem Copied.start (h : Copied (job :: queue) rowsQueue jobs none idsHost)
    (halone : job ∈ jobs → Alone rowsQueue job) :
    Copied (job :: queue) rowsQueue jobs (some 0) idsHost where
  alone u hu := by
    rcases h.alone u hu with hwait | hwait
    · rcases List.mem_cons.1 hwait with rfl | hwait
      · exact .inr (halone hu)
      · exact .inl hwait
    · exact .inr hwait
  ids := h.ids
  progress slot' e rest hslot _ i id hi _ := by
    cases hslot
    omega
  empty := by simp

/-- An ID of the first job is copied: every other unread job of its table is behind it. -/
theorem Copied.write {id : ι} (h : Copied (job :: queue) rowsQueue jobs (some slot) idsHost)
    (hid : job.ids[slot]? = some id) :
    Copied (job :: queue) rowsQueue jobs (some (slot + 1))
      (Function.update idsHost job.table (Function.update (idsHost job.table) slot id)) where
  alone := h.alone
  ids u hu := (h.ids u hu).imp_right fun ⟨hne, hids⟩ =>
    ⟨hne, hids.update_of_ne (hne job List.mem_cons_self)⟩
  progress slot' e rest hslot heq := by
    cases hslot
    cases heq
    exact (h.progress slot job queue rfl rfl).write hid
  empty := by simp

omit [DecidableEq τ] in
/-- The copy of the first job is over. -/
theorem Copied.complete (h : Copied (job :: queue) rowsQueue jobs (some slot) idsHost)
    (hlen : job.ids.length ≤ slot) (hlast : job ∈ jobs → ∀ e ∈ queue, e.table ≠ job.table) :
    Copied queue rowsQueue jobs none idsHost where
  alone := h.alone
  ids u hu := by
    rcases h.ids u hu with hu' | ⟨hne, hids⟩
    · rcases List.mem_cons.1 hu' with rfl | hu'
      · exact .inr ⟨hlast hu, fun i id hi hid => h.progress slot u queue rfl rfl i id (by omega) hid⟩
      · exact .inl hu'
    · exact .inr ⟨fun e he => hne e (List.mem_cons_of_mem job he), hids⟩
  progress := by simp
  empty := by simp

end Copy

/-! ## The reader finishes a job -/

/-- The first unread job is finished and its gate released. -/
theorem Unread.pop {idsReady : τ → Event} {done : Place τ → Event} {next gate : τ → UInt32}
    {rowsQueue jobs : List (Job τ ι)} {job : Job τ ι}
    (h : Unread idsReady done next gate rowsQueue (job :: jobs)) :
    Unread idsReady done next (Function.update gate job.table job.sequence) rowsQueue jobs := by
  have hnodup := h.nodup
  rw [List.map_cons, List.nodup_cons] at hnodup
  have htable : ∀ u ∈ jobs, u.table ≠ job.table := fun u hu heq =>
    hnodup.1 (heq ▸ List.mem_map_of_mem hu)
  have htail : ∀ u ∈ jobs, u ∈ job :: jobs := fun u hu => List.mem_cons_of_mem job hu
  exact {
    nodup := hnodup.2
    queued := fun u hu => h.queued u (htail u hu)
    lastIds := fun u hu => h.lastIds u (htail u hu)
    lastDone := fun u hu => h.lastDone u (htail u hu)
    waits := fun u hu => h.waits u (htail u hu)
    sequence := fun u hu => h.sequence u (htail u hu)
    closed := fun u hu => by
      rw [Function.update_of_ne (htable u hu)]
      exact h.closed u (htail u hu)
    level := fun table htable => by
      by_cases heq : table = job.table
      · rw [heq, Function.update_self]
        exact h.sequence job List.mem_cons_self
      · rw [Function.update_of_ne heq]
        exact h.level table (by simpa [heq] using htable) }

end LlmkubeRuntimes.Engram
