import Mathlib.Algebra.GroupWithZero.Nat
import LlmkubeRuntimes.Lib.Event
import LlmkubeRuntimes.Lib.System

/-!
# Asynchronous Engram rows with prefetch

`prepare_disk_engram` with asynchronous rows and prefetch on, and what runs
beside it: the reader thread and two streams.

* The main thread joins the last task of the reader, stages a job for every
  table and submits the jobs. Staging a job queues work on both streams. A join
  that gives up on a task raises and drops its future, so the next one does not
  wait for that task.
* The staging stream runs, for each job: a wait for the decode that last read
  the row set, the copy of the row IDs to the host, a record of `_ids_ready`.
* The side stream runs, for each job: a wait for `_ids_ready`, a wait for the
  gate, the decode, a record of `rows.done`.
* The reader thread runs the calls of `_read_engram_rows` submitted to it one
  after the other: for each job it waits for the IDs, reads the rows unless the
  prefetched ones are those of the same IDs, and releases the gate. Then it
  prefetches.

`Engrams.step` is one step of one of them. Rows and IDs are written one slot
at a time. What the outside decides is in the label: the row IDs of a step,
the prediction, what raises. `failed` remembers the reads that raised.
-/

namespace LlmkubeRuntimes.Engram

open LlmkubeRuntimes.Lib

/-- Row set 0 is `false`, row set 1 `true`. -/
abbrev RowSet := Bool

/-- The staging planes of one table in one row set. -/
abbrev Place (τ : Type) := RowSet × τ

/-- The Engram tables in layer order, with their rows. -/
structure Engrams (τ ι ρ : Type) where
  tables : List τ
  nodup : tables.Nodup
  /-- The row of an ID in a table, weight and scale. -/
  row : τ → ι → ρ
  /-- `ENGRAM_PREFETCH_VERIFY` -/
  verify : Bool

/-- What `stage_disk_rows` queues for one table of one step, and hands to the reader. -/
structure Job (τ ι : Type) where
  step : Nat
  table : τ
  rowSet : RowSet
  /-- The row IDs the step has for the table; their number is `count`. -/
  ids : List ι
  /-- The record of `rows.done` that the staging stream waits for, if the set was used. -/
  waits : Option Nat
  /-- The numbers of the job's records of `_ids_ready` and `rows.done`. -/
  idsReady : Nat
  done : Nat
  sequence : UInt32
  /-- `expected_ids`: the IDs whose rows a prefetch read into the set. -/
  expected : Option (List ι)
  deriving DecidableEq

def Job.place {τ ι : Type} (job : Job τ ι) : Place τ := (job.rowSet, job.table)

/-- `_engram_pending`: a prefetched chunk. -/
structure Pending (τ ι : Type) where
  tokens : Nat
  rowSet : RowSet
  ids : List (τ × List ι)

/-- What `_engram_prefetch_setup` returns: the length of the next chunk and the set its
rows go to. -/
structure Prefetch where
  tokens : Nat
  rowSet : RowSet

/-- Where the main thread is. -/
inductive Main (τ ι : Type) where
  /-- Outside `prepare_disk_engram`. -/
  | ready
  /-- In the comprehension over the tables, with those to come. -/
  | staging (todo : List τ) (rowSet : RowSet) (ids : τ → List ι) (pending : Option (Pending τ ι))
    (prefetch : Option Prefetch)

/-- A call of `_read_engram_rows` that the executor has not begun. -/
structure WorkItem (τ ι : Type) where
  jobs : List (Job τ ι)
  prefetch : Option Prefetch

/-- Where the reader thread is. -/
inductive Reader (τ ι : Type) where
  /-- No task runs; `raised` is whether the last one raised. -/
  | idle (raised : Bool)
  /-- In the loop over the jobs: it waits for the IDs of the first one, or reads its rows
  and is at a slot. -/
  | reading (slot : Option Nat) (failure : Bool) (prefetch : Option Prefetch)
  /-- In `_prefetch_engram_rows`, with the tables to come, `expected` and, inside
  `prefetch_rows` of the first of them, its IDs and the slot. -/
  | fetching (prefetch : Prefetch) (todo : List τ) (expected : List (τ × List ι))
    (current : Option (List ι × Nat))

/-- Where the side stream is in its first job. -/
inductive Decoding where
  | ids
  | gate
  | running
  deriving DecidableEq

structure State (τ ι ρ : Type) where
  main : Main τ ι
  /-- Steps staged so far. -/
  step : Nat
  /-- `_engram_reader_future` is that of the task submitted last; otherwise it is `None`. -/
  future : Bool
  pending : Option (Pending τ ι)
  /-- `HostGate.sequence` -/
  sequence : τ → UInt32
  /-- `_StagedRows.used` -/
  used : Place τ → Bool
  /-- The jobs the main thread has staged and not submitted. -/
  staged : List (Job τ ι)
  workQueue : List (WorkItem τ ι)
  /-- The jobs the task that runs has not finished. -/
  jobs : List (Job τ ι)
  reader : Reader τ ι
  /-- The jobs with work on the staging stream, and the slot the copy of the first one is at,
  if its wait is over. -/
  copyQueue : List (Job τ ι)
  copying : Option Nat
  /-- The jobs with work on the side stream. -/
  rowsQueue : List (Job τ ι)
  decoding : Decoding
  idsReady : τ → Event
  done : Place τ → Event
  /-- `HostGate.host` -/
  gate : τ → UInt32
  /-- `cache.ids_host` -/
  idsHost : τ → Nat → ι
  planes : Place τ → Nat → ρ
  failed : List (Nat × τ)

/-- What moves next, and what the outside decides in it. -/
inductive Action (τ ι : Type) where
  /-- A call of `prepare_disk_engram` for a number of tokens with the given row IDs; `next` is
  the length of the next chunk if one is predicted and the prefetch can be set up. -/
  | prepare (tokens : Nat) (ids : τ → List ι) (next : Option Nat)
  /-- A call of `prepare_dummy_disk_engram`. -/
  | prepareDummy
  /-- The join of one of the two raises `TimeoutError`. -/
  | joinTimesOut
  | stage
  | submit
  | stagingStream
  | sideStream
  | reader
  /-- The wait for the IDs, the read or the verification of a job raises. -/
  | readRaises
  /-- The hashes of the next chunk for a table are computed, and its set is free. -/
  | prefetchRows (ids : List ι)
  /-- The prefetch raises; `caught` is whether it is an `Exception`. -/
  | prefetchRaises (caught : Bool)
  /-- The token row ends before the next chunk does. -/
  | prefetchReturns

/-- Row IDs per token. -/
def heads : Nat := 24

/-- `cuStreamWaitValue32` with `GEQ`: the difference is not negative as a signed number. -/
def reached (gate sequence : UInt32) : Bool := (gate - sequence).toNat < 2 ^ 31

namespace State

variable {τ ι ρ : Type} [DecidableEq τ]

/-- The job of the next table. -/
def newJob (s : State τ ι ρ) (table : τ) (rowSet : RowSet) (ids : List ι)
    (pending : Option (Pending τ ι)) : Job τ ι where
  step := s.step
  table
  rowSet
  ids
  waits := if s.used (rowSet, table) then some (s.done (rowSet, table)).recorded else none
  idsReady := (s.idsReady table).recorded + 1
  done := (s.done (rowSet, table)).recorded + 1
  sequence := s.sequence table + 1
  expected := pending.bind fun pending => pending.ids.lookup table

/-- The end of `read_disk_async` on the first job: the gate is released. -/
def release (s : State τ ι ρ) (job : Job τ ι) (jobs : List (Job τ ι)) (failure : Bool)
    (prefetch : Option Prefetch) : State τ ι ρ :=
  { s with
    gate := Function.update s.gate job.table job.sequence
    jobs := jobs
    reader := .reading none failure prefetch }

/-- A row written to a slot of the staging planes. -/
def write (s : State τ ι ρ) (place : Place τ) (slot : Nat) (row : ρ) : State τ ι ρ :=
  { s with planes := Function.update s.planes place (Function.update (s.planes place) slot row) }

/-- The decode that runs. -/
def running (s : State τ ι ρ) : Option (Job τ ι) :=
  match s.decoding, s.rowsQueue with
  | .running, job :: _ => some job
  | _, _ => none

/-- No task runs. -/
def resting (s : State τ ι ρ) : Bool :=
  match s.reader with
  | .idle _ => true
  | _ => false

/-- `join_engram_reader` where it does not wait, with whether the task raised. -/
def join (s : State τ ι ρ) : Option (State τ ι ρ × Bool) :=
  if s.future then
    match s.reader with
    | .idle raised => some ({ s with future := false }, raised)
    | _ => none
  else some (s, false)

/-- The task that runs ends, and the next one begins. -/
def finish (s : State τ ι ρ) (raised : Bool) : State τ ι ρ :=
  match s.workQueue with
  | [] => { s with reader := .idle raised }
  | item :: queue =>
    { s with workQueue := queue, jobs := item.jobs, reader := .reading none false item.prefetch }

/-- The planes the reader writes to next, with the step if it is the read of a job. -/
def writing (s : State τ ι ρ) : Option (Place τ × Option Nat) :=
  match s.reader, s.jobs with
  | .reading (some slot) _ _, job :: _ =>
    if slot < job.ids.length then some (job.place, some job.step) else none
  | .fetching prefetch (table :: _) _ (some (ids, slot)), _ =>
    if slot < ids.length then some ((prefetch.rowSet, table), none) else none
  | _, _ => none

end State

namespace Engrams

variable {τ ι ρ : Type} [DecidableEq τ] [DecidableEq ι] [DecidableEq ρ] (E : Engrams τ ι ρ)

/-- `prepare_disk_engram` up to the staging. -/
def prepare (s : State τ ι ρ) (tokens : Nat) (ids : τ → List ι) (next : Option Nat) :
    Option (State τ ι ρ) :=
  match s.main, s.join with
  | .ready, some (s, true) => some s
  | .ready, some (s, false) =>
    let pending := s.pending.filter (·.tokens = tokens)
    let rowSet := (pending.map (·.rowSet)).getD false
    if ∀ table ∈ E.tables, (ids table).length = heads * tokens then
      some { s with
        main := .staging E.tables rowSet ids pending (next.map fun tokens => ⟨tokens, !rowSet⟩)
        step := s.step + 1
        pending := none }
    else none
  | _, _ => none

/-- `prepare_dummy_disk_engram`. -/
def prepareDummy (s : State τ ι ρ) : Option (State τ ι ρ) :=
  match s.main, s.join with
  | .ready, some (s, true) => some s
  | .ready, some (s, false) => some { s with pending := none }
  | _, _ => none

/-- `join_engram_reader` gives up on a task that runs or waits; its future is dropped. -/
def joinTimesOut (s : State τ ι ρ) : Option (State τ ι ρ) :=
  match s.main with
  | .ready => if s.future ∧ ¬ s.resting then some { s with future := false } else none
  | _ => none

/-- `stage_disk_rows` on the next table. -/
def stage (s : State τ ι ρ) : Option (State τ ι ρ) :=
  match s.main with
  | .staging (table :: todo) rowSet ids pending prefetch =>
    let job := s.newJob table rowSet (ids table) pending
    some { s with
      main := .staging todo rowSet ids pending prefetch
      sequence := Function.update s.sequence job.table job.sequence
      used := Function.update s.used job.place true
      staged := s.staged ++ [job]
      copyQueue := s.copyQueue ++ [job]
      rowsQueue := s.rowsQueue ++ [job]
      idsReady := Function.update s.idsReady job.table (s.idsReady job.table).record
      done := Function.update s.done job.place (s.done job.place).record }
  | _ => none

/-- The jobs are submitted. A reader at rest begins at once. -/
def submit (s : State τ ι ρ) : Option (State τ ι ρ) :=
  match s.main with
  | .staging [] _ _ _ prefetch =>
    let t := { s with main := .ready, future := true, staged := [] }
    if s.resting then some { t with jobs := s.staged, reader := .reading none false prefetch }
    else some { t with workQueue := s.workQueue ++ [⟨s.staged, prefetch⟩] }
  | _ => none

/-- The next piece of work on the staging stream. -/
def stagingStream (s : State τ ι ρ) : Option (State τ ι ρ) :=
  match s.copyQueue with
  | [] => none
  | job :: queue =>
    match s.copying with
    | none =>
      if job.waits.all (s.done job.place).passed then some { s with copying := some 0 } else none
    | some slot =>
      match job.ids[slot]? with
      | some id =>
        some { s with
          idsHost := Function.update s.idsHost job.table
            (Function.update (s.idsHost job.table) slot id)
          copying := some (slot + 1) }
      | none =>
        some { s with
          copyQueue := queue
          copying := none
          idsReady := Function.update s.idsReady job.table (s.idsReady job.table).complete }

/-- The next piece of work on the side stream. -/
def sideStream (s : State τ ι ρ) : Option (State τ ι ρ) :=
  match s.rowsQueue with
  | [] => none
  | job :: queue =>
    match s.decoding with
    | .ids =>
      if (s.idsReady job.table).passed job.idsReady then some { s with decoding := .gate } else none
    | .gate =>
      if reached (s.gate job.table) job.sequence then some { s with decoding := .running } else none
    | .running =>
      some { s with
        rowsQueue := queue
        decoding := .ids
        done := Function.update s.done job.place (s.done job.place).complete }

/-- Whether `read_disk_async` takes the rows of the set as they are: a prefetch read the
same IDs into it and, with `verify`, the rows are those of the IDs. -/
def takes (s : State τ ι ρ) (job : Job τ ι) : Bool :=
  match job.expected with
  | none => false
  | some expected =>
    expected.length = job.ids.length ∧
      expected = (List.range job.ids.length).map (s.idsHost job.table) ∧
      (E.verify → ∀ i < job.ids.length,
        s.planes job.place i = E.row job.table (s.idsHost job.table i))

/-- The next step of the reader thread when nothing raises. -/
def reader (s : State τ ι ρ) : Option (State τ ι ρ) :=
  match s.reader with
  | .idle _ => none
  | .reading slot failure prefetch =>
    match s.jobs, slot with
    | [], _ =>
      if failure then some (s.finish true)
      else match prefetch with
        | none => some (s.finish false)
        | some prefetch => some { s with reader := .fetching prefetch E.tables [] none }
    | job :: jobs, none =>
      if (s.idsReady job.table).query then
        if E.takes s job then some (s.release job jobs failure prefetch)
        else some { s with reader := .reading (some 0) failure prefetch }
      else none
    | job :: jobs, some slot =>
      if slot < job.ids.length then
        some { s.write job.place slot (E.row job.table (s.idsHost job.table slot)) with
          reader := .reading (some (slot + 1)) failure prefetch }
      else some (s.release job jobs failure prefetch)
  | .fetching prefetch todo expected current =>
    match todo, current with
    | [], _ =>
      let pending := some ⟨prefetch.tokens, prefetch.rowSet, expected⟩
      some ({ s with pending }.finish false)
    | _ :: _, none => none
    | table :: todo, some (ids, slot) =>
      match ids[slot]? with
      | some id =>
        some { s.write (prefetch.rowSet, table) slot (E.row table id) with
          reader := .fetching prefetch (table :: todo) expected (some (ids, slot + 1)) }
      | none =>
        some { s with reader := .fetching prefetch todo (expected ++ [(table, ids)]) none }

def readRaises (s : State τ ι ρ) : Option (State τ ι ρ) :=
  match s.reader, s.jobs with
  | .reading _ _ prefetch, job :: jobs =>
    some { s.release job jobs true prefetch with failed := (job.step, job.table) :: s.failed }
  | _, _ => none

/-- The start of `prefetch_rows`: it waits until the decode that last read the set is done. -/
def prefetchRows (s : State τ ι ρ) (ids : List ι) : Option (State τ ι ρ) :=
  match s.reader with
  | .fetching prefetch (table :: todo) expected none =>
    let place := (prefetch.rowSet, table)
    if ids.length = heads * prefetch.tokens ∧ (s.used place → (s.done place).query) then
      some { s with reader := .fetching prefetch (table :: todo) expected (some (ids, 0)) }
    else none
  | _ => none

def prefetchRaises (s : State τ ι ρ) (caught : Bool) : Option (State τ ι ρ) :=
  match s.reader with
  | .fetching .. =>
    if caught then some ({ s with pending := none }.finish false)
    else some (s.finish true)
  | _ => none

def prefetchReturns (s : State τ ι ρ) : Option (State τ ι ρ) :=
  match s.reader with
  | .fetching _ _ [] none => some (s.finish false)
  | _ => none

def step (s : State τ ι ρ) : Action τ ι → Option (State τ ι ρ)
  | .prepare tokens ids next => E.prepare s tokens ids next
  | .prepareDummy => prepareDummy s
  | .joinTimesOut => joinTimesOut s
  | .stage => stage s
  | .submit => submit s
  | .stagingStream => stagingStream s
  | .sideStream => sideStream s
  | .reader => E.reader s
  | .readRaises => readRaises s
  | .prefetchRows ids => prefetchRows s ids
  | .prefetchRaises caught => prefetchRaises s caught
  | .prefetchReturns => prefetchReturns s

/-- Before the first step; what the planes and the host copy of the IDs hold is arbitrary. -/
def start (idsHost : τ → Nat → ι) (planes : Place τ → Nat → ρ) : State τ ι ρ where
  main := .ready
  step := 0
  future := false
  pending := none
  sequence _ := 0
  used _ := false
  staged := []
  workQueue := []
  jobs := []
  reader := .idle false
  copyQueue := []
  copying := none
  rowsQueue := []
  decoding := .ids
  idsReady _ := .new
  done _ := .new
  gate _ := 0
  idsHost
  planes
  failed := []

def system : System (State τ ι ρ) (Action τ ι) where
  init s := ∃ idsHost planes, s = start idsHost planes
  step := E.step

end Engrams

end LlmkubeRuntimes.Engram
