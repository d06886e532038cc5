import LlmkubeRuntimes.Engram.Hash
import LlmkubeRuntimes.Engram.Prefetch

/-!
# The reader's task and its failures

What the reader thread does for one step, `_read_engram_rows`, with the errors its
calls raise, between the two ends of it on the main thread: `prepare_disk_engram`
joins the last task and submits the next, `prepare_dummy_disk_engram` only joins.

* `Reading`, `Fetching`: what the calls of `read_disk_async` and `prefetch_rows` for
  one table answer or raise; all of it is in the label of a step;
* `Tables.readDiskAsync`, `Tables.prefetchRows`: the two calls;
* `Tables.readEngramRows`: the task; it writes to `_engram_pending` once, at its end,
  so the reader thread runs it in one step;
* `State.join`: it waits for the task or for 60 seconds. A call made before the task
  has ended is one whose 60 seconds passed: it raises, the future is dropped, and the
  task goes on beside the calls that follow;
* `Tables.system`: calls and tasks in any order.

The row sets are staged before the task is submitted, so `staged_row_set` raises in
neither call.
-/

namespace LlmkubeRuntimes.Engram.Task

open LlmkubeRuntimes.Lib

/-- What Python code raises. -/
inductive Raised (ε : Type) where
  | indexError
  | valueError
  | timeoutError
  | exception (error : ε)
  /-- An error that is no `Exception`. -/
  | baseException (error : ε)
  deriving DecidableEq

def Raised.isException {ε : Type} : Raised ε → Bool
  | .baseException _ => false
  | _ => true

/-- The calls inside `read_disk_async` for one table. -/
structure Reading (ε : Type) where
  /-- The wait for the IDs, and then `ids_host`. -/
  idsReady : Except (Raised ε) (List Int64)
  /-- `_verify_prefetched` -/
  verified : Except (Raised ε) Bool
  /-- `ple_reader_run` -/
  read : Except (Raised ε) Unit

/-- The calls inside `prefetch_rows` for one table. -/
structure Fetching (ε : Type) where
  /-- The wait for the decode that last read the set, if there was one. -/
  done : Except (Raised ε) Unit
  /-- `ple_reader_run` -/
  read : Except (Raised ε) Unit

/-- What `stage_disk_rows` returns. -/
structure Job where
  tokens : Nat
  count : Nat
  sequence : UInt32
  rowSet : RowSet
  expected : Option (List Int64)

/-- What `_next_prefill_chunk` predicts: the token row, the start and the length. -/
structure Source where
  row : List Int64
  start : Nat
  count : Nat

/-- What `_engram_prefetch_setup` returns. -/
structure Chunk (τ : Type) where
  source : Source
  rowSet : RowSet
  engrams : List τ
  geometry : List Geometry

/-- What a task does that the others see. -/
inductive Event (τ : Type) where
  /-- The gate of a table is released. -/
  | release (table : τ) (sequence : UInt32)
  /-- `_prefetch_engram_rows` is called. -/
  | prefetch

/-- The jobs of a step, with what happens to them, and its prefetch. -/
structure Submitted (τ ε : Type) where
  jobs : List (τ × Job × Reading ε)
  chunk : Option (Chunk τ)
  fetching : τ → Fetching ε

structure State (τ ε : Type) where
  pending : Option (Pending τ Int64)
  /-- `_engram_prefetch_stats` -/
  stats : Nat × Nat
  /-- `_engram_prefetch_warned` -/
  warned : Bool
  /-- `_engram_reader_future`, with the result of its task if that has ended. -/
  future : Option (Option (Except (Raised ε) Unit))
  /-- The tasks submitted and not ended. -/
  workQueue : List (Submitted τ ε)
  /-- The tasks that have ended, and what the last one did. -/
  ended : List (Submitted τ ε)
  log : List (Event τ)

/-- `join_engram_reader`, at the end of its wait. -/
def State.join {τ ε : Type} (s : State τ ε) : Except (Raised ε) Unit :=
  match s.future with
  | none => .ok ()
  | some none => .error .timeoutError
  | some (some result) => result

/-- The variables of the loop over the jobs. -/
structure Loop (τ ε : Type) where
  log : List (Event τ)
  failure : Option (Raised ε)
  hits : Nat

/-- What does not change from step to step. -/
structure Tables (τ : Type) where
  engrams : List τ
  layerHashIndex : τ → Nat
  maxLookups : τ → Nat
  /-- `ENGRAM_PREFETCH_VERIFY` and `ENGRAM_PREFETCH_CORRUPT` -/
  verify : Bool
  corrupt : Bool

namespace Tables

variable {τ ε : Type} (E : Tables τ)

/-- The `try` block of `read_disk_async`; the result is `hit`. -/
def readDisk (job : Job) (o : Reading ε) : Except (Raised ε) Bool := do
  let idsHost ← o.idsReady
  let hit := job.expected.any fun expected =>
    expected.length == job.count && idsHost.take job.count == expected
  let hit ← if hit && E.verify then o.verified else pure hit
  if hit then pure true else do
    o.read
    pure false

/-- The loop body of `_read_engram_rows`. The gate is released however the read ends. -/
def readDiskAsync (l : Loop τ ε) (j : τ × Job × Reading ε) : Loop τ ε :=
  let log := l.log ++ [.release j.1 j.2.1.sequence]
  match E.readDisk j.2.1 j.2.2 with
  | .ok hit => { l with log, hits := l.hits + hit.toNat }
  | .error error => { l with log, failure := l.failure.or (some error) }

/-- The IDs of the next chunk for a table. -/
def predicted (chunk : Chunk τ) (table : τ) : Except (Raised ε) (List Int64) :=
  match chunk.geometry[E.layerHashIndex table]? with
  | none => .error .indexError
  | some g =>
    match g.prefetchIds chunk.source.row chunk.source.start chunk.source.count with
    | none => .error .indexError
    | some ids =>
      if E.corrupt then
        match ids with
        | [] => .error .indexError
        | id :: ids => .ok ((id ^^^ 1) :: ids)
      else .ok ids

def prefetchRows (table : τ) (ids : List Int64) (o : Fetching ε) : Except (Raised ε) Unit := do
  o.done
  if E.maxLookups table < ids.length then .error .valueError else o.read

/-- The loop body of `_prefetch_engram_rows`, with the item it adds to `expected`. -/
def prefetchTable (chunk : Chunk τ) (fetching : τ → Fetching ε) (table : τ) :
    Except (Raised ε) (τ × List Int64) := do
  let ids ← E.predicted chunk table
  E.prefetchRows table ids (fetching table)
  pure (table, ids)

/-- The new `_engram_pending`, or `none` where it stays as it is. -/
def prefetchEngramRows (chunk : Chunk τ) (fetching : τ → Fetching ε) :
    Except (Raised ε) (Option (Pending τ Int64)) :=
  let source := chunk.source
  if (slice source.row source.start (source.start + source.count)).length ≠ source.count then
    .ok none
  else do
    let expected ← chunk.engrams.mapM (E.prefetchTable chunk fetching)
    pure (some ⟨source.count, chunk.rowSet, expected⟩)

/-- The end of `_read_engram_rows`, if no job raised. -/
def readPrefetch (s : State τ ε) (chunk : Option (Chunk τ)) (fetching : τ → Fetching ε) :
    State τ ε × Except (Raised ε) Unit :=
  match chunk with
  | none => (s, .ok ())
  | some chunk =>
    let s := { s with log := s.log ++ [Event.prefetch] }
    match E.prefetchEngramRows chunk fetching with
    | .ok none => (s, .ok ())
    | .ok (some pending) => ({ s with pending := some pending }, .ok ())
    | .error error =>
      if error.isException then ({ s with pending := none, warned := true }, .ok ())
      else (s, .error error)

def readEngramRows (s : State τ ε) (t : Submitted τ ε) : State τ ε × Except (Raised ε) Unit :=
  let l := t.jobs.foldl E.readDiskAsync ⟨[], none, 0⟩
  let s := { s with log := l.log }
  match l.failure with
  | some failure => (s, .error failure)
  | none =>
    let stats :=
      if t.jobs.any fun j => j.2.1.expected.isSome then
        if l.hits = t.jobs.length then (s.stats.1 + 1, s.stats.2) else (s.stats.1, s.stats.2 + 1)
      else s.stats
    E.readPrefetch { s with stats } t.chunk t.fetching

/-- The reader thread runs the next task. The future, if it is held, is that of the last. -/
def run (s : State τ ε) : State τ ε :=
  match s.workQueue with
  | [] => s
  | t :: queue =>
    let done := E.readEngramRows s t
    { done.1 with
      future := if queue.isEmpty then s.future.map fun _ => some done.2 else s.future
      workQueue := queue
      ended := s.ended ++ [t] }

/-- What a step does. -/
inductive Action (τ ε : Type) where
  /-- A call of `prepare_disk_engram` for a number of tokens; `staged` has the next sequence
  number of every table, `next` is the prediction if it can be set up, with the hash tables. -/
  | prepare (tokens : Nat) (staged : List (τ × UInt32 × Reading ε))
    (next : Option (Source × List Geometry)) (fetching : τ → Fetching ε)
  /-- A call of `prepare_dummy_disk_engram`. -/
  | prepareDummy
  /-- The reader thread runs a task. -/
  | run

variable [DecidableEq τ]

/-- What `prepare_disk_engram` submits. -/
def submit (s : State τ ε) (tokens : Nat) (staged : List (τ × UInt32 × Reading ε))
    (next : Option (Source × List Geometry)) (fetching : τ → Fetching ε) : Submitted τ ε :=
  let pending := s.pending.filter (·.tokens = tokens)
  let rowSet := (pending.map (·.rowSet)).getD false
  { jobs := staged.map fun (table, sequence, reading) =>
      (table, ⟨tokens, heads * tokens, sequence, rowSet, pending.bind (·.ids.lookup table)⟩, reading)
    chunk := next.map fun (source, geometry) => ⟨source, !rowSet, E.engrams, geometry⟩
    fetching }

/-- A join that raises ends the call, and the future is dropped. -/
def step (s : State τ ε) : Action τ ε → State τ ε
  | .prepare tokens staged next fetching =>
    match s.join with
    | .error _ => { s with future := none }
    | .ok () =>
      let t := E.submit s tokens staged next fetching
      { s with pending := none, future := some none, workQueue := s.workQueue ++ [t] }
  | .prepareDummy =>
    match s.join with
    | .error _ => { s with future := none }
    | .ok () => { s with pending := none, future := none }
  | .run => E.run s

/-- Before the first step. -/
def start : State τ ε where
  pending := none
  stats := (0, 0)
  warned := false
  future := none
  workQueue := []
  ended := []
  log := []

def system : System (State τ ε) (Action τ ε) where
  init s := s = start
  step s a := some (E.step s a)

end Tables

end LlmkubeRuntimes.Engram.Task
