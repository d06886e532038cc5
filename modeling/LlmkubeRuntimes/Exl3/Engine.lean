import Mathlib.Data.List.Basic
import LlmkubeRuntimes.Lib.System

/-!
# Streams over one generator

`Engine.stream` as a step function. Each call is a Python generator object: it
is created by the endpoint's `for chunk in engine.stream(...)`, starts at the
first `next`, holds `_generate_lock` until its body ends, and can be closed at
any `yield` (a disconnected client) or left through an exception.

* `Generator`: the job queue of `exllamav3.Generator`. What `iterate` returns
  is the library's choice, so it is part of the label; `Iterates` is what is
  assumed of it.
* `Stream`: one call of `Engine.stream`, its job and where its body stands.
* `Engine.step`: one step of one stream. `lock` is the holder of
  `_generate_lock`.
* `chunks` records every text chunk yielded, with the job that produced it.
-/

namespace LlmkubeRuntimes.Exl3

open LlmkubeRuntimes.Lib

/-! ## The generator library -/

abbrev Identifier := Nat

/-- The `identifier` argument of `Engine.stream` when the caller gives none. -/
def defaultIdentifier : Identifier := 0

/-- A queued job. `serial` is its identity as an object; the code never sees it. -/
structure Job where
  serial : Nat
  identifier : Identifier
  deriving DecidableEq, Repr

/-- One entry of the list `iterate` returns: its `identifier` and `text` keys,
and the serial of the job that produced it. -/
structure Result where
  job : Nat
  identifier : Option Identifier
  text : Option String
  deriving DecidableEq, Repr

/-- `result.get("text", "")`. -/
def Result.getText (r : Result) : String := r.text.getD ""

structure Generator where
  /-- Enqueued jobs that have not finished. -/
  jobs : List Job
  /-- Jobs enqueued so far. -/
  enqueued : Nat
  deriving DecidableEq, Repr

namespace Generator

def enqueue (g : Generator) (identifier : Identifier) : Generator :=
  { jobs := g.jobs ++ [⟨g.enqueued, identifier⟩], enqueued := g.enqueued + 1 }

def numRemainingJobs (g : Generator) : Nat := g.jobs.length

/-- The queue after the jobs in `ended` finished. -/
def finish (g : Generator) (ended : List Nat) : Generator :=
  { g with jobs := g.jobs.filter fun j => j.serial ∉ ended }

/-- What is assumed of `iterate`: every result comes from an unfinished job and
is tagged with that job's identifier. -/
def Iterates (g : Generator) (rs : List Result) : Prop :=
  ∀ r ∈ rs, ∃ j ∈ g.jobs, j.serial = r.job ∧ r.identifier = some j.identifier

instance (g : Generator) (rs : List Result) : Decidable (g.Iterates rs) :=
  inferInstanceAs (Decidable (∀ r ∈ rs, ∃ j ∈ g.jobs, j.serial = r.job ∧
    r.identifier = some j.identifier))

end Generator

/-! ## Streams -/

/-- Where the body of `Engine.stream` stands. -/
inductive Phase where
  /-- Created; the body has not run. -/
  | created
  /-- At `while self._generator.num_remaining_jobs()`. -/
  | polling
  /-- In the `for` loop, with the results not yet looked at. -/
  | looping (results : List Result)
  /-- Suspended at `yield text`, with the results after the yielded one. -/
  | yielded (results : List Result)
  /-- Returned, closed or left by an exception. -/
  | ended
  deriving DecidableEq, Repr

/-- One call of `Engine.stream`; `job` is the serial of the job it enqueued. -/
structure Stream where
  identifier : Identifier
  job : Option Nat
  phase : Phase
  deriving DecidableEq, Repr

/-- The call both endpoints make: no `identifier` argument. -/
def Stream.call : Stream := ⟨defaultIdentifier, none, .created⟩

/-- A text chunk handed to the consumer of stream `stream`. -/
structure Chunk where
  stream : Nat
  job : Nat
  text : String
  deriving DecidableEq, Repr

structure Engine where
  ready : Bool
  /-- The stream that holds `_generate_lock`. -/
  lock : Option Nat
  generator : Generator
  streams : List Stream
  chunks : List Chunk
  deriving DecidableEq, Repr

namespace Engine

/-- A loaded engine before its first request. -/
def loaded : Engine := ⟨true, none, ⟨[], 0⟩, [], []⟩

def setStream (e : Engine) (i : Nat) (s : Stream) : Engine := { e with streams := e.streams.set i s }

/-- The body of stream `i` ends: `with self._generate_lock` is left. -/
def release (e : Engine) (i : Nat) (s : Stream) : Engine :=
  { e.setStream i { s with phase := .ended } with lock := none }

inductive Act where
  /-- An endpoint calls `engine.stream`. -/
  | call
  /-- First `next` of stream `i`: the lock is taken and the job enqueued. -/
  | start (i : Nat)
  /-- First `next` of stream `i` raises before `enqueue` returns. -/
  | startFails (i : Nat)
  /-- The `while` test of stream `i` finds no remaining job. -/
  | finish (i : Nat)
  /-- `iterate` returns `results`; the jobs in `ended` finish. -/
  | iterate (i : Nat) (results : List Result) (ended : List Nat)
  /-- `iterate` raises; the jobs in `ended` finish. -/
  | iterateRaises (i : Nat) (ended : List Nat)
  /-- The `for` loop of stream `i` takes its next result, if there is one. -/
  | result (i : Nat)
  /-- The consumer asks stream `i` for its next chunk. -/
  | resume (i : Nat)
  /-- The consumer closes stream `i`. -/
  | close (i : Nat)
  deriving DecidableEq, Repr

/-- The body of the `for` loop on one result. -/
def onResult (e : Engine) (i : Nat) (s : Stream) (r : Result) (rest : List Result) : Engine :=
  if r.identifier ≠ some s.identifier then e.setStream i { s with phase := .looping rest }
  else if r.getText = "" then e.setStream i { s with phase := .looping rest }
  else { e.setStream i { s with phase := .yielded rest } with
    chunks := e.chunks ++ [⟨i, r.job, r.getText⟩] }

/-- One step of stream `i`, which stands at `s`. -/
def streamStep (e : Engine) (i : Nat) (s : Stream) : Act → Option Engine
  | .start _ =>
    if s.phase = .created ∧ e.ready ∧ e.lock = none then
      some { e.setStream i { s with job := some e.generator.enqueued, phase := .polling } with
        lock := some i, generator := e.generator.enqueue s.identifier }
    else none
  | .startFails _ =>
    if s.phase = .created then some (e.setStream i { s with phase := .ended }) else none
  | .finish _ =>
    if s.phase = .polling ∧ e.generator.numRemainingJobs = 0 then some (e.release i s) else none
  | .iterate _ rs done =>
    if s.phase = .polling ∧ e.generator.numRemainingJobs ≠ 0 ∧ e.generator.Iterates rs then
      some { e.setStream i { s with phase := .looping rs } with generator := e.generator.finish done }
    else none
  | .iterateRaises _ done =>
    if s.phase = .polling ∧ e.generator.numRemainingJobs ≠ 0 then
      some { e.release i s with generator := e.generator.finish done }
    else none
  | .result _ =>
    match s.phase with
    | .looping [] => some (e.setStream i { s with phase := .polling })
    | .looping (r :: rest) => some (e.onResult i s r rest)
    | _ => none
  | .resume _ =>
    match s.phase with
    | .yielded rest => some (e.setStream i { s with phase := .looping rest })
    | _ => none
  | .close _ =>
    match s.phase with
    | .created => some (e.setStream i { s with phase := .ended })
    | .yielded _ => some (e.release i s)
    | _ => none
  | .call => none

/-- The stream a label is about. -/
def Act.stream? : Act → Option Nat
  | .call => none
  | .start i | .startFails i | .finish i | .iterate i _ _ | .iterateRaises i _ | .result i
  | .resume i | .close i => some i

def step (e : Engine) (a : Act) : Option Engine :=
  match a.stream? with
  | none => some { e with streams := e.streams ++ [Stream.call] }
  | some i => (e.streams[i]?).bind fun s => e.streamStep i s a

/-- All runs of the streaming endpoints over one loaded engine. -/
def system : System Engine Act where
  init e := e = loaded
  step := step

end Engine

end LlmkubeRuntimes.Exl3
