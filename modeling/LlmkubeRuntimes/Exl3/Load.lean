import LlmkubeRuntimes.Lib.PyText
import LlmkubeRuntimes.Lib.System

/-!
# Loading the checkpoint

`Engine.load` guards itself in one critical section, loads without the lock and
records the result in another. Each call is a process; the two critical
sections and each assignment in between are its steps.

* `Loader`: the fields of `Engine` that loading and the readers use. An
  attribute holds the number of the load whose object it is;
* `Phase`: where a call of `load` stands;
* `Sound`: what a reader may rely on;
* `Alone`: a load passes the guard only while no other load is busy.
-/

namespace LlmkubeRuntimes.Exl3

open LlmkubeRuntimes.Lib

/-- `idle | loading | ready | failed` -/
inductive LoadStatus where
  | idle
  | loading
  | ready
  | failed
  deriving DecidableEq, Repr

def LoadStatus.text : LoadStatus → String
  | .idle => "idle"
  | .loading => "loading"
  | .ready => "ready"
  | .failed => "failed"

/-- A Python exception, as the handlers of the server tell them apart. -/
inductive Exc where
  | engineError (text : String)
  | other (cls text : String)
  deriving DecidableEq, Repr

/-- The attributes that `_load_locked` assigns. -/
inductive Attr where
  | model
  | cache
  | tokenizer
  | generator
  | modelName
  deriving DecidableEq, Repr

/-- Where a call of `Engine.load` stands. -/
inductive LoadPhase where
  /-- Before the first critical section. -/
  | called
  /-- In `_load_locked`, with the attributes it has still to assign. -/
  | loading (todo : List Attr)
  /-- In the handler of an `Exception`, before the second critical section. -/
  | raised (error : String)
  | ended
  deriving DecidableEq, Repr

/-- The load has passed the guard and not recorded its result. -/
def LoadPhase.busy : LoadPhase → Bool
  | .loading _ | .raised _ => true
  | _ => false

/-- What `_load_locked` raises. -/
inductive LoadError where
  /-- An `Exception`: the name of its class and its text. -/
  | exception (name text : String)
  /-- A `BaseException` that no handler of `load` takes. -/
  | baseException
  deriving DecidableEq, Repr

structure Loader where
  modelDir : String
  draftModelDir : String
  state : LoadStatus
  error : String
  /-- The load that assigned the attribute last. -/
  attr : Attr → Option Nat
  loads : List LoadPhase

namespace Loader

/-- `os.path.basename(model_dir.rstrip("/")) or "exllamav3"`. -/
def loadedName (modelDir : String) : String :=
  let base := baseName (modelDir.toList.rdropWhile (· = '/'))
  if base = [] then "exllamav3" else String.ofList base

/-- `self.model_name`. -/
def modelName (s : Loader) : String :=
  if (s.attr .modelName).isSome then loadedName s.modelDir else ""

/-! ## Reads -/

structure Snapshot where
  status : LoadStatus
  modelLoaded : Bool
  model : String
  modelDir : String
  draftModelDir : String
  error : String
  deriving DecidableEq, Repr

/-- `Engine.snapshot`. -/
def snapshot (s : Loader) : Snapshot where
  status := s.state
  modelLoaded := s.state = .ready
  model := s.modelName
  modelDir := s.modelDir
  draftModelDir := s.draftModelDir
  error := s.error

/-- `Engine.ready`. -/
def ready (s : Loader) : Bool := s.state = .ready

/-- What an engine that is not ready raises. -/
def notReady (s : Loader) : Exc :=
  .engineError ("model not ready (state=" ++ s.state.text ++ ": " ++ s.error ++ ")")

/-! ## Loads -/

/-- The assignments at the end of `_load_locked`, in order. -/
def assignments : List Attr := [.model, .cache, .tokenizer, .generator, .modelName]

def setLoad (s : Loader) (i : Nat) (p : LoadPhase) : Loader := { s with loads := s.loads.set i p }

def setAttr (s : Loader) (f : Attr) (i : Nat) : Loader :=
  { s with attr := fun g => if g = f then some i else s.attr g }

/-- The first critical section, past the guard. -/
def enter (s : Loader) (i : Nat) : Loader :=
  { s.setLoad i (.loading assignments) with state := .loading, error := "" }

/-- The second critical section of a load that succeeded. -/
def succeed (s : Loader) (i : Nat) : Loader := { s.setLoad i .ended with state := .ready }

/-- The second critical section of a load that failed. -/
def fail (s : Loader) (i : Nat) (error : String) : Loader :=
  { s.setLoad i .ended with state := .failed, error := error }

inductive LoadAct where
  /-- A thread calls `Engine.load`. -/
  | call
  /-- The first critical section of load `i`. -/
  | guard (i : Nat)
  /-- `_load_locked` of load `i` assigns its next attribute. -/
  | assign (i : Nat)
  /-- `_load_locked` of load `i` raises. -/
  | raise (i : Nat) (err : LoadError)
  /-- The second critical section of load `i`. -/
  | finish (i : Nat)
  deriving DecidableEq, Repr

/-- One step of load `i`, which stands at `p`. -/
def loadStep (s : Loader) (i : Nat) (p : LoadPhase) : LoadAct → Option Loader
  | .call => none
  | .guard _ =>
    if p = .called then
      if s.state = .ready then some (s.setLoad i .ended) else some (s.enter i)
    else none
  | .assign _ =>
    match p with
    | .loading (f :: todo) => some ((s.setAttr f i).setLoad i (.loading todo))
    | _ => none
  | .raise _ err =>
    match p, err with
    | .loading (_ :: _), .exception name text => some (s.setLoad i (.raised (name ++ ": " ++ text)))
    | .loading (_ :: _), .baseException => some (s.setLoad i .ended)
    | _, _ => none
  | .finish _ =>
    match p with
    | .loading [] => some (s.succeed i)
    | .raised error => some (s.fail i error)
    | _ => none

/-- The load a label is about. -/
def LoadAct.load? : LoadAct → Option Nat
  | .call => none
  | .guard i | .assign i | .raise i _ | .finish i => some i

def step (s : Loader) (a : LoadAct) : Option Loader :=
  match a.load? with
  | none => some { s with loads := s.loads ++ [.called] }
  | some i => (s.loads[i]?).bind fun p => s.loadStep i p a

/-- The engine as constructed, before any load. -/
def Idle (s : Loader) : Prop :=
  s.state = .idle ∧ s.error = "" ∧ (∀ f, s.attr f = none) ∧ s.loads = []

/-- All interleavings of any number of loads. -/
def system : System Loader LoadAct where
  init := Idle
  step := step

/-! ## What readers rely on -/

/-- `_load_locked` is in progress. -/
def InProgress (s : Loader) (i : Nat) : Prop := ∃ f todo, s.loads[i]? = some (.loading (f :: todo))

/-- All attributes are those of load `i`. -/
def From (s : Loader) (i : Nat) : Prop := ∀ f, s.attr f = some i

/-- A reader sees `ready`. -/
def SeenReady (s : Loader) : Prop := s.ready = true ∨ s.snapshot.status = .ready

structure Sound (s : Loader) : Prop where
  /-- At most one `_load_locked` is in progress. -/
  single : ∀ i j, s.InProgress i → s.InProgress j → i = j
  /-- A reader that sees `ready` finds the objects of one load and no error. -/
  whole : s.SeenReady → (∃ i, s.From i) ∧ s.snapshot.error = ""

/-- A load passes the guard only while no load is busy. -/
def Alone (s : Loader) : LoadAct → Prop
  | .guard _ => s.state ≠ .ready → ∀ p ∈ s.loads, p.busy = false
  | _ => True

instance (s : Loader) (a : LoadAct) : Decidable (Alone s a) := by
  unfold Alone
  cases a <;> infer_instance

end Loader

end LlmkubeRuntimes.Exl3
