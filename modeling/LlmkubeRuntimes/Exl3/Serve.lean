import Mathlib.Data.Rat.Defs
import LlmkubeRuntimes.Exl3.Engine
import LlmkubeRuntimes.Exl3.Tokens
import LlmkubeRuntimes.Lib.Json

/-!
# The completion endpoints

`/v1/completions` and `/v1/chat/completions`: what a request is answered, for
everything the library may do while the answer is generated.

* `Library`: what the calls of exllamav3 return or raise in one `Engine.stream`;
* `stream`, `generate`: the text of an answer and the exception it ends with;
* `Format`: the fields in which the two endpoints differ, which are otherwise
  the same code twice;
* `genBody`: the events of a streamed answer. `raised` is an exception that
  leaves the generator, which breaks the body off;
* `respond`: the answer to a request that passed the checks.
-/

namespace LlmkubeRuntimes.Exl3

open LlmkubeRuntimes.Lib

/-! ## Generation -/

/-- The arguments of `Engine.generate` and `Engine.stream`. -/
structure GenArgs where
  prompt : String
  maxNewTokens : Nat
  temperature : ℚ
  topP : ℚ

/-- What the library does in one call of `Engine.stream`. -/
structure Library where
  /-- Raised while the job is built and enqueued. -/
  setup : Option Exc
  /-- What successive calls of `iterate` return. -/
  rounds : List (List Result)
  /-- Raised after those; if nothing is, no job remains. -/
  stop : Option Exc

/-- The chunks that the body of `Engine.stream` yields for one list of results. -/
def chunksOf (identifier : Identifier) (results : List Result) : List String :=
  results.filterMap fun r =>
    if r.identifier ≠ some identifier then none
    else if r.getText = "" then none
    else some r.getText

/-- The chunks yielded by `Engine.stream` and the exception that ended it. -/
structure Generated where
  chunks : List String
  raised : Option Exc

/-- `lib` is what the library does with the job of `prompt`. -/
def stream (e : EngineStatus) (prompt : String) (lib : List TokenId → Library) : Generated :=
  match e.inputIds prompt with
  | .error exc => ⟨[], some exc⟩
  | .ok ids =>
    match (lib ids).setup with
    | some exc => ⟨[], some exc⟩
    | none => ⟨(lib ids).rounds.flatMap (chunksOf defaultIdentifier), (lib ids).stop⟩

/-- `Engine.generate`, where the library's generator returns or raises `out`. -/
def generate (e : EngineStatus) (prompt : String) (out : List TokenId → Except Exc String) :
    Except Exc String :=
  match e.promptIds prompt with
  | .error exc => .error exc
  | .ok ids => out ids

/-- `_usage` -/
def usage (e : EngineStatus) (prompt completion : String) : Json :=
  let promptTokens := e.promptTokens prompt
  let completionTokens := e.countTokens completion
  .obj [("prompt_tokens", .int promptTokens), ("completion_tokens", .int completionTokens),
    ("total_tokens", .int (promptTokens + completionTokens))]

/-! ## The two formats -/

/-- What an endpoint writes in its answers. -/
structure Format where
  /-- The `object` field of events. -/
  chunkObject : String
  /-- The `object` field of an answer that is not streamed. -/
  object : String
  /-- The choice of a chunk event. -/
  chunk : String → Json
  /-- The choice of the final event. -/
  final : Json
  /-- The choice of an answer that is not streamed. -/
  choice : String → Json

/-- `/v1/completions` -/
def completionsFormat : Format where
  chunkObject := "text_completion"
  object := "text_completion"
  chunk text := .obj [("index", .int 0), ("text", .str text)]
  final := .obj [("index", .int 0), ("text", .str ""), ("finish_reason", .str "stop")]
  choice text := .obj [("index", .int 0), ("text", .str text), ("finish_reason", .str "stop")]

/-- `/v1/chat/completions` -/
def chatFormat : Format where
  chunkObject := "chat.completion.chunk"
  object := "chat.completion"
  chunk text := .obj [("index", .int 0), ("delta", .obj [("content", .str text)])]
  final := .obj [("index", .int 0), ("delta", .obj []), ("finish_reason", .str "stop")]
  choice text := .obj [("index", .int 0),
    ("message", .obj [("role", .str "assistant"), ("content", .str text)]),
    ("finish_reason", .str "stop")]

inductive Endpoint where
  | completions
  | chatCompletions
  deriving DecidableEq, Repr

def Endpoint.format : Endpoint → Format
  | .completions => completionsFormat
  | .chatCompletions => chatFormat

/-- The fields that identify an answer. -/
structure Head where
  id : String
  created : Nat
  model : String

def Head.members (head : Head) (object : String) : List (String × Json) :=
  [("id", .str head.id), ("object", .str object), ("created", .int head.created),
    ("model", .str head.model)]

/-! ## Streamed answers -/

/-- A server-sent event. -/
inductive Sse where
  /-- `_sse(payload)` -/
  | data (payload : Json)
  /-- `data: [DONE]` -/
  | done

structure StreamBody where
  events : List Sse
  /-- The exception that left the generator. -/
  raised : Option Exc

section Stream

variable (fmt : Format) (head : Head)

/-- The chunk events; the first carries the identifying fields. -/
def chunkEvents : Bool → List String → List Json
  | _, [] => []
  | first, chunk :: chunks =>
    .obj (("choices", .arr [fmt.chunk chunk]) :: if first then head.members fmt.chunkObject else []) ::
      chunkEvents false chunks

def errorEvent (text : String) : Json :=
  .obj [("error", .obj [("message", .str text), ("type", .str "engine_error")])]

def usageEvent (usage : Json) : Json :=
  .obj (head.members fmt.chunkObject ++ [("choices", .arr []), ("usage", usage)])

def finalEvent : Json := .obj (head.members fmt.chunkObject ++ [("choices", .arr [fmt.final])])

/-- The generator `gen` of a streaming request. -/
def genBody (wantUsage : Bool) (usage : String → Json) (g : Generated) : StreamBody :=
  let chunks := chunkEvents fmt head true g.chunks
  let rest := (if wantUsage then [usageEvent fmt head (usage (String.join g.chunks))] else []) ++
    [finalEvent fmt head]
  match g.raised with
  | none => ⟨(chunks ++ rest).map .data ++ [.done], none⟩
  | some (.engineError text) => ⟨(chunks ++ errorEvent text :: rest).map .data ++ [.done], none⟩
  | some (.other cls text) => ⟨chunks.map .data, some (.other cls text)⟩

end Stream

/-! ## Requests -/

inductive Response where
  /-- `HTTPException(status_code=status, detail=detail)` -/
  | httpError (status : Nat) (detail : String)
  | json (body : Json)
  | eventStream (body : StreamBody)
  /-- No handler takes the exception. -/
  | unhandled (exc : Exc)

/-- What a request meets: the engine when it is checked and when the text is generated, the
library and the clock. -/
structure Env where
  checked : Loader
  engine : EngineStatus
  lib : GenArgs → List TokenId → Library
  out : GenArgs → List TokenId → Except Exc String
  uuid : String
  time : Nat

/-- The answer to a request that passed the checks. -/
def respond (endpoint : Endpoint) (env : Env) (head : Head) (args : GenArgs)
    (streaming wantUsage : Bool) : Response :=
  let usage := usage env.engine args.prompt
  if streaming then
    .eventStream (genBody endpoint.format head wantUsage usage
      (stream env.engine args.prompt (env.lib args)))
  else
    match generate env.engine args.prompt (env.out args) with
    | .ok text =>
      .json (.obj (head.members endpoint.format.object ++
        [("choices", .arr [endpoint.format.choice text]), ("usage", usage text)]))
    | .error (.engineError text) => .httpError 503 text
    | .error exc => .unhandled exc

/-- `_require_ready` -/
def requireReady (e : Loader) : Except (Nat × String) Unit :=
  if e.ready then .ok ()
  else .error (503, "model not ready: status=" ++ e.snapshot.status.text ++ " error=" ++
    if e.snapshot.error = "" then "none" else e.snapshot.error)

/-- `prompt: str | list[str]` -/
inductive Prompt where
  | one (text : String)
  | many (texts : List String)

def singlePrompt : Prompt → Except (Nat × String) String
  | .one text => .ok text
  | .many [text] => .ok text
  | .many _ =>
    .error (400, "multiple prompts per request are not supported; send one prompt at a time")

structure CompletionRequest where
  model : Option String
  prompt : Prompt
  maxTokens : Nat
  temperature : ℚ
  topP : ℚ
  stream : Bool
  /-- `include_usage` of the `stream_options`, if there are any. -/
  streamOptions : Option Bool

structure ChatRequest where
  model : Option String
  maxTokens : Nat
  temperature : ℚ
  topP : ℚ
  stream : Bool
  streamOptions : Option Bool

/-- `_wants_usage` -/
def wantsUsage (streamOptions : Option Bool) : Bool := streamOptions.getD false

/-- `req.model or engine.model_name` -/
def modelOr (model : Option String) (e : Loader) : String :=
  match model with
  | some name => if name = "" then e.modelName else name
  | none => e.modelName

/-- The checks of `completions`. -/
def CompletionRequest.args (env : Env) (req : CompletionRequest) :
    Except (Nat × String) GenArgs := do
  requireReady env.checked
  let prompt ← singlePrompt req.prompt
  .ok ⟨prompt, req.maxTokens, req.temperature, req.topP⟩

def completions (env : Env) (req : CompletionRequest) : Response :=
  match req.args env with
  | .error (status, detail) => .httpError status detail
  | .ok args =>
    respond .completions env ⟨"cmpl-" ++ env.uuid, env.time, modelOr req.model env.checked⟩ args
      req.stream (wantsUsage req.streamOptions)

/-- The checks of `chat_completions`; `renderer` and `rendered` are what building the renderer and
rendering the messages raise or return. -/
def ChatRequest.args (env : Env) (renderer : Except String Unit) (rendered : Except String String)
    (req : ChatRequest) : Except (Nat × String) GenArgs := do
  requireReady env.checked
  match renderer with
  | .error text => .error (500, "chat template unavailable: " ++ text)
  | .ok () =>
    match rendered with
    | .error text => .error (400, text)
    | .ok prompt => .ok ⟨prompt, req.maxTokens, req.temperature, req.topP⟩

def chatCompletions (env : Env) (renderer : Except String Unit) (rendered : Except String String)
    (req : ChatRequest) : Response :=
  match req.args env renderer rendered with
  | .error (status, detail) => .httpError status detail
  | .ok args =>
    respond .chatCompletions env ⟨"chatcmpl-" ++ env.uuid, env.time, modelOr req.model env.checked⟩
      args req.stream (wantsUsage req.streamOptions)

end LlmkubeRuntimes.Exl3
