import LlmkubeRuntimes.Exl3.Serve

/-!
# Every request is answered

* `Sse.kind`, `Sse.chunkText`: a client's reading of an event;
* `WellFormed`: a complete body, in order, whose usage counts its own text;
* `Proper`: the answer to a request, streamed or not, however generation ends;
* `Escapes`: the library raises something that is not an `EngineError`. The
  endpoints handle no other exception, so these are the requests that are not
  answered.
-/

namespace LlmkubeRuntimes.Exl3

open LlmkubeRuntimes.Lib

/-! ## Reading a body -/

inductive EventKind where
  | chunk
  | error
  | usage
  | final
  | done
  deriving DecidableEq, Repr

/-- The first choice of a payload. -/
def choice? (payload : Json) : Option Json := (payload.get? "choices").bind Json.head?

/-- What a client takes an event for, by the fields it carries. -/
def Sse.kind : Sse → EventKind
  | .done => .done
  | .data payload =>
    if (payload.get? "error").isSome then .error
    else if (payload.get? "usage").isSome then .usage
    else if ((choice? payload).bind (Json.get? "finish_reason")).isSome then .final
    else .chunk

/-- Where an endpoint puts the text of a choice. -/
def Endpoint.text? : Endpoint → Json → Option String
  | .completions, choice => (choice.get? "text").bind Json.str?
  | .chatCompletions, choice => ((choice.get? "delta").bind (Json.get? "content")).bind Json.str?

/-- The text of a chunk event. -/
def Sse.chunkText (endpoint : Endpoint) (e : Sse) : Option String :=
  match e with
  | .done => none
  | .data payload => if e.kind = .chunk then (choice? payload).bind endpoint.text? else none

/-- The usage object of an event. -/
def Sse.usage? : Sse → Option Json
  | .done => none
  | .data payload => payload.get? "usage"

/-! ## Well-formed answers -/

/-- The body of a streamed answer whose text was generated in `chunks`. -/
structure WellFormed (endpoint : Endpoint) (wantUsage : Bool) (usageOf : String → Json)
    (chunks : List String) (body : StreamBody) : Prop where
  /-- No exception breaks the body off. -/
  complete : body.raised = none
  /-- The chunks in order, at most one error, the usage exactly when it is requested, one final
  event and one `[DONE]`. -/
  kinds : ∃ errors, (errors = [] ∨ errors = [EventKind.error]) ∧
    body.events.map Sse.kind = chunks.map (fun _ => .chunk) ++ errors ++
      (if wantUsage then [.usage] else []) ++ [.final, .done]
  texts : body.events.filterMap (Sse.chunkText endpoint) = chunks
  /-- The usage event counts the text that the chunks make up. -/
  usage : ∀ e ∈ body.events, e.kind = .usage →
    e.usage? = some (usageOf (String.join (body.events.filterMap (Sse.chunkText endpoint))))

/-- What a request that passed the checks is to be answered. -/
def Proper (endpoint : Endpoint) (env : Env) (args : GenArgs) (streaming wantUsage : Bool)
    (response : Response) : Prop :=
  if streaming then
    ∃ body, response = .eventStream body ∧
      WellFormed endpoint wantUsage (usage env.engine args.prompt)
        (stream env.engine args.prompt (env.lib args)).chunks body
  else
    match generate env.engine args.prompt (env.out args) with
    | .ok text => ∃ body, response = .json body ∧
        body.get? "usage" = some (usage env.engine args.prompt text) ∧
        (choice? body).isSome
    | .error _ => ∃ detail, response = .httpError 503 detail

/-- The exception that ends the generation of a ready engine. -/
def Library.raises (lib : Library) : Option Exc :=
  match lib.setup with
  | some exc => some exc
  | none => lib.stop

/-- The engine is ready, and for its tokens of the prompt the library raises an exception that is
not an `EngineError`. -/
def Escapes (env : Env) (args : GenArgs) (streaming : Bool) : Prop :=
  ∃ ids cls text,
    if streaming then env.engine.inputIds args.prompt = .ok ids ∧
      (env.lib args ids).raises = some (.other cls text)
    else env.engine.promptIds args.prompt = .ok ids ∧ env.out args ids = .error (.other cls text)

/-! ## The events of a body -/

section Events

variable (endpoint : Endpoint) (head : Head)

theorem kind_chunkEvents (first : Bool) (chunks : List String) :
    ((chunkEvents endpoint.format head first chunks).map Sse.data).map Sse.kind =
      chunks.map fun _ => EventKind.chunk := by
  induction chunks generalizing first with
  | nil => rfl
  | cons chunk chunks ih =>
    rw [chunkEvents, List.map_cons, List.map_cons, ih, List.map_cons]
    congr 1
    cases endpoint <;> cases first <;> rfl

theorem text_chunkEvents (first : Bool) (chunks : List String) :
    ((chunkEvents endpoint.format head first chunks).map Sse.data).filterMap
      (Sse.chunkText endpoint) = chunks := by
  induction chunks generalizing first with
  | nil => rfl
  | cons chunk chunks ih =>
    have hchunk : Sse.chunkText endpoint (.data (.obj (("choices", .arr [endpoint.format.chunk chunk]) ::
        if first then head.members endpoint.format.chunkObject else []))) = some chunk := by
      cases endpoint <;> cases first <;> rfl
    rw [chunkEvents, List.map_cons, List.filterMap_cons_some hchunk, ih]

theorem kind_finalEvent : (Sse.data (finalEvent endpoint.format head)).kind = .final := by
  cases endpoint <;> rfl

theorem usage_usageEvent (usage : Json) :
    (Sse.data (usageEvent endpoint.format head usage)).usage? = some usage := rfl

/-- Only chunk events carry text. -/
theorem chunkText_of_kind {e : Sse} (h : e.kind ≠ .chunk) : e.chunkText endpoint = none := by
  cases e with
  | done => rfl
  | data payload => exact if_neg h

end Events

/-! ## Which answers are proper -/

section Body

variable (endpoint : Endpoint) (head : Head) (wantUsage : Bool) (usageOf : String → Json)

/-- What `gen` yields after the chunks and the error, if there is one. -/
def tailEvents (chunks : List String) : List Json :=
  (if wantUsage then [usageEvent endpoint.format head (usageOf (String.join chunks))] else []) ++
    [finalEvent endpoint.format head]

theorem kind_tailEvents (chunks : List String) :
    ((tailEvents endpoint head wantUsage usageOf chunks).map Sse.data).map Sse.kind =
      (if wantUsage then [EventKind.usage] else []) ++ [.final] := by
  cases wantUsage <;> cases endpoint <;> rfl

/-- Events without text leave the text of a body alone. -/
theorem text_of_kinds {es : List Sse} (h : ∀ e ∈ es, e.kind ≠ .chunk) :
    es.filterMap (Sse.chunkText endpoint) = [] :=
  List.filterMap_eq_nil_iff.2 fun e he => chunkText_of_kind endpoint (h e he)

/-- **A body that is not broken off is well formed**, with or without an error event. -/
theorem wellFormed_body (chunks : List String) {errors : List Json}
    (herrors : errors = [] ∨ ∃ text, errors = [errorEvent text]) :
    WellFormed endpoint wantUsage usageOf chunks
      ⟨(chunkEvents endpoint.format head true chunks ++
        (errors ++ tailEvents endpoint head wantUsage usageOf chunks)).map .data ++ [.done], none⟩ := by
  have hkinds : (errors.map Sse.data).map Sse.kind = [] ∨
      (errors.map Sse.data).map Sse.kind = [EventKind.error] := by
    rcases herrors with rfl | ⟨text, rfl⟩
    · exact .inl rfl
    · exact .inr rfl
  have htail : ∀ e ∈ (errors ++ tailEvents endpoint head wantUsage usageOf chunks).map Sse.data ++
      [Sse.done], e.kind ≠ .chunk := by
    intro e he hkind
    have hmem := List.mem_map_of_mem (f := Sse.kind) he
    rw [hkind, List.map_append, List.map_append, List.map_append, kind_tailEvents] at hmem
    rcases hkinds with hk | hk <;> rw [hk] at hmem <;> cases wantUsage <;> revert hmem <;> decide
  have htexts : (((chunkEvents endpoint.format head true chunks ++
      (errors ++ tailEvents endpoint head wantUsage usageOf chunks)).map Sse.data) ++
        [Sse.done]).filterMap (Sse.chunkText endpoint) = chunks := by
    rw [List.map_append, List.append_assoc, List.filterMap_append, text_chunkEvents,
      text_of_kinds endpoint htail, List.append_nil]
  refine ⟨rfl, ⟨_, hkinds, ?_⟩, htexts, fun e he hkind => ?_⟩
  · simp only [List.map_append, kind_chunkEvents, kind_tailEvents, List.append_assoc]
    rfl
  · rw [htexts]
    have hchunk : e ∉ (chunkEvents endpoint.format head true chunks).map Sse.data := fun hmem => by
      have := List.mem_map_of_mem (f := Sse.kind) hmem
      rw [hkind, kind_chunkEvents] at this
      obtain ⟨_, -, h⟩ := List.mem_map.1 this
      cases h
    have herror : e ∉ errors.map Sse.data := fun hmem => by
      have := List.mem_map_of_mem (f := Sse.kind) hmem
      rcases hkinds with hk | hk <;> rw [hk, hkind] at this <;> revert this <;> decide
    -- So it is the one that the tail holds.
    simp only [List.map_append, List.mem_append, hchunk, herror, false_or, List.mem_singleton] at he
    rcases he with he | rfl
    · rw [tailEvents, List.map_append, List.mem_append] at he
      rcases he with he | he
      · cases wantUsage with
        | false => cases he
        | true =>
          rw [List.mem_singleton.1 he]
          exact usage_usageEvent endpoint head _
      · rw [List.mem_singleton.1 he, kind_finalEvent] at hkind
        cases hkind
    · cases hkind

/-- **The body is well formed exactly when no foreign exception ends the generation.** -/
theorem genBody_wellFormed_iff (g : Generated) :
    WellFormed endpoint wantUsage usageOf g.chunks
        (genBody endpoint.format head wantUsage usageOf g) ↔
      ∀ cls text, g.raised ≠ some (.other cls text) := by
  obtain ⟨chunks, raised⟩ := g
  rcases raised with - | text | ⟨cls, text⟩
  · exact iff_of_true (wellFormed_body endpoint head wantUsage usageOf chunks (.inl rfl))
      (by rintro cls text ⟨⟩)
  · exact iff_of_true (wellFormed_body endpoint head wantUsage usageOf chunks (.inr ⟨text, rfl⟩))
      (by rintro cls text ⟨⟩)
  · exact iff_of_false (fun h => by cases h.complete) fun h => h cls text rfl

end Body

/-- What the engine raises itself is an `EngineError`. -/
theorem not_ready_of_error {e : EngineStatus} {prompt : String} {exc : Exc}
    (h : e.inputIds prompt = .error exc ∨ e.promptIds prompt = .error exc) :
    exc = e.notReady := by
  unfold EngineStatus.inputIds EngineStatus.promptIds at h
  by_cases hready : e.ready = true
  · simp [hready] at h
  · simpa [hready, eq_comm] using h

theorem stream_raised (e : EngineStatus) (prompt : String) (lib : List TokenId → Library)
    (cls text : String) :
    (stream e prompt lib).raised = some (.other cls text) ↔
      ∃ ids, e.inputIds prompt = .ok ids ∧ (lib ids).raises = some (.other cls text) := by
  unfold stream
  cases hids : e.inputIds prompt with
  | error exc =>
    rw [not_ready_of_error (.inl hids)]
    simp [Loader.notReady]
  | ok ids =>
    simp only [Except.ok.injEq, exists_eq_left', Library.raises]
    cases (lib ids).setup <;> simp

/-- **A request that passed the checks is answered properly exactly when no foreign exception
escapes from the library.** -/
theorem respond_proper_iff (endpoint : Endpoint) (env : Env) (head : Head) (args : GenArgs)
    (streaming wantUsage : Bool) :
    Proper endpoint env args streaming wantUsage
        (respond endpoint env head args streaming wantUsage) ↔ ¬ Escapes env args streaming := by
  cases streaming with
  | true =>
    have hbody := genBody_wellFormed_iff endpoint head wantUsage
      (usage env.engine args.prompt) (stream env.engine args.prompt (env.lib args))
    have hescapes : Escapes env args true ↔
        ∃ cls text, (stream env.engine args.prompt (env.lib args)).raised =
          some (.other cls text) := by
      simp only [Escapes, stream_raised, if_true]
      exact ⟨fun ⟨ids, cls, text, h⟩ => ⟨cls, text, ids, h⟩,
        fun ⟨cls, text, ids, h⟩ => ⟨ids, cls, text, h⟩⟩
    rw [hescapes, not_exists]
    simp only [not_exists]
    rw [← hbody]
    constructor
    · rintro ⟨body, hresp, hwell⟩
      cases hresp
      exact hwell
    · exact fun h => ⟨_, rfl, h⟩
  | false =>
    simp only [Proper, respond, Escapes, Bool.false_eq_true, if_false, generate]
    cases hids : env.engine.promptIds args.prompt with
    | error exc =>
      rw [not_ready_of_error (.inr hids)]
      simp [Loader.notReady]
    | ok ids =>
      simp only [Except.ok.injEq, exists_and_left, exists_eq_left']
      rcases env.out args ids with (text | ⟨cls, text⟩) | text
      · simp
      · simp
      · refine iff_of_true ⟨_, rfl, ?_, ?_⟩ (by simp)
        · cases endpoint <;> rfl
        · cases endpoint <;> rfl

/-! ## The endpoints -/

/-- **Every request that passes the checks is answered properly, unless the library raises
something that is not an `EngineError`.** -/
theorem answers_proper (env : Env) (args : GenArgs) :
    (∀ req : CompletionRequest, req.args env = .ok args →
      (Proper .completions env args req.stream (wantsUsage req.streamOptions)
        (completions env req) ↔ ¬ Escapes env args req.stream)) ∧
    ∀ (req : ChatRequest) (renderer : Except String Unit) (rendered : Except String String),
      req.args env renderer rendered = .ok args →
      (Proper .chatCompletions env args req.stream (wantsUsage req.streamOptions)
        (chatCompletions env renderer rendered req) ↔ ¬ Escapes env args req.stream) := by
  refine ⟨fun req hreq => ?_, fun req renderer rendered hreq => ?_⟩
  · rw [completions, hreq]
    exact respond_proper_iff _ _ _ _ _ _
  · rw [chatCompletions, hreq]
    exact respond_proper_iff _ _ _ _ _ _

/-- A loaded engine whose library yields one chunk and then does `stop`. -/
def oneChunk (stop : Option Exc) : Env where
  checked := loadedOnce
  engine := userEngine
  lib _ _ := ⟨none, [[⟨0, some 0, some "a"⟩]], stop⟩
  out _ _ := match stop with
    | some exc => .error exc
    | none => .ok "a"
  uuid := "0"
  time := 0

def streamed : CompletionRequest := ⟨none, .one "p", 16, 0, 1, true, some true⟩

def notStreamed : ChatRequest := ⟨none, 16, 0, 1, false, none⟩

theorem answers_proper_oneChunk :
    Proper .completions (oneChunk none) ⟨"p", 16, 0, 1⟩ true true
        (completions (oneChunk none) streamed) ∧
      Proper .chatCompletions (oneChunk none) ⟨"p", 16, 0, 1⟩ false false
        (chatCompletions (oneChunk none) (.ok ()) (.ok "p") notStreamed) := by
  have hno : ∀ streaming, ¬ Escapes (oneChunk none) ⟨"p", 16, 0, 1⟩ streaming := by
    rintro streaming ⟨ids, cls, text, h⟩
    cases streaming <;> cases h.2
  exact ⟨((answers_proper (oneChunk none) ⟨"p", 16, 0, 1⟩).1 streamed rfl).2 (hno true),
    ((answers_proper (oneChunk none) ⟨"p", 16, 0, 1⟩).2 notStreamed (.ok ()) (.ok "p") rfl).2
      (hno false)⟩

/-- `iterate` runs out of memory after one chunk: the body ends without a final event and without
`[DONE]`, and a request that is not streamed meets an exception that no handler takes. -/
theorem out_of_memory_unanswered :
    (∃ body, completions (oneChunk (some (.other "OutOfMemoryError" "CUDA out of memory"))) streamed =
        .eventStream body ∧ body.events.map Sse.kind = [.chunk] ∧
          body.raised = some (.other "OutOfMemoryError" "CUDA out of memory")) ∧
      chatCompletions (oneChunk (some (.other "OutOfMemoryError" "CUDA out of memory"))) (.ok ())
        (.ok "p") notStreamed = .unhandled (.other "OutOfMemoryError" "CUDA out of memory") ∧
      ¬ Proper .completions (oneChunk (some (.other "OutOfMemoryError" "CUDA out of memory")))
        ⟨"p", 16, 0, 1⟩ true true
        (completions (oneChunk (some (.other "OutOfMemoryError" "CUDA out of memory"))) streamed) := by
  refine ⟨⟨_, rfl, rfl, rfl⟩, rfl, fun ⟨body, hbody, hwell⟩ => ?_⟩
  cases hbody
  cases hwell.complete

end LlmkubeRuntimes.Exl3
