import LlmkubeRuntimes.Lib.Find
import LlmkubeRuntimes.Lib.Spans

/-!
# Stop strings while reasoning

Where the prompt ends in the start marker of reasoning, a client's stop strings
are dormant until the end marker is in the text, whatever the chunks are that the
text comes in.

* `reasoningStopMarkers`, `suppressStopsEnabled`, `maybeEnableReasoningStopGuard`:
  when the guard is armed;
* `TokenLoop`: what the base does with a chunk's tokens, before stop strings are evaluated;
* `Detokenizer.update`: a chunk's tokens and the evaluation of stop strings;
* `run`: chunks up to a stop;
* `stops_behind_reasoning`: stop strings are looked for in all text behind the first
  end marker and in no other.
-/

namespace LlmkubeRuntimes.Glm53

open LlmkubeRuntimes.Lib

/-- What the detokenizer of a request keeps. `checked` records the parts of the text that were
looked for stop strings as new. -/
structure Detokenizer where
  outputText : List Char
  numOutputTokens : Nat
  minTokens : Nat
  stop : List (List Char)
  reasoningStopGuard : Bool
  reasoningClosed : Bool
  reasoningEndStr : List Char
  checked : List Span

/-- What arming the guard asks the tokenizer; a tokenizer may lack either function, and `encode` may
raise or give no list of ids. -/
structure Tokenizer where
  convertTokensToIds : Option (List Char → Option Int)
  encode : Option (List Char → Option (List Int))

structure StopRequest where
  stop : List (List Char)
  promptTokenIds : List Int
  minTokens : Nat

/-! ## Arming -/

/-- The markers of the reasoning configuration, each unless it is empty. -/
def reasoningStopMarkers (config : Option (List Char × List Char)) : List Char × List Char :=
  let start := "<think>".toList
  let stop := "</think>".toList
  match config with
  | none => (start, stop)
  | some (s, e) => (if s = [] then start else s, if e = [] then stop else e)

/-- The first of the two variables that is set decides; the guard is on where neither is. -/
def suppressStopsEnabled (environ : String → Option String) : Bool :=
  match environ "GLM53_SUPPRESS_STOPS_IN_REASONING" with
  | some value => value ≠ "0"
  | none =>
    match environ "VLLM_SUPPRESS_STOPS_IN_REASONING" with
    | some value => value ≠ "0"
    | none => true

/-- The token of the start marker, if it is one. -/
def Tokenizer.thinkId (t : Tokenizer) (start : List Char) : Option Int :=
  let converted := t.convertTokensToIds.bind fun convert => convert start
  match converted with
  | some id => if 0 ≤ id then some id else encoded
  | none => encoded
where
  encoded : Option Int :=
    match t.encode.bind fun encode => encode start with
    | some [id] => some id
    | _ => none

def maybeEnableReasoningStopGuard (environ : String → Option String)
    (config : Option (List Char × List Char)) (t : Tokenizer) (r : StopRequest)
    (d : Detokenizer) : Detokenizer :=
  if suppressStopsEnabled environ = false then d
  else if d.stop = [] ∨ r.promptTokenIds = [] then d
  else
    let (startStr, endStr) := reasoningStopMarkers config
    match t.thinkId startStr with
    | some id =>
      if 0 ≤ id ∧ r.promptTokenIds.getLast? = some id then
        { d with reasoningStopGuard := true, reasoningEndStr := endStr }
      else d
    | none => d

/-- The detokenizer of a new request. -/
def fromNewRequest (environ : String → Option String) (config : Option (List Char × List Char))
    (t : Tokenizer) (r : StopRequest) : Detokenizer :=
  maybeEnableReasoningStopGuard environ config t r
    ⟨[], 0, r.minTokens, r.stop, false, false, "</think>".toList, []⟩

/-! ## Chunks -/

/-- What the base's loop over the tokens of a chunk leaves: the text and the number of tokens
behind it, and where the search for stop strings starts. -/
structure TokenLoop where
  outputText : Detokenizer → List (List Char) → List Char
  numOutputTokens : Detokenizer → List (List Char) → Nat
  stopCheckOffset : Detokenizer → List (List Char) → Nat

/-- For a request without `min_tokens` the loop appends the tokens' texts, and the search starts
where they do. -/
structure TokenLoop.Appends (loop : TokenLoop) : Prop where
  outputText : ∀ d chunk, d.minTokens = 0 →
    loop.outputText d chunk = d.outputText ++ chunk.flatten
  numOutputTokens : ∀ d chunk, d.minTokens = 0 →
    loop.numOutputTokens d chunk = d.numOutputTokens + chunk.length
  stopCheckOffset : ∀ d chunk, d.minTokens = 0 →
    loop.stopCheckOffset d chunk = d.outputText.length

section Update

variable {σ : Type} (loop : TokenLoop) (checkStopStrings : List Char → Nat → List (List Char) → Option σ)

/-- Close the reasoning if its end marker is there, with the offset that stop strings are looked for
from. -/
def Detokenizer.closeReasoning (d : Detokenizer) (stopCheckOffset : Nat) : Detokenizer × Nat :=
  if d.reasoningStopGuard = true ∧ d.reasoningClosed = false then
    let marker := d.reasoningEndStr
    -- A marker may have begun in the chunks before.
    let window := stopCheckOffset - (marker.length - 1)
    match findFrom marker d.outputText window with
    | some idx => ({ d with reasoningClosed := true }, max stopCheckOffset (idx + marker.length))
    | none => (d, stopCheckOffset)
  else (d, stopCheckOffset)

/-- A chunk of tokens' texts, and the stop that it completes. -/
def Detokenizer.update (d : Detokenizer) (chunk : List (List Char)) : Detokenizer × Option σ :=
  let stopCheckOffset := loop.stopCheckOffset d chunk
  let d := { d with
    outputText := loop.outputText d chunk
    numOutputTokens := loop.numOutputTokens d chunk }
  let (d, stopCheckOffset) := d.closeReasoning stopCheckOffset
  if d.stop ≠ [] ∧ d.minTokens < d.numOutputTokens ∧
      (d.reasoningStopGuard = false ∨ d.reasoningClosed = true) then
    ({ d with checked := d.checked ++ [⟨stopCheckOffset, d.outputText.length - stopCheckOffset⟩] },
      checkStopStrings d.outputText stopCheckOffset d.stop)
  else (d, none)

/-- Chunks up to one that completes a stop. -/
def run : Detokenizer → List (List (List Char)) → Detokenizer × Option σ
  | d, [] => (d, none)
  | d, chunk :: chunks =>
    match d.update loop checkStopStrings chunk with
    | (d, some stop) => (d, some stop)
    | (d, none) => run d chunks

end Update

/-! ## Where stop strings are looked for -/

/-- The checks so far: in all text behind the end of reasoning, none while it is open. -/
structure Looked (d : Detokenizer) : Prop where
  stop : d.stop ≠ []
  minTokens : d.minTokens = 0
  marker : d.reasoningEndStr ≠ []
  open_ : d.reasoningStopGuard = true → d.reasoningClosed = false →
    d.checked = [] ∧ ∀ i, ¬ IsAt d.reasoningEndStr d.outputText i
  closed : d.reasoningStopGuard = true → d.reasoningClosed = true →
    ∃ i, IsFirst d.reasoningEndStr d.outputText i ∧
      Consecutive (i + d.reasoningEndStr.length) d.checked d.outputText.length
  unguarded : d.reasoningStopGuard = false → Consecutive 0 d.checked d.outputText.length

section Proofs

variable {σ : Type} {loop : TokenLoop} {check : List Char → Nat → List (List Char) → Option σ}

/-- A chunk's text is appended, and what the guard is stays. -/
theorem update_frame (hloop : loop.Appends) {d : Detokenizer} (hmin : d.minTokens = 0)
    (chunk : List (List Char)) :
    (d.update loop check chunk).1.outputText = d.outputText ++ chunk.flatten ∧
      (d.update loop check chunk).1.reasoningStopGuard = d.reasoningStopGuard ∧
      (d.update loop check chunk).1.reasoningEndStr = d.reasoningEndStr := by
  rw [← hloop.outputText d chunk hmin]
  simp only [Detokenizer.update, Detokenizer.closeReasoning]
  split
  · split
    all_goals split <;> exact ⟨rfl, rfl, rfl⟩
  · split <;> exact ⟨rfl, rfl, rfl⟩

/-- **A chunk is looked at from where the reasoning ends**, and no stop completes before. -/
theorem looked_update (hloop : loop.Appends) {d : Detokenizer} (h : Looked d) {chunk : List (List Char)}
    (hchunk : chunk ≠ []) :
    Looked (d.update loop check chunk).1 ∧
      ((d.update loop check chunk).1.reasoningStopGuard = true →
        (d.update loop check chunk).1.reasoningClosed = false → (d.update loop check chunk).2 = none) := by
  have htokens : d.minTokens < d.numOutputTokens + chunk.length := by
    have hpos := List.length_pos_of_ne_nil hchunk
    rw [h.minTokens]
    omega
  have htext := hloop.outputText d chunk h.minTokens
  have hnum := hloop.numOutputTokens d chunk h.minTokens
  have hoffset := hloop.stopCheckOffset d chunk h.minTokens
  have hgrow : d.outputText.length ≤ (d.outputText ++ chunk.flatten).length := by
    rw [List.length_append]
    exact Nat.le_add_right _ _
  by_cases hguard : d.reasoningStopGuard = true
  · by_cases hclosed : d.reasoningClosed = true
    · obtain ⟨i, hfirst, hspans⟩ := h.closed hguard hclosed
      simp only [Detokenizer.update, htext, hnum, hoffset, Detokenizer.closeReasoning, hguard,
        hclosed, h.stop, htokens, ne_eq, not_false_eq_true, Bool.true_eq_false, and_false, if_false, or_true, and_self,
        if_true]
      refine ⟨⟨h.stop, h.minTokens, h.marker, fun _ hopen => absurd hopen (by simp), fun _ _ => ?_,
        fun hoff => absurd hoff (by simp)⟩, fun _ hopen => absurd hopen (by simp)⟩
      exact ⟨i, hfirst.append h.marker _, hspans.concat hgrow⟩
    · have hclosed := Bool.eq_false_iff.2 hclosed
      obtain ⟨hnone, hnot⟩ := h.open_ hguard hclosed
      have hwindow := findFrom_window h.marker hnot chunk.flatten
      simp only [Detokenizer.update, htext, hnum, hoffset, Detokenizer.closeReasoning, hguard,
        hclosed, and_self, if_true]
      cases hfind : findFrom d.reasoningEndStr (d.outputText ++ chunk.flatten)
          (d.outputText.length - (d.reasoningEndStr.length - 1)) with
      | none =>
        rw [hfind] at hwindow
        simp only [Bool.true_eq_false, Bool.false_eq_true, or_self, and_false, if_false]
        exact ⟨⟨h.stop, h.minTokens, h.marker, fun _ _ => ⟨hnone, hwindow⟩,
          fun _ hon => absurd hon (by simp), fun hoff => absurd hoff (by simp)⟩, fun _ _ => trivial⟩
      | some i =>
        rw [hfind] at hwindow
        obtain ⟨hfirst, hnew⟩ := hwindow
        simp only [h.stop, htokens, ne_eq, not_false_eq_true, or_true, and_self, if_true, hnone,
          List.nil_append, Nat.max_eq_right (Nat.le_of_lt hnew)]
        refine ⟨⟨h.stop, h.minTokens, h.marker, fun _ hopen => absurd hopen (by simp), fun _ _ => ?_,
          fun hoff => absurd hoff (by simp)⟩, fun _ hopen => absurd hopen (by simp)⟩
        have hle := hfirst.isAt.le_length h.marker
        exact ⟨i, hfirst, (Consecutive.nil _).concat hle⟩
  · have hguard := Bool.eq_false_iff.2 hguard
    simp only [Detokenizer.update, htext, hnum, hoffset, Detokenizer.closeReasoning, hguard,
      h.stop, htokens, ne_eq,
      not_false_eq_true, Bool.false_eq_true, false_and, if_false, true_or, and_self, if_true]
    refine ⟨⟨h.stop, h.minTokens, h.marker, fun hon => absurd hon (by simp),
      fun hon => absurd hon (by simp), fun _ => ?_⟩, fun hon => absurd hon (by simp)⟩
    exact (h.unguarded hguard).concat hgrow

/-- Chunks up to a stop, and all of them where none completes one. -/
theorem looked_run (hloop : loop.Appends) (chunks : List (List (List Char))) (hchunks : ∀ c ∈ chunks, c ≠ [])
    {d : Detokenizer} (h : Looked d) :
    Looked (run loop check d chunks).1 ∧
      (run loop check d chunks).1.reasoningStopGuard = d.reasoningStopGuard ∧
      (run loop check d chunks).1.reasoningEndStr = d.reasoningEndStr ∧
      ((run loop check d chunks).2 = none →
        (run loop check d chunks).1.outputText = d.outputText ++ chunks.flatten.flatten) ∧
      ((run loop check d chunks).1.reasoningStopGuard = true →
        (run loop check d chunks).1.reasoningClosed = false → (run loop check d chunks).2 = none) := by
  induction chunks generalizing d with
  | nil => exact ⟨h, rfl, rfl, fun _ => (List.append_nil _).symm, fun _ _ => rfl⟩
  | cons chunk chunks ih =>
    obtain ⟨hlooked, hopen⟩ := @looked_update σ loop check hloop d h chunk (hchunks chunk List.mem_cons_self)
    obtain ⟨htext, hguard, hmarker⟩ := @update_frame σ loop check hloop d h.minTokens chunk
    rw [run]
    cases hupdate : d.update loop check chunk with
    | mk d' stop =>
      rw [hupdate] at hlooked hopen htext hguard hmarker
      cases stop with
      | some s => exact ⟨hlooked, hguard, hmarker, fun hnone => absurd hnone (by simp), hopen⟩
      | none =>
        obtain ⟨hrest, hguard', hmarker', htext', hopen'⟩ :=
          ih (fun c hc => hchunks c (List.mem_cons_of_mem chunk hc)) hlooked
        refine ⟨hrest, hguard'.trans hguard, hmarker'.trans hmarker, fun hnone => ?_, hopen'⟩
        rw [htext' hnone, htext, List.flatten_cons, List.flatten_append, List.append_assoc]

end Proofs

/-- A new request has looked at nothing, and its end marker is not empty. -/
theorem looked_fromNewRequest (environ : String → Option String)
    (config : Option (List Char × List Char)) (t : Tokenizer) {r : StopRequest} (hstop : r.stop ≠ [])
    (hmin : r.minTokens = 0) : Looked (fromNewRequest environ config t r) := by
  have hfresh : ∀ guard marker, marker ≠ [] → Looked ⟨[], 0, r.minTokens, r.stop, guard, false,
      marker, []⟩ := fun guard marker hmarker => by
    refine ⟨hstop, hmin, hmarker, fun _ _ => ⟨rfl, fun i hat => ?_⟩,
      fun _ hclosed => absurd hclosed Bool.false_ne_true, fun _ => .nil 0⟩
    have hle := hat.le_length hmarker
    have hpos := List.length_pos_of_ne_nil hmarker
    change i + marker.length ≤ 0 at hle
    omega
  have hdefault : "</think>".toList ≠ [] := by decide
  have hmarkers : (reasoningStopMarkers config).2 ≠ [] := by
    cases config with
    | none => exact hdefault
    | some c =>
      simp only [reasoningStopMarkers]
      split
      · exact hdefault
      · assumption
  simp only [fromNewRequest, maybeEnableReasoningStopGuard]
  split
  · exact hfresh false _ hdefault
  · split
    · exact hfresh false _ hdefault
    · split
      · split
        · exact hfresh true _ hmarkers
        · exact hfresh false _ hdefault
      · exact hfresh false _ hdefault

/-- **Stop strings are dormant while reasoning is open**, however the text of a request without
`min_tokens` comes in chunks. With the
guard armed they are looked for in all text behind the first end marker and in no other, and none
ends the request before; without it, in all text. -/
theorem stops_behind_reasoning {σ : Type} {loop : TokenLoop} (hloop : loop.Appends)
    (check : List Char → Nat → List (List Char) → Option σ)
    (environ : String → Option String) (config : Option (List Char × List Char)) (t : Tokenizer)
    {r : StopRequest} (hstop : r.stop ≠ []) (hmin : r.minTokens = 0)
    (chunks : List (List (List Char))) (hchunks : ∀ c ∈ chunks, c ≠ []) :
    let d := fromNewRequest environ config t r
    let out := run loop check d chunks
    (out.2 = none → out.1.outputText = chunks.flatten.flatten) ∧
    (d.reasoningStopGuard = false → Consecutive 0 out.1.checked out.1.outputText.length) ∧
    (d.reasoningStopGuard = true →
      ((∀ i, ¬ IsAt d.reasoningEndStr out.1.outputText i) → out.1.checked = [] ∧ out.2 = none) ∧
      ∀ i, IsFirst d.reasoningEndStr out.1.outputText i →
        Consecutive (i + d.reasoningEndStr.length) out.1.checked out.1.outputText.length) := by
  intro d out
  obtain ⟨hlooked, hguard, hmarker, htext, hopen⟩ :=
    @looked_run σ loop check hloop chunks hchunks d (looked_fromNewRequest environ config t hstop hmin)
  have hempty : d.outputText = [] := by
    simp only [d, fromNewRequest, maybeEnableReasoningStopGuard]
    repeat' split
    all_goals rfl
  refine ⟨fun hnone => ?_, fun hoff => hlooked.unguarded (hguard.trans hoff), fun hon => ?_⟩
  · rw [htext hnone, hempty, List.nil_append]
  have hon := hguard.trans hon
  rw [← hmarker]
  by_cases hclosed : out.1.reasoningClosed = true
  · obtain ⟨i, hfirst, hspans⟩ := hlooked.closed hon hclosed
    refine ⟨fun hnot => absurd hfirst.isAt (hnot i), fun j hj => ?_⟩
    rw [← hfirst.unique hj]
    exact hspans
  · have hclosed := Bool.eq_false_iff.2 hclosed
    obtain ⟨hnone, hnot⟩ := hlooked.open_ hon hclosed
    exact ⟨fun _ => ⟨hnone, hopen hon hclosed⟩, fun i hi => absurd hi.isAt (hnot i)⟩

/-- The loop of the base: under `min_tokens` the search starts behind the tokens that are too
few to stop at. -/
def tokenLoop : TokenLoop where
  outputText d chunk := d.outputText ++ chunk.flatten
  numOutputTokens d chunk := d.numOutputTokens + chunk.length
  stopCheckOffset d chunk :=
    (d.outputText ++ (chunk.take (d.minTokens - d.numOutputTokens)).flatten).length

theorem tokenLoop_appends : tokenLoop.Appends where
  outputText _ _ _ := rfl
  numOutputTokens _ _ _ := rfl
  stopCheckOffset d chunk hmin := by
    simp only [tokenLoop, hmin, Nat.zero_sub, List.take_zero, List.flatten_nil, List.append_nil]

/-- A prompt that ends in the start marker's token, and one stop string. -/
def questionRequest : StopRequest := ⟨["Q:".toList], [1, 7], 0⟩

/-- An end marker cut into chunks, with the stop string before and behind it. -/
def markerInChunks : List (List (List Char)) :=
  [["Q: a </t".toList], ["hi".toList, "nk>b".toList], [" Q: c".toList]]

theorem stops_behind_reasoning_markerInChunks :
    let d := fromNewRequest (fun _ => none) none ⟨some fun _ => some 7, none⟩ questionRequest
    let out := run tokenLoop (fun _ _ _ => (none : Option Unit)) d markerInChunks
    (out.2 = none → out.1.outputText = markerInChunks.flatten.flatten) ∧
    (d.reasoningStopGuard = false → Consecutive 0 out.1.checked out.1.outputText.length) ∧
    (d.reasoningStopGuard = true →
      ((∀ i, ¬ IsAt d.reasoningEndStr out.1.outputText i) → out.1.checked = [] ∧ out.2 = none) ∧
      ∀ i, IsFirst d.reasoningEndStr out.1.outputText i →
        Consecutive (i + d.reasoningEndStr.length) out.1.checked out.1.outputText.length) :=
  stops_behind_reasoning tokenLoop_appends _ (fun _ => none) none ⟨some fun _ => some 7, none⟩ (by decide) rfl
    markerInChunks (by decide)

end LlmkubeRuntimes.Glm53
