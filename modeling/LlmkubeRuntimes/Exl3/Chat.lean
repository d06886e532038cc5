import Mathlib.Data.List.GetD
import Mathlib.Data.List.Nodup
import LlmkubeRuntimes.Exl3.Tokens
import LlmkubeRuntimes.Lib.Marked

/-!
# Chat prompts

`ChatRenderer.render` with the template built in for checkpoints that ship none.

* `Template`, `ChatRenderer`: a compiled template, a parameter, and its renderer;
* `deepseekFallbackTemplate`: the built-in template;
* `promptParts`: a prompt is its markers and the texts between them;
* `render_eq_iff`: two conversations render alike if they differ in no message
  of the three roles the template knows;
* `oneBos_iff`: a prompt is tokenised with one BOS, in front, if it has no
  system message.
-/

namespace LlmkubeRuntimes.Exl3

open LlmkubeRuntimes.Lib

namespace Chat

/-! ## The renderer -/

structure ChatMessage where
  role : String
  content : String
  deriving DecidableEq, Repr

/-- Keyword arguments by name, the first of a name counts. Of a value only its
truth is kept, all that the built-in template asks. -/
abbrev Kwargs := List (String × Bool)

/-- The variables of a template. -/
structure Context where
  messages : List ChatMessage
  addGenerationPrompt : Bool
  bosToken : String
  eosToken : String
  kwargs : Kwargs

/-- A compiled template: its output, or the text of a `TemplateError`. -/
abbrev Template := Context → Except String String

inductive RenderExc where
  | chatTemplateError (text : String)
  /-- A keyword argument given twice. -/
  | typeError
  deriving DecidableEq, Repr

structure ChatRenderer where
  template : Template
  thinking : Bool

/-- The arguments of the template's `render` that its keyword arguments must not
repeat. -/
def givenArguments : List String :=
  ["self", "messages", "add_generation_prompt", "bos_token", "eos_token"]

/-- A keyword argument of a request repeats one that `render` gives. -/
def Clash (templateKwargs : Option Kwargs) : Prop :=
  ∃ kw ∈ templateKwargs.getD [], kw.1 ∈ givenArguments

instance (templateKwargs : Option Kwargs) : Decidable (Clash templateKwargs) := by
  unfold Clash
  infer_instance

def ChatRenderer.render (r : ChatRenderer) (messages : List ChatMessage)
    (addGenerationPrompt : Bool := true) (templateKwargs : Option Kwargs := none) :
    Except RenderExc String :=
  let kwargs := templateKwargs.getD [] ++ [("enable_thinking", r.thinking)]
  if Clash templateKwargs then .error .typeError
  else
    match r.template ⟨messages, addGenerationPrompt, "", "", kwargs⟩ with
    | .ok prompt => .ok prompt
    | .error exc => .error (.chatTemplateError ("chat template failed to render: " ++ exc))

/-! ## The built-in template -/

/-- `_BOS` -/
def bos : String := "<｜begin_of_sentence｜>"

/-- `_EOS` -/
def eos : String := "<｜end_of_sentence｜>"

/-- `_USER` -/
def user : String := "<｜User｜>"

/-- `_ASSISTANT` -/
def assistant : String := "<｜Assistant｜>"

/-- `_THINK` -/
def think : String := " thinking"

/-- The body of the template's loop. -/
def fallbackMessage (message : ChatMessage) : String :=
  if message.role = "system" then bos ++ message.content
  else if message.role = "user" then user ++ message.content ++ eos
  else if message.role = "assistant" then assistant ++ message.content ++ eos
  else ""

/-- The end of the template. A variable that is not set is false. -/
def generationPrompt (addGenerationPrompt : Bool) (kwargs : Kwargs) : String :=
  if addGenerationPrompt then
    assistant ++ if (kwargs.lookup "enable_thinking").getD false then think else ""
  else ""

/-- `DEEPSEEK_FALLBACK_TEMPLATE` -/
def deepseekFallbackTemplate : Template := fun ctx =>
  .ok (String.join (ctx.messages.map fallbackMessage) ++
    generationPrompt ctx.addGenerationPrompt ctx.kwargs)

/-- The renderer of a checkpoint without a template. -/
def fallbackRenderer (thinking : Bool) : ChatRenderer := ⟨deepseekFallbackTemplate, thinking⟩

theorem render_clash {templateKwargs : Option Kwargs} (h : Clash templateKwargs) (thinking : Bool)
    (messages : List ChatMessage) (addGenerationPrompt : Bool) :
    (fallbackRenderer thinking).render messages addGenerationPrompt templateKwargs =
      .error .typeError := by
  rw [ChatRenderer.render, if_pos h]

theorem render_ok {templateKwargs : Option Kwargs} (h : ¬ Clash templateKwargs) (thinking : Bool)
    (messages : List ChatMessage) (addGenerationPrompt : Bool) :
    (fallbackRenderer thinking).render messages addGenerationPrompt templateKwargs =
      .ok (String.join (messages.map fallbackMessage) ++ generationPrompt addGenerationPrompt
        (templateKwargs.getD [] ++ [("enable_thinking", thinking)])) := by
  rw [ChatRenderer.render, if_neg h]
  rfl

/-! ## The parts of a prompt -/

def markers : List (List Char) := [bos.toList, eos.toList, user.toList, assistant.toList]

theorem bracketed {m : List Char} (h : m ∈ markers) : Bracketed '<' '>' m := by
  have key : ∀ m ∈ markers, m = '<' :: (m.tail.dropLast ++ ['>']) ∧ '<' ∉ m.tail.dropLast ∧
      '>' ∉ m.tail.dropLast := by decide +kernel
  exact ⟨by decide, _, key m h⟩

/-- The marked parts that a message is rendered to. -/
def messageParts (message : ChatMessage) : List (TextPart Char) :=
  if message.role = "system" then [(bos.toList, message.content.toList)]
  else if message.role = "user" then [(user.toList, message.content.toList), (eos.toList, [])]
  else if message.role = "assistant" then
    [(assistant.toList, message.content.toList), (eos.toList, [])]
  else []

/-- The marked parts of the generation prompt. -/
def generationParts (addGenerationPrompt : Bool) (kwargs : Kwargs) : List (TextPart Char) :=
  if addGenerationPrompt then
    [(assistant.toList, if (kwargs.lookup "enable_thinking").getD false then think.toList else [])]
  else []

def promptParts (messages : List ChatMessage) (addGenerationPrompt : Bool) (kwargs : Kwargs) :
    List (TextPart Char) :=
  messages.flatMap messageParts ++ generationParts addGenerationPrompt kwargs

theorem joinParts_messageParts (message : ChatMessage) :
    joinParts (messageParts message) = (fallbackMessage message).toList := by
  unfold messageParts fallbackMessage
  split
  · simp
  · split
    · simp
    · split <;> simp

theorem joinParts_generationParts (addGenerationPrompt : Bool) (kwargs : Kwargs) :
    joinParts (generationParts addGenerationPrompt kwargs) =
      (generationPrompt addGenerationPrompt kwargs).toList := by
  unfold generationParts generationPrompt
  split
  · split <;> simp
  · rfl

/-- **The built-in template writes the prompt's parts.** -/
theorem joinParts_promptParts (messages : List ChatMessage) (addGenerationPrompt : Bool)
    (kwargs : Kwargs) : joinParts (promptParts messages addGenerationPrompt kwargs) =
      (String.join (messages.map fallbackMessage) ++
        generationPrompt addGenerationPrompt kwargs).toList := by
  rw [String.toList_append, String.toList_join, List.flatMap_map, promptParts, joinParts_append,
    joinParts_generationParts]
  congr 1
  induction messages with
  | nil => rfl
  | cons message messages ih =>
    rw [List.flatMap_cons, List.flatMap_cons, joinParts_append, joinParts_messageParts, ih]

/-- No content has the text of a marker. -/
def MarkerFree (messages : List ChatMessage) : Prop :=
  ∀ message ∈ messages, ∀ m ∈ markers, ¬ m <:+: message.content.toList

theorem not_infix_nil {m : List Char} (hm : m ∈ markers) : ¬ m <:+: ([] : List Char) :=
  fun h => (bracketed hm).ne_nil (List.infix_nil.1 h)

/-- The text of a part of a message is empty or the content. -/
theorem mem_messageParts {message : ChatMessage} {p : TextPart Char} (h : p ∈ messageParts message) :
    p.1 ∈ markers ∧ (p.2 = [] ∨ p.2 = message.content.toList) := by
  unfold messageParts at h
  split at h
  · rw [List.mem_singleton] at h
    subst h
    exact ⟨by simp [markers], .inr rfl⟩
  · split at h
    · rcases List.mem_pair.1 h with rfl | rfl
      · exact ⟨by simp [markers], .inr rfl⟩
      · exact ⟨by simp [markers], .inl rfl⟩
    · split at h
      · rcases List.mem_pair.1 h with rfl | rfl
        · exact ⟨by simp [markers], .inr rfl⟩
        · exact ⟨by simp [markers], .inl rfl⟩
      · exact absurd h List.not_mem_nil

theorem mem_generationParts {addGenerationPrompt : Bool} {kwargs : Kwargs} {p : TextPart Char}
    (h : p ∈ generationParts addGenerationPrompt kwargs) :
    p.1 = assistant.toList ∧ (p.2 = [] ∨ p.2 = think.toList) := by
  unfold generationParts at h
  split at h
  · rw [List.mem_singleton] at h
    subst h
    refine ⟨rfl, ?_⟩
    dsimp only
    split
    · exact .inr rfl
    · exact .inl rfl
  · exact absurd h List.not_mem_nil

theorem think_free {m : List Char} (hm : m ∈ markers) : ¬ m <:+: think.toList := by
  have key : ∀ m ∈ markers, ¬ m <:+: think.toList := by decide +kernel
  exact key m hm

/-- The parts of a prompt are marked, and no text in them has a marker that is in
no content. -/
theorem mem_promptParts {messages : List ChatMessage} {addGenerationPrompt : Bool} {kwargs : Kwargs}
    {p : TextPart Char} (hp : p ∈ promptParts messages addGenerationPrompt kwargs) :
    p.1 ∈ markers ∧ ∀ m ∈ markers, (∀ message ∈ messages, ¬ m <:+: message.content.toList) →
      ¬ m <:+: p.2 := by
  rcases List.mem_append.1 hp with h | h
  · obtain ⟨message, hmem, h⟩ := List.mem_flatMap.1 h
    obtain ⟨hmark, htext⟩ := mem_messageParts h
    refine ⟨hmark, fun m hm hfree => ?_⟩
    rcases htext with htext | htext
    · rw [htext]
      exact not_infix_nil hm
    · rw [htext]
      exact hfree message hmem
  · obtain ⟨hmark, htext⟩ := mem_generationParts h
    refine ⟨by rw [hmark]; simp [markers], fun m hm _ => ?_⟩
    rcases htext with htext | htext
    · rw [htext]
      exact not_infix_nil hm
    · rw [htext]
      exact think_free hm

/-! ## What a prompt tells of its messages -/

/-- The roles that the built-in template knows. -/
def knownRoles : List String := ["system", "user", "assistant"]

/-- The messages that the built-in template renders. -/
def rendered (messages : List ChatMessage) : List ChatMessage :=
  messages.filter fun message => message.role ∈ knownRoles

theorem known_cases {message : ChatMessage} (h : message.role ∈ knownRoles) :
    message.role = "system" ∨ message.role = "user" ∨ message.role = "assistant" := by
  simpa [knownRoles] using h

/-- A message of another role has no parts. -/
theorem messageParts_unknown {message : ChatMessage} (h : message.role ∉ knownRoles) :
    messageParts message = [] := by
  simp only [knownRoles, List.mem_cons, List.not_mem_nil, or_false, not_or] at h
  rw [messageParts, if_neg h.1, if_neg h.2.1, if_neg h.2.2]

theorem flatMap_rendered (messages : List ChatMessage) :
    (rendered messages).flatMap messageParts = messages.flatMap messageParts := by
  induction messages with
  | nil => rfl
  | cons message messages ih =>
    rw [rendered] at ih ⊢
    by_cases h : message.role ∈ knownRoles
    · rw [List.filter_cons_of_pos (by simpa using h), List.flatMap_cons, List.flatMap_cons, ih]
    · rw [List.filter_cons_of_neg (by simpa using h), List.flatMap_cons, messageParts_unknown h, ih]
      rfl

theorem messageParts_ne_nil {message : ChatMessage} (h : message.role ∈ knownRoles) :
    messageParts message ≠ [] := by
  rcases known_cases h with h | h | h <;> simp [messageParts, h]

/-- Known messages are told apart by their parts, whatever follows. -/
theorem messageParts_inj {a b : ChatMessage} {as bs : List (TextPart Char)} (ha : a.role ∈ knownRoles)
    (hb : b.role ∈ knownRoles) (h : messageParts a ++ as = messageParts b ++ bs) :
    a = b ∧ as = bs := by
  have hu : bos ≠ user := by decide
  have ha' : bos ≠ assistant := by decide
  have hua : user ≠ assistant := by decide
  obtain ⟨role, content⟩ := a
  obtain ⟨role', content'⟩ := b
  -- the first marker of a known message tells its role
  rcases known_cases ha with rfl | rfl | rfl <;> rcases known_cases hb with rfl | rfl | rfl <;>
    simp_all [messageParts, String.toList_inj, eq_comm]

theorem flatMap_messageParts_inj {as bs : List ChatMessage} (ha : ∀ a ∈ as, a.role ∈ knownRoles)
    (hb : ∀ b ∈ bs, b.role ∈ knownRoles)
    (h : as.flatMap messageParts = bs.flatMap messageParts) : as = bs := by
  induction as generalizing bs with
  | nil =>
    cases bs with
    | nil => rfl
    | cons b bs =>
      rw [List.forall_mem_cons] at hb
      exact absurd (List.append_eq_nil_iff.1 h.symm).1 (messageParts_ne_nil hb.1)
  | cons a as ih =>
    cases bs with
    | nil =>
      rw [List.forall_mem_cons] at ha
      exact absurd (List.append_eq_nil_iff.1 h).1 (messageParts_ne_nil ha.1)
    | cons b bs =>
      rw [List.forall_mem_cons] at ha hb
      obtain ⟨rfl, hrest⟩ := messageParts_inj ha.1 hb.1 h
      rw [ih ha.2 hb.2 hrest]

/-- Two prompts with the same settings are the same if the same messages are
rendered. -/
theorem promptParts_inj {as bs : List ChatMessage} (ha : MarkerFree as) (hb : MarkerFree bs)
    (addGenerationPrompt : Bool) (kwargs : Kwargs) :
    joinParts (promptParts as addGenerationPrompt kwargs) =
        joinParts (promptParts bs addGenerationPrompt kwargs) ↔ rendered as = rendered bs := by
  constructor
  · intro h
    have hparts : promptParts as addGenerationPrompt kwargs = promptParts bs addGenerationPrompt kwargs :=
      parts_inj (fun m hm => bracketed hm)
        (fun p hp => ⟨(mem_promptParts hp).1, fun m hm =>
          (mem_promptParts hp).2 m hm fun a hmem => ha a hmem m hm⟩)
        (fun p hp => ⟨(mem_promptParts hp).1, fun m hm =>
          (mem_promptParts hp).2 m hm fun b hmem => hb b hmem m hm⟩) h
    rw [promptParts, promptParts, List.append_cancel_right_eq, ← flatMap_rendered as,
      ← flatMap_rendered bs] at hparts
    have hknown : ∀ (cs : List ChatMessage), ∀ c ∈ rendered cs, c.role ∈ knownRoles :=
      fun cs c hc => by simpa using (List.mem_filter.1 hc).2
    exact flatMap_messageParts_inj (hknown as) (hknown bs) hparts
  · intro h
    rw [promptParts, promptParts, ← flatMap_rendered as, h, flatMap_rendered]

/-- The two conversations have no prompt in common. -/
def ToldApart (thinking : Bool) (as bs : List ChatMessage) (addGenerationPrompt : Bool)
    (templateKwargs : Option Kwargs) : Prop :=
  ∀ prompt, (fallbackRenderer thinking).render as addGenerationPrompt templateKwargs = .ok prompt →
    (fallbackRenderer thinking).render bs addGenerationPrompt templateKwargs ≠ .ok prompt

/-- **Conversations are told apart by the messages of the roles that the template
knows**, unless the keyword arguments let neither be rendered. -/
theorem toldApart_iff (thinking : Bool) (as bs : List ChatMessage) (ha : MarkerFree as)
    (hb : MarkerFree bs) (addGenerationPrompt : Bool) (templateKwargs : Option Kwargs) :
    ToldApart thinking as bs addGenerationPrompt templateKwargs ↔
      Clash templateKwargs ∨ rendered as ≠ rendered bs := by
  by_cases hc : Clash templateKwargs
  · refine iff_of_true (fun prompt hp => ?_) (.inl hc)
    rw [render_clash hc] at hp
    cases hp
  · have key := promptParts_inj ha hb addGenerationPrompt
      (templateKwargs.getD [] ++ [("enable_thinking", thinking)])
    rw [joinParts_promptParts, joinParts_promptParts, String.toList_inj] at key
    simp only [ToldApart, render_ok hc, Except.ok.injEq, hc, false_or, ne_eq, forall_eq', ← key]
    exact not_congr eq_comm

theorem toldApart_iff_turns :
    ToldApart false [⟨"user", "hi"⟩] [⟨"user", "hi"⟩, ⟨"user", "<｜User｜"⟩] true none ↔
      Clash none ∨ rendered [⟨"user", "hi"⟩] ≠ rendered [⟨"user", "hi"⟩, ⟨"user", "<｜User｜"⟩] :=
  toldApart_iff false [⟨"user", "hi"⟩] [⟨"user", "hi"⟩, ⟨"user", "<｜User｜"⟩]
    (by unfold MarkerFree; decide +kernel) (by unfold MarkerFree; decide +kernel) true none

/-- The answer of a tool is not in the prompt. -/
theorem tool_message_lost :
    MarkerFree [⟨"user", "6 * 7"⟩, ⟨"tool", "42"⟩] ∧ MarkerFree [⟨"user", "6 * 7"⟩] ∧
      [⟨"user", "6 * 7"⟩, ⟨"tool", "42"⟩] ≠ [(⟨"user", "6 * 7"⟩ : ChatMessage)] ∧
      ¬ ToldApart false [⟨"user", "6 * 7"⟩, ⟨"tool", "42"⟩] [⟨"user", "6 * 7"⟩] true none := by
  refine ⟨by unfold MarkerFree; decide +kernel, by unfold MarkerFree; decide +kernel, by decide, ?_⟩
  intro h
  exact h "<｜User｜>6 * 7<｜end_of_sentence｜><｜Assistant｜>" (by decide +kernel) (by decide +kernel)

/-! ## Begin-of-sentence tokens -/

/-- What is assumed of `encode`: `add_bos` puts one BOS id in front, and with
`encode_special_tokens` there is that id for each BOS text and for no other. -/
structure MapsBos (t : Tokenizer) : Prop where
  special : bos ∈ t.specialTokens
  front : ∀ text special, t.encode text true special = t.bosTokenId :: t.encode text false special
  count : ∀ text,
    (t.encode text false true).count t.bosTokenId = occurrences bos.toList text.toList

/-- One BOS, in front. -/
def OneBos (t : Tokenizer) (ids : List TokenId) : Prop :=
  ids.head? = some t.bosTokenId ∧ ids.count t.bosTokenId = 1

/-- The engine starts to generate from the prompt, and from one BOS. -/
def StreamsOneBos (e : EngineStatus) (t : Tokenizer) (prompt : String) : Prop :=
  ∃ ids, e.inputIds prompt = .ok ids ∧ OneBos t ids

theorem bos_mem_markers : bos.toList ∈ markers := List.mem_cons_self

/-- A message has a BOS text if it is a system message. -/
theorem countP_messageParts (message : ChatMessage) :
    (messageParts message).countP (·.1 = bos.toList) = if message.role = "system" then 1 else 0 := by
  have he : eos ≠ bos := by decide
  have hu : user ≠ bos := by decide
  have ha : assistant ≠ bos := by decide
  unfold messageParts
  split
  · simp
  · split
    · simp [String.toList_inj, he, hu]
    · split <;> simp [String.toList_inj, he, ha]

/-- **A prompt has a BOS text for each system message.** -/
theorem occurrences_bos {messages : List ChatMessage}
    (hplain : ∀ message ∈ messages, ¬ bos.toList <:+: message.content.toList)
    (addGenerationPrompt : Bool) (kwargs : Kwargs) :
    occurrences bos.toList (joinParts (promptParts messages addGenerationPrompt kwargs)) =
      messages.countP (·.role = "system") := by
  have ha : assistant ≠ bos := by decide
  rw [occurrences_parts (bracketed bos_mem_markers) (fun p hp => bracketed (mem_promptParts hp).1)
    (fun p hp => (mem_promptParts hp).2 _ bos_mem_markers hplain), promptParts, List.countP_append]
  have hgen : (generationParts addGenerationPrompt kwargs).countP (·.1 = bos.toList) = 0 := by
    refine List.countP_eq_zero.2 fun p hp => ?_
    rw [(mem_generationParts hp).1]
    simpa [String.toList_inj] using ha
  rw [hgen, Nat.add_zero]
  clear hplain
  induction messages with
  | nil => rfl
  | cons message messages ih =>
    rw [List.flatMap_cons, List.countP_append, countP_messageParts, ih, List.countP_cons, Nat.add_comm]
    simp

/-- **A prompt is streamed with one BOS, in front, if no message is a system
message.** -/
theorem streamsOneBos_iff (e : EngineStatus) (t : Tokenizer) (hready : e.ready)
    (he : e.tokenizer = some t) (ht : MapsBos t) (thinking : Bool) (messages : List ChatMessage)
    (hplain : ∀ message ∈ messages, ¬ t.Mentions message.content) (addGenerationPrompt : Bool)
    (templateKwargs : Option Kwargs) (prompt : String)
    (hrender : (fallbackRenderer thinking).render messages addGenerationPrompt templateKwargs =
      .ok prompt) :
    StreamsOneBos e t prompt ↔ ∀ message ∈ messages, message.role ≠ "system" := by
  have hclash : ¬ Clash templateKwargs := by
    intro hc
    rw [render_clash hc] at hrender
    cases hrender
  rw [render_ok hclash, Except.ok.injEq] at hrender
  have hget : e.tokenizer.get (e.tokenizer_isSome hready) = t := by simp [he]
  have hs : e.inputIds prompt = .ok (t.bosTokenId :: t.encode prompt false true) := by
    rw [EngineStatus.inputIds, dif_pos hready, hget, ht.front]
  have hcount : (t.encode prompt false true).count t.bosTokenId =
      messages.countP (·.role = "system") := by
    rw [ht.count, ← hrender, ← joinParts_promptParts]
    exact occurrences_bos (fun message hm hi => hplain message hm ⟨bos, ht.special, hi⟩) _ _
  have hone : OneBos t (t.bosTokenId :: t.encode prompt false true) ↔
      messages.countP (·.role = "system") = 0 := by
    rw [OneBos, List.count_cons_self, hcount]
    simp
  rw [StreamsOneBos, hs]
  constructor
  · rintro ⟨ids, hids, hb⟩
    cases hids
    simpa using hone.1 hb
  · intro h
    exact ⟨_, rfl, hone.2 (by simpa using h)⟩

/-! ## A tokenizer with the markers -/

/-- A scan finds the special tokens where they occur, if they are marked and
differ: what it skips opens no marker. -/
theorem count_scan {l r : Char} {specials : List (List Char)}
    (hb : ∀ sp ∈ specials, Bracketed l r sp) (hnodup : specials.Nodup) {i : Nat}
    (hi : i < specials.length) {skip : Nat} {cs : List Char} (hskip : l ∉ cs.take skip) :
    (scan specials skip cs).count (specialId i) = occurrences specials[i] cs := by
  have hbi := hb specials[i] (List.getElem_mem hi)
  induction cs generalizing skip with
  | nil => cases skip <;> rfl
  | cons c cs ih =>
    cases skip with
    | succ skip =>
      rw [List.take_succ_cons, List.mem_cons, not_or] at hskip
      rw [scan, ih hskip.2, occurrences, if_neg (hbi.not_prefix_of_ne (Ne.symm hskip.1)),
        Nat.zero_add]
    | zero =>
      rw [scan, occurrences]
      split
      next j hj =>
        obtain ⟨hjlt, hpre, -⟩ := List.findIdx?_eq_some_iff_getElem.1 hj
        have hbj := hb specials[j] (List.getElem_mem hjlt)
        have hiff : specials[i] <+: c :: cs ↔ j = i := by
          obtain ⟨rest, hrest⟩ := List.isPrefixOf_iff_prefix.1 hpre
          rw [← hrest, hbi.prefix_append_iff hbj, hnodup.getElem_inj_iff, eq_comm]
        have htail : l ∉ cs.take (specials[j].length - 1) := by
          obtain ⟨d, tail, hd⟩ := List.exists_cons_of_ne_nil hbj.ne_nil
          have hnot := hbj.not_mem_tail
          rw [hd, List.isPrefixOf_iff_prefix, List.cons_prefix_cons] at hpre
          rw [hd, List.length_cons, Nat.add_sub_cancel, ← List.prefix_iff_eq_take.1 hpre.2]
          rwa [hd] at hnot
        have hid : specialId j = specialId i ↔ j = i := by
          show (2 * j + 1 : Nat) = 2 * i + 1 ↔ j = i
          omega
        rw [List.getD_eq_getElem _ _ hjlt, List.count_cons, ih htail, if_congr hiff rfl rfl,
          Nat.add_comm]
        simp only [beq_iff_eq, hid]
      next hnone =>
        rw [List.findIdx?_eq_none_iff] at hnone
        have hpre : ¬ specials[i] <+: c :: cs := by
          rw [← List.isPrefixOf_iff_prefix, hnone _ (List.getElem_mem hi)]
          exact Bool.false_ne_true
        have hid : charId c ≠ specialId i := fun heq => by
          have heven := charId_even c
          rw [heq, specialId_odd] at heven
          cases heven
        rw [List.count_cons_of_ne hid, ih (by simp), if_neg hpre, Nat.zero_add]

/-- The markers are its special tokens, and BOS is the first. -/
def markerTokenizer : Tokenizer where
  encode text addBos special :=
    (if addBos then [specialId 0] else []) ++
      (splitTokenizer [bos, eos, user, assistant]).encode text false special
  bosTokenId := specialId 0
  specialTokens := [bos, eos, user, assistant]
  IsSpecial id := id % 2 = 1

theorem markerTokenizer_mapsBos : MapsBos markerTokenizer where
  special := List.mem_cons_self
  front text special := rfl
  count text := by
    have hnodup : markers.Nodup := by decide +kernel
    exact count_scan (fun sp hsp => bracketed hsp) hnodup (i := 0) (by decide) List.not_mem_nil

def markerEngine : EngineStatus := ⟨loadedOnce, markerTokenizer, loadedOnce_loaded⟩

theorem streamsOneBos_iff_user :
    StreamsOneBos markerEngine markerTokenizer "<｜User｜>hi<｜end_of_sentence｜><｜Assistant｜> thinking" ↔
      ∀ message ∈ [(⟨"user", "hi"⟩ : ChatMessage)], message.role ≠ "system" :=
  streamsOneBos_iff markerEngine markerTokenizer rfl rfl markerTokenizer_mapsBos true
    [⟨"user", "hi"⟩] (by unfold Tokenizer.Mentions; decide +kernel) true none
    "<｜User｜>hi<｜end_of_sentence｜><｜Assistant｜> thinking" (by decide +kernel)

/-- A system message is streamed after two BOS. -/
theorem system_message_two_bos :
    MapsBos markerTokenizer ∧ ¬ markerTokenizer.Mentions "ok" ∧
      (fallbackRenderer false).render [⟨"system", "ok"⟩] true none =
        .ok "<｜begin_of_sentence｜>ok<｜Assistant｜>" ∧
      markerEngine.inputIds "<｜begin_of_sentence｜>ok<｜Assistant｜>" = .ok [1, 1, 224, 216, 7] ∧
      ¬ StreamsOneBos markerEngine markerTokenizer "<｜begin_of_sentence｜>ok<｜Assistant｜>" := by
  have hs : markerEngine.inputIds "<｜begin_of_sentence｜>ok<｜Assistant｜>" =
      .ok [1, 1, 224, 216, 7] := by
    rfl
  refine ⟨markerTokenizer_mapsBos, by unfold Tokenizer.Mentions; decide +kernel, by decide +kernel,
    hs, ?_⟩
  rintro ⟨ids, hids, -, hcount⟩
  rw [hs] at hids
  cases hids
  revert hcount
  decide

end Chat

end LlmkubeRuntimes.Exl3
