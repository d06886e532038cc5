import Mathlib.Data.List.Infix
import LlmkubeRuntimes.Exl3.SingleLoad

/-!
# The tokens of a prompt

`Engine.stream`, `Engine.generate` and `Engine.count_tokens` each tokenise the
prompt: the first two for the model, the third for the usage object.

* `Tokenizer`: the checkpoint's tokenizer, a parameter. `Documented` is what is
  assumed of it;
* `EngineStatus`: the engine with its tokenizer;
* `inputIds`, `promptIds`, `countTokens`: what each function tokenises;
* `Agree`: the three see one token sequence;
* `agree_iff`: they do for exactly the non-empty prompts without special-token
  text.
-/

namespace LlmkubeRuntimes.Exl3

abbrev TokenId := Nat

/-! ## The tokenizer -/

structure Tokenizer where
  /-- `encode(text, add_bos, encode_special_tokens)`, the one row of its batch. -/
  encode : String → Bool → Bool → List TokenId
  bosTokenId : TokenId
  /-- The texts of the special tokens. -/
  specialTokens : List String
  IsSpecial : TokenId → Prop

namespace Tokenizer

/-- `text` contains special-token text. -/
def Mentions (t : Tokenizer) (text : String) : Prop :=
  ∃ special ∈ t.specialTokens, special.toList <:+: text.toList

/-- What is assumed of `encode`: `add_bos` puts one BOS id in front, and
`encode_special_tokens` gives special-token text its special ids, which no other
text has. -/
structure Documented (t : Tokenizer) : Prop where
  bos : ∀ text special, t.encode text true special = t.bosTokenId :: t.encode text false special
  regular : ∀ text, ¬ t.Mentions text → t.encode text false true = t.encode text false false
  special : ∀ text, t.Mentions text → ∃ id ∈ t.encode text false true, t.IsSpecial id
  plain : ∀ text, ∀ id ∈ t.encode text false false, ¬ t.IsSpecial id

/-- The prompt tokens of `Generator.generate`, whose `encode_special_tokens` is
`False` unless given. -/
def generatorGenerate (t : Tokenizer) (prompt : String) (addBos : Bool)
    (encodeSpecialTokens : Bool := false) : List TokenId := t.encode prompt addBos encodeSpecialTokens

end Tokenizer

/-! ## The engine -/

structure EngineStatus extends Loader where
  /-- The tokenizer of the checkpoint, which every load builds. -/
  checkpoint : Tokenizer
  /-- A load sets the tokenizer before the state. -/
  loaded : toLoader.ready = true → (attr .tokenizer).isSome

namespace EngineStatus

/-- The engine in any run of loads. -/
def ofReach {s : Loader} (h : Loader.system.Reach Lib.System.Any s) (checkpoint : Tokenizer) :
    EngineStatus :=
  ⟨s, checkpoint, fun hready => Loader.filled_reach h hready .tokenizer⟩

/-- `self._tokenizer` -/
def tokenizer (e : EngineStatus) : Option Tokenizer := (e.attr .tokenizer).map fun _ => e.checkpoint

theorem tokenizer_isSome (e : EngineStatus) (h : e.ready = true) : e.tokenizer.isSome := by
  rw [tokenizer, Option.isSome_map]
  exact e.loaded h

/-- The `input_ids` of the job that `Engine.stream` enqueues. -/
def inputIds (e : EngineStatus) (prompt : String) : Except Exc (List TokenId) :=
  if h : e.ready = true then .ok ((e.tokenizer.get (e.tokenizer_isSome h)).encode prompt true true)
  else .error e.notReady

/-- The tokens that `Engine.generate` submits. -/
def promptIds (e : EngineStatus) (prompt : String) : Except Exc (List TokenId) :=
  if h : e.ready = true then
    .ok ((e.tokenizer.get (e.tokenizer_isSome h)).generatorGenerate prompt true)
  else .error e.notReady

def countTokens (e : EngineStatus) (text : String) (addBos : Bool := false) : Nat :=
  match e.tokenizer with
  | none => 0
  | some t => if text = "" then 0 else (t.encode text addBos true).length

/-- `_usage`'s `prompt_tokens`. -/
def promptTokens (e : EngineStatus) (prompt : String) : Nat := e.countTokens prompt true

/-- Streaming, non-streaming and usage see one token sequence. -/
def Agree (e : EngineStatus) (prompt : String) : Prop :=
  ∃ ids, e.inputIds prompt = .ok ids ∧ e.promptIds prompt = .ok ids ∧
    e.promptTokens prompt = ids.length

end EngineStatus

/-! ## Agreement -/

namespace Tokenizer

variable {t : Tokenizer}

/-- **Special-token text is what `encode_special_tokens` makes a difference for.** -/
theorem encode_special_iff (ht : t.Documented) (text : String) (addBos : Bool) :
    t.encode text addBos true = t.encode text addBos false ↔ ¬ t.Mentions text := by
  have key : t.encode text false true = t.encode text false false ↔ ¬ t.Mentions text := by
    refine ⟨fun heq hm => ?_, ht.regular text⟩
    obtain ⟨id, hid, hs⟩ := ht.special text hm
    rw [heq] at hid
    exact ht.plain text id hid hs
  cases addBos with
  | false => exact key
  | true =>
    rw [ht.bos, ht.bos, List.cons_inj_right]
    exact key

end Tokenizer

namespace EngineStatus

/-- The count of a prompt is the length of the streamed tokens, except that an
empty prompt counts nothing. -/
theorem promptTokens_eq {e : EngineStatus} {t : Tokenizer} (he : e.tokenizer = some t)
    (prompt : String) :
    e.promptTokens prompt = if prompt = "" then 0 else (t.encode prompt true true).length := by
  rw [promptTokens, countTokens, he]

/-- **The three agree exactly on non-empty prompts without special-token text.** -/
theorem agree_iff (e : EngineStatus) (t : Tokenizer) (hready : e.ready) (he : e.tokenizer = some t)
    (ht : t.Documented) (prompt : String) :
    e.Agree prompt ↔ prompt ≠ "" ∧ ¬ t.Mentions prompt := by
  have hget : e.tokenizer.get (e.tokenizer_isSome hready) = t := by simp [he]
  have hs : e.inputIds prompt = .ok (t.encode prompt true true) := by
    rw [inputIds, dif_pos hready, hget]
  have hg : e.promptIds prompt = .ok (t.encode prompt true false) := by
    rw [promptIds, dif_pos hready, hget]
    rfl
  rw [← Tokenizer.encode_special_iff ht prompt true]
  constructor
  · rintro ⟨ids, h1, h2, h3⟩
    rw [hs] at h1
    rw [hg] at h2
    cases h1
    refine ⟨fun hempty => ?_, (Except.ok.inj h2).symm⟩
    rw [promptTokens_eq he, if_pos hempty, ht.bos, List.length_cons] at h3
    omega
  · rintro ⟨hne, heq⟩
    exact ⟨_, hs, by rw [hg, heq], by rw [promptTokens_eq he, if_neg hne]⟩

end EngineStatus

/-! ## A tokenizer that splits at special tokens -/

/-- Ids are 0 for BOS, even for characters and odd for special tokens. -/
def charId (c : Char) : TokenId := 2 * c.toNat + 2

def specialId (i : Nat) : TokenId := 2 * i + 1

theorem charId_even (c : Char) : charId c % 2 = 0 := by
  show (2 * c.toNat + 2) % 2 = 0
  omega

theorem specialId_odd (i : Nat) : specialId i % 2 = 1 := by
  show (2 * i + 1) % 2 = 1
  omega

/-- The ids of `cs` after `skip` characters of a special token were consumed. -/
def scan (specials : List (List Char)) : Nat → List Char → List TokenId
  | _, [] => []
  | skip + 1, _ :: cs => scan specials skip cs
  | 0, c :: cs =>
    match specials.findIdx? (·.isPrefixOf (c :: cs)) with
    | some i => specialId i :: scan specials ((specials.getD i []).length - 1) cs
    | none => charId c :: scan specials 0 cs

/-- Special tokens split the text; every other character is one token. -/
def splitTokenizer (specials : List String) : Tokenizer where
  encode text addBos special :=
    (if addBos then [0] else []) ++
      if special then scan (specials.map String.toList) 0 text.toList else text.toList.map charId
  bosTokenId := 0
  specialTokens := specials
  IsSpecial id := id % 2 = 1

section Scan

variable {specials : List (List Char)}

theorem scan_of_not_infix {cs : List Char} (h : ∀ sp ∈ specials, ¬ sp <:+: cs) :
    scan specials 0 cs = cs.map charId := by
  induction cs with
  | nil => rfl
  | cons c cs ih =>
    have hnone : specials.findIdx? (·.isPrefixOf (c :: cs)) = none := by
      rw [List.findIdx?_eq_none_iff]
      intro sp hsp
      rw [← Bool.not_eq_true, List.isPrefixOf_iff_prefix]
      exact fun hp => h sp hsp hp.isInfix
    rw [scan, hnone, List.map_cons]
    exact congrArg _ (ih fun sp hsp hi => h sp hsp (hi.trans (List.suffix_cons c cs).isInfix))

theorem scan_special {cs : List Char} {sp : List Char} (hne : sp ≠ []) (hsp : sp ∈ specials)
    (h : sp <:+: cs) : ∃ id ∈ scan specials 0 cs, id % 2 = 1 := by
  induction cs with
  | nil => exact absurd (List.infix_nil.1 h) hne
  | cons c cs ih =>
    rw [scan]
    split
    next i _ => exact ⟨specialId i, List.mem_cons_self, specialId_odd i⟩
    next hnone =>
      rcases List.infix_cons_iff.1 h with hp | hi
      · rw [List.findIdx?_eq_none_iff] at hnone
        exact absurd (List.isPrefixOf_iff_prefix.2 hp) (by simp [hnone sp hsp])
      · obtain ⟨id, hid, hodd⟩ := ih hi
        exact ⟨id, List.mem_cons_of_mem _ hid, hodd⟩

end Scan

theorem splitTokenizer_documented {specials : List String} (h : "" ∉ specials) :
    (splitTokenizer specials).Documented where
  bos text special := rfl
  regular text hno := by
    refine scan_of_not_infix fun sp hsp hi => hno ?_
    obtain ⟨s, hs, rfl⟩ := List.mem_map.1 hsp
    exact ⟨s, hs, hi⟩
  special text hm := by
    obtain ⟨s, hs, hi⟩ := hm
    have hne : s.toList ≠ [] := fun he => h (String.toList_eq_nil_iff.1 he ▸ hs)
    exact scan_special hne (List.mem_map_of_mem hs) hi
  plain text id hid := by
    obtain ⟨c, -, rfl⟩ := List.mem_map.1 hid
    show ¬ charId c % 2 = 1
    rw [charId_even]
    exact Nat.zero_ne_one

/-- An engine behind one load. -/
def loadedOnce : Loader := ⟨"/models/m", "", .ready, "", fun _ => some 0, [.ended]⟩

theorem loadedOnce_loaded : loadedOnce.ready = true → (loadedOnce.attr .tokenizer).isSome :=
  fun _ => rfl

/-- An engine with one special token. -/
def userEngine : EngineStatus :=
  ⟨loadedOnce, splitTokenizer ["<|user|>"], loadedOnce_loaded⟩

theorem agree_iff_user : userEngine.Agree "hi" ↔
    "hi" ≠ "" ∧ ¬ (splitTokenizer ["<|user|>"]).Mentions "hi" :=
  EngineStatus.agree_iff userEngine (splitTokenizer ["<|user|>"]) rfl rfl
    (splitTokenizer_documented (by decide)) "hi"

/-- A rendered chat prompt is streamed with the special token and generated from
its characters; an empty prompt is counted without its BOS. -/
theorem user_prompt_disagrees : (splitTokenizer ["<|user|>"]).Documented ∧
    userEngine.inputIds "<|user|>hi" = .ok [0, 1, 210, 212] ∧
    userEngine.promptIds "<|user|>hi" =
      .ok [0, 122, 250, 236, 232, 204, 230, 250, 126, 210, 212] ∧
    ¬ userEngine.Agree "<|user|>hi" ∧ userEngine.inputIds "" = .ok [0] ∧
    userEngine.promptTokens "" = 0 ∧ ¬ userEngine.Agree "" := by
  have hs : userEngine.inputIds "<|user|>hi" = .ok [0, 1, 210, 212] := by rfl
  have hg : userEngine.promptIds "<|user|>hi" =
      .ok [0, 122, 250, 236, 232, 204, 230, 250, 126, 210, 212] := by rfl
  refine ⟨splitTokenizer_documented (by decide), hs, hg, ?_, rfl, rfl, ?_⟩
  · rintro ⟨ids, h1, h2, -⟩
    rw [hs] at h1
    rw [hg] at h2
    cases h1
    cases h2
  · rintro ⟨ids, h1, -, h3⟩
    cases h1
    cases h3

end LlmkubeRuntimes.Exl3
