import Mathlib.Data.Nat.Digits.Defs
import LlmkubeRuntimes.Lib.Compact

/-!
# The completion section of the smoke test

`smoke.sh` asks the server for a completion, and reads the decode speed off the
response with `sed`.

* `lastCapture`: what the group of the `sed` expression captures;
* `completion`: the verdict on a response;
* `Response`: a response in compact JSON, with the speed among its timings;
* `text_independent`: the verdict depends on the speed alone.
-/

namespace LlmkubeRuntimes.Promoter.Smoke

open LlmkubeRuntimes.Lib LlmkubeRuntimes.Lib.Compact

/-! ## The section -/

def rateKey : List Char := "predicted_per_second".toList

def contentKey : List Char := "content".toList

/-- `[0-9.]` -/
def isNumberChar (c : Char) : Bool := c.isDigit || c = '.'

/-- What `"predicted_per_second":([0-9.]+)` captures at the front of a text. -/
def captureAt (text : List Char) : Option (List Char) :=
  let number := (text.drop (keyText rateKey).length).takeWhile isNumberChar
  if keyText rateKey <+: text ∧ number ≠ [] then some number else none

/-- What it captures behind `.*`, which takes as much of the line as it can. -/
def lastCapture : List Char → Option (List Char)
  | [] => captureAt []
  | c :: cs => (lastCapture cs).or (captureAt (c :: cs))

/-- `s/.*"predicted_per_second":([0-9.]+).*/\1/` -/
def sed (line : ShellLine) : ShellLine := (lastCapture line).getD line

/-- `$toks` -/
def toks (resp : List ShellLine) : List ShellLine := capture (resp.map sed)

/-- The section on what `curl` prints; `atLeast` is the comparison that `awk` makes. -/
def completion (atLeast : List ShellLine → ShellLine → Bool) (out : List Char) (floor : ShellLine) :
    Bool :=
  let resp := capture (out.splitOn '\n')
  (emit resp).any (fun line => quoted contentKey <:+: line) && atLeast (toks resp) floor

/-! ## Captures -/

theorem lastCapture_append {text number : List Char} (front : List Char)
    (h : lastCapture text = some number) : lastCapture (front ++ text) = some number := by
  induction front with
  | nil => exact h
  | cons c front ih => rw [List.cons_append, lastCapture, ih, Option.some_or]

theorem lastCapture_eq_none {text : List Char} (h : ¬ keyText rateKey <:+: text) :
    lastCapture text = none := by
  have hfront : captureAt text = none := if_neg fun hand => h hand.1.isInfix
  induction text with
  | nil => exact hfront
  | cons c text ih =>
    have htail : ¬ keyText rateKey <:+: text := fun hin => h (hin.trans (List.suffix_cons c text).isInfix)
    rw [lastCapture, ih htail (if_neg fun hand => htail hand.1.isInfix), hfront, Option.none_or]

theorem searched_rateKey : Searched rateKey := by decide

/-- **The last key is captured**, with the number behind it. -/
theorem lastCapture_key {front number rest : List Char} (hne : number ≠ [])
    (hnumber : ∀ c ∈ number, isNumberChar c) (hrest : Follows rest)
    (hno : ¬ keyText rateKey <:+: rest) :
    lastCapture (front ++ (keyText rateKey ++ (number ++ rest))) = some number := by
  refine lastCapture_append front ?_
  have hmarks : ∀ c ∈ [',', '}', ']'], isNumberChar c = false := by decide
  have hstop : (number ++ rest).takeWhile isNumberChar = number :=
    takeWhile_append_of_head hnumber fun c hc => hmarks c (hrest c hc)
  have hfront : captureAt (keyText rateKey ++ (number ++ rest)) = some number := by
    rw [captureAt, List.drop_left, hstop]
    exact if_pos ⟨List.prefix_append _ _, hne⟩
  -- past its first quote the key is not found again
  have htail : ¬ keyText rateKey <:+: rateKey ++ ('"' :: ':' :: (number ++ rest)) := by
    intro h
    have hquote : '"' ∉ rateKey := by decide
    have hnumber' : '"' ∉ number := fun hmem => absurd (hnumber _ hmem) (by decide)
    rcases List.infix_cons_iff.1 (infix_of_no_quote hquote h) with h | h
    · refine not_prefix_close searched_rateKey ?_ h
      rintro c hc
      cases hc
      exact List.mem_cons_self
    · exact hno (infix_of_no_quote hnumber' (infix_of_cons_ne (by decide) h))
  have hcons : keyText rateKey ++ (number ++ rest) =
      '"' :: (rateKey ++ ('"' :: ':' :: (number ++ rest))) := by
    simp [keyText, quoted]
  rw [hcons] at hfront ⊢
  rw [lastCapture, lastCapture_eq_none htail, Option.none_or, hfront]

/-! ## Responses -/

/-- A plain decimal. -/
structure Rate extends Atom where
  ne_nil : raw ≠ []
  decimal : ∀ c ∈ raw, isNumberChar c

def timingsName : Key := ⟨"timings".toList, by decide⟩

def rateName : Key := ⟨rateKey, searched_rateKey.plain⟩

/-- A response with its speed, and what stands before and behind it in the timings and
in the response. -/
def responseDoc (before timingsBefore : List (Key × Doc)) (rate : Rate)
    (timingsAfter after : List (Key × Doc)) : Doc :=
  .obj (before ++ (timingsName, .obj (timingsBefore ++ (rateName, .atom rate.toAtom) :: timingsAfter))
    :: after)

/-- A completion response. Its strings may store any texts. -/
structure Response where
  before : List (Key × Doc)
  timingsBefore : List (Key × Doc)
  rate : Rate
  timingsAfter : List (Key × Doc)
  after : List (Key × Doc)
  /-- The key of the speed does not come again. -/
  once : ∀ m ∈ timingsAfter ++ after, m.1.raw ≠ rateKey ∧ ¬ HasKey rateKey m.2
  /-- A completion has content. -/
  content : HasKey contentKey (responseDoc before timingsBefore rate timingsAfter after)

namespace Response

variable (r : Response)

def doc : Doc := responseDoc r.before r.timingsBefore r.rate r.timingsAfter r.after

def text : List Char := r.doc.text

/-- The text up to the speed, and from it on. -/
theorem text_eq : ∃ front rest, r.text = front ++ (keyText rateKey ++ (r.rate.raw ++ rest)) ∧
    Follows rest ∧ ¬ keyText rateKey <:+: rest := by
  obtain ⟨front, hfront⟩ := text_obj_append r.before timingsName
    (.obj (r.timingsBefore ++ (rateName, .atom r.rate.toAtom) :: r.timingsAfter)) r.after
  obtain ⟨inner, hinner⟩ := text_obj_append r.timingsBefore rateName (.atom r.rate.toAtom) r.timingsAfter
  have hclose : Follows (membersTail r.after ++ ['}']) :=
    follows_membersTail r.after (follows_cons (by decide))
  have hmembers : Follows ('}' :: (membersTail r.after ++ ['}'])) := follows_cons (by decide)
  refine ⟨front ++ (keyText timingsName.raw ++ inner),
    membersTail r.timingsAfter ++ '}' :: (membersTail r.after ++ ['}']), ?_, ?_, fun h => ?_⟩
  · rw [text, doc, responseDoc, hfront, hinner, Doc.text]
    simp only [List.append_assoc, List.cons_append, List.nil_append]
    rfl
  · exact follows_membersTail r.timingsAfter hmembers
  · obtain ⟨honce, honce'⟩ := List.forall_mem_append.1 r.once
    have h := infix_of_membersTail searched_rateKey _ hmembers r.timingsAfter honce h
    have h := infix_of_membersTail searched_rateKey _ (follows_cons (by decide)) r.after honce'
      (infix_of_cons_ne (by decide) h)
    rw [keyText_eq] at h
    exact absurd (h.subset List.mem_cons_self) (by decide)

/-- A response is one line for `sed`. -/
theorem capture_text : capture (r.text.splitOn '\n') = [r.text] := by
  have hne : r.text ≠ [] := by
    obtain ⟨front, rest, htext, -⟩ := r.text_eq
    rw [htext, keyText_eq]
    simp
  have hline : '\n' ∉ r.text := newline_not_mem_text r.doc
  rw [List.splitOn_eq_singleton hline]
  exact capture_singleton hne

/-- **The number that is read off is the speed.** -/
theorem toks_text : toks [r.text] = [r.rate.raw] := by
  obtain ⟨front, rest, htext, hrest, hno⟩ := r.text_eq
  rw [toks, List.map_singleton, sed, htext,
    lastCapture_key r.rate.ne_nil r.rate.decimal hrest hno, Option.getD_some]
  exact capture_singleton r.rate.ne_nil

theorem content_text : quoted contentKey <:+: r.text := by
  have hkey : quoted contentKey <:+: keyText contentKey := (List.prefix_append _ _).isInfix
  exact hkey.trans (text_of_hasKey r.content)

/-- The verdict is the comparison of the speed. -/
theorem completion_text (atLeast : List ShellLine → ShellLine → Bool) (floor : ShellLine) :
    completion atLeast r.text floor = atLeast [r.rate.raw] floor := by
  rw [completion, capture_text, toks_text, emit_of_ne_nil (List.cons_ne_nil _ _), List.any_cons,
    decide_eq_true r.content_text, Bool.true_or, Bool.true_and]

end Response

/-! ## Replies -/

def key (name : String) (h : name.toList.all isPlain := by decide) : Key :=
  ⟨name.toList, List.all_eq_true.1 h⟩

def number (text : String) (h : text.toList.all JsonText.isAtomChar := by decide) : Doc :=
  .atom ⟨text.toList, List.all_eq_true.1 h⟩

/-- A message with a text as its content. -/
def message (text : String) : Doc :=
  .obj [(key "role", .str (Str.of "assistant")), (key "content", .str (Str.of text))]

/-- The first choice. -/
def choice (text : String) : Doc :=
  .obj [(key "finish_reason", .str (Str.of "length")), (key "index", number "0"),
    (key "message", message text)]

theorem hasKey_choice (text : String) : HasKey contentKey (choice text) := by
  have hmessage : HasKey contentKey (message text) :=
    .here (k := key "content") (List.mem_cons_of_mem _ List.mem_cons_self) rfl
  exact .member (List.mem_cons_of_mem _ (List.mem_cons_of_mem _ List.mem_cons_self)) hmessage

/-- A reply to the prompt of the test. -/
def reply (text : String) (rate : Rate) : Response where
  before := [(key "choices", .arr [choice text]), (key "object", .str (Str.of "chat.completion"))]
  timingsBefore := [(key "predicted_n", number "48")]
  rate := rate
  timingsAfter := []
  after := []
  once := fun _ h => absurd h List.not_mem_nil
  content := .member List.mem_cons_self (.item List.mem_cons_self (hasKey_choice text))

/-- **Replies differ in nothing that counts**, whatever their texts. -/
theorem completion_reply (atLeast : List ShellLine → ShellLine → Bool) (text text' : String)
    (rate : Rate) (floor : ShellLine) :
    completion atLeast (reply text rate).text floor = completion atLeast (reply text' rate).text floor := by
  rw [Response.completion_text, Response.completion_text]
  rfl

/-- `awk`'s comparison, of whole numbers. -/
def atLeastNat (toks : List ShellLine) (floor : ShellLine) : Bool :=
  Nat.ofDigits 10 (floor.reverse.map fun c => c.toNat - '0'.toNat) ≤
    Nat.ofDigits 10 (toks.flatten.reverse.map fun c => c.toNat - '0'.toNat)

def rate42 : Rate := ⟨⟨"42".toList, by decide⟩, by decide, by decide⟩

/-! ## The verdict -/

/-- **The text has no influence.** The number that is read off a response is its speed, and
responses with the same speed have the same verdict. -/
theorem text_independent (atLeast : List ShellLine → ShellLine → Bool) (r r' : Response)
    (h : r.rate.raw = r'.rate.raw) (floor : ShellLine) :
    toks (capture (r.text.splitOn '\n')) = [r.rate.raw] ∧
      completion atLeast r.text floor = completion atLeast r'.text floor := by
  rw [r.capture_text, r.completion_text, r'.completion_text, h]
  exact ⟨h ▸ r.toks_text, rfl⟩

/-- A text that imitates the speed. -/
theorem text_independent_imitation :
    toks (capture ((reply "\"predicted_per_second\":9999" rate42).text.splitOn '\n')) = ["42".toList] ∧
      completion atLeastNat (reply "\"predicted_per_second\":9999" rate42).text "50".toList =
        completion atLeastNat (reply "Hello." rate42).text "50".toList :=
  text_independent atLeastNat (reply "\"predicted_per_second\":9999" rate42) (reply "Hello." rate42)
    rfl "50".toList

example : completion atLeastNat (reply "\"predicted_per_second\":9999" rate42).text "50".toList = false := by
  decide +kernel

end LlmkubeRuntimes.Promoter.Smoke
