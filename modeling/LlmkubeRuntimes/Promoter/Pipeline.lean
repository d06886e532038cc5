import Mathlib.Data.List.Sort
import Mathlib.Data.Rat.Defs
import LlmkubeRuntimes.Promoter.State

/-!
# The promotion pipeline

`Pipeline.process` takes one candidate through verify, label, smoke and
promote; `Pipeline.Run` does so for every listed candidate that the state has
not seen, and saves the state after each.

* `Replies`, `Answers`: what the registry, the verifier, the smoker and the file
  system answer while one candidate is processed; an `error` is an
  `Option String`.
* `Event`: the calls made, with their answers, and the reads of the last
  revision. `process` and `turns` return the events in order, one list for each
  candidate processed.
* `World`: the registry's tags and the state file. A call that returns an error
  has no effect on it.
* `Invocation`: one call of `Run`. It may be killed between any two events.
-/

namespace LlmkubeRuntimes.Promoter

structure Candidate where
  tag : Tag
  digest : Digest
  ref : String
  deriving DecidableEq, Repr

structure Pipeline where
  repo : String
  renderGID : Int
  minDecodeTokS : ℚ

/-- The answers to the calls `process` makes for one candidate. -/
structure Replies where
  verify : Option String
  labelRef : String × Option String
  runFor : Bool × Option String
  retag : Tag → Option String

/-- The answers during one turn of the loop in `Run`. -/
structure Answers extends Replies where
  save : Option String

inductive Event where
  | verify (digest : Digest) (err : Option String)
  | labelRef (digest : Digest) (answer : String × Option String)
  | runFor (image : String) (renderGID : Int) (floorTokS : ℚ) (answer : Bool × Option String)
  | lastRevision (ref : String) (n : Int)
  | retag (digest : Digest) (newTag : Tag) (err : Option String)
  | save (state : State) (err : Option String)

/-! ## One candidate -/

/-- Every answer lets the candidate through, with label `b9663`. -/
def allPass : Answers := ⟨⟨none, ("b9663", none), (true, none), fun _ => none⟩, none⟩

def demo : Pipeline := ⟨"ghcr.io/x", 44, 10⟩

/-- The loop over the tags: the calls, and whether all of them succeeded. -/
def retagAll (digest : Digest) (retag : Tag → Option String) : List Tag → List Event × Bool
  | [] => ([], true)
  | t :: ts =>
    match retag t with
    | some err => ([.retag digest t (some err)], false)
    | none =>
      let rest := retagAll digest retag ts
      (.retag digest t none :: rest.1, rest.2)

namespace Pipeline

def image (p : Pipeline) (digest : Digest) : String := p.repo ++ "@" ++ digest

/-- The end of `process`, once the smoke test passed. -/
def promote (s : State) (c : Candidate) (a : Replies) (ref : String) : List Event × State :=
  let revTag := revisionTag ref (s.nextRevision ref)
  let retagged := retagAll c.digest a.retag ["stable", revTag]
  (.lastRevision ref (s.lastRevision ref) :: retagged.1,
    if retagged.2 then s.record c.digest "promoted" revTag
    else s.record c.digest "failed-retag" "")

def process (p : Pipeline) (s : State) (c : Candidate) (a : Replies) : List Event × State :=
  let verified := Event.verify c.digest a.verify
  if a.verify.isSome then ([verified], s.record c.digest "failed-provenance" "")
  else
    let labelled := Event.labelRef c.digest a.labelRef
    if a.labelRef.2.isSome then ([verified, labelled], s.record c.digest "failed-label" "")
    else if a.labelRef.1 = "" then ([verified, labelled], s.record c.digest "failed-label" "")
    else
      let smoked := Event.runFor (p.image c.digest) p.renderGID p.minDecodeTokS a.runFor
      if a.runFor.2.isSome then
        ([verified, labelled, smoked], s.record c.digest "failed-smoke" "")
      else if a.runFor.1 = false then
        ([verified, labelled, smoked], s.record c.digest "failed-smoke" "")
      else
        let promoted := promote s c a a.labelRef.1
        ([verified, labelled, smoked] ++ promoted.1, promoted.2)

/-- The events of one turn of the loop in `Run`. -/
def turn (p : Pipeline) (s : State) (c : Candidate) (a : Answers) : List Event :=
  let done := p.process s c a.toReplies
  done.1 ++ [.save done.2 a.save]

/-- The loop of `Run` over the listed candidates; `answers i` is for the `i`-th. -/
def turns (p : Pipeline) (s : State) : List Candidate → (Nat → Answers) → List (List Event)
  | [], _ => []
  | c :: cs, answers =>
    if s.seen c.digest then p.turns s cs fun i => answers (i + 1)
    else
      p.turn s c (answers 0) ::
        if (answers 0).save.isSome then []
        else p.turns (p.process s c (answers 0).toReplies).2 cs fun i => answers (i + 1)

end Pipeline

/-! ## The world -/

structure World where
  registry : AList fun _ : Tag => Digest
  /-- The state file, if there is one. -/
  file : Option State
  /-- Every tag set so far, with the digest it was set on. -/
  history : List (Tag × Digest)

/-- The effect of a call on the world. -/
def Event.effect (w : World) : Event → World
  | .retag d t none =>
    { w with registry := w.registry.insert t d, history := w.history ++ [(t, d)] }
  | .save s none => { w with file := some s }
  | _ => w

/-- `ListCandidates`. -/
def listCandidates (registry : AList fun _ : Tag => Digest) : List Candidate :=
  let out := registry.entries.filterMap fun e =>
    if "candidate-".toList.isPrefixOf e.1.toList then some ⟨e.1, e.2, ""⟩ else none
  out.insertionSort fun a b => a.tag ≤ b.tag

/-- One call of `Run`. -/
structure Invocation where
  /-- The error of `LoadState`. -/
  load : Option String
  /-- The candidates and the error that `ListCandidates` returns. -/
  list : List Candidate × Option String
  answers : Nat → Answers
  /-- The number of events after which the process is killed, if it is. -/
  killed : Option Nat

/-- The turns a process goes through that is killed after `n` events. -/
def cut (n : Nat) : List (List Event) → List (List Event)
  | [] => []
  | es :: rest => if n ≤ es.length then [es.take n] else es :: cut (n - es.length) rest

namespace Pipeline

/-- The state `LoadState` returns. -/
def loadState (w : World) : State := w.file.getD .empty

/-- What `Run` does up to its end or until it is killed, turn by turn. -/
def run (p : Pipeline) (w : World) (i : Invocation) : List (List Event) :=
  if i.load.isSome then []
  else if i.list.2.isSome then []
  else
    let all := p.turns (loadState w) i.list.1 i.answers
    match i.killed with
    | none => all
    | some n => cut n all

/-- The world after some turns. -/
def after (w : World) (turns : List (List Event)) : World :=
  turns.foldl (fun w es => es.foldl Event.effect w) w

/-- The world after a call of `Run`. -/
def invoke (p : Pipeline) (w : World) (i : Invocation) : World := after w (p.run w i)

end Pipeline

/-! ## One candidate, by cases -/

/-- `Verify`, `LabelRef` and `RunFor` let the candidate through. -/
def Replies.Passes (a : Replies) : Prop :=
  a.verify = none ∧ a.labelRef.2 = none ∧ a.labelRef.1 ≠ "" ∧ a.runFor = (true, none)

instance (a : Replies) : Decidable a.Passes := by unfold Replies.Passes; infer_instance

/-- The calls before the tags are set, with the answers that let a candidate through. -/
def Pipeline.checks (p : Pipeline) (digest : Digest) (ref : String) : List Event :=
  [.verify digest none, .labelRef digest (ref, none),
    .runFor (p.image digest) p.renderGID p.minDecodeTokS (true, none)]

def Event.isRetag : Event → Bool
  | .retag .. => true
  | _ => false

def Event.isSave : Event → Bool
  | .save .. => true
  | _ => false

/-- The verdicts of failed candidates. -/
def IsFailure (verdict : String) : Prop := "failed-".toList <+: verdict.toList

instance (verdict : String) : Decidable (IsFailure verdict) := by unfold IsFailure; infer_instance

/-- The gates of `process`: it stops without a `Retag`, or it passes all of them. -/
theorem process_cases (p : Pipeline) (s : State) (c : Candidate) (a : Replies) :
    (¬ a.Passes ∧ (∀ e ∈ (p.process s c a).1, e.isRetag = false ∧ e.isSave = false) ∧
      ∃ v, IsFailure v ∧ (p.process s c a).2 = s.record c.digest v "") ∨
    (a.Passes ∧ p.process s c a =
        (p.checks c.digest a.labelRef.1 ++ (Pipeline.promote s c a a.labelRef.1).1,
          (Pipeline.promote s c a a.labelRef.1).2)) := by
  have hprov : IsFailure "failed-provenance" := by decide
  have hlabel : IsFailure "failed-label" := by decide
  have hsmoke : IsFailure "failed-smoke" := by decide
  obtain ⟨verify, ⟨ref, lerr⟩, ⟨passed, rerr⟩, retag⟩ := a
  unfold Pipeline.process
  rcases verify with - | verr
  · rcases lerr with - | lerr
    · by_cases href : ref = ""
      · exact .inl (by
          simpa [Replies.Passes, href, Event.isRetag, Event.isSave] using ⟨_, hlabel, rfl⟩)
      · rcases rerr with - | rerr
        · cases passed
          · exact .inl (by simpa [Replies.Passes, href, Event.isRetag, Event.isSave] using
              ⟨_, hsmoke, rfl⟩)
          · exact .inr (by simp [Replies.Passes, href, Pipeline.checks])
        · exact .inl (by simpa [Replies.Passes, href, Event.isRetag, Event.isSave] using
            ⟨_, hsmoke, rfl⟩)
    · exact .inl (by simpa [Replies.Passes, Event.isRetag, Event.isSave] using ⟨_, hlabel, rfl⟩)
  · exact .inl (by simpa [Replies.Passes, Event.isRetag, Event.isSave] using ⟨_, hprov, rfl⟩)

section Promote

variable (s : State) (c : Candidate) (a : Replies) (ref : String)

/-- What the end of `process` does: no tag, `stable` alone, or both. -/
theorem promote_cases :
    (∃ err, a.retag "stable" = some err ∧ Pipeline.promote s c a ref =
      ([.lastRevision ref (s.lastRevision ref), .retag c.digest "stable" (some err)],
        s.record c.digest "failed-retag" "")) ∨
    (∃ err, a.retag "stable" = none ∧
      a.retag (revisionTag ref (s.nextRevision ref)) = some err ∧ Pipeline.promote s c a ref =
      ([.lastRevision ref (s.lastRevision ref), .retag c.digest "stable" none,
          .retag c.digest (revisionTag ref (s.nextRevision ref)) (some err)],
        s.record c.digest "failed-retag" "")) ∨
    (a.retag "stable" = none ∧ a.retag (revisionTag ref (s.nextRevision ref)) = none ∧
      Pipeline.promote s c a ref =
      ([.lastRevision ref (s.lastRevision ref), .retag c.digest "stable" none,
          .retag c.digest (revisionTag ref (s.nextRevision ref)) none],
        s.record c.digest "promoted" (revisionTag ref (s.nextRevision ref)))) := by
  cases h1 : a.retag "stable" with
  | some err => exact .inl ⟨err, rfl, by simp [Pipeline.promote, retagAll, h1]⟩
  | none =>
    cases h2 : a.retag (revisionTag ref (s.nextRevision ref)) with
    | some err => exact .inr (.inl ⟨err, rfl, rfl, by simp [Pipeline.promote, retagAll, h1, h2]⟩)
    | none => exact .inr (.inr ⟨rfl, rfl, by simp [Pipeline.promote, retagAll, h1, h2]⟩)

end Promote

/-- The revision tag `process` sets on a candidate. -/
def nextTag (s : State) (a : Replies) : Tag :=
  revisionTag a.labelRef.1 (s.nextRevision a.labelRef.1)

/-- The events of a candidate that passes the gates, up to the `Retag` of `stable`. -/
def Pipeline.untilStable (p : Pipeline) (s : State) (c : Candidate) (a : Replies) : List Event :=
  p.checks c.digest a.labelRef.1 ++
    [.lastRevision a.labelRef.1 (s.lastRevision a.labelRef.1), .retag c.digest "stable" none]

/-- **What `process` does**: it fails before any tag is set, it sets `stable`
alone, or it sets both tags. -/
theorem process_outcome (p : Pipeline) (s : State) (c : Candidate) (a : Replies) :
    (¬ (a.Passes ∧ a.retag "stable" = none) ∧ (∀ d t, .retag d t none ∉ (p.process s c a).1) ∧
      ∃ v, IsFailure v ∧ (p.process s c a).2 = s.record c.digest v "") ∨
    (∃ err, a.Passes ∧ a.retag "stable" = none ∧ a.retag (nextTag s a) = some err ∧
      p.process s c a = (p.untilStable s c a ++ [.retag c.digest (nextTag s a) (some err)],
        s.record c.digest "failed-retag" "")) ∨
    (a.Passes ∧ a.retag "stable" = none ∧ a.retag (nextTag s a) = none ∧
      p.process s c a = (p.untilStable s c a ++ [.retag c.digest (nextTag s a) none],
        s.record c.digest "promoted" (nextTag s a))) := by
  rcases process_cases p s c a with ⟨hfail, hno, hs⟩ | ⟨hpass, hp⟩
  · exact .inl ⟨fun h => hfail h.1, fun d t h => (by cases (hno _ h).1), hs⟩
  · rcases promote_cases s c a a.labelRef.1 with ⟨err, h1, hq⟩ | ⟨err, h1, h2, hq⟩ | ⟨h1, h2, hq⟩
    · refine .inl ⟨fun h => ?_, fun d t h => ?_, "failed-retag", by decide, by rw [hp, hq]⟩
      · rw [h.2] at h1; cases h1
      · rw [hp, hq] at h
        simp [Pipeline.checks] at h
    · exact .inr (.inl ⟨err, hpass, h1, h2, by rw [hp, hq, Pipeline.untilStable]; simp [nextTag]⟩)
    · exact .inr (.inr ⟨hpass, h1, h2, by rw [hp, hq, Pipeline.untilStable]; simp [nextTag]⟩)

/-- `process` saves nothing itself. -/
theorem process_not_save (p : Pipeline) (s : State) (c : Candidate) (a : Replies) :
    ∀ e ∈ (p.process s c a).1, e.isSave = false := by
  rcases process_cases p s c a with ⟨-, h, -⟩ | ⟨-, h⟩
  · exact fun e he => (h e he).2
  · rw [h]
    rcases promote_cases s c a a.labelRef.1 with ⟨_, -, h⟩ | ⟨_, -, -, h⟩ | ⟨-, -, h⟩ <;>
      simp [h, Pipeline.checks, Event.isSave]

/-! ## The effect of events -/

section Effect

variable {w : World} {es : List Event}

theorem history_foldl {t : Tag} {d : Digest} : (t, d) ∈ (es.foldl Event.effect w).history ↔
    (t, d) ∈ w.history ∨ .retag d t none ∈ es := by
  induction es generalizing w with
  | nil => simp
  | cons e es ih =>
    rw [List.foldl_cons, ih, List.mem_cons]
    have happly : (t, d) ∈ (Event.effect w e).history ↔
        (t, d) ∈ w.history ∨ Event.retag d t none = e := by
      unfold Event.effect
      split
      · simp [and_comm]
      · simp
      next hne _ => exact ⟨.inl, fun h => h.resolve_right fun h => hne _ _ h.symm⟩
    rw [happly, or_assoc]

theorem file_foldl (h : ∀ s, .save s none ∉ es) : (es.foldl Event.effect w).file = w.file := by
  induction es generalizing w with
  | nil => rfl
  | cons e es ih =>
    rw [List.foldl_cons, ih fun s hs => h s (List.mem_cons_of_mem _ hs)]
    unfold Event.effect
    split
    · rfl
    next s => exact absurd List.mem_cons_self (h s)
    · rfl

theorem registry_foldl {t : Tag} (h : ∀ d, .retag d t none ∉ es) :
    (es.foldl Event.effect w).registry.lookup t = w.registry.lookup t := by
  induction es generalizing w with
  | nil => rfl
  | cons e es ih =>
    rw [List.foldl_cons, ih fun d hd => h d (List.mem_cons_of_mem _ hd)]
    unfold Event.effect
    split
    next d t' =>
      have hne : t ≠ t' := by
        rintro rfl
        exact h d List.mem_cons_self
      exact AList.lookup_insert_ne hne
    · rfl
    · rfl

end Effect

/-! ## What turns keep -/

/-- A turn ends with its state saved. -/
def Saved (es : List Event) : Prop := ∃ s, .save s none ∈ es

/-- What was executed of a turn that did not save its state is calls of `process`. -/
theorem take_turn_cases (p : Pipeline) (s : State) (c : Candidate) (a : Answers) (n : Nat) :
    ((p.turn s c a).take n = p.turn s c a ∧ a.save = none) ∨ ¬ Saved ((p.turn s c a).take n) := by
  by_cases hn : n ≤ (p.process s c a.toReplies).1.length
  · right
    rintro ⟨s', hs'⟩
    have htake : (p.turn s c a).take n = (p.process s c a.toReplies).1.take n := by
      rw [Pipeline.turn, List.take_append_of_le_length hn]
    rw [htake] at hs'
    have := process_not_save p s c a.toReplies _ (List.mem_of_mem_take hs')
    cases this
  · have htake : (p.turn s c a).take n = p.turn s c a := by
      apply List.take_of_length_le
      simp only [Pipeline.turn, List.length_append, List.length_singleton]
      omega
    cases hsave : a.save with
    | none => exact .inl ⟨htake, rfl⟩
    | some err =>
      right
      rintro ⟨s', hs'⟩
      rw [htake, Pipeline.turn, List.mem_append, List.mem_singleton, hsave] at hs'
      rcases hs' with hs' | hs'
      · cases process_not_save p s c a.toReplies _ hs'
      · cases hs'

/-- The world after a turn that saved its state. -/
theorem loadState_saved (w : World) (es : List Event) (s : State) :
    Pipeline.loadState ((es ++ [Event.save s none]).foldl Event.effect w) = s := by
  rw [List.foldl_append]
  rfl

/-- A process killed after more events than there are is not killed. -/
theorem cut_of_lt {turns : List (List Event)} {n : Nat} (h : turns.flatten.length < n) :
    cut n turns = turns := by
  induction turns generalizing n with
  | nil => rfl
  | cons es rest ih =>
    simp only [List.flatten_cons, List.length_append] at h
    rw [cut, if_neg (by omega), ih (by omega)]

theorem run_eq_cut (p : Pipeline) (w : World) (i : Invocation) :
    p.run w i = [] ∨ ∃ n, p.run w i = cut n (p.turns (Pipeline.loadState w) i.list.1 i.answers) := by
  unfold Pipeline.run
  split
  · exact .inl rfl
  split
  · exact .inl rfl
  · right
    cases i.killed with
    | none => exact ⟨_, (cut_of_lt (Nat.lt_succ_self _)).symm⟩
    | some n => exact ⟨n, rfl⟩

section Run

variable {p : Pipeline} {I : World → Prop} {ok : World → List Event → Prop}

/-- What every turn keeps that starts in the saved state, executed to its end or
in part, a call of `Run` keeps that is killed at some point. `ok` is about a turn
and the world it starts in. -/
theorem cut_inv
    (hturn : ∀ w c a n, I w → (Pipeline.loadState w).seen c.digest = false →
      ok w ((p.turn (Pipeline.loadState w) c a).take n) →
      I (((p.turn (Pipeline.loadState w) c a).take n).foldl Event.effect w))
    {w : World} {cs : List Candidate} {answers : Nat → Answers} {n : Nat} (h : I w)
    (hok : ∀ pre es post, cut n (p.turns (Pipeline.loadState w) cs answers) = pre ++ es :: post →
      ok (Pipeline.after w pre) es) :
    I (Pipeline.after w (cut n (p.turns (Pipeline.loadState w) cs answers))) := by
  induction cs generalizing w answers n with
  | nil => exact h
  | cons c cs ih =>
    cases hseen : (Pipeline.loadState w).seen c.digest with
    | true =>
      simp only [Pipeline.turns, hseen, if_true] at hok ⊢
      exact ih h hok
    | false =>
      simp only [Pipeline.turns, hseen, Bool.false_eq_true, if_false] at hok ⊢
      by_cases hn : n ≤ (p.turn (Pipeline.loadState w) c (answers 0)).length
      · simp only [cut, if_pos hn] at hok ⊢
        exact hturn w c (answers 0) n h hseen (hok [] _ [] rfl)
      · simp only [cut, if_neg hn] at hok ⊢
        have hnext : I ((p.turn (Pipeline.loadState w) c (answers 0)).foldl Event.effect w) := by
          have := hturn w c (answers 0) (p.turn (Pipeline.loadState w) c (answers 0)).length h hseen
          rw [List.take_length] at this
          exact this (hok [] _ _ rfl)
        cases hsave : (answers 0).save with
        | some err => exact hnext
        | none =>
          have hload : Pipeline.loadState
              ((p.turn (Pipeline.loadState w) c (answers 0)).foldl Event.effect w) =
              (p.process (Pipeline.loadState w) c (answers 0).toReplies).2 := by
            rw [Pipeline.turn, hsave, loadState_saved]
          simp only [hsave, Option.isSome_none, Bool.false_eq_true, if_false, ← hload] at hok ⊢
          refine ih hnext fun pre es post hcut => ?_
          exact hok (p.turn (Pipeline.loadState w) c (answers 0) :: pre) es post (by rw [hcut]; rfl)

/-- **The rule for runs.** -/
theorem invoke_inv (ok : World → List Event → Prop)
    (hturn : ∀ w c a n, I w → (Pipeline.loadState w).seen c.digest = false →
      ok w ((p.turn (Pipeline.loadState w) c a).take n) →
      I (((p.turn (Pipeline.loadState w) c a).take n).foldl Event.effect w))
    {w : World} {i : Invocation} (h : I w)
    (hok : ∀ pre es post, p.run w i = pre ++ es :: post → ok (Pipeline.after w pre) es) :
    I (p.invoke w i) := by
  rw [Pipeline.invoke]
  rcases run_eq_cut p w i with hrun | ⟨n, hrun⟩ <;> rw [hrun] at hok ⊢
  · exact h
  · exact cut_inv hturn h hok

/-- Every turn executed is a turn of some candidate, to its end or in part. -/
theorem mem_run {w : World} {i : Invocation} {es : List Event} (h : es ∈ p.run w i) :
    ∃ s c a n, es = (p.turn s c a).take n := by
  have key : ∀ (cs : List Candidate) (answers : Nat → Answers) (s : State) (n : Nat),
      es ∈ cut n (p.turns s cs answers) → ∃ s c a n, es = (p.turn s c a).take n := by
    intro cs
    induction cs with
    | nil => intro answers s n h; cases h
    | cons c cs ih =>
      intro answers s n h
      rw [Pipeline.turns] at h
      split at h
      · exact ih _ _ _ h
      unfold cut at h
      split at h
      · exact ⟨s, c, answers 0, n, List.mem_singleton.1 h⟩
      rcases List.mem_cons.1 h with rfl | h
      · exact ⟨s, c, answers 0, _, List.take_length.symm⟩
      split at h
      · cases h
      · exact ih _ _ _ h
  rcases run_eq_cut p w i with hrun | ⟨n, hrun⟩ <;> rw [hrun] at h
  · cases h
  · exact key _ _ _ n h

end Run

end LlmkubeRuntimes.Promoter
