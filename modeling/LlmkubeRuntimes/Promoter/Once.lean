import LlmkubeRuntimes.Promoter.Promotion

/-!
# Every digest is processed at most once

* `Undisturbed`: calls of `Run` that are not killed and whose saves succeed;
* `Chain`: the turns of such calls, from one state to the next;
* `outcome`: what a turn records for its candidate.

The chain links the state in memory with its saved copy: each turn starts in the
state that the turn before it saved, also across calls of `Run`. A turn needs an
unseen digest and leaves it seen, which bounds everything that happens to a digest.
-/

namespace LlmkubeRuntimes.Promoter

open LlmkubeRuntimes.Lib

/-! ## Undisturbed calls -/

/-- The process is not killed and every turn saves the state. -/
structure Undisturbed (p : Pipeline) (w : World) (i : Invocation) : Prop where
  killed : i.killed = none
  saved : ∀ es ∈ p.run w i, Saved es

def UndisturbedAll (p : Pipeline) (w : World) : List Invocation → Prop
  | [] => True
  | i :: is => Undisturbed p w i ∧ UndisturbedAll p (p.invoke w i) is

/-- The turns of undisturbed calls lead from one state to another. -/
inductive Chain (p : Pipeline) : State → List (List Event) → State → Prop where
  | nil (s : State) : Chain p s [] s
  | turn {s s' : State} {c : Candidate} {a : Answers} {rest : List (List Event)}
      (unseen : s.seen c.digest = false) (saved : a.save = none)
      (next : Chain p (p.process s c a.toReplies).2 rest s') : Chain p s (p.turn s c a :: rest) s'

section Turns

variable {p : Pipeline}

theorem Chain.append {s s' s'' : State} {ts us : List (List Event)} (h : Chain p s ts s')
    (h' : Chain p s' us s'') : Chain p s (ts ++ us) s'' := by
  induction h with
  | nil => exact h'
  | turn unseen saved _ ih => exact .turn unseen saved (ih h')

/-- A turn that saved the state got no error from `Save`. -/
theorem save_of_saved {s : State} {c : Candidate} {a : Answers} (h : Saved (p.turn s c a)) :
    a.save = none := by
  obtain ⟨s', hs'⟩ := h
  rw [Pipeline.turn, List.mem_append, List.mem_singleton] at hs'
  rcases hs' with hs' | hs'
  · cases process_not_save p s c a.toReplies _ hs'
  · exact (Event.save.inj hs').2.symm

theorem loadState_turn (w : World) (c : Candidate) {a : Answers} (h : a.save = none) :
    Pipeline.loadState ((p.turn (Pipeline.loadState w) c a).foldl Event.effect w) =
      (p.process (Pipeline.loadState w) c a.toReplies).2 := by
  rw [Pipeline.turn, h, loadState_saved]

theorem turns_chain {w : World} {cs : List Candidate} {answers : Nat → Answers}
    (h : ∀ es ∈ p.turns (Pipeline.loadState w) cs answers, Saved es) :
    Chain p (Pipeline.loadState w) (p.turns (Pipeline.loadState w) cs answers)
      (Pipeline.loadState (Pipeline.after w (p.turns (Pipeline.loadState w) cs answers))) := by
  induction cs generalizing w answers with
  | nil => exact .nil _
  | cons c cs ih =>
    rw [Pipeline.turns] at h ⊢
    cases hseen : (Pipeline.loadState w).seen c.digest with
    | true =>
      simp only [hseen, if_true] at h ⊢
      exact ih h
    | false =>
      simp only [hseen, Bool.false_eq_true, if_false] at h ⊢
      have hsave : (answers 0).save = none := save_of_saved (h _ List.mem_cons_self)
      simp only [hsave, Option.isSome_none, Bool.false_eq_true, if_false] at h ⊢
      refine .turn hseen hsave ?_
      rw [← loadState_turn w c hsave] at h ⊢
      exact ih fun es hes => h es (List.mem_cons_of_mem _ hes)

theorem run_chain {w : World} {i : Invocation} (h : Undisturbed p w i) :
    Chain p (Pipeline.loadState w) (p.run w i) (Pipeline.loadState (p.invoke w i)) := by
  have hsaved := h.saved
  unfold Pipeline.invoke Pipeline.run at *
  split
  · exact .nil _
  split
  · exact .nil _
  next hload hlist =>
    simp only [if_neg hload, if_neg hlist, h.killed] at hsaved ⊢
    exact turns_chain hsaved

/-- The world after a sequence of calls of `Run`. -/
def Pipeline.invokeAll (p : Pipeline) (w : World) : List Invocation → World
  | [] => w
  | i :: is => p.invokeAll (p.invoke w i) is

theorem trace_chain {w : World} {is : List Invocation} (h : UndisturbedAll p w is) :
    Chain p (Pipeline.loadState w) (p.trace w is) (Pipeline.loadState (p.invokeAll w is)) := by
  induction is generalizing w with
  | nil => exact .nil _
  | cons i is ih => exact (run_chain h.1).append (ih h.2)

end Turns

/-! ## One turn -/

/-- The event is a call of `Verify` on `d`. -/
def Event.verifies (d : Digest) : Event → Bool
  | .verify d' _ => d' = d
  | _ => false

/-- The state that the event saved. -/
def Event.savedState : Event → Option State
  | .save s none => some s
  | _ => none

/-- The digest a turn verifies first, and the record the saved state has for it. -/
def outcome (es : List Event) : Option (Digest × Record) :=
  match es.head?, es.getLast? with
  | some (.verify d _), some (.save s _) => (s.get? d).map fun r => (d, r)
  | _, _ => none

/-- Every record of one state is in the other. -/
def Keeps (s s' : State) : Prop := ∀ d r, s.get? d = some r → s'.get? d = some r

section Turn

variable (p : Pipeline) (s : State) (c : Candidate) (a : Answers)

/-- Every branch of `process` verifies the digest first, and only then. -/
theorem process_verify : ∃ es, (p.process s c a.toReplies).1 = .verify c.digest a.verify :: es ∧
    ∀ d, ∀ e ∈ es, e.verifies d = false := by
  unfold Pipeline.process
  split
  · exact ⟨[], rfl, fun d e he => by cases he⟩
  dsimp only
  split
  · exact ⟨_, rfl, by simp [Event.verifies]⟩
  split
  · exact ⟨_, rfl, by simp [Event.verifies]⟩
  split
  · exact ⟨_, rfl, by simp [Event.verifies]⟩
  split
  · exact ⟨_, rfl, by simp [Event.verifies]⟩
  rcases promote_cases s c a.toReplies a.labelRef.1 with ⟨_, -, hq⟩ | ⟨_, -, -, hq⟩ | ⟨-, -, hq⟩ <;>
    exact ⟨_, by rw [hq]; rfl, by simp [Event.verifies]⟩

/-- Every branch of `process` records exactly one outcome, for its own digest. -/
theorem process_records : ∃ r : Record,
    (p.process s c a.toReplies).2 = s.record c.digest r.verdict r.tag := by
  rcases process_outcome p s c a.toReplies with ⟨-, -, v, -, hv⟩ | ⟨err, -, -, -, hp⟩ | ⟨-, -, -, hp⟩
  · exact ⟨⟨v, ""⟩, hv⟩
  · exact ⟨⟨"failed-retag", ""⟩, by rw [hp]⟩
  · exact ⟨⟨"promoted", nextTag s a.toReplies⟩, by rw [hp]⟩

theorem turn_verifies (d : Digest) :
    (p.turn s c a).countP (Event.verifies d) = if c.digest = d then 1 else 0 := by
  obtain ⟨es, hes, hno⟩ := process_verify p s c a
  have hrest : es.countP (Event.verifies d) = 0 :=
    List.countP_eq_zero.2 fun e he => by rw [hno d e he]; exact Bool.false_ne_true
  rw [Pipeline.turn, hes, List.countP_append, List.countP_cons, hrest]
  simp [Event.verifies]

theorem turn_outcome : ∃ r : Record, outcome (p.turn s c a) = some (c.digest, r) ∧
    (p.process s c a.toReplies).2 = s.record c.digest r.verdict r.tag := by
  obtain ⟨es, hes, -⟩ := process_verify p s c a
  obtain ⟨r, hr⟩ := process_records p s c a
  refine ⟨r, ?_, hr⟩
  have hhead : (p.turn s c a).head? = some (.verify c.digest a.verify) := by
    rw [Pipeline.turn, hes]
    rfl
  have hlast : (p.turn s c a).getLast? =
      some (.save (p.process s c a.toReplies).2 a.save) := by
    rw [Pipeline.turn, List.getLast?_append]
    rfl
  rw [outcome, hhead, hlast, hr]
  show ((s.record c.digest r.verdict r.tag).get? c.digest).map _ = _
  rw [State.get?_record_self]
  rfl

theorem turn_savedStates (h : a.save = none) :
    (p.turn s c a).filterMap Event.savedState = [(p.process s c a.toReplies).2] := by
  have hno : (p.process s c a.toReplies).1.filterMap Event.savedState = [] := by
    refine List.filterMap_eq_nil_iff.2 fun e he => ?_
    have := process_not_save p s c a.toReplies e he
    cases e with
    | save => cases this
    | _ => rfl
  rw [Pipeline.turn, List.filterMap_append, hno, h]
  rfl

end Turn

/-! ## Chains -/

theorem Keeps.trans {s s' s'' : State} (h : Keeps s s') (h' : Keeps s' s'') : Keeps s s'' :=
  fun d r hr => h' d r (h d r hr)

theorem Keeps.seen {s s' : State} (h : Keeps s s') {d : Digest} (hd : s.seen d = true) :
    s'.seen d = true := by
  obtain ⟨r, hr⟩ := State.seen_iff.1 hd
  exact State.seen_iff.2 ⟨r, h d r hr⟩

section Chain

variable {p : Pipeline}

/-- What a turn of a chain does to the state. -/
theorem keeps_process {s : State} {c : Candidate} {a : Answers} (h : s.seen c.digest = false) :
    Keeps s (p.process s c a.toReplies).2 ∧ (p.process s c a.toReplies).2.seen c.digest = true := by
  obtain ⟨r, hr⟩ := process_records p s c a
  rw [hr]
  refine ⟨fun d r' hr' => ?_, State.seen_iff.2 ⟨r, State.get?_record_self _ _ _ _⟩⟩
  have hne : d ≠ c.digest := by
    rintro rfl
    rw [State.seen_iff.2 ⟨r', hr'⟩] at h
    cases h
  rw [State.get?_record_of_ne _ _ _ hne, hr']

variable {s s' : State} {ts : List (List Event)}

/-- **A digest is verified at most once**, and not at all once it is recorded. -/
theorem Chain.verify_le (h : Chain p s ts s') (d : Digest) :
    ts.flatten.countP (Event.verifies d) ≤ if s.seen d then 0 else 1 := by
  induction h with
  | nil s => exact Nat.zero_le _
  | @turn s s' c a rest unseen saved _ ih =>
    obtain ⟨hkeep, hseen⟩ := keeps_process (p := p) (a := a) unseen
    rw [List.flatten_cons, List.countP_append, turn_verifies]
    by_cases hd : c.digest = d
    · subst hd
      rw [hseen, if_pos rfl] at ih
      rw [if_pos rfl, unseen, if_neg Bool.false_ne_true]
      omega
    · rw [if_neg hd, Nat.zero_add]
      cases hsd : s.seen d with
      | true => rwa [hkeep.seen hsd] at ih
      | false => exact ih.trans (by split <;> simp)

/-- Every turn records one outcome, for a digest that is new. -/
theorem Chain.outcomes (h : Chain p s ts s') :
    (∀ es ∈ ts, (outcome es).isSome) ∧ ((ts.filterMap outcome).map Prod.fst).Nodup ∧
      ∀ d, s.seen d = true → d ∉ (ts.filterMap outcome).map Prod.fst := by
  induction h with
  | nil s => exact ⟨fun _ h => absurd h List.not_mem_nil, List.nodup_nil, fun _ _ => List.not_mem_nil⟩
  | @turn s s' c a rest unseen saved _ ih =>
    obtain ⟨hkeep, hseen⟩ := keeps_process (p := p) (a := a) unseen
    obtain ⟨r, hout, -⟩ := turn_outcome p s c a
    obtain ⟨hsome, hnodup, hnew⟩ := ih
    rw [List.filterMap_cons_some hout, List.map_cons]
    refine ⟨fun es hes => ?_, List.nodup_cons.2 ⟨hnew _ hseen, hnodup⟩, fun d hd hmem => ?_⟩
    · rcases List.mem_cons.1 hes with rfl | hes
      · rw [hout]
        rfl
      · exact hsome es hes
    · rcases List.mem_cons.1 hmem with rfl | hmem
      · rw [hd] at unseen
        cases unseen
      · exact hnew d (hkeep.seen hd) hmem

/-- **No record changes** from the first state through all that are saved. -/
theorem Chain.keeps (h : Chain p s ts s') :
    (s :: ts.flatten.filterMap Event.savedState).Pairwise Keeps := by
  induction h with
  | nil s => exact List.pairwise_singleton _ _
  | @turn s s' c a rest unseen saved _ ih =>
    rw [List.flatten_cons, List.filterMap_append, turn_savedStates p s c a saved,
      List.singleton_append]
    refine List.pairwise_cons.2 ⟨fun t ht => ?_, ih⟩
    have hkeep := (keeps_process (p := p) (a := a) unseen).1
    rcases List.mem_cons.1 ht with rfl | ht
    · exact hkeep
    · exact hkeep.trans ((List.pairwise_cons.1 ih).1 t ht)

end Chain

/-! ## All histories -/

theorem turns_recorded {p : Pipeline} {s : State} {cs : List Candidate}
    (h : ∀ c ∈ cs, s.seen c.digest = true) (answers : Nat → Answers) : p.turns s cs answers = [] := by
  induction cs generalizing answers with
  | nil => rfl
  | cons c cs ih =>
    rw [Pipeline.turns, if_pos (h c List.mem_cons_self)]
    exact ih (fun c' hc' => h c' (List.mem_cons_of_mem c hc')) _

/-- A call whose candidates are all recorded makes no call and changes nothing. -/
theorem run_recorded (p : Pipeline) (w : World) (i : Invocation)
    (h : ∀ c ∈ i.list.1, (Pipeline.loadState w).seen c.digest = true) :
    p.run w i = [] ∧ p.invoke w i = w := by
  have hrun : p.run w i = [] := by
    rcases run_eq_cut p w i with hrun | ⟨n, hrun⟩
    · exact hrun
    · rw [hrun, turns_recorded h, cut]
  exact ⟨hrun, by rw [Pipeline.invoke, hrun]; rfl⟩

/-- **Every digest is processed at most once**, over any sequence of undisturbed calls. -/
theorem processed_once (p : Pipeline) (w : World) (is : List Invocation)
    (h : UndisturbedAll p w is) :
    (∀ d, (p.trace w is).flatten.countP (Event.verifies d) ≤ 1) ∧
    (∀ es ∈ p.trace w is, (outcome es).isSome) ∧
    (((p.trace w is).filterMap outcome).map Prod.fst).Nodup ∧
    (Pipeline.loadState w :: (p.trace w is).flatten.filterMap Event.savedState).Pairwise Keeps ∧
    ∀ i : Invocation,
      (∀ c ∈ i.list.1, (Pipeline.loadState (p.invokeAll w is)).seen c.digest = true) →
        p.run (p.invokeAll w is) i = [] ∧ p.invoke (p.invokeAll w is) i = p.invokeAll w is := by
  have hchain := trace_chain h
  obtain ⟨hsome, hnodup, -⟩ := hchain.outcomes
  refine ⟨fun d => (hchain.verify_le d).trans (by split <;> simp), hsome, hnodup, hchain.keeps,
    fun i hi => run_recorded p _ i hi⟩

/-- One digest under two tags in one call, and under a third in the next. -/
def sameDigest : List Invocation :=
  [⟨none, ([⟨"candidate-a", "d1", ""⟩, ⟨"candidate-b", "d1", ""⟩], none), fun _ => allPass, none⟩,
    ⟨none, ([⟨"candidate-c", "d1", ""⟩], none), fun _ => allPass, none⟩]

theorem sameDigest_undisturbed : UndisturbedAll demo emptyWorld sameDigest := by
  refine ⟨⟨rfl, fun es hes => ?_⟩, ⟨rfl, fun es hes => ?_⟩, trivial⟩
  · rcases List.mem_singleton.1 hes with rfl
    exact ⟨_, List.mem_append_right _ List.mem_cons_self⟩
  · cases hes

theorem processed_once_sameDigest :
    (demo.trace emptyWorld sameDigest).flatten.countP (Event.verifies "d1") ≤ 1 :=
  (processed_once demo emptyWorld sameDigest sameDigest_undisturbed).1 "d1"

end LlmkubeRuntimes.Promoter
