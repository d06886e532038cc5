import LlmkubeRuntimes.Lib.System
import LlmkubeRuntimes.Promoter.Pipeline

/-!
# Revision tags over runs

Candidates are pushed between calls of `Run`, and a call may be killed between
any two of its steps or lose its `Save`.

* `registrySystem`: pushes and calls of `Run`, from a registry whose revision
  tags are all recorded in the state file;
* `Immutable`: no revision tag was set on two digests, by a push or by `Run`;
* `Settled`: no candidate is pushed under a tag of revision form, and a turn that
  sets a revision tag saves the state and starts from one in which the ref has not
  used up the integers.

`revision_tags_immutable` holds of settled runs: the invariant is that every
revision tag ever set is recorded in the file. `revision_tag_moves` is a process
killed between the `Retag` and the `Save`, `pushed_revision_tag_moves` a candidate
pushed under a tag of revision form.
-/

namespace LlmkubeRuntimes.Promoter

open LlmkubeRuntimes.Lib

inductive Act where
  /-- CI pushes a candidate. -/
  | push (tag : Tag) (digest : Digest)
  /-- A call of `Run`. -/
  | run (load list : Option String) (answers : Nat → Answers) (killed : Option Nat)

/-- The call of `Run` with the candidates the registry lists. -/
def invocation (w : World) (load list : Option String) (answers : Nat → Answers)
    (killed : Option Nat) : Invocation := ⟨load, (listCandidates w.registry, list), answers, killed⟩

def registryStep (p : Pipeline) (w : World) : Act → Option World
  | .push t d =>
    if "candidate-".toList.isPrefixOf t.toList then
      some { w with registry := w.registry.insert t d, history := w.history ++ [(t, d)] }
    else none
  | .run load list answers killed => some (p.invoke w (invocation w load list answers killed))

def registrySystem (p : Pipeline) : System World Act where
  init w := w.history = w.registry.entries.map (fun e => (e.1, e.2)) ∧
    ∀ t d, IsRevision t → w.registry.lookup t = some d → (Pipeline.loadState w).Recorded t
  step := registryStep p

/-- No revision tag was set on two digests. -/
def Immutable (w : World) : Prop :=
  ∀ t d d', IsRevision t → (t, d) ∈ w.history → (t, d') ∈ w.history → d = d'

/-- A turn that sets a revision tag of `ref` saves the state, and no tag the state file holds
has the largest int as its number for `ref`. -/
def SettledTurn (w : World) (es : List Event) : Prop :=
  ∀ d ref n, .retag d (revisionTag ref n) none ∈ es →
    Saved es ∧ (Pipeline.loadState w).Below ref

def Settled (p : Pipeline) (w : World) : Act → Prop
  | .push t _ => ¬ IsRevision t
  | .run load list answers killed =>
    ∀ before es rest, p.run w (invocation w load list answers killed) = before ++ es :: rest →
      SettledTurn (Pipeline.after w before) es

/-- Every revision tag set so far is recorded in the state file. -/
structure Kept (w : World) : Prop where
  recorded : ∀ t d, IsRevision t → (t, d) ∈ w.history → (Pipeline.loadState w).Recorded t
  immutable : Immutable w

/-- Every revision tag has a letter of `-llmkube`. -/
theorem IsRevision.mem_suffix {t : Tag} (h : IsRevision t) : 'k' ∈ t.toList := by
  obtain ⟨ref, n, rfl⟩ := h
  simp [revisionTag, String.toList_append]

theorem IsRevision.ne_stable {t : Tag} (h : IsRevision t) : t ≠ "stable" := by
  obtain ⟨ref, n, rfl⟩ := h
  exact revisionTag_ne_stable ref n

/-- No revision tag was set and every record was kept. -/
theorem Kept.of_history {w w' : World} (h : Kept w)
    (hold : ∀ t d, IsRevision t → (t, d) ∈ w'.history → (t, d) ∈ w.history)
    (hrecorded : ∀ t, (Pipeline.loadState w).Recorded t → (Pipeline.loadState w').Recorded t) :
    Kept w' where
  recorded t d ht hd := hrecorded t (h.recorded t d ht (hold t d ht hd))
  immutable t d d' ht hd hd' := h.immutable t d d' ht (hold t d ht hd) (hold t d' ht hd')

/-- A turn that does not save its state sets no revision tag. -/
theorem kept_unsaved {w : World} {es : List Event} (h : Kept w) (hes : SettledTurn w es)
    (hno : ¬ Saved es) : Kept (es.foldl Event.effect w) := by
  have hload : Pipeline.loadState (es.foldl Event.effect w) = Pipeline.loadState w := by
    rw [Pipeline.loadState, file_foldl fun s hs => hno ⟨s, hs⟩]
    rfl
  refine h.of_history (fun t d ht hd => ?_) fun t hrec => hload ▸ hrec
  obtain ⟨ref, n, rfl⟩ := ht
  exact (history_foldl.1 hd).resolve_right fun hmem => hno (hes d ref n hmem).1

/-- What a turn sets is nothing of revision form, or the next tag on the candidate, which it
then records. -/
theorem process_new (p : Pipeline) (s : State) (c : Candidate) (a : Answers) :
    (∀ t d, IsRevision t → .retag d t none ∉ (p.process s c a.toReplies).1) ∧
      (∃ v t, (p.process s c a.toReplies).2 = s.record c.digest v t) ∨
    (∀ t d, IsRevision t → .retag d t none ∈ (p.process s c a.toReplies).1 →
      d = c.digest ∧ t = nextTag s a.toReplies) ∧
    .retag c.digest (nextTag s a.toReplies) none ∈ p.turn s c a ∧
    (p.process s c a.toReplies).2 = s.record c.digest "promoted" (nextTag s a.toReplies) := by
  rcases process_outcome p s c a.toReplies with ⟨-, hno, v, -, hv⟩ | ⟨err, -, -, -, hp⟩ |
    ⟨-, -, -, hp⟩
  · exact .inl ⟨fun t d _ => hno d t, v, "", hv⟩
  · refine .inl ⟨fun t d ht hd => ht.ne_stable ?_, "failed-retag", "", by rw [hp]⟩
    rw [hp] at hd
    simp [Pipeline.untilStable, Pipeline.checks] at hd
    exact hd.2
  · refine .inr ⟨fun t d ht hd => ?_, ?_, by rw [hp]⟩
    · rw [hp] at hd
      simp [Pipeline.untilStable, Pipeline.checks] at hd
      exact hd.resolve_left fun hst => ht.ne_stable hst.2
    · simp [Pipeline.turn, hp]

/-- The next revision tag was set on one digest and recorded. -/
theorem Kept.of_next {w w' : World} {d₀ : Digest} {t₀ : Tag} (h : Kept w)
    (hfresh : ∀ d, (t₀, d) ∉ w.history)
    (hcase : ∀ t d, IsRevision t → (t, d) ∈ w'.history → (t, d) ∈ w.history ∨ d = d₀ ∧ t = t₀)
    (hrecorded : ∀ t, (Pipeline.loadState w).Recorded t → (Pipeline.loadState w').Recorded t)
    (hnew : (Pipeline.loadState w').Recorded t₀) : Kept w' where
  recorded t d ht hd := by
    rcases hcase t d ht hd with hd | ⟨-, rfl⟩
    · exact hrecorded t (h.recorded t d ht hd)
    · exact hnew
  immutable t d d' ht hd hd' := by
    rcases hcase t d ht hd with hd | ⟨hdc, htag⟩ <;>
      rcases hcase t d' ht hd' with hd' | ⟨hdc', htag'⟩
    · exact h.immutable t d d' ht hd hd'
    · exact absurd (htag' ▸ hd) (hfresh d)
    · exact absurd (htag ▸ hd') (hfresh d')
    · rw [hdc, hdc']

/-- A turn that saves its state records the revision tag it set. -/
theorem kept_saved {p : Pipeline} {w : World} {c : Candidate} {a : Answers} (h : Kept w)
    (hseen : (Pipeline.loadState w).seen c.digest = false)
    (hes : SettledTurn w (p.turn (Pipeline.loadState w) c a)) (hsave : a.save = none) :
    Kept ((p.turn (Pipeline.loadState w) c a).foldl Event.effect w) := by
  set s := Pipeline.loadState w with hs
  have hload : Pipeline.loadState ((p.turn s c a).foldl Event.effect w) =
      (p.process s c a.toReplies).2 := by
    rw [Pipeline.turn, hsave, loadState_saved]
  have hmem : ∀ t d, (t, d) ∈ ((p.turn s c a).foldl Event.effect w).history ↔
      (t, d) ∈ w.history ∨ .retag d t none ∈ (p.process s c a.toReplies).1 := by
    intro t d
    rw [history_foldl]
    simp [Pipeline.turn]
  rcases process_new p s c a with ⟨hnone, v, t', hv⟩ | ⟨hnext, hset, hv⟩
  · refine h.of_history (fun t d ht hd => ((hmem t d).1 hd).resolve_right (hnone t d ht))
      fun t hrec => ?_
    rw [hload, hv]
    exact hrec.record hseen v t'
  · have hbelow : s.Below a.labelRef.1 := (hes c.digest _ _ hset).2
    have hfresh : ∀ d, (nextTag s a.toReplies, d) ∉ w.history := by
      intro d hd
      obtain ⟨d', r, hr, hrt⟩ := h.recorded _ d ⟨_, _, rfl⟩ hd
      exact State.revisionTag_fresh hbelow.lastRevision_lt hr hrt
    refine h.of_next hfresh (fun t d ht hd => ((hmem t d).1 hd).imp_right (hnext t d ht))
      (fun t hrec => ?_) ?_
    · rw [hload, hv]
      exact hrec.record hseen _ _
    · rw [hload, hv]
      exact State.recorded_self _ _ _ _

theorem kept_init {p : Pipeline} {w : World} (h : (registrySystem p).init w) : Kept w := by
  obtain ⟨hhist, hrec⟩ := h
  have hlookup : ∀ t d, (t, d) ∈ w.history → w.registry.lookup t = some d := by
    intro t d hd
    rw [hhist, List.mem_map] at hd
    obtain ⟨e, he, heq⟩ := hd
    cases heq
    exact AList.mem_lookup_iff.2 he
  refine ⟨fun t d ht hd => hrec t d ht (hlookup t d hd), fun t d d' _ hd hd' => ?_⟩
  exact Option.some.inj ((hlookup t d hd).symm.trans (hlookup t d' hd'))

theorem kept_step {p : Pipeline} {w w' : World} {a : Act} (h : Kept w) (hok : Settled p w a)
    (hs : registryStep p w a = some w') : Kept w' := by
  cases a with
  | push t d =>
    simp only [registryStep, Option.ite_none_right_eq_some, Option.some.injEq] at hs
    obtain ⟨-, rfl⟩ := hs
    refine h.of_history (fun t' d' ht hd => ?_) fun _ hrec => hrec
    rcases List.mem_append.1 hd with hd | hd
    · exact hd
    · cases List.mem_singleton.1 hd
      exact absurd ht hok
  | run load list answers killed =>
    simp only [registryStep, Option.some.injEq] at hs
    subst hs
    refine invoke_inv _ (fun w c a n hI hseen hes => ?_) h hok
    rcases take_turn_cases p (Pipeline.loadState w) c a n with ⟨hfull, hsave⟩ | hno
    · rw [hfull] at hes ⊢
      exact kept_saved hI hseen hes hsave
    · exact kept_unsaved hI hes hno

/-- **Revision tags are immutable over settled runs.** -/
theorem revision_tags_immutable (p : Pipeline) (w : World)
    (h : (registrySystem p).Reach (Settled p) w) : Immutable w :=
  (h.inv (I := Kept) (fun _ h0 => kept_init h0) fun _ _ _ hI hok hs => kept_step hI hok hs).immutable

/-- One candidate pushed to an empty registry. -/
def oneCandidateWorld : World :=
  ⟨AList.insert "candidate-a" "d1" ∅, none, [("candidate-a", "d1")]⟩

def runToEnd : Invocation := invocation oneCandidateWorld none none (fun _ => allPass) none

theorem revision_tags_immutable_run : Immutable (demo.invoke oneCandidateWorld runToEnd) := by
  have hstart : (registrySystem demo).Reach (Settled demo) ⟨∅, none, []⟩ :=
    .start ⟨rfl, fun t d _ hd => by cases hd⟩
  have hpush : (registrySystem demo).Reach (Settled demo) oneCandidateWorld :=
    hstart.next (a := .push "candidate-a" "d1")
      (fun h => absurd h.mem_suffix (by decide)) rfl
  refine revision_tags_immutable demo _
    (hpush.next (a := .run none none (fun _ => allPass) none) ?_ rfl)
  intro before es rest hrun d ref n _
  have hone : [demo.turn .empty ⟨"candidate-a", "d1", ""⟩ allPass] = before ++ es :: rest := hrun
  obtain ⟨rfl, h⟩ := List.append_eq_singleton_iff.1 hone.symm |>.resolve_right (by simp)
  cases h
  exact ⟨⟨_, List.mem_append_right _ List.mem_cons_self⟩, fun d r n hr => by cases hr⟩

/-- A candidate is promoted but the process is killed before its state is saved;
then another candidate sorts before it. -/
def killedBeforeSave : List Act :=
  [.push "candidate-b" "d1", .run none none (fun _ => allPass) (some 6),
    .push "candidate-a" "d2", .run none none (fun _ => allPass) none]

/-- Some run to a world where a tag was set on two digests. -/
theorem moved_of_check (acts : List Act) {t : Tag} {d d' : Digest} (ht : IsRevision t) (hd : d ≠ d')
    (h : ((registrySystem demo).exec System.Any ⟨∅, none, []⟩ acts).any
      (fun w => decide ((t, d) ∈ w.history ∧ (t, d') ∈ w.history)) = true) :
    ∃ w, (registrySystem demo).Reach System.Any w ∧ (t, d) ∈ w.history ∧ (t, d') ∈ w.history ∧
      ¬ Immutable w := by
  obtain ⟨w, hw, hp⟩ := System.reach_of_check (registrySystem demo) System.Any acts _
    ⟨rfl, fun t d _ hd => by cases hd⟩ h
  have hp := of_decide_eq_true hp
  exact ⟨w, hw, hp.1, hp.2, fun himm => hd (himm t d d' ht hp.1 hp.2)⟩

theorem revision_tag_moves :
    ∃ w, (registrySystem demo).Reach System.Any w ∧ ("b9663-llmkube1", "d1") ∈ w.history ∧
      ("b9663-llmkube1", "d2") ∈ w.history ∧ ¬ Immutable w :=
  moved_of_check killedBeforeSave ⟨"b9663", 1, rfl⟩ (by decide) (by decide)

/-- A candidate whose label starts with `candidate-` is promoted to its end; then CI pushes
a candidate under the revision tag it was given. -/
def pushedRevision : List Act :=
  [.push "candidate-a" "d1",
    .run none none (fun _ => { allPass with labelRef := ("candidate-x", none) }) none,
    .push "candidate-x-llmkube1" "d2"]

theorem pushed_revision_tag_moves :
    ∃ w, (registrySystem demo).Reach System.Any w ∧ ("candidate-x-llmkube1", "d1") ∈ w.history ∧
      ("candidate-x-llmkube1", "d2") ∈ w.history ∧ ¬ Immutable w :=
  moved_of_check pushedRevision ⟨"candidate-x", 1, rfl⟩ (by decide) (by decide)

end LlmkubeRuntimes.Promoter
