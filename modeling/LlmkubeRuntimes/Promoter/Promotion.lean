import LlmkubeRuntimes.Lib.System
import LlmkubeRuntimes.Promoter.Pipeline

/-!
# Which digests are promoted, and how far

* `retag_checked`: a `Retag` comes after `Verify`, `LabelRef` and `RunFor` let
  the same digest through in the same call of `process`;
* `AllOrNothing`: a candidate ends promoted, with both tags on its digest, or
  failed, with no tag moved. `HalfDone` is the one way in which it fails: the
  second `Retag` errs when the first has moved `stable`;
* `promotion_all_or_nothing`: the two exclude each other exactly, and over runs
  without a half promotion the state agrees with `stable`.
-/

namespace LlmkubeRuntimes.Promoter

open LlmkubeRuntimes.Lib

/-! ## Only checked digests -/

/-- The events of a sequence of calls of `Run`, one list for each call of `process`. -/
def Pipeline.trace (p : Pipeline) (w : World) : List Invocation → List (List Event)
  | [] => []
  | i :: is => p.run w i ++ p.trace (p.invoke w i) is

theorem mem_trace {p : Pipeline} {w : World} {is : List Invocation} {es : List Event}
    (h : es ∈ p.trace w is) : ∃ s c a n, es = (p.turn s c a).take n := by
  induction is generalizing w with
  | nil => cases h
  | cons i is ih =>
    rcases List.mem_append.1 h with h | h
    · exact mem_run h
    · exact ih h

/-- What precedes an element of the second part of a list covers the first part. -/
theorem prefix_of_notMem {α : Type*} {before front back : List α} {x : α}
    (h : before ++ [x] <+: front ++ back) (hx : x ∉ front) : front <+: before := by
  rcases List.prefix_or_prefix_of_prefix h (List.prefix_append front back) with h | h
  · exact absurd (h.subset (List.mem_append_right _ List.mem_cons_self)) hx
  · rcases List.prefix_concat_iff.1 h with rfl | h
    · exact absurd (List.mem_append_right _ List.mem_cons_self) hx
    · exact h

/-- The tags a turn sets. -/
theorem mem_promote {s : State} {c : Candidate} {a : Replies} {ref : String} {d : Digest} {t : Tag}
    {err : Option String} (h : .retag d t err ∈ (Pipeline.promote s c a ref).1) :
    d = c.digest ∧ (t = "stable" ∨ t = revisionTag ref (s.nextRevision ref)) := by
  rcases promote_cases s c a ref with ⟨_, -, hp⟩ | ⟨_, -, -, hp⟩ | ⟨-, -, hp⟩ <;>
    · rw [hp] at h
      simp at h
      grind

/-- A `Retag` in a turn: the gates were passed, and it belongs to their promotion. -/
theorem retag_mem_turn {p : Pipeline} {s : State} {c : Candidate} {a : Answers} {d : Digest}
    {t : Tag} {err : Option String} (h : .retag d t err ∈ p.turn s c a) :
    a.Passes ∧ (p.process s c a.toReplies).1 =
        p.checks c.digest a.labelRef.1 ++ (Pipeline.promote s c a.toReplies a.labelRef.1).1 ∧
      .retag d t err ∈ (Pipeline.promote s c a.toReplies a.labelRef.1).1 := by
  have hmem : .retag d t err ∈ (p.process s c a.toReplies).1 := by
    simpa [Pipeline.turn] using h
  rcases process_cases p s c a.toReplies with ⟨-, hno, -⟩ | ⟨hpass, hp⟩
  · cases (hno _ hmem).1
  · refine ⟨hpass, by rw [hp], ?_⟩
    rw [hp, List.mem_append] at hmem
    exact hmem.resolve_left fun hc => by simp [Pipeline.checks] at hc

/-- **Only verified and smoke-passed digests are promoted.** -/
theorem retag_checked (p : Pipeline) (w : World) (is : List Invocation) {es before after : List Event}
    {d : Digest} {t : Tag} {err : Option String} (hes : es ∈ p.trace w is)
    (h : es = before ++ .retag d t err :: after) :
    ∃ ref, ref ≠ "" ∧ p.checks d ref <+: before ∧
      (t = "stable" ∨ ∃ n : Int, t = revisionTag ref n) := by
  obtain ⟨s, c, a, n, rfl⟩ := mem_trace hes
  have hpre : before ++ [.retag d t err] <+: p.turn s c a := by
    refine List.IsPrefix.trans ?_ (List.take_prefix n _)
    exact ⟨after, by rw [h, List.append_assoc, List.singleton_append]⟩
  obtain ⟨hpass, hproc, hmem⟩ := retag_mem_turn
    (hpre.subset (List.mem_append_right _ List.mem_cons_self))
  obtain ⟨rfl, ht⟩ := mem_promote hmem
  refine ⟨a.labelRef.1, hpass.2.2.1, ?_, ht.imp_right fun ht => ⟨_, ht⟩⟩
  rw [Pipeline.turn, hproc, List.append_assoc] at hpre
  exact prefix_of_notMem hpre (by simp [Pipeline.checks])

def emptyWorld : World := ⟨∅, none, []⟩

/-- One call of `Run` on one candidate. -/
def oneCandidate (a : Answers) : Invocation :=
  ⟨none, ([⟨"candidate-a", "d1", ""⟩], none), fun _ => a, none⟩

theorem retag_checked_passing : ∃ ref, ref ≠ "" ∧
    demo.checks "d1" ref <+:
      demo.checks "d1" "b9663" ++ [.lastRevision "b9663" 0] ∧
    ("stable" = "stable" ∨ ∃ n : Int, "stable" = revisionTag ref n) :=
  retag_checked demo emptyWorld [oneCandidate allPass]
    (List.mem_append_left _ List.mem_cons_self) rfl

/-! ## All or nothing -/

/-- The registry agrees with the state on a promoted digest. -/
def Promoted (s : State) (registry : AList fun _ : Tag => Digest) (d : Digest) : Prop :=
  ∃ t, s.get? d = some ⟨"promoted", t⟩ ∧ registry.lookup "stable" = some d ∧
    registry.lookup t = some d

/-- `process` promotes the candidate, or records its failure and moves no tag. -/
def AllOrNothing (p : Pipeline) (w : World) (s : State) (c : Candidate) (a : Replies) : Prop :=
  let done := p.process s c a
  let registry := (done.1.foldl Event.effect w).registry
  Promoted done.2 registry c.digest ∨
    ((∃ r, done.2.get? c.digest = some r ∧ IsFailure r.verdict) ∧
      ∀ t, registry.lookup t = w.registry.lookup t)

/-- `stable` is moved to the digest and the revision tag is not set. -/
def HalfDone (w : World) (s : State) (c : Candidate) (a : Replies) : Prop :=
  a.Passes ∧ a.retag "stable" = none ∧ a.retag (nextTag s a) ≠ none ∧
    w.registry.lookup "stable" ≠ some c.digest

section Effect

variable {p : Pipeline} {w : World} {s : State} {c : Candidate} {a : Replies}

/-- The registry once `stable` is set. -/
theorem registry_untilStable (es : List Event) :
    ((p.untilStable s c a ++ es).foldl Event.effect w).registry =
      (es.foldl Event.effect
        { w with registry := w.registry.insert "stable" c.digest
                 history := w.history ++ [("stable", c.digest)] }).registry := by
  rw [List.foldl_append]
  rfl

/-- Both tags set: the candidate is promoted. -/
theorem promoted_of_process
    (h : p.process s c a = (p.untilStable s c a ++ [.retag c.digest (nextTag s a) none],
      s.record c.digest "promoted" (nextTag s a))) :
    Promoted (p.process s c a).2 ((p.process s c a).1.foldl Event.effect w).registry c.digest := by
  refine ⟨nextTag s a, ?_, ?_, ?_⟩
  · rw [h, State.get?_record_self]
  · rw [h, registry_untilStable]
    have hne : "stable" ≠ nextTag s a := (revisionTag_ne_stable _ _).symm
    show AList.lookup _ (AList.insert _ _ _) = _
    rw [AList.lookup_insert_ne hne, AList.lookup_insert]
  · rw [h, registry_untilStable]
    show AList.lookup _ (AList.insert _ _ _) = _
    rw [AList.lookup_insert]

/-- **A call of `process` is all or nothing unless it is half done.** -/
theorem allOrNothing_iff : AllOrNothing p w s c a ↔ ¬ HalfDone w s c a := by
  unfold AllOrNothing
  rcases process_outcome p s c a with ⟨hfail, hno, v, hv, hs⟩ | ⟨err, hpass, h1, h2, hp⟩ |
    ⟨-, -, h2, hp⟩
  · refine iff_of_true (.inr ⟨⟨⟨v, ""⟩, by rw [hs, State.get?_record_self], hv⟩, fun t => ?_⟩)
      fun hh => hfail ⟨hh.1, hh.2.1⟩
    exact registry_foldl fun d => hno d t
  · have hreg : ∀ t, ((p.process s c a).1.foldl Event.effect w).registry.lookup t =
        (w.registry.insert "stable" c.digest).lookup t := by
      intro t
      rw [hp, registry_untilStable]
      rfl
    by_cases hst : w.registry.lookup "stable" = some c.digest
    · refine iff_of_true (.inr ⟨⟨⟨"failed-retag", ""⟩, ?_, by decide⟩, fun t => ?_⟩)
        fun hh => hh.2.2.2 hst
      · rw [hp, State.get?_record_self]
      · rw [hreg]
        by_cases ht : t = "stable"
        · rw [ht, AList.lookup_insert, hst]
        · exact AList.lookup_insert_ne ht
    · refine iff_of_false ?_ fun hn => hn ⟨hpass, h1, by simp [h2], hst⟩
      rintro (⟨t, hget, -⟩ | ⟨-, hsame⟩)
      · rw [hp, State.get?_record_self] at hget
        simp at hget
      · have := hsame "stable"
        rw [hreg, AList.lookup_insert] at this
        exact hst this.symm
  · exact iff_of_true (.inl (promoted_of_process hp)) fun hh => hh.2.2.1 h2

end Effect

/-! ## Over runs -/

/-- One `Retag` of a call of `process` succeeds on `stable` and another fails. -/
def HalfPromoted (es : List Event) : Prop :=
  ∃ d t err, .retag d "stable" none ∈ es ∧ .retag d t (some err) ∈ es

/-- Calls of `Run` with any candidates and answers; no tag is set yet. -/
def runs (p : Pipeline) : System World Invocation where
  init w := w.history = []
  step w i := some (p.invoke w i)

/-- No crash, no failing `Save`, and no half promotion. -/
def Whole (p : Pipeline) (w : World) (i : Invocation) : Prop :=
  ∀ es ∈ p.run w i, Saved es ∧ ¬ HalfPromoted es

/-- If `stable` was set, its digest is recorded as promoted under a tag that
points at it. -/
def Agrees (w : World) : Prop :=
  (∃ d, ("stable", d) ∈ w.history) → ∃ d, Promoted (Pipeline.loadState w) w.registry d

/-- A failure of another digest keeps a promotion. -/
theorem Promoted.record {s : State} {r r' : AList fun _ : Tag => Digest} {d c : Digest}
    (h : Promoted s r d) (hc : s.seen c = false) (hr : ∀ t, r'.lookup t = r.lookup t) (v : String)
    (t : Tag) : Promoted (s.record c v t) r' d := by
  obtain ⟨t', hget, hst, ht'⟩ := h
  have hne : d ≠ c := by
    rintro rfl
    exact Bool.false_ne_true (hc ▸ State.seen_iff.2 ⟨_, hget⟩)
  exact ⟨t', by rw [State.get?_record_of_ne s v t hne, hget], by rw [hr, hst], by rw [hr, ht']⟩

/-- One turn that is whole keeps the agreement. -/
theorem agrees_turn {p : Pipeline} {w : World} {c : Candidate} {a : Answers} (h : Agrees w)
    (hseen : (Pipeline.loadState w).seen c.digest = false) (hsave : a.save = none)
    (hhalf : ¬ HalfPromoted (p.turn (Pipeline.loadState w) c a)) :
    Agrees ((p.turn (Pipeline.loadState w) c a).foldl Event.effect w) := by
  intro hset
  have hload : Pipeline.loadState ((p.turn (Pipeline.loadState w) c a).foldl Event.effect w) =
      (p.process (Pipeline.loadState w) c a.toReplies).2 := by
    rw [Pipeline.turn, hsave, loadState_saved]
  have hreg : ((p.turn (Pipeline.loadState w) c a).foldl Event.effect w).registry =
      ((p.process (Pipeline.loadState w) c a.toReplies).1.foldl Event.effect w).registry := by
    rw [Pipeline.turn, hsave, List.foldl_append]
    rfl
  rw [hload, hreg]
  rcases process_outcome p (Pipeline.loadState w) c a.toReplies with
    ⟨-, hno, v, -, hs⟩ | ⟨err, -, -, -, hp⟩ | ⟨-, -, -, hp⟩
  · obtain ⟨d, hd⟩ := hset
    have hold : ("stable", d) ∈ w.history := by
      refine (history_foldl.1 hd).resolve_right fun hmem => ?_
      rw [Pipeline.turn, List.mem_append] at hmem
      rcases hmem with hmem | hmem
      · exact hno d _ hmem
      · simp at hmem
    obtain ⟨d', hd'⟩ := h ⟨d, hold⟩
    exact ⟨d', by rw [hs]; exact hd'.record hseen (fun t => registry_foldl fun d => hno d t) v ""⟩
  · refine absurd ⟨c.digest, nextTag (Pipeline.loadState w) a.toReplies, err, ?_, ?_⟩ hhalf <;>
      simp [Pipeline.turn, hp, Pipeline.untilStable]
  · exact ⟨c.digest, promoted_of_process hp⟩

/-- In runs that are whole, the state agrees with `stable`. -/
theorem agrees_reach {p : Pipeline} {w : World} (h : (runs p).Reach (Whole p) w) : Agrees w := by
  refine h.inv (I := Agrees) (fun w (h0 : w.history = []) hset => ?_) fun w i w' hI hok hs => ?_
  · obtain ⟨d, hd⟩ := hset
    rw [h0] at hd
    cases hd
  · cases hs
    refine invoke_inv (fun _ es => Saved es ∧ ¬ HalfPromoted es)
      (fun w c a n hI hseen hes => ?_) hI fun _ es _ hrun => hok es (by simp [hrun])
    rcases take_turn_cases p (Pipeline.loadState w) c a n with ⟨hfull, hsave⟩ | hn
    · rw [hfull] at hes ⊢
      exact agrees_turn hI hseen hsave hes.2
    · exact absurd hes.1 hn

/-- **Promotion is all or nothing exactly when it is not half done**, and over
runs without a half promotion the digest of `stable` is recorded as promoted. -/
theorem promotion_all_or_nothing (p : Pipeline) :
    (∀ w s c a, AllOrNothing p w s c a ↔ ¬ HalfDone w s c a) ∧
      ∀ w, (runs p).Reach (Whole p) w → (∃ d, ("stable", d) ∈ w.history) →
        ∃ d t, w.registry.lookup "stable" = some d ∧
          (Pipeline.loadState w).get? d = some ⟨"promoted", t⟩ ∧ w.registry.lookup t = some d := by
  refine ⟨fun w s c a => allOrNothing_iff, fun w hw hset => ?_⟩
  obtain ⟨d, t, hget, hst, ht⟩ := agrees_reach hw hset
  exact ⟨d, t, hst, hget, ht⟩

/-- Everything passes, and the second `Retag` fails. -/
def secondRetagFails : Answers :=
  ⟨⟨none, ("b9663", none), (true, none), fun t => if t = "stable" then none else some "denied"⟩,
    none⟩

theorem promotion_half_done :
    ¬ AllOrNothing demo emptyWorld .empty ⟨"candidate-a", "d1", ""⟩
        secondRetagFails.toReplies ∧
      (demo.invoke emptyWorld (oneCandidate secondRetagFails)).registry.lookup "stable" =
        some "d1" ∧
      (Pipeline.loadState (demo.invoke emptyWorld (oneCandidate secondRetagFails))).get?
        "d1" = some ⟨"failed-retag", ""⟩ := by
  refine ⟨fun h => allOrNothing_iff.1 h ?_, rfl, rfl⟩
  refine ⟨by decide, rfl, ?_, ?_⟩
  · decide
  · decide

theorem promotion_all_or_nothing_passing : ∃ d t,
    (demo.invoke emptyWorld (oneCandidate allPass)).registry.lookup "stable" = some d ∧
      (Pipeline.loadState (demo.invoke emptyWorld (oneCandidate allPass))).get? d =
        some ⟨"promoted", t⟩ ∧
      (demo.invoke emptyWorld (oneCandidate allPass)).registry.lookup t = some d := by
  have hstart : (runs demo).Reach (Whole demo) emptyWorld := .start rfl
  refine (promotion_all_or_nothing demo).2 _ (hstart.next ?_ rfl) ⟨"d1", by decide⟩
  intro es hes
  obtain rfl : es = demo.turn .empty ⟨"candidate-a", "d1", ""⟩ allPass :=
    List.mem_singleton.1 hes
  refine ⟨⟨_, List.mem_append_right _ List.mem_cons_self⟩, ?_⟩
  rintro ⟨d, t, err, -, hmem⟩
  simp [Pipeline.turn, Pipeline.process, Pipeline.promote, retagAll, allPass] at hmem

end LlmkubeRuntimes.Promoter
