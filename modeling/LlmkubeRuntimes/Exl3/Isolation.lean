import LlmkubeRuntimes.Exl3.Engine

/-!
# Which job a streamed chunk comes from

Every stream of the endpoints uses the identifier `0`, and a stream that is
left before its job finishes leaves that job in the generator's queue. A later
stream then iterates it and cannot tell its results from its own.

* `Isolated e`: every chunk yielded so far was produced by the job its own
  stream enqueued;
* `EmptyQueue`: the step does not start a stream while the queue holds a job;
* `Inv` is the invariant of runs whose steps all meet `EmptyQueue`;
* `stream_isolation`: such runs are isolated, and every start that breaks the
  condition has a continuation that yields another request's text.
-/

namespace LlmkubeRuntimes.Exl3

open LlmkubeRuntimes.Lib

/-- Inside `with self._generate_lock`. -/
def Phase.Active : Phase → Prop
  | .polling | .looping _ | .yielded _ => True
  | .created | .ended => False

/-- Results the `for` loop has still to look at. -/
def Phase.pending : Phase → List Result
  | .looping rs | .yielded rs => rs
  | _ => []

namespace Engine

/-- Every chunk was produced by the job of the stream that yielded it. -/
def Isolated (e : Engine) : Prop :=
  ∀ c ∈ e.chunks, (e.streams[c.stream]?).bind Stream.job = some c.job

instance (e : Engine) : Decidable e.Isolated :=
  inferInstanceAs (Decidable (∀ c ∈ e.chunks, (e.streams[c.stream]?).bind Stream.job = some c.job))

/-- No stream starts while the generator holds an unfinished job. -/
def EmptyQueue (e : Engine) : Act → Prop
  | .start _ => e.generator.jobs = []
  | _ => True

instance (e : Engine) (a : Act) : Decidable (e.EmptyQueue a) := by
  cases a <;> unfold EmptyQueue <;> infer_instance

/-- Queue and pending results hold nothing but the job `s` enqueued. -/
def OwnWork (e : Engine) (s : Stream) : Prop :=
  ∃ n, s.job = some n ∧ (∀ j ∈ e.generator.jobs, j.serial = n) ∧ ∀ r ∈ s.phase.pending, r.job = n

structure Inv (e : Engine) : Prop where
  /-- A stream inside the critical section holds the lock. -/
  holder : ∀ (i : Nat) (s : Stream), e.streams[i]? = some s → s.phase.Active → e.lock = some i
  own : ∀ (i : Nat) (s : Stream), e.streams[i]? = some s → s.phase.Active → e.OwnWork s
  created : ∀ (i : Nat) (s : Stream), e.streams[i]? = some s → s.phase = .created → s.job = none
  isolated : e.Isolated

/-! ## One step -/

/-- What a step on stream `i` starts from. -/
theorem step_stream {e e' : Engine} {a : Act} {i : Nat} (hi : a.stream? = some i)
    (h : step e a = some e') : ∃ s, e.streams[i]? = some s ∧ e.streamStep i s a = some e' := by
  unfold step at h
  rw [hi] at h
  exact Option.bind_eq_some_iff.1 h

theorem getElem?_set_cases {l : List Stream} {i k : Nat} {s t : Stream}
    (h : (l.set i s)[k]? = some t) : k = i ∧ t = s ∨ k ≠ i ∧ l[k]? = some t := by
  rw [List.getElem?_set] at h
  split at h
  · next hik =>
    split at h
    · exact .inl ⟨hik.symm, (Option.some.inj h).symm⟩
    · cases h
  · next hik => exact .inr ⟨Ne.symm hik, h⟩

/-- Replacing a stream by one with the same job, or one that had none, keeps
the chunks isolated. -/
theorem Isolated.set {e e' : Engine} {i : Nat} {s s' : Stream} (h : e.Isolated)
    (hi : e.streams[i]? = some s) (hs : e'.streams = e.streams.set i s')
    (hj : s.job = none ∨ s'.job = s.job) (hc : e'.chunks = e.chunks) : e'.Isolated := by
  intro c hmem
  rw [hc] at hmem
  have hold := h c hmem
  by_cases hik : i = c.stream
  · subst hik
    rw [hi] at hold
    have hlt : c.stream < e.streams.length := (List.getElem?_eq_some_iff.1 hi).1
    rw [hs, List.getElem?_set_self hlt]
    rcases hj with hj | hj
    · simp [hj] at hold
    · simpa [hj] using hold
  · rw [hs, List.getElem?_set_ne hik]
    exact hold

/-- The invariant after a step that only replaces stream `i`, unless no other
stream is inside the critical section. -/
theorem Inv.set {e e' : Engine} {i : Nat} {s' : Stream} (h : e.Inv)
    (hs : e'.streams = e.streams.set i s')
    (hothers : ∀ k t, k ≠ i → e.streams[k]? = some t → t.phase.Active →
      e'.lock = e.lock ∧ e'.generator = e.generator)
    (hlock : s'.phase.Active → e'.lock = some i) (hown : s'.phase.Active → e'.OwnWork s')
    (hcr : s'.phase = .created → s'.job = none) (hiso : e'.Isolated) : e'.Inv where
  holder k t hk ha := by
    rw [hs] at hk
    rcases getElem?_set_cases hk with ⟨rfl, rfl⟩ | ⟨hne, hk⟩
    · exact hlock ha
    · rw [(hothers k t hne hk ha).1]; exact h.holder k t hk ha
  own k t hk ha := by
    rw [hs] at hk
    rcases getElem?_set_cases hk with ⟨rfl, rfl⟩ | ⟨hne, hk⟩
    · exact hown ha
    · obtain ⟨n, h1, h2, h3⟩ := h.own k t hk ha
      exact ⟨n, h1, by rw [(hothers k t hne hk ha).2]; exact h2, h3⟩
  created k t hk hc := by
    rw [hs] at hk
    rcases getElem?_set_cases hk with ⟨rfl, rfl⟩ | ⟨_, hk⟩
    · exact hcr hc
    · exact h.created k t hk hc
  isolated := hiso

/-- While stream `i` is inside the critical section no other stream is. -/
theorem Inv.alone {e : Engine} (h : e.Inv) {i : Nat} {s : Stream} (hi : e.streams[i]? = some s)
    (ha : s.phase.Active) {k : Nat} {t : Stream} (hk : e.streams[k]? = some t)
    (hne : k ≠ i) : ¬ t.phase.Active := fun hka => by
  have h1 := h.holder i s hi ha
  rw [h.holder k t hk hka, Option.some.injEq] at h1
  exact hne h1

/-- Jobs that finish leave only jobs that were there. -/
theorem mem_finish {g : Generator} {ended : List Nat} {j : Job} (h : j ∈ (g.finish ended).jobs) :
    j ∈ g.jobs := (List.mem_filter.1 h).1

/-- A stream that goes on in the critical section with no new results. -/
theorem Inv.stay {e : Engine} {i : Nat} {s : Stream} {phase : Phase} (h : e.Inv)
    (hi : e.streams[i]? = some s) (ha : s.phase.Active) (hactive : phase.Active)
    (hpending : ∀ r ∈ phase.pending, r ∈ s.phase.pending) :
    (e.setStream i { s with phase := phase }).Inv := by
  obtain ⟨n, hn, hjobs, hresults⟩ := h.own i s hi ha
  refine h.set rfl (fun _ _ _ _ _ => ⟨rfl, rfl⟩) (fun _ => h.holder i s hi ha)
    (fun _ => ⟨n, hn, hjobs, fun r hr => hresults r (hpending r hr)⟩) (fun hc => ?_)
    (h.isolated.set hi rfl (.inr rfl) rfl)
  rw [show phase = .created from hc] at hactive
  exact hactive.elim

/-- A stream that ends before it takes the lock. -/
theorem Inv.abandon {e : Engine} {i : Nat} {s : Stream} (h : e.Inv) (hi : e.streams[i]? = some s) :
    (e.setStream i { s with phase := .ended }).Inv :=
  h.set rfl (fun _ _ _ _ _ => ⟨rfl, rfl⟩) (fun hc => hc.elim) (fun hc => hc.elim)
    (fun hc => by cases hc) (h.isolated.set hi rfl (.inr rfl) rfl)

/-- The `for` loop on a result of the stream's own job. -/
theorem inv_onResult {e : Engine} {i : Nat} {s : Stream} {r : Result} {rest : List Result}
    (h : e.Inv) (hi : e.streams[i]? = some s) (hp : s.phase = .looping (r :: rest)) :
    (e.onResult i s r rest).Inv := by
  have ha : s.phase.Active := by rw [hp]; trivial
  obtain ⟨n, hn, -, hr⟩ := h.own i s hi ha
  have hrn : r.job = n := hr r (by rw [hp]; exact List.mem_cons_self)
  have hrest : ∀ x ∈ rest, x ∈ s.phase.pending := fun x hx => by
    rw [hp]; exact List.mem_cons_of_mem _ hx
  have hlt : i < e.streams.length := (List.getElem?_eq_some_iff.1 hi).1
  unfold onResult
  split
  · exact h.stay hi ha trivial hrest
  split
  · exact h.stay hi ha trivial hrest
  have hyield : (e.setStream i { s with phase := .yielded rest }).Inv := h.stay hi ha trivial hrest
  refine { hyield with isolated := fun c hc => ?_ }
  rcases List.mem_append.1 hc with hc | hc
  · exact hyield.isolated c hc
  · rw [List.mem_singleton.1 hc]
    show ((e.streams.set i { s with phase := .yielded rest })[i]?).bind Stream.job = some r.job
    rw [List.getElem?_set_self hlt, hrn]
    exact hn

/-- Leaving the critical section keeps the invariant, whatever jobs finished. -/
theorem inv_release {e : Engine} {i : Nat} {s : Stream} (h : e.Inv) (hi : e.streams[i]? = some s)
    (ha : s.phase.Active) (g : Generator) :
    ({ e.release i s with generator := g }).Inv :=
  h.set rfl (fun _ _ hne hk hka => absurd hka (h.alone hi ha hk hne)) (fun hc => hc.elim)
    (fun hc => hc.elim) (fun hc => by cases hc) (h.isolated.set hi rfl (.inr rfl) rfl)

/-- What a step of stream `i` can do: start, end outside or inside the critical section, iterate,
go on with no new results, or handle a result. -/
theorem streamStep_cases {e e' : Engine} {i : Nat} {s : Stream} {a : Act}
    (h : e.streamStep i s a = some e') :
    (∃ k, a = .start k ∧ s.phase = .created ∧ e.ready ∧ e.lock = none ∧
      e' = { e.setStream i { s with job := some e.generator.enqueued, phase := .polling } with
        lock := some i, generator := e.generator.enqueue s.identifier }) ∨
    (s.phase = .created ∧ e' = e.setStream i { s with phase := .ended }) ∨
    (s.phase.Active ∧ ∃ g, (g = e.generator ∨ ∃ done, g = e.generator.finish done) ∧
      e' = { e.release i s with generator := g }) ∨
    (∃ rs done, s.phase = .polling ∧ e.generator.Iterates rs ∧
      e' = { e.setStream i { s with phase := .looping rs } with
        generator := e.generator.finish done }) ∨
    (∃ phase : Phase, s.phase.Active ∧ phase.Active ∧ (∀ r ∈ phase.pending, r ∈ s.phase.pending) ∧
      e' = e.setStream i { s with phase := phase }) ∨
    (∃ r rest, s.phase = .looping (r :: rest) ∧ e' = e.onResult i s r rest) := by
  cases a with
  | call => cases h
  | start k =>
    simp only [streamStep, Option.ite_none_right_eq_some, Option.some.injEq] at h
    obtain ⟨⟨hp, hr, hl⟩, rfl⟩ := h
    exact .inl ⟨k, rfl, hp, hr, hl, rfl⟩
  | startFails k =>
    simp only [streamStep, Option.ite_none_right_eq_some, Option.some.injEq] at h
    obtain ⟨hp, rfl⟩ := h
    exact .inr (.inl ⟨hp, rfl⟩)
  | finish k =>
    simp only [streamStep, Option.ite_none_right_eq_some, Option.some.injEq] at h
    obtain ⟨⟨hp, _⟩, rfl⟩ := h
    exact .inr (.inr (.inl ⟨by rw [hp]; trivial, e.generator, .inl rfl, rfl⟩))
  | iterate k rs done =>
    simp only [streamStep, Option.ite_none_right_eq_some, Option.some.injEq] at h
    obtain ⟨⟨hp, _, hrs⟩, rfl⟩ := h
    exact .inr (.inr (.inr (.inl ⟨rs, done, hp, hrs, rfl⟩)))
  | iterateRaises k done =>
    simp only [streamStep, Option.ite_none_right_eq_some, Option.some.injEq] at h
    obtain ⟨⟨hp, _⟩, rfl⟩ := h
    exact .inr (.inr (.inl ⟨by rw [hp]; trivial, _, .inr ⟨done, rfl⟩, rfl⟩))
  | result k =>
    simp only [streamStep] at h
    split at h
    · next hp =>
      cases h
      exact .inr (.inr (.inr (.inr (.inl ⟨.polling, by rw [hp]; trivial, trivial,
        fun r hr => absurd hr List.not_mem_nil, rfl⟩))))
    · next hp =>
      cases h
      exact .inr (.inr (.inr (.inr (.inr ⟨_, _, hp, rfl⟩))))
    · cases h
  | resume k =>
    simp only [streamStep] at h
    split at h
    · next rest hp =>
      cases h
      exact .inr (.inr (.inr (.inr (.inl ⟨.looping rest, by rw [hp]; trivial, trivial,
        fun r hr => (by rw [hp]; exact hr), rfl⟩))))
    · cases h
  | close k =>
    simp only [streamStep] at h
    split at h
    · next hp =>
      cases h
      exact .inr (.inl ⟨hp, rfl⟩)
    · next hp =>
      cases h
      exact .inr (.inr (.inl ⟨by rw [hp]; trivial, e.generator, .inl rfl, rfl⟩))
    · cases h

theorem inv_streamStep {e e' : Engine} {i : Nat} {s : Stream} {a : Act} (h : e.Inv)
    (hq : e.EmptyQueue a) (hi : e.streams[i]? = some s) (hst : e.streamStep i s a = some e') :
    e'.Inv := by
  rcases streamStep_cases hst with ⟨k, rfl, hp, -, hl, rfl⟩ | ⟨-, rfl⟩ | ⟨ha, g, -, rfl⟩ |
    ⟨rs, done, hp, hrs, rfl⟩ | ⟨phase, ha, hactive, hpending, rfl⟩ | ⟨r, rest, hp, rfl⟩
  · have hnone : s.job = none := h.created i s hi hp
    refine h.set rfl (fun k t _ hk hka => ?_) (fun _ => rfl) (fun _ => ?_) (fun hc => by cases hc)
      (h.isolated.set hi rfl (.inl hnone) rfl)
    · rw [h.holder k t hk hka] at hl; cases hl
    · refine ⟨e.generator.enqueued, rfl, fun j hj => ?_, fun r hr => by cases hr⟩
      have hjobs : e.generator.jobs = [] := hq
      simp only [Generator.enqueue, hjobs, List.nil_append, List.mem_singleton] at hj
      rw [hj]
  · exact h.abandon hi
  · exact inv_release h hi ha g
  · have ha : s.phase.Active := by rw [hp]; trivial
    obtain ⟨n, hn, hjobs, _⟩ := h.own i s hi ha
    refine h.set rfl (fun k t hne hk hka => absurd hka (h.alone hi ha hk hne))
      (fun _ => h.holder i s hi ha) (fun _ => ⟨n, hn, fun j hj => hjobs j (mem_finish hj), ?_⟩)
      (fun hc => by cases hc) (h.isolated.set hi rfl (.inr rfl) rfl)
    intro r hr
    obtain ⟨j, hj, hjr, _⟩ := hrs r hr
    rw [← hjr]; exact hjobs j hj
  · exact h.stay hi ha hactive hpending
  · exact inv_onResult h hi hp

/-- A new call touches nothing but the list of streams. -/
theorem inv_call {e : Engine} (h : e.Inv) :
    ({ e with streams := e.streams ++ [Stream.call] }).Inv := by
  have key : ∀ (i : Nat) (s : Stream), (e.streams ++ [Stream.call])[i]? = some s →
      e.streams[i]? = some s ∨ s = Stream.call := by
    intro i s hs
    rw [List.getElem?_append] at hs
    split at hs
    · exact .inl hs
    · rw [List.getElem?_singleton] at hs
      split at hs
      · exact .inr (Option.some.inj hs).symm
      · cases hs
  refine ⟨fun i s hs ha => ?_, fun i s hs ha => ?_, fun i s hs hc => ?_, fun c hc => ?_⟩
  · rcases key i s hs with hs | rfl
    · exact h.holder i s hs ha
    · exact ha.elim
  · rcases key i s hs with hs | rfl
    · exact h.own i s hs ha
    · exact ha.elim
  · rcases key i s hs with hs | rfl
    · exact h.created i s hs hc
    · rfl
  · have hold := h.isolated c hc
    obtain ⟨s, hs, -⟩ := Option.bind_eq_some_iff.1 hold
    have hlt : c.stream < e.streams.length := (List.getElem?_eq_some_iff.1 hs).1
    show ((e.streams ++ [Stream.call])[c.stream]?).bind Stream.job = some c.job
    rw [List.getElem?_append_left hlt]
    exact hold

theorem inv_step {e e' : Engine} {a : Act} (h : e.Inv) (hq : e.EmptyQueue a)
    (hs : step e a = some e') : e'.Inv := by
  cases ha : a.stream? with
  | none =>
    unfold step at hs
    rw [ha] at hs
    cases hs
    exact inv_call h
  | some i =>
    obtain ⟨s, hi, hst⟩ := step_stream ha hs
    exact inv_streamStep h hq hi hst

theorem inv_loaded : loaded.Inv :=
  ⟨fun i s h => by simp [loaded] at h, fun i s h => by simp [loaded] at h,
    fun i s h => by simp [loaded] at h, fun c h => by simp [loaded] at h⟩

theorem inv_reach {e : Engine} (h : system.Reach EmptyQueue e) : e.Inv :=
  h.inv (I := Inv) (fun s (h0 : s = loaded) => h0 ▸ inv_loaded)
    fun _ _ _ hI hq hs => inv_step hI hq hs

/-! ## A start on a queue that holds a job -/

/-- What every reachable state keeps: jobs carry the default identifier and a
serial already given out, streams the default identifier. -/
structure Tagged (e : Engine) : Prop where
  jobs : ∀ j ∈ e.generator.jobs, j.identifier = defaultIdentifier ∧ j.serial < e.generator.enqueued
  streams : ∀ s ∈ e.streams, s.identifier = defaultIdentifier

/-- What a step on stream `i` can change. -/
theorem streamStep_frame {e e' : Engine} {i : Nat} {s : Stream} {a : Act}
    (h : e.streamStep i s a = some e') :
    (∃ s', e'.streams = e.streams.set i s' ∧ s'.identifier = s.identifier) ∧
      (e'.generator = e.generator ∨ e'.generator = e.generator.enqueue s.identifier ∨
        ∃ done, e'.generator = e.generator.finish done) := by
  rcases streamStep_cases h with ⟨k, rfl, -, -, -, rfl⟩ | ⟨-, rfl⟩ | ⟨-, g, hg, rfl⟩ |
    ⟨rs, done, -, -, rfl⟩ | ⟨phase, -, -, -, rfl⟩ | ⟨r, rest, -, rfl⟩
  · exact ⟨⟨_, rfl, rfl⟩, .inr (.inl rfl)⟩
  · exact ⟨⟨_, rfl, rfl⟩, .inl rfl⟩
  · exact ⟨⟨_, rfl, rfl⟩, hg.imp_right .inr⟩
  · exact ⟨⟨_, rfl, rfl⟩, .inr (.inr ⟨done, rfl⟩)⟩
  · exact ⟨⟨_, rfl, rfl⟩, .inl rfl⟩
  · unfold onResult
    split
    · exact ⟨⟨_, rfl, rfl⟩, .inl rfl⟩
    · split <;> exact ⟨⟨_, rfl, rfl⟩, .inl rfl⟩

theorem tagged_step {e e' : Engine} {a : Act} (h : e.Tagged) (hs : step e a = some e') :
    e'.Tagged := by
  cases ha : a.stream? with
  | none =>
    unfold step at hs
    rw [ha] at hs
    cases hs
    refine ⟨h.jobs, fun s hmem => ?_⟩
    rcases List.mem_append.1 hmem with hmem | hmem
    · exact h.streams s hmem
    · rw [List.mem_singleton.1 hmem]; rfl
  | some i =>
    obtain ⟨s, hi, hst⟩ := step_stream ha hs
    obtain ⟨⟨s', hstr, hid⟩, hg⟩ := streamStep_frame hst
    have hsid : s.identifier = defaultIdentifier := h.streams s (List.mem_of_getElem? hi)
    refine ⟨?_, fun t ht => ?_⟩
    · rcases hg with hg | hg | ⟨done, hg⟩ <;> rw [hg]
      · exact h.jobs
      · intro j hj
        rcases List.mem_append.1 hj with hj | hj
        · exact ⟨(h.jobs j hj).1, Nat.lt_succ_of_lt (h.jobs j hj).2⟩
        · rw [List.mem_singleton.1 hj]
          exact ⟨hsid, Nat.lt_succ_self _⟩
      · exact fun j hj => h.jobs j (mem_finish hj)
    · rw [hstr] at ht
      rcases List.mem_or_eq_of_mem_set ht with ht | rfl
      · exact h.streams t ht
      · exact hid.trans hsid

theorem tagged_loaded : loaded.Tagged := by constructor <;> simp [loaded]

theorem tagged_reach {e : Engine} (h : system.Reach System.Any e) : e.Tagged :=
  h.inv (I := Tagged) (fun s (h0 : s = loaded) => h0 ▸ tagged_loaded)
    fun _ _ _ hI _ hs => tagged_step hI hs

/-- After a start on a queue that holds job `j`, one result of `j` is enough
for the new stream to yield `j`'s text. -/
theorem leftover_leaks {e e' : Engine} {i : Nat} {j : Job} (h : e.Tagged)
    (hj : j ∈ e.generator.jobs) (hs : step e (.start i) = some e') :
    ∃ as e'', system.exec System.Any e' as = some e'' ∧ ¬ e''.Isolated := by
  obtain ⟨s, hi, hst⟩ := step_stream rfl hs
  simp only [streamStep, Option.ite_none_right_eq_some, Option.some.injEq] at hst
  obtain ⟨_, rfl⟩ := hst
  have hlt : i < e.streams.length := (List.getElem?_eq_some_iff.1 hi).1
  have hsid : s.identifier = defaultIdentifier := h.streams s (List.mem_of_getElem? hi)
  obtain ⟨hjid, hjlt⟩ := h.jobs j hj
  have hmem : j ∈ e.generator.jobs ++ [⟨e.generator.enqueued, s.identifier⟩] :=
    List.mem_append_left _ hj
  refine ⟨[.iterate i [⟨j.serial, some j.identifier, some "text"⟩] [], .result i],
    { e with
      lock := some i
      generator := (e.generator.enqueue s.identifier).finish []
      streams := e.streams.set i
        { s with job := some e.generator.enqueued, phase := .yielded [] }
      chunks := e.chunks ++ [⟨i, j.serial, "text"⟩] }, ?_, fun hiso => ?_⟩
  · have hrem : (e.generator.enqueue s.identifier).numRemainingJobs ≠ 0 := by
      simp [Generator.enqueue, Generator.numRemainingJobs]
    have hit : (e.generator.enqueue s.identifier).Iterates
        [⟨j.serial, some j.identifier, some "text"⟩] := by
      intro r hr
      rw [List.mem_singleton.1 hr]
      exact ⟨j, hmem, rfl, rfl⟩
    rw [hsid] at hrem hit
    rw [hjid] at hit
    simp [System.exec, system, step, Act.stream?, streamStep, setStream, onResult,
      Result.getText, hlt, hrem, hit, hjid, hsid]
  · have hc := hiso ⟨i, j.serial, "text"⟩ (List.mem_append_right _ (List.mem_singleton.2 rfl))
    simp only [List.getElem?_set_self hlt, Option.bind_some, Option.some.injEq] at hc
    omega

/-! ## Isolation -/

/-- **Streams are isolated as long as none starts on a queue that holds a job**,
and a start that breaks the condition can always end in a leak. -/
theorem stream_isolation (e : Engine) :
    (system.Reach EmptyQueue e → e.Isolated) ∧
      ∀ e' a, system.Reach System.Any e → system.step e a = some e' → ¬ e.EmptyQueue a →
        ∃ as e'', system.exec System.Any e' as = some e'' ∧ ¬ e''.Isolated := by
  refine ⟨fun h => (inv_reach h).isolated, fun e' a hr hs hne => ?_⟩
  cases a with
  | start i =>
    obtain ⟨j, hj⟩ := List.exists_mem_of_ne_nil _ hne
    exact leftover_leaks (tagged_reach hr) hj hs
  | _ => exact absurd trivial hne

/-- Two requests, the first read to its end. -/
def finishedThenNext : List Act :=
  [.call, .start 0, .iterate 0 [⟨0, some 0, some "a"⟩] [0], .result 0, .resume 0, .result 0,
    .finish 0, .call, .start 1, .iterate 1 [⟨1, some 0, some "b"⟩] [], .result 1]

theorem stream_isolation_finished :
    (system.exec EmptyQueue loaded finishedThenNext).map chunks =
        some [⟨0, 0, "a"⟩, ⟨1, 1, "b"⟩] ∧
      ∀ e, system.exec EmptyQueue loaded finishedThenNext = some e → e.Isolated :=
  ⟨by decide, fun e h => (stream_isolation e).1 (System.reach_of_exec rfl h)⟩

/-- The client of the first request disconnects after one chunk; the second
request then iterates the first one's job. -/
def disconnectedThenNext : List Act :=
  [.call, .start 0, .iterate 0 [⟨0, some 0, some "a"⟩] [], .result 0, .close 0,
    .call, .start 1, .iterate 1 [⟨0, some 0, some "b"⟩] [], .result 1]

theorem stream_leaks_after_disconnect :
    ∃ e, system.Reach System.Any e ∧ (⟨1, 0, "b"⟩ : Chunk) ∈ e.chunks ∧ ¬ e.Isolated := by
  obtain ⟨e, hr, hp⟩ := System.reach_of_check system System.Any disconnectedThenNext
    (fun e => decide ((⟨1, 0, "b"⟩ : Chunk) ∈ e.chunks ∧ ¬ e.Isolated)) rfl (by decide)
  exact ⟨e, hr, of_decide_eq_true hp⟩

end Engine

end LlmkubeRuntimes.Exl3
