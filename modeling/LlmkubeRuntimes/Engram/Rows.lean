import LlmkubeRuntimes.Engram.Preserved

/-!
# Prefetch serves the real rows

A decode that runs reads the rows of the IDs its step has, and until it is done
only the read of its own step writes to its planes, in runs in which no step is
staged beside a task whose join timed out. `late_prefetch_serves_wrong_rows` is a
run with such a step.
-/

namespace LlmkubeRuntimes.Engram.Engrams

open LlmkubeRuntimes.Lib

variable {τ ι ρ : Type} [DecidableEq τ] {E : Engrams τ ι ρ} {s t : State τ ι ρ}

/-! ## Writes -/

section Writes

omit [DecidableEq τ] in
@[simp]
theorem planes_finish (raised : Bool) : (s.finish raised).planes = s.planes := by
  unfold State.finish
  split <;> rfl

omit [DecidableEq τ] in
theorem planes_join {raised : Bool} (h : s.join = some (t, raised)) : t.planes = s.planes := by
  rw [(join_eq_some h).1]

variable [DecidableEq ι] [DecidableEq ρ]

theorem planes_reader (hs : E.reader s = some t) :
    t.planes = s.planes ∨
      ∃ place step slot row, s.writing = some (place, step) ∧
        t.planes = (s.write place slot row).planes := by
  unfold reader at hs
  split at hs
  · cases hs
  · rename_i slot failure prefetch hreader
    split at hs
    · split at hs
      · cases hs
        exact .inl (planes_finish true)
      · split at hs <;> cases hs
        · exact .inl (planes_finish false)
        · exact .inl rfl
    · split at hs
      · split at hs <;> cases hs <;> exact .inl rfl
      · cases hs
    · rename_i job jobs slot hjobs
      split at hs
      · rename_i hslot
        cases hs
        exact .inr ⟨job.place, some job.step, slot, _,
          by simp only [State.writing, hreader, hjobs, if_pos hslot], rfl⟩
      · cases hs
        exact .inl rfl
  · rename_i prefetch todo expected current hreader
    split at hs
    · cases hs
      exact .inl (planes_finish false)
    · cases hs
    · rename_i table todo ids slot
      split at hs
      · rename_i id hid
        cases hs
        have hslot : slot < ids.length := (List.getElem?_eq_some_iff.1 hid).1
        exact .inr ⟨(prefetch.rowSet, table), none, slot, _,
          by simp only [State.writing, hreader, if_pos hslot], rfl⟩
      · cases hs
        exact .inl rfl

/-- Only the reader writes to the planes, and only where it is at. -/
theorem planes_step {a : Action τ ι} (hs : E.step s a = some t) :
    t.planes = s.planes ∨
      ∃ place step slot row, s.writing = some (place, step) ∧
        t.planes = (s.write place slot row).planes := by
  cases a with
  | reader => exact planes_reader hs
  | prepare => grind [step, prepare, planes_join]
  | prepareDummy => grind [step, prepareDummy, planes_join]
  | joinTimesOut => grind [step, joinTimesOut]
  | stage => grind [step, stage]
  | submit => grind [step, submit]
  | stagingStream => grind [step, stagingStream]
  | sideStream => grind [step, sideStream]
  | readRaises => grind [step, readRaises, State.release]
  | prefetchRows => grind [step, prefetchRows]
  | prefetchRaises => grind [step, prefetchRaises, planes_finish]
  | prefetchReturns => grind [step, prefetchReturns, planes_finish]

theorem planes_of_not_writing {a : Action τ ι} {place : Place τ} (hs : E.step s a = some t)
    (hwriting : ∀ step, s.writing ≠ some (place, step)) : t.planes place = s.planes place := by
  rcases planes_step hs with heq | ⟨place', step, slot, row, hwrites, heq⟩
  · rw [heq]
  · have hne : place ≠ place' := by
      rintro rfl
      exact hwriting step hwrites
    rw [heq]
    exact Function.update_of_ne hne _ _

end Writes

/-! ## Reads and writes of a reachable state -/

theorem running_served (h : E.Inv s) {job : Job τ ι} (hrunning : s.running = some job) :
    (job.step, job.table) ∈ s.failed ∨ E.Holds s.planes job.place job.ids job.ids.length := by
  unfold State.running at hrunning
  split at hrunning
  · rename_i queue hdecoding hqueue
    cases hrunning
    exact h.served job (hqueue ▸ List.mem_cons_self)
      (h.gated.running job queue hqueue hdecoding)
  · cases hrunning

theorem writing_own (h : E.Inv s) {place : Place τ} {step : Option Nat}
    (hwriting : s.writing = some (place, step)) {d : Job τ ι} (hd : d ∈ s.rowsQueue)
    (hplace : d.place = place) : step = some d.step := by
  unfold State.writing at hwriting
  split at hwriting
  · rename_i slot failure prefetch job jobs hreader hjobs
    split at hwriting
    · cases hwriting
      obtain ⟨-, -, halone⟩ := h.reading _ _ _ _ _ hreader hjobs
      rw [halone d hd hplace]
    · cases hwriting
  · rename_i prefetch table todo expected ids slot hreader
    split at hwriting
    · cases hwriting
      obtain ⟨-, -, hcurrent⟩ := h.fetching _ _ _ _ hreader
      exact absurd hplace ((hcurrent _ _ _ _ rfl rfl).2 d hd)
    · cases hwriting
  · cases hwriting

variable [DecidableEq ι] [DecidableEq ρ]

/-- **Prefetch serves the real rows while every step is staged beside a reader at rest.**
A decode that runs, its read not having raised, finds at the slots of its step's row IDs
the rows of these IDs; while a decode is queued or runs, the reader writes to its planes
only for its own step; and no other step changes planes. -/
theorem prefetch_serves_real_rows (h : E.system.Reach Joins s) :
    (∀ job, s.running = some job → (job.step, job.table) ∉ s.failed →
      E.Holds s.planes job.place job.ids job.ids.length) ∧
    (∀ place step, s.writing = some (place, step) →
      ∀ d ∈ s.rowsQueue, d.place = place → step = some d.step) ∧
    ∀ a t place, E.step s a = some t → (∀ step, s.writing ≠ some (place, step)) →
      t.planes place = s.planes place :=
  have hinv := inv_reach h
  ⟨fun _ hrunning hfailed => (running_served hinv hrunning).resolve_left hfailed,
    fun _ _ hwriting _ hd hplace => writing_own hinv hwriting hd hplace,
    fun _ _ _ hs hwriting => planes_of_not_writing hs hwriting⟩

/-- One table whose row of an ID is the ID plus 100. -/
def oneTable (verify : Bool) : Engrams Unit Nat Nat where
  tables := [()]
  nodup := by decide
  row _ id := id + 100
  verify

/-- The row IDs of a chunk of one token. -/
def chunkIds (n : Nat) : List Nat := (List.range heads).map (n + ·)

/-- A step of one token up to the copy of its IDs; the next chunk may be predicted. -/
def stagedStep (n : Nat) (next : Option Nat) : List (Action Unit Nat) :=
  [.prepare 1 (fun _ => chunkIds n) next, .stage, .submit] ++ .replicate 26 .stagingStream

/-- Two steps. The first one predicts the second, whose rows are then those the
prefetch read into set 1, and whose decode runs at the end. -/
def predictedStep : List (Action Unit Nat) :=
  stagedStep 1 (some 1) ++ .replicate 27 .reader ++ [.prefetchRows (chunkIds 2)] ++
    .replicate 26 .reader ++ stagedStep 2 none ++ .reader :: .replicate 5 .sideStream

theorem prefetch_serves_predicted :
    ∃ s : State Unit Nat Nat, ∃ job, (oneTable true).system.Reach Joins s ∧
      s.running = some job ∧ job.step = 2 ∧ job.rowSet = true ∧ job.ids.length = 24 ∧
      (oneTable true).Holds s.planes job.place job.ids job.ids.length := by
  obtain ⟨s, hr, hp⟩ := System.reach_of_check (oneTable true).system Joins predictedStep
    (fun s => s.running.any fun job => job.step = 2 ∧ job.rowSet = true ∧ job.ids.length = 24 ∧
      (job.step, job.table) ∉ s.failed)
    ⟨fun _ _ => 0, fun _ _ => 0, rfl⟩ (by decide +kernel)
  obtain ⟨job, hrunning, hjob⟩ := (Option.any_eq_true _ _).1 hp
  obtain ⟨hstep, hset, hlength, hfailed⟩ := of_decide_eq_true hjob
  exact ⟨s, job, hr, hrunning, hstep, hset, hlength,
    (prefetch_serves_real_rows hr).1 job hrunning hfailed⟩

/-- The second step takes its prefetched rows and predicts chunk 3, whose prefetch goes to
set 0 and is slow: a join times out while it is at its first slot. The step of chunk 9 is
staged on set 0 beside it, and then the step of chunk 3 takes the rows of chunk 9. -/
def latePrefetch : List (Action Unit Nat) :=
  stagedStep 1 (some 1) ++ .replicate 27 .reader ++ .replicate 3 .sideStream ++
    [.prefetchRows (chunkIds 2)] ++ .replicate 26 .reader ++
    stagedStep 2 (some 1) ++ .replicate 2 .reader ++ .replicate 3 .sideStream ++
    [.prefetchRows (chunkIds 3), .joinTimesOut] ++
    stagedStep 9 none ++ .replicate 53 .reader ++ .replicate 3 .sideStream ++
    stagedStep 3 none ++ .reader :: .replicate 2 .sideStream

theorem late_prefetch_serves_wrong_rows :
    ∃ s : State Unit Nat Nat, ∃ job, (oneTable false).system.Reach System.Any s ∧
      s.running = some job ∧ (job.step, job.table) ∉ s.failed ∧
      ¬ (oneTable false).Holds s.planes job.place job.ids job.ids.length := by
  obtain ⟨s, hr, hp⟩ := System.reach_of_check (oneTable false).system System.Any latePrefetch
    (fun s => s.running.any fun job => (job.step, job.table) ∉ s.failed ∧
      job.ids[0]? = some 3 ∧ job.ids.length = 24 ∧ s.planes job.place 0 = 109)
    ⟨fun _ _ => 0, fun _ _ => 0, rfl⟩ (by decide +kernel)
  obtain ⟨job, hrunning, hjob⟩ := (Option.any_eq_true _ _).1 hp
  obtain ⟨hfailed, hid, hlength, hplane⟩ := of_decide_eq_true hjob
  refine ⟨s, job, hr, hrunning, hfailed, fun hholds => ?_⟩
  have h103 : s.planes job.place 0 = 3 + 100 := hholds 0 3 (by omega) hid
  omega

end LlmkubeRuntimes.Engram.Engrams
