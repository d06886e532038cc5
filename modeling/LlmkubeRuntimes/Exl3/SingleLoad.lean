import LlmkubeRuntimes.Exl3.Load

/-!
# Loads one after the other

`load_single`: in runs whose loads pass the guard one at a time, every state is
`Sound` and `ready` is final. The guard only looks for `ready`, so a load that
passes it while another is busy can always end in a state that is not sound.

* `step_cases`: what a step does;
* `Inv`: at most one load is busy, none once the engine is ready, and a load has
  assigned the attributes it no longer has to assign;
* `filled_reach`: an engine that is ready has every attribute, in any run;
* `leads_to_unsound`: the continuation of a step that is not `Alone`.
-/

namespace LlmkubeRuntimes.Exl3

open LlmkubeRuntimes.Lib

namespace Loader

/-! ## What a step does -/

theorem loads_setLoad {s : Loader} {i : Nat} {p : LoadPhase} (h : s.loads[i]? = some p)
    (q : LoadPhase) (j : Nat) :
    (s.setLoad i q).loads[j]? = if j = i then some q else s.loads[j]? := by
  have hlt := (List.getElem?_eq_some_iff.1 h).1
  by_cases hji : j = i
  · rw [if_pos hji, hji]
    exact List.getElem?_set_self hlt
  · rw [if_neg hji]
    exact List.getElem?_set_ne fun h => hji h.symm

theorem loads_enter {s : Loader} {i : Nat} {p : LoadPhase} (h : s.loads[i]? = some p) (j : Nat) :
    (s.enter i).loads[j]? = if j = i then some (.loading assignments) else s.loads[j]? :=
  loads_setLoad h _ j

/-- The text of a recorded error is not empty. -/
theorem message_ne {name text : String} : name ++ ": " ++ text ≠ "" := by
  intro h
  have hmem : ':' ∈ (name ++ ": " ++ text).toList := by simp [String.toList_append]
  rw [h] at hmem
  cases hmem

/-- **What a step does.** -/
theorem step_cases {s t : Loader} {a : LoadAct} (h : step s a = some t) :
    (a = .call ∧ t = { s with loads := s.loads ++ [.called] }) ∨
    ∃ i p, s.loads[i]? = some p ∧
      ((a = .guard i ∧ p = .called ∧ s.state = .ready ∧ t = s.setLoad i .ended) ∨
      (a = .guard i ∧ p = .called ∧ s.state ≠ .ready ∧ t = s.enter i) ∨
      (∃ f todo, p = .loading (f :: todo) ∧ t = (s.setAttr f i).setLoad i (.loading todo)) ∨
      (∃ f todo q, p = .loading (f :: todo) ∧ (q = .ended ∨ ∃ e, e ≠ "" ∧ q = .raised e) ∧
        t = s.setLoad i q) ∨
      (p = .loading [] ∧ t = s.succeed i) ∨ ∃ e, p = .raised e ∧ t = s.fail i e) := by
  have hload : ∀ i, a.load? = some i → ∃ p, s.loads[i]? = some p ∧ s.loadStep i p a = some t := by
    intro i hi
    unfold step at h
    rw [hi] at h
    exact Option.bind_eq_some_iff.1 h
  cases a with
  | call => exact .inl ⟨rfl, (Option.some.inj h).symm⟩
  | guard i =>
    obtain ⟨p, hp, hst⟩ := hload i rfl
    simp only [loadStep] at hst
    split at hst
    next hcalled =>
      split at hst
      next hready =>
        exact .inr ⟨i, p, hp, .inl ⟨rfl, hcalled, hready, (Option.some.inj hst).symm⟩⟩
      next hready =>
        exact .inr ⟨i, p, hp, .inr (.inl ⟨rfl, hcalled, hready, (Option.some.inj hst).symm⟩)⟩
    next => cases hst
  | assign i =>
    obtain ⟨p, hp, hst⟩ := hload i rfl
    simp only [loadStep] at hst
    split at hst
    next f todo =>
      exact .inr ⟨i, _, hp, .inr (.inr (.inl ⟨f, todo, rfl, (Option.some.inj hst).symm⟩))⟩
    next => cases hst
  | raise i err =>
    obtain ⟨p, hp, hst⟩ := hload i rfl
    simp only [loadStep] at hst
    split at hst
    next f todo name text =>
      exact .inr ⟨i, _, hp, .inr (.inr (.inr (.inl ⟨f, todo, _, rfl, .inr ⟨_, message_ne, rfl⟩,
        (Option.some.inj hst).symm⟩)))⟩
    next f todo =>
      exact .inr ⟨i, _, hp, .inr (.inr (.inr (.inl ⟨f, todo, _, rfl, .inl rfl,
        (Option.some.inj hst).symm⟩)))⟩
    next => cases hst
  | finish i =>
    obtain ⟨p, hp, hst⟩ := hload i rfl
    simp only [loadStep] at hst
    split at hst
    next =>
      exact .inr ⟨i, _, hp, .inr (.inr (.inr (.inr (.inl ⟨rfl, (Option.some.inj hst).symm⟩))))⟩
    next e =>
      exact .inr ⟨i, _, hp, .inr (.inr (.inr (.inr (.inr ⟨e, rfl, (Option.some.inj hst).symm⟩))))⟩
    next => cases hst

/-! ## Loads one at a time -/

/-- Load `i` has passed the guard and not recorded its result. -/
def Busy (s : Loader) (i : Nat) : Prop := ∃ p, s.loads[i]? = some p ∧ p.busy = true

theorem busy_setLoad {s t : Loader} {i : Nat} {p : LoadPhase} (h : s.loads[i]? = some p)
    {q : LoadPhase} (ht : t.loads = (s.setLoad i q).loads) (j : Nat) :
    t.Busy j ↔ (j = i ∧ q.busy = true) ∨ (j ≠ i ∧ s.Busy j) := by
  unfold Busy
  rw [ht, loads_setLoad h]
  by_cases hji : j = i
  · simp [hji]
  · simp [hji]

theorem busy_of_not_alone {s : Loader} {a : LoadAct} (h : ¬ Alone s a) :
    ∃ i j, a = .guard i ∧ s.state ≠ .ready ∧ s.Busy j := by
  cases a with
  | guard i =>
    simp only [Alone, Classical.not_imp, not_forall, Bool.not_eq_false] at h
    obtain ⟨hready, p, hp, hbusy⟩ := h
    obtain ⟨j, hj⟩ := List.mem_iff_getElem?.1 hp
    exact ⟨i, j, rfl, hready, p, hj, hbusy⟩
  | _ => exact absurd trivial h

/-- What holds while the loads pass the guard one at a time. -/
structure Inv (s : Loader) : Prop where
  lone : ∀ i j, s.Busy i → s.Busy j → i = j
  idle : s.state = .ready → ∀ i, ¬ s.Busy i
  whole : s.state = .ready → (∃ i, s.From i) ∧ s.error = ""
  progress : ∀ i todo, s.loads[i]? = some (.loading todo) →
    s.error = "" ∧ ∀ f, f ∉ todo → s.attr f = some i

section Step

variable {s t : Loader} {i : Nat} {p : LoadPhase}

theorem InProgress.busy (h : s.InProgress i) : s.Busy i := by
  obtain ⟨f, todo, hp⟩ := h
  exact ⟨_, hp, rfl⟩

theorem Inv.sound (h : s.Inv) : s.Sound where
  single i j hi hj := h.lone i j hi.busy hj.busy
  whole hready := h.whole (hready.elim of_decide_eq_true id)

/-- A load stops: what it was busy with is over, and nothing else changes but the result. -/
theorem Inv.of_stopped (h : s.Inv) (hi : s.loads[i]? = some p) {q : LoadPhase}
    (hq : ∀ todo, q ≠ .loading todo) (hqb : q.busy = true → p.busy = true)
    (hloads : t.loads = (s.setLoad i q).loads) (hattr : t.attr = s.attr)
    (herror : ∀ j, j ≠ i → s.Busy j → t.error = s.error)
    (hready : t.state = .ready →
      (∀ j, j ≠ i → ¬ s.Busy j) ∧ q.busy = false ∧ (∃ j, t.From j) ∧ t.error = "") : t.Inv := by
  have hback : ∀ j, t.Busy j → s.Busy j := by
    intro j hj
    rcases (busy_setLoad hi hloads j).1 hj with ⟨rfl, hb⟩ | ⟨-, hb⟩
    · exact ⟨p, hi, hqb hb⟩
    · exact hb
  refine ⟨fun j k hj hk => h.lone j k (hback j hj) (hback k hk), fun hst j hj => ?_,
    fun hst => (hready hst).2.2, fun j todo hj => ?_⟩
  · rcases (busy_setLoad hi hloads j).1 hj with ⟨-, hb⟩ | ⟨hne, hb⟩
    · rw [(hready hst).2.1] at hb
      cases hb
    · exact (hready hst).1 j hne hb
  · rw [hloads, loads_setLoad hi] at hj
    split at hj
    · exact absurd (Option.some.inj hj) (hq todo)
    next hne =>
      obtain ⟨herr, hall⟩ := h.progress j todo hj
      rw [herror j hne ⟨_, hj, rfl⟩, hattr]
      exact ⟨herr, hall⟩

/-- A call of `load` is not busy. -/
theorem Inv.call (h : s.Inv) : Inv { s with loads := s.loads ++ [LoadPhase.called] } := by
  have hget : ∀ (j : Nat) (q : LoadPhase), (s.loads ++ [LoadPhase.called])[j]? = some q →
      q ≠ .called → s.loads[j]? = some q := by
    intro j q hj hq
    rcases Nat.lt_or_ge j s.loads.length with hlt | hge
    · rwa [List.getElem?_append_left hlt] at hj
    · rw [List.getElem?_append_right hge] at hj
      exact absurd (List.mem_singleton.1 (List.mem_of_getElem? hj)) hq
  have hback : ∀ j, Busy { s with loads := s.loads ++ [LoadPhase.called] } j → s.Busy j := by
    rintro j ⟨q, hj, hb⟩
    refine ⟨q, hget j q hj ?_, hb⟩
    rintro rfl
    cases hb
  refine ⟨fun j k hj hk => h.lone j k (hback j hj) (hback k hk),
    fun hst j hj => h.idle hst j (hback j hj), h.whole, fun j todo hj => ?_⟩
  exact h.progress j todo (hget j _ hj (by rintro ⟨⟩))

/-- A load passes the guard when no load is busy. -/
theorem inv_enter (hi : s.loads[i]? = some p) (hno : ∀ j, ¬ s.Busy j) : (s.enter i).Inv := by
  have honly : ∀ j, (s.enter i).Busy j → j = i := by
    intro j hj
    rcases (busy_setLoad hi rfl j).1 hj with ⟨hji, -⟩ | ⟨-, hb⟩
    · exact hji
    · exact absurd hb (hno j)
  refine ⟨fun j k hj hk => (honly j hj).trans (honly k hk).symm, by rintro ⟨⟩, by rintro ⟨⟩,
    fun j todo hj => ⟨rfl, fun f hf => ?_⟩⟩
  have hji : j = i := honly j ⟨_, hj, rfl⟩
  rw [loads_enter hi, if_pos hji] at hj
  cases hj
  exact absurd (by cases f <;> decide) hf

/-- The one busy load assigns its next attribute. -/
theorem Inv.assign (h : s.Inv) {f : Attr} {todo : List Attr}
    (hi : s.loads[i]? = some (.loading (f :: todo))) :
    Inv ((s.setAttr f i).setLoad i (.loading todo)) := by
  have hbusy : s.Busy i := ⟨_, hi, rfl⟩
  have hnot : s.state ≠ .ready := fun hst => h.idle hst i hbusy
  have hi' : (s.setAttr f i).loads[i]? = some (.loading (f :: todo)) := hi
  have honly : ∀ j, Busy ((s.setAttr f i).setLoad i (.loading todo)) j → j = i := by
    intro j hj
    rcases (busy_setLoad hi' rfl j).1 hj with ⟨hji, -⟩ | ⟨-, hb⟩
    · exact hji
    · exact h.lone j i hb hbusy
  refine ⟨fun j k hj hk => (honly j hj).trans (honly k hk).symm, fun hst => absurd hst hnot,
    fun hst => absurd hst hnot, fun j todo' hj => ?_⟩
  obtain rfl : j = i := honly j ⟨_, hj, rfl⟩
  rw [loads_setLoad hi', if_pos rfl] at hj
  cases hj
  obtain ⟨herr, hall⟩ := h.progress j _ hi
  refine ⟨herr, fun g hg => ?_⟩
  show (if g = f then some j else s.attr g) = some j
  by_cases hgf : g = f
  · rw [if_pos hgf]
  · rw [if_neg hgf]
    exact hall g fun hmem => (List.mem_cons.1 hmem).elim hgf hg

/-- **One step keeps the invariant**, and `ready` once it is set. -/
theorem Inv.step (h : s.Inv) {a : LoadAct} (ha : Alone s a) (hs : step s a = some t) :
    t.Inv ∧ (s.state = .ready → t.state = .ready) := by
  rcases step_cases hs with ⟨rfl, rfl⟩ | ⟨i, p, hi, hcase⟩
  · exact ⟨h.call, id⟩
  rcases hcase with ⟨-, rfl, hst, rfl⟩ | ⟨rfl, rfl, hst, rfl⟩ | ⟨f, todo, rfl, rfl⟩ |
    ⟨f, todo, q, rfl, hq, rfl⟩ | ⟨rfl, rfl⟩ | ⟨e, rfl, rfl⟩
  · exact ⟨h.of_stopped hi (by rintro todo ⟨⟩) (by rintro ⟨⟩) rfl rfl (fun _ _ _ => rfl)
      fun _ => ⟨fun j _ => h.idle hst j, rfl, h.whole hst⟩, id⟩
  · refine ⟨inv_enter hi ?_, fun hready => absurd hready hst⟩
    rintro j ⟨q, hj, hb⟩
    rw [ha hst q (List.mem_of_getElem? hj)] at hb
    cases hb
  · exact ⟨h.assign hi, id⟩
  -- From here on load `i` is busy, so the engine is not ready.
  · have hnot : s.state ≠ .ready := fun hst => h.idle hst i ⟨_, hi, rfl⟩
    have hq' : ∀ todo', q ≠ .loading todo' := by
      rcases hq with rfl | ⟨e, -, rfl⟩ <;> rintro todo' ⟨⟩
    exact ⟨h.of_stopped hi hq' (fun _ => rfl) rfl rfl (fun _ _ _ => rfl)
      fun hst => absurd hst hnot, id⟩
  · obtain ⟨herr, hall⟩ := h.progress i [] hi
    have hothers : ∀ j, j ≠ i → ¬ s.Busy j := fun j hne hj => hne (h.lone j i hj ⟨_, hi, rfl⟩)
    exact ⟨h.of_stopped hi (by rintro todo ⟨⟩) (by rintro ⟨⟩) rfl rfl (fun _ _ _ => rfl)
      fun _ => ⟨hothers, rfl, ⟨i, fun f => hall f List.not_mem_nil⟩, herr⟩, fun _ => rfl⟩
  · have hnot : s.state ≠ .ready := fun hst => h.idle hst i ⟨_, hi, rfl⟩
    exact ⟨h.of_stopped hi (by rintro todo ⟨⟩) (by rintro ⟨⟩) rfl rfl
      (fun j hne hj => absurd (h.lone j i hj ⟨_, hi, rfl⟩) hne) (by rintro ⟨⟩),
      fun hst => absurd hst hnot⟩

theorem inv_idle (h : s.Idle) : s.Inv := by
  have hno : ∀ j, ¬ s.Busy j := by
    rintro j ⟨q, hj, -⟩
    rw [h.2.2.2] at hj
    cases hj
  refine ⟨fun j _ hj => absurd hj (hno j), fun _ => hno, fun hst => ?_, fun j todo hj => ?_⟩
  · rw [h.1] at hst
    cases hst
  · exact absurd ⟨_, hj, rfl⟩ (hno j)

theorem inv_reach (h : system.Reach Alone s) : s.Inv :=
  h.inv (I := Inv) (fun _ => inv_idle) fun _ _ _ hI ha hs => (hI.step ha hs).1

/-- Once ready, always ready. -/
theorem ready_path (h : s.Inv) {as : List LoadAct} (hp : system.Path Alone s as t)
    (hst : s.state = .ready) : t.state = .ready :=
  (hp.inv (I := fun s => s.Inv ∧ s.state = .ready)
    (fun _ _ _ hI ha hs => ⟨(hI.1.step ha hs).1, (hI.1.step ha hs).2 hI.2⟩) ⟨h, hst⟩).2

end Step

/-! ## A load that is not alone -/

/-- What holds in every run: an attribute was assigned by a load that passed the guard, and a
recorded error is not empty. -/
structure Traced (s : Loader) : Prop where
  attr : ∀ f k, s.attr f = some k → ∃ p, s.loads[k]? = some p ∧ p ≠ .called
  error : ∀ (k : Nat) (e : String), s.loads[k]? = some (.raised e) → e ≠ ""

section Traced

variable {s t : Loader} {i : Nat} {p : LoadPhase}

theorem Traced.of_setLoad (h : s.Traced) (hi : s.loads[i]? = some p) {q : LoadPhase}
    (hloads : t.loads = (s.setLoad i q).loads) (hattr : ∀ f k, t.attr f = some k →
      k = i ∨ s.attr f = some k) (hq : q ≠ .called) (herr : ∀ e, q = .raised e → e ≠ "") :
    t.Traced := by
  refine ⟨fun f k hk => ?_, fun k e hk => ?_⟩
  · rw [hloads, loads_setLoad hi]
    by_cases hki : k = i
    · exact ⟨q, if_pos hki, hq⟩
    · rw [if_neg hki]
      exact h.attr f k ((hattr f k hk).resolve_left hki)
  · rw [hloads, loads_setLoad hi] at hk
    split at hk
    · exact herr e (Option.some.inj hk)
    · exact h.error k e hk

theorem Traced.step (h : s.Traced) {a : LoadAct} (hs : step s a = some t) : t.Traced := by
  rcases step_cases hs with ⟨rfl, rfl⟩ | ⟨i, p, hi, hcase⟩
  · refine ⟨fun f k hk => ?_, fun k e hk => ?_⟩
    · obtain ⟨q, hq, hne⟩ := h.attr f k hk
      exact ⟨q, by rw [List.getElem?_append_left (List.getElem?_eq_some_iff.1 hq).1, hq], hne⟩
    · rcases Nat.lt_or_ge k s.loads.length with hlt | hge
      · exact h.error k e (by rwa [List.getElem?_append_left hlt] at hk)
      · rw [List.getElem?_append_right hge] at hk
        cases List.mem_singleton.1 (List.mem_of_getElem? hk)
  rcases hcase with ⟨-, rfl, -, rfl⟩ | ⟨rfl, rfl, -, rfl⟩ | ⟨f, todo, rfl, rfl⟩ |
    ⟨f, todo, q, rfl, hq, rfl⟩ | ⟨rfl, rfl⟩ | ⟨e, rfl, rfl⟩
  · exact h.of_setLoad hi rfl (fun _ _ => .inr) (by rintro ⟨⟩) (by rintro e ⟨⟩)
  · exact h.of_setLoad hi rfl (fun _ _ => .inr) (by rintro ⟨⟩) (by rintro e ⟨⟩)
  · refine h.of_setLoad hi rfl (fun g k hk => ?_) (by rintro ⟨⟩) (by rintro e ⟨⟩)
    have hk' : (if g = f then some i else s.attr g) = some k := hk
    split at hk'
    · exact .inl (Option.some.inj hk').symm
    · exact .inr hk'
  · rcases hq with rfl | ⟨e, he, rfl⟩
    · exact h.of_setLoad hi rfl (fun _ _ => .inr) (by rintro ⟨⟩) (by rintro e ⟨⟩)
    · exact h.of_setLoad hi rfl (fun _ _ => .inr) (by rintro ⟨⟩) (by rintro e' ⟨⟩; exact he)
  · exact h.of_setLoad hi rfl (fun _ _ => .inr) (by rintro ⟨⟩) (by rintro e ⟨⟩)
  · exact h.of_setLoad hi rfl (fun _ _ => .inr) (by rintro ⟨⟩) (by rintro e ⟨⟩)

theorem traced_reach (h : system.Reach System.Any s) : s.Traced := by
  refine h.inv (I := Traced) (fun s h0 => ⟨fun f k hk => ?_, fun k e hk => ?_⟩)
    fun _ _ _ hI _ hs => hI.step hs
  · rw [h0.2.2.1 f] at hk
    cases hk
  · rw [h0.2.2.2] at hk
    cases hk

/-- What a load no longer has to assign is assigned, and so is everything once the engine is
ready. -/
structure Filled (s : Loader) : Prop where
  loading : ∀ (k : Nat) (todo : List Attr), s.loads[k]? = some (.loading todo) →
    ∀ f ∉ todo, (s.attr f).isSome
  ready : s.ready = true → ∀ f, (s.attr f).isSome

theorem Filled.of_setLoad (h : s.Filled) (hi : s.loads[i]? = some p) {q : LoadPhase}
    (hloads : t.loads = (s.setLoad i q).loads) (hattr : ∀ f, (s.attr f).isSome → (t.attr f).isSome)
    (hq : ∀ todo, q = .loading todo → ∀ f ∉ todo, (t.attr f).isSome)
    (hready : t.ready = true → s.ready = true ∨ ∀ f, (t.attr f).isSome) : t.Filled := by
  refine ⟨fun k todo hk f hf => ?_, fun ht f => ?_⟩
  · rw [hloads, loads_setLoad hi] at hk
    split at hk
    · exact hq todo (Option.some.inj hk) f hf
    · exact hattr f (h.loading k todo hk f hf)
  · rcases hready ht with hs | hall
    · exact hattr f (h.ready hs f)
    · exact hall f

theorem Filled.step (h : s.Filled) {a : LoadAct} (hs : step s a = some t) : t.Filled := by
  rcases step_cases hs with ⟨rfl, rfl⟩ | ⟨i, p, hi, hcase⟩
  · refine ⟨fun k todo hk => ?_, h.ready⟩
    rcases Nat.lt_or_ge k s.loads.length with hlt | hge
    · exact h.loading k todo (by rwa [List.getElem?_append_left hlt] at hk)
    · rw [List.getElem?_append_right hge] at hk
      cases List.mem_singleton.1 (List.mem_of_getElem? hk)
  rcases hcase with ⟨-, rfl, -, rfl⟩ | ⟨rfl, rfl, -, rfl⟩ | ⟨f, todo, rfl, rfl⟩ |
    ⟨f, todo, q, rfl, hq, rfl⟩ | ⟨rfl, rfl⟩ | ⟨e, rfl, rfl⟩
  · exact h.of_setLoad hi rfl (fun _ => id) (by rintro todo ⟨⟩) .inl
  · refine h.of_setLoad hi rfl (fun _ => id) (fun todo htodo f hf => ?_) fun hr => ?_
    · cases htodo
      cases f <;> exact absurd (by decide) hf
    · cases hr
  · refine h.of_setLoad hi rfl (fun g hg => ?_) (fun todo' htodo g hg => ?_) .inl
    · show (if g = f then some i else s.attr g).isSome = true
      split
      · rfl
      · exact hg
    · cases htodo
      show (if g = f then some i else s.attr g).isSome = true
      split
      · rfl
      · rename_i hne
        exact h.loading i _ hi g (fun hmem => (List.mem_cons.1 hmem).elim hne hg)
  · refine h.of_setLoad hi rfl (fun _ => id) (fun todo' htodo => ?_) .inl
    rcases hq with rfl | ⟨e, -, rfl⟩ <;> cases htodo
  · exact h.of_setLoad hi rfl (fun _ => id) (by rintro todo ⟨⟩) fun _ =>
      .inr fun f => h.loading i [] hi f List.not_mem_nil
  · refine h.of_setLoad hi rfl (fun _ => id) (by rintro todo ⟨⟩) fun hr => ?_
    cases hr

/-- **An engine that is ready has every attribute**, in every run. -/
theorem filled_reach (h : system.Reach System.Any s) (hready : s.ready = true) (f : Attr) :
    (s.attr f).isSome := by
  have hfilled : s.Filled := by
    refine h.inv (I := Filled) (fun s h0 => ⟨fun k todo hk => ?_, fun hr => ?_⟩)
      fun _ _ _ hI _ hs => hI.step hs
    · rw [h0.2.2.2] at hk
      cases hk
    · rw [Loader.ready, h0.1] at hr
      cases hr
  exact hfilled.ready hready f

theorem step_load {a : LoadAct} (ha : a.load? = some i) (hi : s.loads[i]? = some p) :
    step s a = s.loadStep i p a := by
  rw [step, ha]
  show (s.loads[i]?).bind _ = _
  rw [hi, Option.bind_some]

theorem step_assign {f : Attr} {todo : List Attr} (hi : s.loads[i]? = some (.loading (f :: todo))) :
    system.step s (.assign i) = some ((s.setAttr f i).setLoad i (.loading todo)) :=
  step_load (a := .assign i) rfl hi

theorem step_succeed (hi : s.loads[i]? = some (.loading [])) :
    system.step s (.finish i) = some (s.succeed i) := step_load (a := .finish i) rfl hi

theorem step_fail {e : String} (hi : s.loads[i]? = some (.raised e)) :
    system.step s (.finish i) = some (s.fail i e) := step_load (a := .finish i) rfl hi

/-- A load that is left alone assigns everything it has to. -/
theorem assign_all {todo : List Attr} (hi : s.loads[i]? = some (.loading todo)) :
    ∃ u, system.Path System.Any s (List.replicate todo.length (.assign i)) u ∧
      u.loads[i]? = some (.loading []) ∧ u.state = s.state ∧ u.error = s.error := by
  induction todo generalizing s with
  | nil => exact ⟨s, .nil s, hi, rfl, rfl⟩
  | cons f todo ih =>
    have hi' : (s.setAttr f i).loads[i]? = some (.loading (f :: todo)) := hi
    have hnext : ((s.setAttr f i).setLoad i (.loading todo)).loads[i]? = some (.loading todo) := by
      rw [loads_setLoad hi', if_pos rfl]
    obtain ⟨u, hpath, hu, hst, herr⟩ := ih hnext
    exact ⟨u, .cons trivial (step_assign hi) hpath, hu, hst, herr⟩

theorem step_guard (hs : step s (.guard i) = some t) (hst : s.state ≠ .ready) :
    s.loads[i]? = some .called ∧ t = s.enter i := by
  obtain ⟨p, hp, hst'⟩ := Option.bind_eq_some_iff.1 hs
  rw [loadStep, if_neg hst, Option.ite_none_right_eq_some] at hst'
  exact ⟨hst'.1 ▸ hp, (Option.some.inj hst'.2).symm⟩

variable {j : Nat}

/-- Where two loads stand once `i` has passed the guard. -/
theorem loads_of_guard (hi : s.loads[i]? = some .called) (hj : s.loads[j]? = some p)
    (hp : p.busy = true) : j ≠ i ∧ (s.enter i).loads[j]? = some p ∧
      (s.enter i).loads[i]? = some (.loading assignments) := by
  have hji : j ≠ i := by
    rintro rfl
    cases Option.some.inj (hi.symm.trans hj)
    cases hp
  exact ⟨hji, by rw [loads_enter hi, if_neg hji, hj], by rw [loads_enter hi, if_pos rfl]⟩

/-- Another load in `_load_locked` makes two. -/
theorem not_sound_of_loading (hi : s.loads[i]? = some .called) {f : Attr} {todo : List Attr}
    (hj : s.loads[j]? = some (.loading (f :: todo))) : ¬ (s.enter i).Sound := by
  obtain ⟨hji, htj, hti⟩ := loads_of_guard hi hj rfl
  exact fun hsound => hji (hsound.single j i ⟨_, _, htj⟩ ⟨_, _, hti⟩)

/-- Another load that is about to set `ready` does so while the model is replaced. -/
theorem unsound_of_loaded (h : s.Traced) (hi : s.loads[i]? = some .called)
    (hj : s.loads[j]? = some (.loading [])) :
    ∃ as u, system.Path System.Any (s.enter i) as u ∧ ¬ u.Sound := by
  obtain ⟨hji, htj, hti⟩ := loads_of_guard hi hj rfl
  have hti' : ((s.enter i).succeed j).loads[i]? = some (.loading assignments) := by
    show ((s.enter i).setLoad j .ended).loads[i]? = _
    rw [loads_setLoad htj, if_neg hji.symm, hti]
  refine ⟨[.finish j, .assign i], _, .cons trivial (step_succeed htj) (.cons trivial
    (step_assign hti') (.nil _)), fun hsound => ?_⟩
  -- The model is load `i`'s, the cache is not.
  obtain ⟨⟨k, hk⟩, -⟩ := hsound.whole (.inl rfl)
  have hmodel : some i = some k := hk .model
  have hcache : s.attr .cache = some k := hk .cache
  cases hmodel
  obtain ⟨p, hp, hne⟩ := h.attr .cache i hcache
  exact hne (Option.some.inj (hp.symm.trans hi))

/-- Another load that is about to report its error leaves it on a ready engine. -/
theorem unsound_of_raised (h : s.Traced) (hi : s.loads[i]? = some .called) {e : String}
    (hj : s.loads[j]? = some (.raised e)) :
    ∃ as u, system.Path System.Any (s.enter i) as u ∧ ¬ u.Sound := by
  obtain ⟨hji, htj, hti⟩ := loads_of_guard hi hj rfl
  have hti' : ((s.enter i).fail j e).loads[i]? = some (.loading assignments) := by
    show ((s.enter i).setLoad j .ended).loads[i]? = _
    rw [loads_setLoad htj, if_neg hji.symm, hti]
  obtain ⟨u, hpath, hu, -, herr⟩ := assign_all hti'
  refine ⟨.finish j :: (List.replicate assignments.length (.assign i) ++ [.finish i]), u.succeed i,
    .cons trivial (step_fail htj) (hpath.append (.cons trivial (step_succeed hu)
    (.nil _))), fun hsound => ?_⟩
  have hnone : u.error = "" := (hsound.whole (.inl rfl)).2
  exact h.error j e hj (herr.symm.trans hnone)

/-- **A load that passes the guard while another is busy can end in an unsound state.** -/
theorem leads_to_unsound (h : s.Traced) {a : LoadAct} (hs : step s a = some t)
    (ha : ¬ Alone s a) : ∃ as u, system.Path System.Any t as u ∧ ¬ u.Sound := by
  obtain ⟨i, j, rfl, hst, q, hj, hbusy⟩ := busy_of_not_alone ha
  obtain ⟨hi, rfl⟩ := step_guard hs hst
  cases q with
  | called => cases hbusy
  | ended => cases hbusy
  | raised e => exact unsound_of_raised h hi hj
  | loading todo =>
    cases todo with
    | nil => exact unsound_of_loaded h hi hj
    | cons f todo => exact ⟨[], _, .nil _, not_sound_of_loading hi hj⟩

end Traced

/-! ## One load at a time -/

/-- **Loading is single and readiness is stable as long as the loads pass the guard one at a
time**, and a step that breaks the condition can always end in an unsound state. -/
theorem load_single (s : Loader) :
    (system.Reach Alone s → s.Sound ∧
      ∀ as t, system.Path Alone s as t → s.SeenReady → t.SeenReady) ∧
    ∀ t a, system.Reach System.Any s → step s a = some t → ¬ Alone s a →
      ∃ as u, system.Path System.Any t as u ∧ ¬ u.Sound := by
  refine ⟨fun h => ⟨(inv_reach h).sound, fun as t hp hseen => ?_⟩,
    fun t a h hs ha => leads_to_unsound (traced_reach h) hs ha⟩
  exact .inr (ready_path (inv_reach h) hp (hseen.elim of_decide_eq_true id))

/-- A freshly constructed engine. -/
def fresh : Loader := ⟨"/models", "", .idle, "", fun _ => none, []⟩

theorem fresh_idle : fresh.Idle := ⟨rfl, rfl, fun _ => rfl, rfl⟩

/-- The first load fails and the second succeeds. -/
def failedThenLoaded : List LoadAct :=
  [.call, .guard 0, .raise 0 (.exception "EngineError" "model directory not found"), .finish 0,
    .call, .guard 1, .assign 1, .assign 1, .assign 1, .assign 1, .assign 1, .finish 1]

theorem load_single_failedThenLoaded :
    ((system.exec Alone fresh failedThenLoaded).map ready = some true) ∧
      ∀ s, system.exec Alone fresh failedThenLoaded = some s → s.Sound :=
  ⟨by decide, fun s h => ((load_single s).1 (System.reach_of_exec fresh_idle h)).1⟩

/-- Both loads pass the guard; the first succeeds and the second then fails. -/
def bothLoad : List LoadAct :=
  [.call, .call, .guard 0, .guard 1, .assign 0, .assign 0, .assign 0, .assign 0, .assign 0,
    .finish 0, .raise 1 (.exception "OutOfMemoryError" "CUDA out of memory")]

theorem load_twice :
    (∃ s, system.Reach System.Any s ∧ ¬ s.Sound) ∧
      ∃ s t, system.Reach System.Any s ∧ s.SeenReady ∧ step s (.finish 1) = some t ∧
        ¬ t.SeenReady := by
  refine ⟨?_, ?_⟩
  · obtain ⟨s, hr, hp⟩ := System.reach_of_check system System.Any (bothLoad.take 4)
      (fun s => decide (s.loads = [.loading assignments, .loading assignments])) fresh_idle (by decide)
    have hloads := of_decide_eq_true hp
    refine ⟨s, hr, fun hsound => ?_⟩
    have := hsound.single 0 1 ⟨_, _, by rw [hloads]; rfl⟩ ⟨_, _, by rw [hloads]; rfl⟩
    cases this
  · obtain ⟨s, hr, hp⟩ := System.reach_of_check system System.Any bothLoad
      (fun s => s.ready && (step s (.finish 1)).any fun t => !t.ready) fresh_idle (by decide)
    rw [Bool.and_eq_true, Option.any_eq_true] at hp
    obtain ⟨hready, t, hs, ht⟩ := hp
    refine ⟨s, t, hr, .inl hready, hs, fun hseen => ?_⟩
    have hready : t.ready = true := hseen.elim id decide_eq_true
    rw [hready] at ht
    cases ht

end Loader

end LlmkubeRuntimes.Exl3
