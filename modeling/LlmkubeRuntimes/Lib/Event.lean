import Mathlib.Data.List.Nodup
import Mathlib.Data.List.Range
import Mathlib.Logic.Function.Basic

/-!
# Events on a queue of work

A stream runs the work queued on it in order. An event is recorded at the end
of some of that work, again and again; waiting for it means waiting for its
last record so far.

* `Event`: how often an event was recorded, and how many of these records the
  stream has come to;
* `Tracks`: the numbers of the records still queued;
* `Follows`: a queue whose items each end in a record of the event at their
  key. It is kept by queueing an item (`Follows.push`) and by running one
  (`Follows.pop`).
-/

namespace LlmkubeRuntimes.Lib

structure Event where
  recorded : Nat
  completed : Nat
  deriving DecidableEq, Repr

namespace Event

/-- An event that was never recorded. -/
def new : Event := ⟨0, 0⟩

def record (e : Event) : Event := { e with recorded := e.recorded + 1 }

def complete (e : Event) : Event := { e with completed := e.completed + 1 }

/-- Whether the stream has come to the last record. -/
def query (e : Event) : Bool := e.completed = e.recorded

/-- Whether a wait that was queued after `n` records is over. -/
def passed (e : Event) (n : Nat) : Bool := n ≤ e.completed

/-- The records still queued are those after the completed ones, in order. -/
def Tracks (e : Event) (queued : List Nat) : Prop :=
  queued = List.range' (e.completed + 1) queued.length ∧ e.recorded = e.completed + queued.length

namespace Tracks

variable {e : Event} {queued : List Nat} {n : Nat}

theorem new : Event.new.Tracks [] := ⟨rfl, rfl⟩

theorem record (h : e.Tracks queued) : e.record.Tracks (queued ++ [e.recorded + 1]) := by
  refine ⟨?_, ?_⟩
  · rw [List.length_append, List.length_singleton, List.range'_1_concat]
    congr 1
    · exact h.1
    · have := h.2
      simp only [Event.record]
      congr 1
      omega
  · have := h.2
    simp only [Event.record, List.length_append, List.length_singleton]
    omega

theorem complete (h : e.Tracks (n :: queued)) : e.complete.Tracks queued := by
  obtain ⟨hlist, hrecorded⟩ := h
  rw [List.length_cons, List.range'_succ, List.cons.injEq] at hlist
  refine ⟨hlist.2, ?_⟩
  simp only [Event.complete, List.length_cons] at hrecorded ⊢
  omega

theorem head (h : e.Tracks (n :: queued)) : n = e.completed + 1 := by
  have := h.1
  rw [List.length_cons, List.range'_succ, List.cons.injEq] at this
  exact this.1

theorem mem (h : e.Tracks queued) (hn : n ∈ queued) : e.completed < n ∧ n ≤ e.recorded := by
  rw [h.1, List.mem_range'_1] at hn
  have := h.2
  omega

theorem nodup (h : e.Tracks queued) : queued.Nodup := by
  rw [h.1]
  exact List.nodup_range'

theorem query_iff (h : e.Tracks queued) : e.query ↔ queued = [] := by
  rw [← List.length_eq_zero_iff]
  have := h.2
  simp only [query, decide_eq_true_eq]
  omega

end Tracks

/-! ## Queues -/

variable {α κ : Type} [DecidableEq κ]

/-- Every item of the queue ends in a record of the event at its key; `num` is the number of
that record. -/
def Follows (events : κ → Event) (key : α → κ) (num : α → Nat) (queue : List α) : Prop :=
  ∀ k, (events k).Tracks ((queue.filter (key · = k)).map num)

namespace Follows

variable {events : κ → Event} {key : α → κ} {num : α → Nat} {queue : List α} {a b : α}

theorem push (h : Follows events key num queue) (hnum : num a = (events (key a)).recorded + 1) :
    Follows (Function.update events (key a) (events (key a)).record) key num (queue ++ [a]) := by
  intro k
  rw [List.filter_append, List.map_append]
  by_cases hk : key a = k
  · subst hk
    rw [Function.update_self, List.filter_cons_of_pos (by simp), List.filter_nil, List.map_singleton,
      hnum]
    exact (h (key a)).record
  · rw [Function.update_of_ne (Ne.symm hk), List.filter_cons_of_neg (by simpa using hk)]
    simpa using h k

theorem pop (h : Follows events key num (a :: queue)) :
    Follows (Function.update events (key a) (events (key a)).complete) key num queue := by
  intro k
  by_cases hk : key a = k
  · subst hk
    have := h (key a)
    rw [List.filter_cons_of_pos (by simp), List.map_cons] at this
    rw [Function.update_self]
    exact this.complete
  · have := h k
    rw [List.filter_cons_of_neg (by simpa using hk)] at this
    rwa [Function.update_of_ne (Ne.symm hk)]

/-- The first item ends in the next record. -/
theorem head (h : Follows events key num (a :: queue)) :
    num a = (events (key a)).completed + 1 := by
  have := h (key a)
  rw [List.filter_cons_of_pos (by simp), List.map_cons] at this
  exact this.head

/-- The record of a queued item has not been reached. -/
theorem mem (h : Follows events key num queue) (ha : a ∈ queue) :
    (events (key a)).completed < num a ∧ num a ≤ (events (key a)).recorded :=
  (h (key a)).mem (List.mem_map_of_mem (List.mem_filter.2 ⟨ha, by simp⟩))

/-- Two queued items with one key and number are the same. -/
theorem inj (h : Follows events key num queue) (ha : a ∈ queue) (hb : b ∈ queue)
    (hkey : key a = key b) (hnum : num a = num b) : a = b :=
  List.inj_on_of_nodup_map (h (key b)).nodup (List.mem_filter.2 ⟨ha, by simpa using hkey⟩)
    (List.mem_filter.2 ⟨hb, by simp⟩) hnum

/-- Behind an item with the last record of its key, the key does not occur. -/
theorem of_head (h : Follows events key num (a :: queue))
    (ha : num a = (events (key a)).recorded) : ∀ b ∈ queue, key b ≠ key a := by
  intro b hb hkey
  have hhead := h.head
  have hmem := h.pop.mem hb
  rw [hkey, Function.update_self] at hmem
  simp only [Event.complete] at hmem
  omega

/-- Once the last record is reached, nothing is queued. -/
theorem of_query (h : Follows events key num queue) {k : κ} (hk : (events k).query) :
    ∀ b ∈ queue, key b ≠ k := by
  have := ((h k).query_iff).1 hk
  rw [List.map_eq_nil_iff, List.filter_eq_nil_iff] at this
  exact fun b hb => by simpa using this b hb

/-- Once a wait for all but the last record is over, only the item with that record can be
queued. -/
theorem eq_of_passed (h : Follows events key num queue) {k : κ}
    (hk : (events k).recorded ≤ (events k).completed + 1) (ha : a ∈ queue) (hb : b ∈ queue)
    (hka : key a = k) (hkb : key b = k) : a = b := by
  subst hka
  have ha' := h.mem ha
  have hb' := h.mem hb
  rw [hkb] at hb'
  exact h.inj ha hb hkb.symm (by omega)

end Follows

end Event

end LlmkubeRuntimes.Lib
