import Mathlib.Data.List.Chain
import Mathlib.Data.List.Nodup

/-!
# Doubly linked nodes

Nodes have an optional link either way, and a list is what a walk over the links
visits.

* `Linked h l`: consecutive nodes of `l` are linked both ways;
* `Links.join`, `Links.thread`, `Links.clear`: two nodes are linked, a list of nodes
  is put between two, and nodes lose their links;
* `Linked.join`, `Linked.thread`, `Linked.unlink`: what these leave linked;
* `Linked.congr`: of the first node only the forward link counts, of the last only
  the backward one.
-/

namespace LlmkubeRuntimes.Lib

/-- The links of all nodes. -/
structure Links (ν : Type) where
  prev : ν → Option ν
  next : ν → Option ν

namespace Links

variable {ν : Type}

/-- Nodes without links. -/
def none : Links ν := ⟨fun _ => .none, fun _ => .none⟩

variable [DecidableEq ν]

/-- `z` behind `x`. -/
def join (h : Links ν) (x z : ν) : Links ν :=
  ⟨fun a => if a = z then some x else h.prev a, fun a => if a = x then some z else h.next a⟩

/-- The nodes `bs` behind `x`, one behind the other, and `z` behind the last. -/
def thread (h : Links ν) (x : ν) : List ν → ν → Links ν
  | [], z => h.join x z
  | b :: bs, z => (h.join x b).thread b bs z

/-- The nodes `bs` lose their links. -/
def clear (h : Links ν) (bs : List ν) : Links ν :=
  ⟨fun a => if a ∈ bs then .none else h.prev a, fun a => if a ∈ bs then .none else h.next a⟩

variable {h : Links ν} {a x z : ν} {bs : List ν}

@[simp] theorem join_next_self : (h.join x z).next x = some z := if_pos rfl

@[simp] theorem join_prev_self : (h.join x z).prev z = some x := if_pos rfl

theorem join_next (ha : a ≠ x) : (h.join x z).next a = h.next a := if_neg ha

theorem join_prev (ha : a ≠ z) : (h.join x z).prev a = h.prev a := if_neg ha

theorem clear_of_mem (ha : a ∈ bs) : (h.clear bs).prev a = .none ∧ (h.clear bs).next a = .none :=
  ⟨if_pos ha, if_pos ha⟩

theorem clear_next (ha : a ∉ bs) : (h.clear bs).next a = h.next a := if_neg ha

theorem clear_prev (ha : a ∉ bs) : (h.clear bs).prev a = h.prev a := if_neg ha

theorem clear_nil : h.clear [] = h := by
  simp only [clear, List.not_mem_nil, if_false]

theorem clear_clear (b : ν) : (h.clear [b]).clear bs = h.clear (b :: bs) := by
  simp only [clear, List.mem_cons, List.not_mem_nil, or_false, mk.injEq]
  constructor <;> funext a <;> by_cases ha : a = b <;> simp [ha]

theorem thread_next (ha : a ∉ x :: bs) : (h.thread x bs z).next a = h.next a := by
  induction bs generalizing x h with
  | nil => exact join_next fun heq => ha (heq ▸ List.mem_cons_self)
  | cons b bs ih =>
    obtain ⟨hax, hrest⟩ := not_or.1 (List.mem_cons.not.1 ha)
    rw [thread, ih hrest, join_next hax]

theorem thread_prev (ha : a ∉ bs) (haz : a ≠ z) : (h.thread x bs z).prev a = h.prev a := by
  induction bs generalizing x h with
  | nil => exact join_prev haz
  | cons b bs ih =>
    obtain ⟨hab, hrest⟩ := not_or.1 (List.mem_cons.not.1 ha)
    rw [thread, ih hrest, join_prev hab]

end Links

/-- Consecutive nodes are linked both ways. -/
def Linked {ν : Type} (h : Links ν) (l : List ν) : Prop :=
  l.IsChain fun a b => h.next a = some b ∧ h.prev b = some a

namespace Linked

variable {ν : Type} {h h' : Links ν} {l pre post bs : List ν} {b x z : ν}

theorem singleton (h : Links ν) (a : ν) : Linked h [a] := List.isChain_singleton a

theorem tail {a : ν} (hl : Linked h (a :: l)) : Linked h l := List.IsChain.tail hl

theorem of_append (hl : Linked h (pre ++ post)) : Linked h post := List.IsChain.right_of_append hl

theorem append_iff : Linked h (pre ++ x :: post) ↔ Linked h (pre ++ [x]) ∧ Linked h (x :: post) :=
  List.isChain_split

/-- Of the first node only the forward link counts, of the last only the backward one. -/
theorem congr (hl : Linked h l) (hnext : ∀ a ∈ l.dropLast, h'.next a = h.next a)
    (hprev : ∀ a ∈ l.tail, h'.prev a = h.prev a) : Linked h' l := by
  induction l with
  | nil => exact List.isChain_nil
  | cons a l ih =>
    cases l with
    | nil => exact List.isChain_singleton a
    | cons c l =>
      obtain ⟨⟨hac, hca⟩, hrest⟩ := List.isChain_cons_cons.1 hl
      refine List.isChain_cons_cons.2 ⟨⟨?_, ?_⟩, ih hrest (fun b hb => ?_) fun b hb => ?_⟩
      · rw [hnext a (by simp), hac]
      · rw [hprev c (by simp), hca]
      · exact hnext b (by rw [List.dropLast_cons_cons]; exact List.mem_cons_of_mem a hb)
      · exact hprev b (List.mem_cons_of_mem c hb)

/-- The neighbours of a node between others. -/
theorem neighbours (hl : Linked h (pre ++ x :: b :: z :: post)) :
    h.prev b = some x ∧ h.next b = some z := by
  have hrest := (append_iff.1 hl).2
  obtain ⟨⟨_, hprev⟩, hrest⟩ := List.isChain_cons_cons.1 hrest
  exact ⟨hprev, (List.isChain_cons_cons.1 hrest).1.1⟩

variable [DecidableEq ν]

/-- Two chains joined at their ends. -/
theorem join (hpre : Linked h (pre ++ [x])) (hpost : Linked h (z :: post))
    (hnodup : (pre ++ x :: z :: post).Nodup) : Linked (h.join x z) (pre ++ x :: z :: post) := by
  obtain ⟨-, hxz, hdisj⟩ := List.nodup_append.1 hnodup
  have hx : x ∉ z :: post := (List.nodup_cons.1 hxz).1
  have hz : z ∉ post := (List.nodup_cons.1 (List.nodup_cons.1 hxz).2).1
  refine append_iff.2 ⟨hpre.congr (fun a ha => ?_) fun a ha => ?_,
    List.isChain_cons_cons.2 ⟨⟨Links.join_next_self, Links.join_prev_self⟩,
      hpost.congr (fun a ha => ?_) fun a ha => ?_⟩⟩
  · rw [List.dropLast_concat] at ha
    exact Links.join_next (hdisj a ha x List.mem_cons_self)
  · refine Links.join_prev ?_
    rcases List.mem_append.1 (List.mem_of_mem_tail ha) with ha | ha
    · exact hdisj a ha z (List.mem_cons_of_mem x List.mem_cons_self)
    · exact fun heq => hx (List.mem_singleton.1 ha ▸ heq ▸ List.mem_cons_self)
  · exact Links.join_next fun heq => hx (heq ▸ List.dropLast_subset _ ha)
  · exact Links.join_prev fun heq => hz (heq ▸ ha)

/-- **A list of nodes between two chains** makes one chain of them. -/
theorem thread (hpre : Linked h (pre ++ [x])) (hpost : Linked h (z :: post))
    (hnodup : (pre ++ x :: (bs ++ z :: post)).Nodup) :
    Linked (h.thread x bs z) (pre ++ x :: (bs ++ z :: post)) := by
  induction bs generalizing pre x h with
  | nil => exact hpre.join hpost hnodup
  | cons b bs ih =>
    have hassoc : pre ++ x :: (b :: bs ++ z :: post) =
        (pre ++ [x]) ++ b :: (bs ++ z :: post) := by simp
    rw [hassoc] at hnodup ⊢
    obtain ⟨-, hnodupb, hdisj⟩ := List.nodup_append.1 hnodup
    have hb : b ∉ bs ++ z :: post := (List.nodup_cons.1 hnodupb).1
    refine ih ?_ (hpost.congr (fun a ha => ?_) fun a ha => ?_) hnodup
    · have hfirst : (pre ++ x :: b :: []).Nodup := by
        refine hnodup.sublist ?_
        rw [List.append_assoc]
        exact (List.Sublist.refl pre).append
          (List.Sublist.cons_cons x (List.Sublist.cons_cons b (List.nil_sublist _)))
      have := hpre.join (Linked.singleton h b) hfirst
      simpa using this
    · have hmem : a ∈ b :: (bs ++ z :: post) :=
        List.mem_cons_of_mem b (List.mem_append_right bs (List.dropLast_subset _ ha))
      exact Links.join_next fun heq =>
        hdisj x (List.mem_append_right pre List.mem_cons_self) a hmem heq.symm
    · exact Links.join_prev fun heq =>
        hb (heq ▸ List.mem_append_right bs (List.mem_cons_of_mem z ha))

/-- Nodes off a chain may lose their links. -/
theorem clear (hl : Linked h l) (hdisj : ∀ a ∈ l, a ∉ bs) : Linked (h.clear bs) l :=
  hl.congr (fun a ha => Links.clear_next (hdisj a (List.dropLast_subset _ ha)))
    fun a ha => Links.clear_prev (hdisj a (List.mem_of_mem_tail ha))

/-- A node taken out of a chain. -/
theorem unlink (hl : Linked h (pre ++ x :: b :: z :: post))
    (hnodup : (pre ++ x :: b :: z :: post).Nodup) :
    Linked ((h.join x z).clear [b]) (pre ++ x :: z :: post) := by
  have hnodup' : (b :: (pre ++ x :: z :: post)).Nodup := by
    refine (List.Perm.nodup_iff ?_).1 hnodup
    rw [show pre ++ x :: b :: z :: post = (pre ++ [x]) ++ b :: (z :: post) by simp,
      show pre ++ x :: z :: post = (pre ++ [x]) ++ (z :: post) by simp]
    exact List.perm_middle
  obtain ⟨hb, hrest⟩ := List.nodup_cons.1 hnodup'
  obtain ⟨hpre, hpost⟩ := append_iff.1 hl
  refine (hpre.join hpost.tail.tail hrest).clear fun a ha hab => ?_
  exact hb (List.mem_singleton.1 hab ▸ ha)

end Linked

end LlmkubeRuntimes.Lib
