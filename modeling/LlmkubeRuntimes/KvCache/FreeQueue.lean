import LlmkubeRuntimes.Lib.Links
import LlmkubeRuntimes.Lib.Steps

/-!
# The queue of free blocks

Free KV cache blocks are a doubly linked list through their own fields, between a
fake head and a fake tail.

* `FreeKVCacheBlockQueue`: the links and the number of free blocks, with the queue's
  operations as they read and write them;
* `Holds q l`: the queue is the list `l`, and no other block has links;
* `onList`: what an operation does to a plain list of blocks;
* `run_onList`: over any run of operations that put back only blocks which are not
  free, the queue answers as the list does.
-/

namespace LlmkubeRuntimes.KvCache

open LlmkubeRuntimes.Lib

/-- A block by its identity, or one of the two fake ones. -/
inductive Node where
  | fakeHead
  | fakeTail
  | block (id : Nat)
  deriving DecidableEq, Repr

/-- What the operations raise. -/
inductive QueueError where
  | outOfSync
  | noFreeBlocks
  | invalidBlock
  | notEnough
  | brokenList
  | invalidRemoved
  | noLast
  | noFirst
  deriving DecidableEq, Repr

structure FreeKVCacheBlockQueue where
  links : Links Node
  numFreeBlocks : Int

namespace FreeKVCacheBlockQueue

/-- The queue of new blocks. The links are written block by block and the fake blocks' at last,
each field once. -/
def init (blocks : List Nat) : FreeKVCacheBlockQueue :=
  ⟨Links.none.thread .fakeHead (blocks.map .block) .fakeTail, blocks.length⟩

def popleft (q : FreeKVCacheBlockQueue) : Except QueueError (Node × FreeKVCacheBlockQueue) :=
  match q.links.next .fakeHead with
  | none => if q.numFreeBlocks = 0 then .error .noFreeBlocks else .error .outOfSync
  | some first =>
    if first = .fakeTail then
      if q.numFreeBlocks = 0 then .error .noFreeBlocks else .error .outOfSync
    else
      match q.links.next first with
      | none => .error .invalidBlock
      | some second =>
        .ok (first, ⟨(q.links.join .fakeHead second).clear [first], q.numFreeBlocks - 1⟩)

/-- The loop of `popleft_n`: the blocks popped, the current block behind them, and the links. -/
def popLoop :
    Nat → Option Node → Links Node → Except QueueError (List Node × Option Node × Links Node)
  | 0, curr, h => .ok ([], curr, h)
  | _ + 1, none, _ => .error .brokenList
  | n + 1, some last, h =>
    match popLoop n (h.next last) (h.clear [last]) with
    | .ok (ret, curr, h') => .ok (last :: ret, curr, h')
    | .error e => .error e

def popleftN (q : FreeKVCacheBlockQueue) (n : Nat) :
    Except QueueError (List Node × FreeKVCacheBlockQueue) :=
  if n = 0 then .ok ([], q)
  else if q.numFreeBlocks < n then .error .notEnough
  else
    match popLoop n (q.links.next .fakeHead) q.links with
    | .error e => .error e
    | .ok (ret, none, h) => .ok (ret, ⟨h, q.numFreeBlocks - n⟩)
    | .ok (ret, some curr, h) => .ok (ret, ⟨h.join .fakeHead curr, q.numFreeBlocks - n⟩)

def remove (q : FreeKVCacheBlockQueue) (block : Node) : Except QueueError FreeKVCacheBlockQueue :=
  match q.links.prev block, q.links.next block with
  | some prev, some next => .ok ⟨(q.links.join prev next).clear [block], q.numFreeBlocks - 1⟩
  | _, _ => .error .invalidRemoved

def append (q : FreeKVCacheBlockQueue) (block : Node) : Except QueueError FreeKVCacheBlockQueue :=
  match q.links.prev .fakeTail with
  | none => .error .noLast
  | some last => .ok ⟨(q.links.join last block).join block .fakeTail, q.numFreeBlocks + 1⟩

def prependN (q : FreeKVCacheBlockQueue) (blocks : List Node) :
    Except QueueError FreeKVCacheBlockQueue :=
  if blocks = [] then .ok q
  else
    match q.links.next .fakeHead with
    | none => .error .noFirst
    | some first => .ok ⟨q.links.thread .fakeHead blocks first, q.numFreeBlocks + blocks.length⟩

def appendN (q : FreeKVCacheBlockQueue) (blocks : List Node) :
    Except QueueError FreeKVCacheBlockQueue :=
  if blocks = [] then .ok q
  else
    match q.links.prev .fakeTail with
    | none => .error .noLast
    | some last => .ok ⟨q.links.thread last blocks .fakeTail, q.numFreeBlocks + blocks.length⟩

/-- The blocks from `curr` on up to the one without a next block; `none` where the loop would take
more turns. -/
def collect (h : Links Node) : Nat → Node → Option (List Node)
  | 0, _ => none
  | fuel + 1, curr =>
    match h.next curr with
    | none => some []
    | some next => (collect h fuel next).map (curr :: ·)

def getAllFreeBlocks (q : FreeKVCacheBlockQueue) (fuel : Nat) :
    Except QueueError (Option (List Node)) :=
  match q.links.next .fakeHead with
  | none => .error .noFirst
  | some first => .ok (collect q.links fuel first)

/-- The blocks from `curr` on up to the fake tail; `none` where the loop would take more turns. -/
def iterate (h : Links Node) : Nat → Option Node → Option (List Node)
  | _, none => some []
  | 0, some _ => none
  | fuel + 1, some curr =>
    if curr = .fakeTail then some [] else (iterate h fuel (h.next curr)).map (curr :: ·)

def iterBlocksAfter (q : FreeKVCacheBlockQueue) (fuel : Nat) : Option Node → Option (List Node)
  | none => iterate q.links fuel (q.links.next .fakeHead)
  | some cursor => iterate q.links fuel (q.links.next cursor)

end FreeKVCacheBlockQueue

/-! ## A queue as a list -/

open FreeKVCacheBlockQueue

/-- The free blocks between the fake ones. -/
def nodes (l : List Nat) : List Node := .fakeHead :: (l.map .block ++ [.fakeTail])

/-- The queue is the list `l`, and no other block has links. -/
structure Holds (q : FreeKVCacheBlockQueue) (l : List Nat) : Prop where
  linked : Linked q.links (nodes l)
  nodup : l.Nodup
  length : q.numFreeBlocks = l.length
  apart : ∀ b, b ∉ l → q.links.prev (.block b) = none ∧ q.links.next (.block b) = none
  last : q.links.next .fakeTail = none

theorem mem_blocks {l : List Nat} {b : Nat} : Node.block b ∈ l.map Node.block ↔ b ∈ l :=
  List.mem_map_of_injective fun _ _ h => Node.block.inj h

theorem fakeTail_notMem (l : List Nat) : Node.fakeTail ∉ l.map Node.block := by simp

theorem nodes_nodup {l : List Nat} (h : l.Nodup) : (nodes l).Nodup := by
  have hblocks : (l.map Node.block).Nodup := h.map fun _ _ h => Node.block.inj h
  refine List.nodup_cons.2 ⟨by simp, hblocks.append (List.nodup_singleton _) ?_⟩
  intro a ha hlast
  rw [List.mem_singleton.1 hlast] at ha
  simp at ha

/-- The last node in front of the blocks behind `l`. -/
def lastOf (l : List Nat) : Node := (l.getLast?.map Node.block).getD .fakeHead

/-- The first node behind the blocks before `l`. -/
def firstOf (l : List Nat) : Node := (l.head?.map Node.block).getD .fakeTail

theorem front_eq (l : List Nat) : ∃ pre, Node.fakeHead :: l.map Node.block = pre ++ [lastOf l] := by
  rcases List.eq_nil_or_concat l with rfl | ⟨l, b, rfl⟩
  · exact ⟨[], rfl⟩
  · exact ⟨.fakeHead :: l.map .block, by simp [lastOf]⟩

theorem back_eq (l : List Nat) :
    ∃ post, l.map Node.block ++ [Node.fakeTail] = firstOf l :: post := by
  cases l with
  | nil => exact ⟨[], rfl⟩
  | cons b l => exact ⟨l.map .block ++ [.fakeTail], rfl⟩

theorem ne_lastOf {l : List Nat} {b : Nat} (h : b ∉ l) : Node.block b ≠ lastOf l := by
  rcases List.eq_nil_or_concat l with rfl | ⟨l, c, rfl⟩
  · simp [lastOf]
  · rintro heq
    simp [lastOf] at heq
    simp [heq] at h

theorem ne_firstOf {l : List Nat} {b : Nat} (h : b ∉ l) : Node.block b ≠ firstOf l := by
  cases l with
  | nil => simp [firstOf]
  | cons c l =>
    rintro heq
    simp [firstOf] at heq
    simp [heq] at h

theorem fakeTail_ne_lastOf (l : List Nat) : Node.fakeTail ≠ lastOf l := by
  rcases List.eq_nil_or_concat l with rfl | ⟨l, c, rfl⟩ <;> simp [lastOf]

theorem nodes_append (l₁ bs l₂ : List Nat) : ∃ pre post,
    Node.fakeHead :: l₁.map Node.block = pre ++ [lastOf l₁] ∧
    l₂.map Node.block ++ [Node.fakeTail] = firstOf l₂ :: post ∧
    nodes (l₁ ++ bs ++ l₂) = pre ++ lastOf l₁ :: (bs.map Node.block ++ firstOf l₂ :: post) := by
  obtain ⟨pre, hpre⟩ := front_eq l₁
  obtain ⟨post, hpost⟩ := back_eq l₂
  refine ⟨pre, post, hpre, hpost, ?_⟩
  rw [← hpost, show pre ++ lastOf l₁ :: (bs.map Node.block ++ (l₂.map Node.block ++ [.fakeTail])) =
    (pre ++ [lastOf l₁]) ++ (bs.map Node.block ++ (l₂.map Node.block ++ [.fakeTail])) by simp,
    ← hpre]
  simp [nodes]

namespace Holds

variable {q : FreeKVCacheBlockQueue} {b : Nat}

/-- The links at a seam of the list. -/
theorem seam (l₁ l₂ : List Nat) (h : Holds q (l₁ ++ l₂)) :
    q.links.next (lastOf l₁) = some (firstOf l₂) ∧
      q.links.prev (firstOf l₂) = some (lastOf l₁) := by
  obtain ⟨pre, post, -, -, hnodes⟩ := nodes_append l₁ [] l₂
  have hlinked := h.linked
  rw [← List.append_nil l₁, hnodes] at hlinked
  exact (List.isChain_cons_cons.1 (Linked.append_iff.1 hlinked).2).1

/-- Blocks put into a list. -/
theorem thread (l₁ bs l₂ : List Nat) (h : Holds q (l₁ ++ l₂)) (hnodup : (l₁ ++ bs ++ l₂).Nodup) :
    Holds ⟨q.links.thread (lastOf l₁) (bs.map .block) (firstOf l₂), q.numFreeBlocks + bs.length⟩
      (l₁ ++ bs ++ l₂) := by
  obtain ⟨pre, post, hpre, hpost, hnodes⟩ := nodes_append l₁ bs l₂
  have hlinked := h.linked
  have hsplit : nodes (l₁ ++ l₂) = pre ++ lastOf l₁ :: (firstOf l₂ :: post) := by
    rw [← hpost, show pre ++ lastOf l₁ :: (l₂.map Node.block ++ [.fakeTail]) =
      (pre ++ [lastOf l₁]) ++ (l₂.map Node.block ++ [.fakeTail]) by simp, ← hpre]
    simp [nodes]
  rw [hsplit] at hlinked
  obtain ⟨hfront, hback⟩ := Linked.append_iff.1 hlinked
  have hall := nodes_nodup hnodup
  rw [hnodes] at hall
  refine ⟨?_, hnodup, ?_, fun b hb => ?_, ?_⟩
  · rw [hnodes]
    exact hfront.thread hback.tail hall
  · rw [h.length]
    simp only [List.length_append]
    omega
  · obtain ⟨hb₁, hb₂⟩ := not_or.1 (List.mem_append.not.1 hb)
    obtain ⟨hb₁, hbs⟩ := not_or.1 (List.mem_append.not.1 hb₁)
    obtain ⟨hprev, hnext⟩ := h.apart b fun hmem => (List.mem_append.1 hmem).elim hb₁ hb₂
    have hnode : Node.block b ∉ bs.map Node.block := fun hmem => hbs (mem_blocks.1 hmem)
    refine ⟨?_, ?_⟩
    · rw [Links.thread_prev hnode (ne_firstOf hb₂), hprev]
    · rw [Links.thread_next (List.not_mem_cons_of_ne_of_not_mem (ne_lastOf hb₁) hnode), hnext]
  · rw [Links.thread_next (List.not_mem_cons_of_ne_of_not_mem (fakeTail_ne_lastOf l₁) (by simp)),
      h.last]

/-- A block taken out of a list. -/
theorem unlink (l₁ l₂ : List Nat) (h : Holds q (l₁ ++ b :: l₂)) :
    q.links.prev (.block b) = some (lastOf l₁) ∧ q.links.next (.block b) = some (firstOf l₂) ∧
      Holds ⟨(q.links.join (lastOf l₁) (firstOf l₂)).clear [.block b], q.numFreeBlocks - 1⟩
        (l₁ ++ l₂) := by
  obtain ⟨pre, post, hpre, hpost, hnodes⟩ := nodes_append l₁ [b] l₂
  have hlinked := h.linked
  have hall := nodes_nodup h.nodup
  rw [← List.append_cons, List.map_singleton, List.singleton_append] at hnodes
  rw [hnodes] at hlinked hall
  obtain ⟨hprev, hnext⟩ := hlinked.neighbours
  obtain ⟨hb, hnodup⟩ := List.nodup_cons.1 (List.perm_middle.nodup_iff.1 h.nodup)
  have hsplit : nodes (l₁ ++ l₂) = pre ++ lastOf l₁ :: (firstOf l₂ :: post) := by
    rw [← hpost, show pre ++ lastOf l₁ :: (l₂.map Node.block ++ [.fakeTail]) =
      (pre ++ [lastOf l₁]) ++ (l₂.map Node.block ++ [.fakeTail]) by simp, ← hpre]
    simp [nodes]
  refine ⟨hprev, hnext, ?_, hnodup, ?_, fun c hc => ?_, ?_⟩
  · rw [hsplit]
    exact hlinked.unlink hall
  · rw [h.length]
    simp only [List.length_append, List.length_cons]
    omega
  · by_cases hcb : c = b
    · rw [hcb]
      exact Links.clear_of_mem List.mem_cons_self
    · have hnode : Node.block c ∉ [Node.block b] := fun hmem =>
        hcb (Node.block.inj (List.mem_singleton.1 hmem))
      obtain ⟨hc₁, hc₂⟩ := not_or.1 (List.mem_append.not.1 hc)
      obtain ⟨hprevc, hnextc⟩ := h.apart c fun hmem => by
        rcases List.mem_append.1 hmem with hmem | hmem
        · exact hc₁ hmem
        · exact (List.mem_cons.1 hmem).elim hcb hc₂
      refine ⟨?_, ?_⟩
      · rw [Links.clear_prev hnode, Links.join_prev (ne_firstOf hc₂), hprevc]
      · rw [Links.clear_next hnode, Links.join_next (ne_lastOf hc₁), hnextc]
  · rw [Links.clear_next (by simp), Links.join_next (fakeTail_ne_lastOf l₁), h.last]

end Holds

/-! ## The operations -/

theorem init_holds {blocks : List Nat} (hnodup : blocks.Nodup) : Holds (init blocks) blocks := by
  have hall : ([] ++ Node.fakeHead :: (blocks.map Node.block ++ [Node.fakeTail])).Nodup :=
    nodes_nodup hnodup
  refine ⟨(Linked.singleton _ _).thread (Linked.singleton _ _) hall, hnodup, rfl,
    fun b hb => ?_, ?_⟩
  · have hnode : Node.block b ∉ blocks.map Node.block := fun hmem => hb (mem_blocks.1 hmem)
    refine ⟨?_, ?_⟩
    · rw [init, Links.thread_prev hnode (by simp)]
      rfl
    · rw [init, Links.thread_next (List.not_mem_cons_of_ne_of_not_mem (by simp) hnode)]
      rfl
  · rw [init, Links.thread_next (by simp)]
    rfl

namespace Holds

variable {q : FreeKVCacheBlockQueue} {l bs : List Nat} {b : Nat}

theorem next_fakeHead (h : Holds q l) : q.links.next .fakeHead = some (firstOf l) :=
  (seam [] l h).1

theorem prev_fakeTail (h : Holds q l) : q.links.prev .fakeTail = some (lastOf l) :=
  (seam l [] ((List.append_nil l).symm ▸ h)).2

theorem popleft_nil (h : Holds q []) : q.popleft = .error .noFreeBlocks := by
  have hfirst : q.links.next .fakeHead = some .fakeTail := h.next_fakeHead
  have hlength : q.numFreeBlocks = 0 := h.length
  simp only [popleft, hfirst, hlength, if_true]

theorem popleft_cons (h : Holds q (b :: l)) :
    ∃ q', q.popleft = .ok (.block b, q') ∧ Holds q' l := by
  have hfirst : q.links.next .fakeHead = some (.block b) := h.next_fakeHead
  obtain ⟨-, hnext, h'⟩ := unlink [] l h
  refine ⟨_, ?_, h'⟩
  simp only [popleft, hfirst, hnext, reduceCtorEq, if_false]
  rfl

theorem remove_free (h : Holds q l) (hb : b ∈ l) :
    ∃ q', q.remove (.block b) = .ok q' ∧ Holds q' (l.erase b) := by
  obtain ⟨l₁, l₂, hb₁, rfl, herase⟩ := List.exists_erase_eq hb
  obtain ⟨hprev, hnext, h'⟩ := unlink l₁ l₂ h
  refine ⟨_, ?_, herase ▸ h'⟩
  simp only [remove, hprev, hnext]

theorem remove_taken (h : Holds q l) (hb : b ∉ l) :
    q.remove (.block b) = .error .invalidRemoved := by
  simp only [remove, (h.apart b hb).1]

theorem appendN_eq (h : Holds q l) (hnodup : (l ++ bs).Nodup) :
    ∃ q', q.appendN (bs.map .block) = .ok q' ∧ Holds q' (l ++ bs) := by
  cases bs with
  | nil => exact ⟨q, if_pos rfl, (List.append_nil l).symm ▸ h⟩
  | cons b bs =>
    have h' := thread l (b :: bs) [] ((List.append_nil l).symm ▸ h)
      ((List.append_nil (l ++ b :: bs)).symm ▸ hnodup)
    rw [List.append_nil] at h'
    refine ⟨_, ?_, h'⟩
    simp only [appendN, h.prev_fakeTail, List.map_cons, reduceCtorEq, if_false, List.length_cons,
      List.length_map]
    rfl

theorem append_eq (h : Holds q l) (hb : b ∉ l) :
    ∃ q', q.append (.block b) = .ok q' ∧ Holds q' (l ++ [b]) := by
  have hnodup : (l ++ [b]).Nodup := by
    rw [← List.concat_eq_append]
    exact h.nodup.concat hb
  have h' := thread l [b] [] ((List.append_nil l).symm ▸ h)
    ((List.append_nil (l ++ [b])).symm ▸ hnodup)
  rw [List.append_nil] at h'
  refine ⟨_, ?_, h'⟩
  simp only [append, h.prev_fakeTail]
  rfl

theorem prependN_eq (h : Holds q l) (hnodup : (bs ++ l).Nodup) :
    ∃ q', q.prependN (bs.map .block) = .ok q' ∧ Holds q' (bs ++ l) := by
  cases bs with
  | nil => exact ⟨q, if_pos rfl, h⟩
  | cons b bs =>
    have h' := thread [] (b :: bs) l h hnodup
    refine ⟨_, ?_, h'⟩
    simp only [prependN, h.next_fakeHead, List.map_cons, reduceCtorEq, if_false, List.length_cons,
      List.length_map]
    rfl

end Holds

/-- Blocks popped one after the other lose their links, and nothing else changes. -/
theorem popLoop_eq (n : Nat) (l : List Nat) {h : Links Node} (hn : n ≤ l.length) (hl : l.Nodup)
    (hlinked : Linked h (l.map Node.block ++ [.fakeTail])) :
    popLoop n (some (firstOf l)) h = .ok ((l.take n).map .block, some (firstOf (l.drop n)),
      h.clear ((l.take n).map .block)) := by
  induction n generalizing l h with
  | zero => simp [popLoop, Links.clear_nil]
  | succ n ih =>
    cases l with
    | nil => simp at hn
    | cons b l =>
      obtain ⟨hb, hl⟩ := List.nodup_cons.1 hl
      obtain ⟨post, hpost⟩ := back_eq l
      have hnext : h.next (.block b) = some (firstOf l) := by
        rw [List.map_cons, List.cons_append, hpost] at hlinked
        exact (List.isChain_cons_cons.1 hlinked).1.1
      have hrest : Linked (h.clear [.block b]) (l.map Node.block ++ [.fakeTail]) := by
        refine Linked.clear hlinked.tail fun a ha hab => ?_
        rw [List.mem_singleton.1 hab] at ha
        rcases List.mem_append.1 ha with ha | ha
        · exact hb (mem_blocks.1 ha)
        · simp at ha
      have hrun := ih l (Nat.le_of_succ_le_succ hn) hl hrest
      have hfirst : firstOf (b :: l) = .block b := rfl
      simp only [popLoop, hfirst, hnext, hrun, Links.clear_clear, List.take_succ_cons,
        List.map_cons, List.drop_succ_cons]

namespace Holds

variable {q : FreeKVCacheBlockQueue} {l : List Nat} {n : Nat}

/-- The first blocks without links, the fake head in front of the others. -/
theorem drop (h : Holds q l) (hn : n ≤ l.length) :
    Holds ⟨(q.links.clear ((l.take n).map .block)).join .fakeHead (firstOf (l.drop n)),
      q.numFreeBlocks - n⟩ (l.drop n) := by
  obtain ⟨post, hpost⟩ := back_eq (l.drop n)
  have hnodup := h.nodup
  rw [← List.take_append_drop n l] at hnodup
  obtain ⟨-, hdrop, hapart⟩ := List.nodup_append.1 hnodup
  have hrest : Linked (q.links.clear ((l.take n).map .block))
      ((l.drop n).map Node.block ++ [.fakeTail]) := by
    have hlinked : Linked q.links ((l.drop n).map Node.block ++ [.fakeTail]) := by
      have hall := h.linked.tail
      rw [← List.take_append_drop n l, List.map_append, List.append_assoc] at hall
      exact hall.of_append
    refine hlinked.clear fun a ha hmem => ?_
    obtain ⟨b, hb, rfl⟩ := List.mem_map.1 hmem
    rcases List.mem_append.1 ha with ha | ha
    · exact hapart b hb b (mem_blocks.1 ha) rfl
    · simp at ha
  have hall := nodes_nodup hdrop
  rw [nodes, hpost] at hall
  rw [hpost] at hrest
  refine ⟨?_, hdrop, ?_, fun b hb => ?_, ?_⟩
  · rw [nodes, hpost]
    exact (show Linked _ ([] ++ [Node.fakeHead]) from Linked.singleton _ _).join hrest hall
  · show q.numFreeBlocks - n = _
    rw [h.length, List.length_drop]
    omega
  · by_cases htake : b ∈ l.take n
    · obtain ⟨hprev, hnext⟩ := Links.clear_of_mem (h := q.links) (mem_blocks.2 htake)
      refine ⟨?_, ?_⟩
      · rw [Links.join_prev (ne_firstOf hb), hprev]
      · rw [Links.join_next (by simp), hnext]
    · have hnode : Node.block b ∉ (l.take n).map Node.block := fun hmem => htake (mem_blocks.1 hmem)
      obtain ⟨hprev, hnext⟩ := h.apart b fun hmem => by
        rw [← List.take_append_drop n l] at hmem
        exact (List.mem_append.1 hmem).elim htake hb
      refine ⟨?_, ?_⟩
      · rw [Links.join_prev (ne_firstOf hb), Links.clear_prev hnode, hprev]
      · rw [Links.join_next (by simp), Links.clear_next hnode, hnext]
  · rw [Links.join_next (by simp), Links.clear_next (fakeTail_notMem _), h.last]

theorem popleftN_eq (h : Holds q l) (hn : n ≤ l.length) :
    ∃ q', q.popleftN n = .ok ((l.take n).map .block, q') ∧ Holds q' (l.drop n) := by
  rcases Nat.eq_zero_or_pos n with rfl | hpos
  · exact ⟨q, if_pos rfl, h⟩
  have hrun := popLoop_eq n l hn h.nodup h.linked.tail
  have hnum : ¬ q.numFreeBlocks < n := by
    rw [h.length]
    omega
  refine ⟨_, ?_, h.drop hn⟩
  simp only [popleftN, Nat.pos_iff_ne_zero.1 hpos, if_false, hnum, h.next_fakeHead, hrun]

theorem popleftN_short (h : Holds q l) (hn : l.length < n) :
    q.popleftN n = .error .notEnough := by
  have hpos : n ≠ 0 := Nat.ne_of_gt (Nat.zero_lt_of_lt hn)
  have hnum : q.numFreeBlocks < n := by
    rw [h.length]
    omega
  simp only [popleftN, hpos, if_false, hnum, if_true]

end Holds

/-! ## Walks -/

section Walks

variable {h : Links Node}

theorem collect_eq (l : List Nat) (hlinked : Linked h (l.map Node.block ++ [.fakeTail]))
    (hlast : h.next .fakeTail = none) {fuel : Nat} (hfuel : l.length < fuel) :
    collect h fuel (firstOf l) = some (l.map .block) := by
  induction l generalizing fuel with
  | nil =>
    obtain ⟨fuel, rfl⟩ := Nat.exists_eq_add_one_of_ne_zero (Nat.ne_of_gt hfuel)
    simp [collect, firstOf, hlast]
  | cons b l ih =>
    obtain ⟨fuel, rfl⟩ := Nat.exists_eq_add_one_of_ne_zero (Nat.ne_of_gt (Nat.zero_lt_of_lt hfuel))
    obtain ⟨post, hpost⟩ := back_eq l
    have hnext : h.next (.block b) = some (firstOf l) := by
      rw [List.map_cons, List.cons_append, hpost] at hlinked
      exact (List.isChain_cons_cons.1 hlinked).1.1
    have hrest := ih hlinked.tail (Nat.lt_of_succ_lt_succ hfuel)
    have hfirst : firstOf (b :: l) = .block b := rfl
    simp only [collect, hfirst, hnext, hrest, Option.map_some, List.map_cons]

theorem iterate_eq (l : List Nat) (hlinked : Linked h (l.map Node.block ++ [.fakeTail]))
    {fuel : Nat} (hfuel : l.length < fuel) :
    iterate h fuel (some (firstOf l)) = some (l.map .block) := by
  induction l generalizing fuel with
  | nil =>
    obtain ⟨fuel, rfl⟩ := Nat.exists_eq_add_one_of_ne_zero (Nat.ne_of_gt hfuel)
    simp [iterate, firstOf]
  | cons b l ih =>
    obtain ⟨fuel, rfl⟩ := Nat.exists_eq_add_one_of_ne_zero (Nat.ne_of_gt (Nat.zero_lt_of_lt hfuel))
    obtain ⟨post, hpost⟩ := back_eq l
    have hnext : h.next (.block b) = some (firstOf l) := by
      rw [List.map_cons, List.cons_append, hpost] at hlinked
      exact (List.isChain_cons_cons.1 hlinked).1.1
    have hrest := ih hlinked.tail (Nat.lt_of_succ_lt_succ hfuel)
    have hfirst : firstOf (b :: l) = .block b := rfl
    simp only [iterate, hfirst, hnext, hrest, Option.map_some, List.map_cons, reduceCtorEq,
      if_false]

end Walks

namespace Holds

variable {q : FreeKVCacheBlockQueue} {l l₁ l₂ : List Nat} {b fuel : Nat}

theorem getAllFreeBlocks_eq (h : Holds q l) (hfuel : l.length < fuel) :
    q.getAllFreeBlocks fuel = .ok (some (l.map .block)) := by
  have hwalk := collect_eq l h.linked.tail h.last hfuel
  simp only [getAllFreeBlocks, h.next_fakeHead, hwalk]

theorem iterBlocksAfter_none (h : Holds q l) (hfuel : l.length < fuel) :
    q.iterBlocksAfter fuel none = some (l.map .block) := by
  rw [iterBlocksAfter, h.next_fakeHead, iterate_eq l h.linked.tail hfuel]

theorem iterBlocksAfter_block (h : Holds q (l₁ ++ b :: l₂)) (hfuel : l₂.length < fuel) :
    q.iterBlocksAfter fuel (some (.block b)) = some (l₂.map .block) := by
  have hlinked : Linked q.links (l₂.map Node.block ++ [.fakeTail]) := by
    have hall := h.linked.tail
    rw [List.append_cons l₁ b l₂, List.map_append, List.append_assoc] at hall
    exact hall.of_append
  rw [iterBlocksAfter, (h.unlink l₁ l₂).2.1, iterate_eq l₂ hlinked hfuel]

end Holds

/-! ## Runs -/

/-- An operation of the queue. -/
inductive Op where
  | popleft
  | popleftN (n : Nat)
  | remove (b : Nat)
  | append (b : Nat)
  | prependN (bs : List Nat)
  | appendN (bs : List Nat)

/-- The operation, with the blocks it hands out. -/
def Op.onQueue (q : FreeKVCacheBlockQueue) :
    Op → Except QueueError (List Node × FreeKVCacheBlockQueue)
  | .popleft => q.popleft.map fun (first, q') => ([first], q')
  | .popleftN n => q.popleftN n
  | .remove b => (q.remove (.block b)).map fun q' => ([.block b], q')
  | .append b => (q.append (.block b)).map ([], ·)
  | .prependN bs => (q.prependN (bs.map .block)).map ([], ·)
  | .appendN bs => (q.appendN (bs.map .block)).map ([], ·)

/-- What the operation does to a list of free blocks. -/
def Op.onList (l : List Nat) : Op → Except QueueError (List Nat × List Nat)
  | .popleft =>
    match l with
    | [] => .error .noFreeBlocks
    | b :: l => .ok ([b], l)
  | .popleftN n => if n ≤ l.length then .ok (l.take n, l.drop n) else .error .notEnough
  | .remove b => if b ∈ l then .ok ([b], l.erase b) else .error .invalidRemoved
  | .append b => .ok ([], l ++ [b])
  | .prependN bs => .ok ([], bs ++ l)
  | .appendN bs => .ok ([], l ++ bs)

/-- Only blocks that are not free are put back, each once. -/
def Op.PutsBack (op : Op) (l : List Nat) : Prop :=
  match op with
  | .append b => b ∉ l
  | .prependN bs | .appendN bs => (l ++ bs).Nodup
  | _ => True

/-- One operation: the queue hands out what the list does, or raises what it does. -/
theorem onQueue_onList (op : Op) {q : FreeKVCacheBlockQueue} {l : List Nat} (h : Holds q l)
    (hback : op.PutsBack l) :
    (∃ out q' l', op.onQueue q = .ok (out.map .block, q') ∧ op.onList l = .ok (out, l') ∧
        Holds q' l') ∨
      ∃ e, op.onQueue q = .error e ∧ op.onList l = .error e := by
  cases op with
  | popleft =>
    cases l with
    | nil => exact .inr ⟨.noFreeBlocks, by rw [Op.onQueue, h.popleft_nil]; rfl, rfl⟩
    | cons b l =>
      obtain ⟨q', hrun, h'⟩ := h.popleft_cons
      exact .inl ⟨[b], q', l, by rw [Op.onQueue, hrun]; rfl, rfl, h'⟩
  | popleftN n =>
    rcases Nat.lt_or_ge l.length n with hn | hn
    · exact .inr ⟨.notEnough, h.popleftN_short hn, if_neg (Nat.not_le.2 hn)⟩
    · obtain ⟨q', hrun, h'⟩ := h.popleftN_eq hn
      exact .inl ⟨l.take n, q', l.drop n, hrun, if_pos hn, h'⟩
  | remove b =>
    by_cases hb : b ∈ l
    · obtain ⟨q', hrun, h'⟩ := h.remove_free hb
      exact .inl ⟨[b], q', l.erase b, by rw [Op.onQueue, hrun]; rfl, if_pos hb, h'⟩
    · exact .inr ⟨.invalidRemoved, by rw [Op.onQueue, h.remove_taken hb]; rfl, if_neg hb⟩
  | append b =>
    obtain ⟨q', hrun, h'⟩ := h.append_eq hback
    exact .inl ⟨[], q', l ++ [b], by rw [Op.onQueue, hrun]; rfl, rfl, h'⟩
  | prependN bs =>
    obtain ⟨q', hrun, h'⟩ := h.prependN_eq (List.perm_append_comm.nodup_iff.1 hback)
    exact .inl ⟨[], q', bs ++ l, by rw [Op.onQueue, hrun]; rfl, rfl, h'⟩
  | appendN bs =>
    obtain ⟨q', hrun, h'⟩ := h.appendN_eq hback
    exact .inl ⟨[], q', l ++ bs, by rw [Op.onQueue, hrun]; rfl, rfl, h'⟩

/-- **The queue is the list of free blocks** over any run of operations: every answer and error
is the list's, the count is its length, and the walks visit it, from the front or from behind one
of its blocks. -/
theorem run_onList {blocks : List Nat} (hnodup : blocks.Nodup) (ops : List Op)
    (hback : Throughout (fun op l => Op.onList l op) Op.PutsBack ops blocks) :
    let out := attempts (fun op q => Op.onQueue q op) ops (init blocks)
    let list := attempts (fun op l => Op.onList l op) ops blocks
    out.1 = list.1.map (Except.map (List.map .block)) ∧ list.2.Nodup ∧
      out.2.numFreeBlocks = list.2.length ∧
      ∀ fuel, list.2.length < fuel →
        out.2.getAllFreeBlocks fuel = .ok (some (list.2.map .block)) ∧
        out.2.iterBlocksAfter fuel none = some (list.2.map .block) ∧
        ∀ l₁ b l₂, list.2 = l₁ ++ b :: l₂ →
          out.2.iterBlocksAfter fuel (some (.block b)) = some (l₂.map .block) := by
  obtain ⟨hout, h⟩ := attempts_simulates (fun op q => Op.onQueue q op)
    (fun op l => Op.onList l op) (List.map Node.block)
    (fun op _ _ h hback => onQueue_onList op h hback) ops (init_holds hnodup) hback
  refine ⟨hout, h.nodup, h.length, fun fuel hfuel => ⟨h.getAllFreeBlocks_eq hfuel,
    h.iterBlocksAfter_none hfuel, fun l₁ b l₂ hsplit => ?_⟩⟩
  rw [hsplit] at h hfuel
  rw [List.length_append, List.length_cons] at hfuel
  exact h.iterBlocksAfter_block (by omega)

/-- Two blocks are handed out, one is taken from the middle, and two are put back. -/
theorem run_onList_five :
    let ops := [Op.popleftN 2, .remove 3, .remove 0, .appendN [1, 0], .popleft]
    let out := attempts (fun op q => Op.onQueue q op) ops (init [0, 1, 2, 3, 4])
    let list := attempts (fun op l => Op.onList l op) ops [0, 1, 2, 3, 4]
    out.1 = list.1.map (Except.map (List.map .block)) ∧ list.2.Nodup ∧
      out.2.numFreeBlocks = list.2.length ∧
      ∀ fuel, list.2.length < fuel →
        out.2.getAllFreeBlocks fuel = .ok (some (list.2.map .block)) ∧
        out.2.iterBlocksAfter fuel none = some (list.2.map .block) ∧
        ∀ l₁ b l₂, list.2 = l₁ ++ b :: l₂ →
          out.2.iterBlocksAfter fuel (some (.block b)) = some (l₂.map .block) :=
  run_onList (by decide) _ (by simp [Throughout, Op.onList, Op.PutsBack])

end LlmkubeRuntimes.KvCache
