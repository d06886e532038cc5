import Mathlib.Data.List.Infix
import Mathlib.Data.List.Count

/-!
# Texts of marked parts

A marker opens with a character and closes with another, and has neither
between. A part is a marker and the text after it.

* `prefix_of_append`: no marker goes on into a text that opens a marker;
* `occurrences`: how often a text occurs in another;
* `occurrences_parts`: markers occur in joined parts where they were written;
* `parts_inj`: joined parts can be told apart again.
-/

namespace LlmkubeRuntimes.Lib

/-- `m` opens with `l`, closes with `r`, and has neither between. -/
structure Bracketed {α : Type*} (l r : α) (m : List α) : Prop where
  ne : l ≠ r
  shape : ∃ body, m = l :: (body ++ [r]) ∧ l ∉ body ∧ r ∉ body

/-- The text is empty or opens with `l`. -/
def OpensWith {α : Type*} (l : α) (text : List α) : Prop := ∀ c ∈ text.head?, c = l

namespace Bracketed

variable {α : Type*} {l r : α} {m n : List α}

theorem head (hm : Bracketed l r m) (rest : List α) : OpensWith l (m ++ rest) := by
  obtain ⟨body, rfl, -, -⟩ := hm.shape
  intro c hc
  exact (Option.some.inj hc).symm

theorem ne_nil (hm : Bracketed l r m) : m ≠ [] := by
  obtain ⟨body, rfl, -, -⟩ := hm.shape
  exact List.cons_ne_nil _ _

/-- Past its first character a marker does not open. -/
theorem not_mem_tail (hm : Bracketed l r m) : l ∉ m.tail := by
  obtain ⟨body, rfl, hl, -⟩ := hm.shape
  rw [List.tail_cons, List.mem_append, List.mem_singleton]
  exact not_or.2 ⟨hl, hm.ne⟩

/-- Before its last character a marker does not close. -/
theorem not_mem_dropLast (hm : Bracketed l r m) : r ∉ m.dropLast := by
  obtain ⟨body, rfl, -, hr⟩ := hm.shape
  rw [← List.cons_append, List.dropLast_concat, List.mem_cons]
  exact not_or.2 ⟨hm.ne.symm, hr⟩

theorem mem_close (hm : Bracketed l r m) : r ∈ m := by
  obtain ⟨body, rfl, -, -⟩ := hm.shape
  simp

/-- A marker starts only where a text opens. -/
theorem not_prefix_of_ne (hm : Bracketed l r m) {c : α} {rest : List α} (hc : c ≠ l) :
    ¬ m <+: c :: rest := by
  rintro ⟨t, ht⟩
  exact hc (hm.head t c (by rw [ht]; rfl))

/-- **A marker that starts before an opening character ends before it.** -/
theorem prefix_of_append (hm : Bracketed l r m) {text rest : List α} (hne : text ≠ [])
    (hrest : OpensWith l rest) (h : m <+: text ++ rest) : m <+: text := by
  rcases List.prefix_or_prefix_of_prefix h (List.prefix_append text rest) with h' | ⟨s, rfl⟩
  · exact h'
  · rw [List.prefix_append_right_inj] at h
    cases s with
    | nil => rw [List.append_nil]
    | cons c s =>
      obtain ⟨t, rfl⟩ := h
      obtain ⟨a, text, rfl⟩ := List.exists_cons_of_ne_nil hne
      exact absurd (by rw [hrest c rfl]; simp) hm.not_mem_tail

/-- A marker is the start of no other marker. -/
theorem eq_of_prefix (hm : Bracketed l r m) (hn : Bracketed l r n) (h : m <+: n) : m = n := by
  obtain ⟨s, rfl⟩ := h
  rcases List.eq_nil_or_concat s with rfl | ⟨s, c, rfl⟩
  · rw [List.append_nil]
  · have hd : (m ++ s.concat c).dropLast = m ++ s := by
      rw [List.concat_eq_append, ← List.append_assoc, List.dropLast_concat]
    exact absurd (by rw [hd]; exact List.mem_append_left s hm.mem_close) hn.not_mem_dropLast

/-- A text that starts with a marker starts with no other. -/
theorem prefix_append_iff (hm : Bracketed l r m) (hn : Bracketed l r n) {rest : List α} :
    m <+: n ++ rest ↔ m = n := by
  constructor
  · intro h
    rcases List.prefix_or_prefix_of_prefix h (List.prefix_append n rest) with h | h
    · exact hm.eq_of_prefix hn h
    · exact (hn.eq_of_prefix hm h).symm
  · rintro rfl
    exact List.prefix_append m rest

end Bracketed

/-! ## Occurrences -/

/-- At how many places of `text` there is an `m`. -/
def occurrences {α : Type*} [DecidableEq α] (m : List α) : List α → Nat
  | [] => 0
  | c :: text => (if m <+: c :: text then 1 else 0) + occurrences m text

section Occurrences

variable {α : Type*} [DecidableEq α] {l r : α} {m n : List α}

theorem occurrences_eq_zero {text : List α} (h : ¬ m <:+: text) : occurrences m text = 0 := by
  induction text with
  | nil => rfl
  | cons c text ih =>
    rw [List.infix_cons_iff, not_or] at h
    rw [occurrences, if_neg h.1, ih h.2]

/-- A marker does not occur across the place where a text opens. -/
theorem occurrences_append (hm : Bracketed l r m) (text : List α) {rest : List α}
    (hrest : OpensWith l rest) :
    occurrences m (text ++ rest) = occurrences m text + occurrences m rest := by
  induction text with
  | nil => rw [occurrences, List.nil_append, Nat.zero_add]
  | cons c text ih =>
    have hiff : m <+: c :: (text ++ rest) ↔ m <+: c :: text :=
      ⟨hm.prefix_of_append (List.cons_ne_nil c text) hrest, fun h => h.trans (List.prefix_append _ _)⟩
    rw [List.cons_append, occurrences, occurrences, ih, if_congr hiff rfl rfl, Nat.add_assoc]

/-- No marker starts at characters that do not open one. -/
theorem occurrences_skip (hm : Bracketed l r m) (text : List α) (htext : l ∉ text) (rest : List α) :
    occurrences m (text ++ rest) = occurrences m rest := by
  induction text with
  | nil => rfl
  | cons c text ih =>
    rw [List.mem_cons, not_or] at htext
    rw [List.cons_append, occurrences, if_neg (hm.not_prefix_of_ne (Ne.symm htext.1)), ih htext.2,
      Nat.zero_add]

/-- After a marker, a text has the occurrences of the rest and the marker itself. -/
theorem occurrences_marker (hm : Bracketed l r m) (hn : Bracketed l r n) (rest : List α) :
    occurrences m (n ++ rest) = (if m = n then 1 else 0) + occurrences m rest := by
  obtain ⟨c, tail, rfl⟩ := List.exists_cons_of_ne_nil hn.ne_nil
  have hiff : m <+: c :: (tail ++ rest) ↔ m = c :: tail := hm.prefix_append_iff hn
  rw [List.cons_append, occurrences, if_congr hiff rfl rfl,
    occurrences_skip hm tail hn.not_mem_tail]

end Occurrences

/-! ## Marked parts -/

/-- A marker and the text after it. -/
abbrev TextPart (α : Type*) := List α × List α

/-- The text of the parts, one after the other. -/
def joinParts {α : Type*} (parts : List (TextPart α)) : List α := parts.flatMap fun p => p.1 ++ p.2

section Parts

variable {α : Type*} {l r : α} {parts parts' : List (TextPart α)}

@[simp] theorem joinParts_nil : joinParts ([] : List (TextPart α)) = [] := rfl

@[simp] theorem joinParts_cons (p : TextPart α) (parts : List (TextPart α)) :
    joinParts (p :: parts) = p.1 ++ (p.2 ++ joinParts parts) := List.append_assoc _ _ _

theorem joinParts_append (parts parts' : List (TextPart α)) :
    joinParts (parts ++ parts') = joinParts parts ++ joinParts parts' := List.flatMap_append

theorem opensWith_joinParts (h : ∀ p ∈ parts, Bracketed l r p.1) :
    OpensWith l (joinParts parts) := by
  cases parts with
  | nil => exact fun c hc => nomatch hc
  | cons p parts =>
    rw [joinParts_cons]
    exact (h p List.mem_cons_self).head _

/-- **A marker occurs in joined parts where it was written.** -/
theorem occurrences_parts [DecidableEq α] {m : List α} (hm : Bracketed l r m)
    (h : ∀ p ∈ parts, Bracketed l r p.1) (hfree : ∀ p ∈ parts, ¬ m <:+: p.2) :
    occurrences m (joinParts parts) = parts.countP (·.1 = m) := by
  induction parts with
  | nil => rfl
  | cons p parts ih =>
    rw [List.forall_mem_cons] at h hfree
    rw [joinParts_cons, occurrences_marker hm h.1,
      occurrences_append hm p.2 (opensWith_joinParts h.2), occurrences_eq_zero hfree.1, ih h.2 hfree.2,
      List.countP_cons, Nat.zero_add, Nat.add_comm]
    by_cases heq : p.1 = m
    · simp [heq]
    · simp [heq, Ne.symm heq]

/-- Joined parts do not begin with text that has none of their markers. -/
theorem eq_nil_of_joinParts {gap rest : List α} (h : ∀ p ∈ parts, Bracketed l r p.1)
    (hrest : OpensWith l rest) (hgap : ∀ p ∈ parts, ¬ p.1 <:+: gap)
    (heq : joinParts parts = gap ++ rest) : gap = [] := by
  by_contra hne
  cases parts with
  | nil => exact hne (List.append_eq_nil_iff.1 heq.symm).1
  | cons p parts =>
    have hp : p.1 <+: gap ++ rest := ⟨p.2 ++ joinParts parts, by rw [← heq, joinParts_cons]⟩
    have hpre := (h p List.mem_cons_self).prefix_of_append hne hrest hp
    exact hgap p List.mem_cons_self hpre.isInfix

/-- The text of a part ends where the next marker is. -/
theorem text_inj {c d : List α} (ha : ∀ p ∈ parts, Bracketed l r p.1)
    (hb : ∀ p ∈ parts', Bracketed l r p.1) (hc : ∀ p ∈ parts', ¬ p.1 <:+: c)
    (hd : ∀ p ∈ parts, ¬ p.1 <:+: d) (h : c ++ joinParts parts = d ++ joinParts parts') :
    c = d ∧ joinParts parts = joinParts parts' := by
  rcases List.append_eq_append_iff.1 h with ⟨gap, rfl, heq⟩ | ⟨gap, rfl, heq⟩
  · have hgap : gap = [] := eq_nil_of_joinParts ha (opensWith_joinParts hb)
      (fun p hp hi => hd p hp (hi.trans (List.suffix_append c gap).isInfix)) heq
    subst hgap
    exact ⟨(List.append_nil c).symm, heq⟩
  · have hgap : gap = [] := eq_nil_of_joinParts hb (opensWith_joinParts ha)
      (fun p hp hi => hc p hp (hi.trans (List.suffix_append d gap).isInfix)) heq
    subst hgap
    exact ⟨List.append_nil d, heq.symm⟩

/-- **Parts whose texts are free of the markers can be told apart.** -/
theorem parts_inj {markers : List (List α)} (hm : ∀ m ∈ markers, Bracketed l r m)
    (ha : ∀ p ∈ parts, p.1 ∈ markers ∧ ∀ m ∈ markers, ¬ m <:+: p.2)
    (hb : ∀ p ∈ parts', p.1 ∈ markers ∧ ∀ m ∈ markers, ¬ m <:+: p.2)
    (h : joinParts parts = joinParts parts') : parts = parts' := by
  induction parts generalizing parts' with
  | nil =>
    cases parts' with
    | nil => rfl
    | cons q parts' =>
      rw [List.forall_mem_cons] at hb
      exact absurd (List.append_eq_nil_iff.1 h.symm).1
        (List.append_ne_nil_of_left_ne_nil (hm _ hb.1.1).ne_nil _)
  | cons p parts ih =>
    cases parts' with
    | nil =>
      rw [List.forall_mem_cons] at ha
      exact absurd (List.append_eq_nil_iff.1 h).1
        (List.append_ne_nil_of_left_ne_nil (hm _ ha.1.1).ne_nil _)
    | cons q parts' =>
      rw [List.forall_mem_cons] at ha hb
      rw [joinParts_cons, joinParts_cons] at h
      have hpq : p.1 = q.1 :=
        ((hm _ ha.1.1).prefix_append_iff (hm _ hb.1.1)).1 ⟨_, h⟩
      rw [hpq, List.append_cancel_left_eq] at h
      obtain ⟨htext, hrest⟩ := text_inj (fun p hp => hm _ (ha.2 p hp).1) (fun p hp => hm _ (hb.2 p hp).1)
        (fun p hp => ha.1.2 _ (hb.2 p hp).1) (fun p hp => hb.1.2 _ (ha.2 p hp).1) h
      rw [ih ha.2 hb.2 hrest, Prod.ext hpq htext]

end Parts

end LlmkubeRuntimes.Lib
