import LlmkubeRuntimes.Lib.Marked

/-!
# Replacing a line

For texts that end at a mark they have nowhere else, as a line does.

* `replaceFirst`: the first `old` replaced, as Python's `replace` with a count of one;
* `occurrences_concat`: one more character;
* `occurrences_line`: lines before, at and behind a line are counted apart;
* `replace_settles`: once replaced there is one `new` and no `old`.
-/

namespace LlmkubeRuntimes.Lib

variable {α : Type*} [DecidableEq α]

def replaceFirst (old new : List α) : List α → List α
  | [] => []
  | c :: text =>
    if old <+: c :: text then new ++ (c :: text).drop old.length
    else c :: replaceFirst old new text

variable {old new m u v pre post text : List α} {c : α}

theorem replaceFirst_eq (new : List α) (hold : old ≠ []) (h : old <:+: text) :
    ∃ pre post, text = pre ++ old ++ post ∧ replaceFirst old new text = pre ++ new ++ post := by
  induction text with
  | nil => exact absurd (List.infix_nil.1 h) hold
  | cons c text ih =>
    by_cases hstart : old <+: c :: text
    · obtain ⟨post, hpost⟩ := hstart
      refine ⟨[], post, hpost.symm, ?_⟩
      rw [replaceFirst, if_pos ⟨post, hpost⟩, ← hpost, List.drop_left, List.nil_append]
    · obtain ⟨pre, post, htext, hreplace⟩ := ih ((List.infix_cons_iff.1 h).resolve_left hstart)
      refine ⟨c :: pre, post, by rw [htext]; rfl, ?_⟩
      rw [replaceFirst, if_neg hstart, hreplace]
      rfl

/-- What is new with the last character ends there. -/
theorem occurrences_concat (hm : m ≠ []) (text : List α) (c : α) :
    occurrences m (text ++ [c]) = occurrences m text + if m <:+ text ++ [c] then 1 else 0 := by
  induction text with
  | nil =>
    have hiff : m <+: [c] ↔ m <:+ [c] := by
      rw [List.prefix_cons_iff, List.suffix_cons_iff, List.suffix_nil]
      simp [hm]
    simp only [List.nil_append, occurrences, hiff, Nat.add_zero, Nat.zero_add]
  | cons d text ih =>
    rw [List.cons_append, occurrences, ih, occurrences]
    by_cases hwhole : m = d :: (text ++ [c])
    · have hstart : ¬ m <+: d :: text := fun h => by
        have := h.length_le
        simp only [hwhole, List.length_cons, List.length_append, List.length_nil] at this
        omega
      have hsuffix : ¬ m <:+ text ++ [c] := fun h => by
        have := h.length_le
        simp only [hwhole, List.length_cons, List.length_append, List.length_nil] at this
        omega
      rw [if_pos (hwhole ▸ List.prefix_refl _), if_neg hstart, if_neg hsuffix,
        if_pos (hwhole ▸ List.suffix_refl _)]
      omega
    · have hstart : m <+: d :: (text ++ [c]) ↔ m <+: d :: text := by
        rw [← List.cons_append, List.prefix_concat_iff, List.cons_append]
        exact or_iff_right hwhole
      have hsuffix : m <:+ d :: (text ++ [c]) ↔ m <:+ text ++ [c] := by
        rw [List.suffix_cons_iff]
        exact or_iff_right hwhole
      simp only [hstart, hsuffix]
      omega

/-- A line does not end among characters which are not its end. -/
theorem occurrences_append_of_not_mem (text : List α) (hv : c ∉ v) :
    occurrences (u ++ [c]) (text ++ v) = occurrences (u ++ [c]) text := by
  induction v using List.reverseRecOn with
  | nil => rw [List.append_nil]
  | append_singleton v d ih =>
    have hd : c ∉ v := fun h => hv (List.mem_append_left _ h)
    have hsuffix : ¬ u ++ [c] <:+ text ++ v ++ [d] := by
      rintro ⟨front, hfront⟩
      rw [← List.append_assoc] at hfront
      have hcd : c = d := List.singleton_inj.1 (List.append_inj_right' hfront rfl)
      exact hv (hcd ▸ List.mem_append_right v List.mem_cons_self)
    rw [← List.append_assoc, occurrences_concat (by simp), if_neg hsuffix, ih hd, Nat.add_zero]

omit [DecidableEq α] in
/-- Nor does it go on behind its end. -/
theorem prefix_line_iff (hu : c ∉ u) (pre post : List α) :
    u ++ [c] <+: pre ++ c :: post ↔ u ++ [c] <+: pre ++ [c] := by
  have hsplit : pre ++ c :: post = (pre ++ [c]) ++ post := by simp
  rw [hsplit]
  refine ⟨fun h => ?_, fun h => h.trans (List.prefix_append _ _)⟩
  rcases Nat.le_total (u ++ [c]).length (pre ++ [c]).length with hle | hlt
  · exact List.prefix_of_prefix_length_le h (List.prefix_append _ _) hle
  · have hback := List.prefix_of_prefix_length_le (List.prefix_append (pre ++ [c]) post) h hlt
    rcases List.prefix_concat_iff.1 hback with heq | hin
    · exact heq ▸ List.prefix_refl _
    · exact absurd (hin.subset (List.mem_append_right _ List.mem_cons_self)) hu

theorem occurrences_append_line (hu : c ∉ u) (pre post : List α) :
    occurrences (u ++ [c]) (pre ++ c :: post) =
      occurrences (u ++ [c]) (pre ++ [c]) + occurrences (u ++ [c]) post := by
  induction pre with
  | nil =>
    have hiff := prefix_line_iff hu [] post
    rw [List.nil_append, List.nil_append] at hiff
    simp only [List.nil_append, occurrences, hiff, Nat.add_zero]
  | cons d pre ih =>
    have hiff := prefix_line_iff hu (d :: pre) post
    rw [List.cons_append, List.cons_append] at hiff
    simp only [List.cons_append, occurrences, hiff, ih, Nat.add_assoc]

/-- The lines before, at and behind a line. -/
theorem occurrences_line (hu : c ∉ u) (hv : c ∉ v) (pre post : List α) :
    occurrences (u ++ [c]) (pre ++ (v ++ [c]) ++ post) =
      occurrences (u ++ [c]) pre + (if u ++ [c] <:+ pre ++ (v ++ [c]) then 1 else 0) +
        occurrences (u ++ [c]) post := by
  have hsplit : pre ++ (v ++ [c]) ++ post = (pre ++ v) ++ c :: post := by simp
  rw [hsplit, occurrences_append_line hu, occurrences_concat (by simp),
    occurrences_append_of_not_mem pre hv, List.append_assoc]

/-- **Replacing the only `old` of a text without `new`** leaves one `new` and, where `new` never
ends in `old`, no `old`. -/
theorem replace_settles (hu : c ∉ u) (hv : c ∉ v)
    (hends : ∀ pre, ¬ u ++ [c] <:+ pre ++ (v ++ [c]))
    (hold : occurrences (u ++ [c]) text = 1) (hnew : occurrences (v ++ [c]) text = 0) :
    ∃ pre post, text = pre ++ (u ++ [c]) ++ post ∧
      replaceFirst (u ++ [c]) (v ++ [c]) text = pre ++ (v ++ [c]) ++ post ∧
      occurrences (v ++ [c]) (pre ++ (v ++ [c]) ++ post) = 1 ∧
      occurrences (u ++ [c]) (pre ++ (v ++ [c]) ++ post) = 0 := by
  have hin : u ++ [c] <:+: text := by
    by_contra hnot
    rw [occurrences_eq_zero hnot] at hold
    exact absurd hold Nat.zero_ne_one
  obtain ⟨pre, post, htext, hreplace⟩ := replaceFirst_eq (v ++ [c]) (by simp) hin
  rw [htext, occurrences_line hu hu, if_pos (List.suffix_append _ _)] at hold
  rw [htext, occurrences_line hv hu] at hnew
  refine ⟨pre, post, htext, hreplace, ?_, ?_⟩
  · rw [occurrences_line hv hv, if_pos (List.suffix_append _ _)]
    omega
  · rw [occurrences_line hu hv, if_neg (hends pre)]
    omega

end LlmkubeRuntimes.Lib
