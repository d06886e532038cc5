import Mathlib.Data.List.Count
import Mathlib.Data.List.Perm.Subperm

/-!
# The first of a list in an order

* `IsTop before k xs top`: the `k` items of a list that are before all others, in
  whatever order;
* `IsTop.perm`: they are determined up to their order;
* `IsTop.fold`: they may be found in parts, each part with the first of those before it;
* `IsTop.of_split`: items of a higher class are taken whole, the rest from the next.
-/

namespace LlmkubeRuntimes.Lib

variable {α : Type} {before : α → α → Prop} {k : Nat} {xs ys top top' : List α}

/-- `top` are the `k` items of `xs` that are before all others, or all items if they are fewer. -/
structure IsTop (before : α → α → Prop) (k : Nat) (xs top : List α) : Prop where
  length : top.length = min k xs.length
  rest : ∃ rest, xs.Perm (top ++ rest) ∧ ∀ a ∈ top, ∀ b ∈ rest, before a b

namespace IsTop

/-- A list of at most `k` items is taken whole. -/
theorem of_length_le (h : xs.length ≤ k) : IsTop before k xs xs :=
  ⟨(Nat.min_eq_right h).symm, [], by rw [List.append_nil], fun _ _ _ hb =>
    absurd hb List.not_mem_nil⟩

theorem mem (h : IsTop before k xs top) {a : α} (ha : a ∈ top) : a ∈ xs := by
  obtain ⟨rest, hperm, -⟩ := h.rest
  exact hperm.mem_iff.2 (List.mem_append_left rest ha)

theorem congr (h : IsTop before k xs top) (hxs : xs.Perm ys) (htop : top.Perm top') :
    IsTop before k ys top' := by
  obtain ⟨rest, hperm, hbefore⟩ := h.rest
  refine ⟨by rw [← htop.length_eq, ← hxs.length_eq, h.length], rest,
    (hxs.symm.trans hperm).trans (htop.append_right rest), fun a ha => ?_⟩
  exact hbefore a (htop.mem_iff.2 ha)

theorem imp {before' : α → α → Prop} (h : IsTop before k xs top)
    (himp : ∀ a ∈ xs, ∀ b ∈ xs, before a b → before' a b) : IsTop before' k xs top := by
  obtain ⟨rest, hperm, hbefore⟩ := h.rest
  refine ⟨h.length, rest, hperm, fun a ha b hb => ?_⟩
  exact himp a (h.mem ha) b (hperm.mem_iff.2 (List.mem_append_right top hb)) (hbefore a ha b hb)

/-- Items taken by what a function says of them. -/
theorem map {β : Type} {f : α → β} {r : β → β → Prop}
    (h : IsTop (fun a b => r (f a) (f b)) k xs top) : IsTop r k (xs.map f) (top.map f) := by
  obtain ⟨rest, hperm, hbefore⟩ := h.rest
  refine ⟨by rw [List.length_map, List.length_map, h.length], rest.map f, ?_, fun a ha b hb => ?_⟩
  · rw [← List.map_append]
    exact hperm.map f
  · obtain ⟨x, hx, rfl⟩ := List.mem_map.1 ha
    obtain ⟨y, hy, rfl⟩ := List.mem_map.1 hb
    exact hbefore x hx y hy

theorem nodup (h : IsTop before k xs top) (hxs : xs.Nodup) : top.Nodup := by
  obtain ⟨rest, hperm, -⟩ := h.rest
  exact (List.nodup_append.1 (hperm.nodup_iff.1 hxs)).1

/-- What is in a list but not in its second part is in its first. -/
theorem subperm_left {as bs cs : List α} (h : as.Subperm (bs ++ cs)) (hnot : ∀ a ∈ as, a ∉ cs) :
    as.Subperm bs := by
  classical
  refine List.subperm_ext_iff.2 fun a ha => ?_
  have hcount := List.subperm_ext_iff.1 h a ha
  rwa [List.count_append, List.count_eq_zero.2 (hnot a ha), Nat.add_zero] at hcount

/-- **The first items are determined up to their order.** -/
theorem perm (hasymm : ∀ a b, before a b → ¬ before b a) (h : IsTop before k xs top)
    (h' : IsTop before k xs top') : top.Perm top' := by
  obtain ⟨rest, hperm, hbefore⟩ := h.rest
  obtain ⟨rest', hperm', hbefore'⟩ := h'.rest
  have hlen : top.length = top'.length := h.length.trans h'.length.symm
  have hsub : top.Subperm (top' ++ rest') :=
    (hperm'.symm.trans hperm).symm.subperm_left.1 (List.sublist_append_left _ _).subperm
  have hsub' : top'.Subperm (top ++ rest) :=
    (hperm.symm.trans hperm').symm.subperm_left.1 (List.sublist_append_left _ _).subperm
  -- If an item of `top` is in `rest'`, no item of `top'` can be in `rest`.
  by_cases hnot : ∀ a ∈ top, a ∉ rest'
  · exact (subperm_left hsub hnot).perm_of_length_le (Nat.le_of_eq hlen.symm)
  · push Not at hnot
    obtain ⟨a, ha, hrest⟩ := hnot
    refine ((subperm_left hsub' fun b hb hbrest => ?_).perm_of_length_le (Nat.le_of_eq hlen)).symm
    exact hasymm a b (hbefore a ha b hbrest) (hbefore' b hb a hrest)

/-- **The first items may be found in parts.** -/
theorem fold (htrans : ∀ a b c, before a b → before b c → before a c) (h : IsTop before k xs top)
    (h' : IsTop before k (top ++ ys) top') : IsTop before k (xs ++ ys) top' := by
  obtain ⟨rest, hperm, hbefore⟩ := h.rest
  obtain ⟨rest', hperm', hbefore'⟩ := h'.rest
  have hlen := h.length
  have hlen' := h'.length
  have hxs := hperm.length_eq
  rw [List.length_append] at hlen' hxs
  refine ⟨by rw [List.length_append]; omega, rest' ++ rest, ?_, fun a ha b hb => ?_⟩
  · calc (xs ++ ys).Perm ((top ++ rest) ++ ys) := hperm.append_right ys
      _ = top ++ (rest ++ ys) := List.append_assoc _ _ _
      _ |>.Perm (top ++ (ys ++ rest)) := List.perm_append_comm.append_left top
      _ = (top ++ ys) ++ rest := (List.append_assoc _ _ _).symm
      _ |>.Perm ((top' ++ rest') ++ rest) := hperm'.append_right rest
      _ = top' ++ (rest' ++ rest) := List.append_assoc _ _ _
  · rcases List.mem_append.1 hb with hb | hb
    · exact hbefore' a ha b hb
    · by_cases hatop : a ∈ top
      · exact hbefore a hatop b hb
      · -- Then `top` is full, so some item of it was left out for `a`.
        have hpos := List.length_pos_of_mem hb
        have hsome : ∃ c ∈ top, c ∈ rest' := by
          by_contra hnone
          push Not at hnone
          have hsub : top.Subperm (top' ++ rest') :=
            hperm'.subperm_left.1 (List.sublist_append_left _ _).subperm
          have hsame := (subperm_left hsub hnone).perm_of_length_le (by omega)
          exact hatop (hsame.mem_iff.2 ha)
        obtain ⟨c, hc, hcrest⟩ := hsome
        exact htrans a c b (hbefore' a ha c hcrest) (hbefore c hc b hb)

/-- Items of three classes, each item of one. -/
theorem perm_classes (high mid low : α → Bool) (hlow : ∀ x, low x = (!mid x && !high x))
    (hmid : ∀ x, mid x = true → high x = false) (xs : List α) :
    xs.Perm (xs.filter high ++ (xs.filter mid ++ xs.filter low)) := by
  have hrest := (List.filter_append_perm mid (xs.filter fun x => !high x)).symm
  rw [List.filter_filter, List.filter_filter, List.filter_congr fun x _ => show
      (mid x && !high x) = mid x by
        by_cases hx : mid x = true
        · rw [hx, hmid x hx]; rfl
        · rw [Bool.eq_false_iff.2 hx]; rfl,
    List.filter_congr fun x _ => (hlow x).symm] at hrest
  exact (List.filter_append_perm high xs).symm.trans (hrest.append_left _)

/-- Items that are before all others are taken whole, and the rest from the next ones. -/
theorem of_split {high mid low chosen : List α} (hhigh : high.length ≤ k)
    (hmid : k ≤ high.length + mid.length)
    (hxs : xs.Perm (high ++ (mid ++ low))) (hbefore : ∀ a ∈ high, ∀ b ∈ mid ++ low, before a b)
    (hlow : ∀ a ∈ mid, ∀ b ∈ low, before a b)
    (h : IsTop before (k - high.length) mid chosen) : IsTop before k xs (high ++ chosen) := by
  obtain ⟨rest, hperm, hrest⟩ := h.rest
  have hlen := h.length
  have hxslen := hxs.length_eq
  simp only [List.length_append] at hxslen
  refine ⟨by rw [List.length_append]; omega, rest ++ low, ?_, fun a ha b hb => ?_⟩
  · calc xs.Perm (high ++ (mid ++ low)) := hxs
      _ |>.Perm (high ++ ((chosen ++ rest) ++ low)) := (hperm.append_right low).append_left high
      _ = high ++ chosen ++ (rest ++ low) := by simp only [List.append_assoc]
  · rcases List.mem_append.1 ha with ha | ha
    · refine hbefore a ha b ?_
      rcases List.mem_append.1 hb with hb | hb
      · exact List.mem_append_left low (hperm.mem_iff.2 (List.mem_append_right chosen hb))
      · exact List.mem_append_right mid hb
    · rcases List.mem_append.1 hb with hb | hb
      · exact hrest a ha b hb
      · exact hlow a (hperm.mem_iff.2 (List.mem_append_left rest ha)) b hb

end IsTop

end LlmkubeRuntimes.Lib
