import Mathlib.Data.List.Sort

/-!
# Lists sorted by a key

* `filter_insertionSort`: sorting keeps items of one key in order;
* `filter_key_eq_of_perm`: where no key is there twice, any order does;
* `sorted_split`: a sorted list is the items before a key, those of it and those after it;
* `eq_of_sorted_of_filter`: a sorted list is determined by its items at every key.
-/

namespace LlmkubeRuntimes.Lib

variable {α β κ : Type} [DecidableEq κ]

/-- Items of one key stay in order. -/
theorem filter_insertionSort (key : α → κ) {r : κ → κ → Prop} [DecidableRel r]
    (refl : ∀ a, r a a) (l : List α) (k : κ) :
    (l.insertionSort fun a b => r (key a) (key b)).filter (key · = k) = l.filter (key · = k) := by
  have hkey : ∀ a ∈ l.filter (key · = k), key a = k := fun a ha =>
    of_decide_eq_true (List.mem_filter.1 ha).2
  have hsub : (l.filter (key · = k)).Sublist
      (l.insertionSort fun a b => r (key a) (key b)) := by
    refine List.sublist_insertionSort (List.pairwise_of_forall_mem_list fun a ha b hb => ?_)
      List.filter_sublist
    have hab : key a = key b := (hkey a ha).trans (hkey b hb).symm
    exact hab ▸ refl (key a)
  have hall : (l.filter (key · = k)).filter (key · = k) = l.filter (key · = k) :=
    List.filter_eq_self.2 fun a ha => (List.mem_filter.1 ha).2
  have hsub' := hsub.filter (key · = k)
  rw [hall] at hsub'
  have hperm := (List.perm_insertionSort (fun a b => r (key a) (key b)) l).filter (key · = k)
  exact (hsub'.eq_of_length hperm.length_eq.symm).symm

/-- A sorted list is the items before a key, those of it and those after it. -/
theorem sorted_split (key : α → κ) {r : κ → κ → Prop} [DecidableRel r]
    (trans : ∀ a b c, r a b → r b c → r a c) (antisymm : ∀ a b, r a b → r b a → a = b)
    (total : ∀ a b, r a b ∨ r b a) {l : List α} (h : l.Pairwise fun a b => r (key a) (key b))
    (k : κ) :
    l = l.filter (fun a => ¬ r k (key a)) ++ l.filter (key · = k) ++
      l.filter (fun a => ¬ r (key a) k) := by
  induction l with
  | nil => rfl
  | cons a l ih =>
    obtain ⟨ha, hl⟩ := List.pairwise_cons.1 h
    have hrefl : r k k := (total k k).elim id id
    have hbefore : r k (key a) → l.filter (fun b => ¬ r k (key b)) = [] := fun hle =>
      List.filter_eq_nil_iff.2 fun b hb => by
        simpa only [decide_eq_true_eq, not_not] using trans _ _ _ hle (ha b hb)
    have hat : ¬ r (key a) k → l.filter (key · = k) = [] := fun hgt =>
      List.filter_eq_nil_iff.2 fun b hb hkey => hgt (of_decide_eq_true hkey ▸ ha b hb)
    have htail := ih hl
    by_cases hle : r k (key a)
    · rw [hbefore hle, List.nil_append] at htail
      rw [List.filter_cons_of_neg (by simpa only [decide_eq_true_eq, not_not] using hle),
        hbefore hle, List.nil_append]
      by_cases hge : r (key a) k
      · have heq : key a = k := antisymm _ _ hge hle
        rw [List.filter_cons_of_pos (by simpa only [decide_eq_true_eq] using heq),
          List.filter_cons_of_neg (by simpa only [decide_eq_true_eq, not_not] using hge),
          List.cons_append, ← htail]
      · have hne : key a ≠ k := fun heq => hge (heq ▸ hrefl)
        rw [hat hge, List.nil_append] at htail
        rw [List.filter_cons_of_neg (by simpa only [decide_eq_true_eq] using hne), hat hge,
          List.nil_append, List.filter_cons_of_pos (by simpa only [decide_eq_true_eq] using hge),
          ← htail]
    · have hge : r (key a) k := (total (key a) k).resolve_right hle
      have hne : key a ≠ k := fun heq => hle (heq ▸ hrefl)
      rw [List.filter_cons_of_pos (by simpa only [decide_eq_true_eq] using hle),
        List.filter_cons_of_neg (by simpa only [decide_eq_true_eq] using hne),
        List.filter_cons_of_neg (by simpa only [decide_eq_true_eq, not_not] using hge),
        List.cons_append, List.cons_append, ← htail]

/-- Two lists sorted by a key are equal if they agree at every key. -/
theorem eq_of_sorted_of_filter {r : κ → κ → Prop} (key : α → κ)
    (antisymm : ∀ a b, r a b → r b a → a = b) {l l' : List α}
    (hl : l.Pairwise fun a b => r (key a) (key b)) (hl' : l'.Pairwise fun a b => r (key a) (key b))
    (hf : ∀ k, l.filter (key · = k) = l'.filter (key · = k)) : l = l' := by
  induction l generalizing l' with
  | nil =>
    cases l' with
    | nil => rfl
    | cons b l' => simpa using hf (key b)
  | cons a l ih =>
    cases l' with
    | nil => simpa using hf (key a)
    | cons b l' =>
      -- each head occurs in the other list, so neither key is above the other
      have hab : key a = key b := by
        by_contra hne
        have ha : a ∈ (b :: l').filter (key · = key a) := by rw [← hf]; simp
        have hb : b ∈ (a :: l).filter (key · = key b) := by rw [hf]; simp
        have ha' : a ∈ l' := by
          rcases List.mem_cons.1 (List.mem_filter.1 ha).1 with rfl | h
          · exact absurd rfl hne
          · exact h
        have hb' : b ∈ l := by
          rcases List.mem_cons.1 (List.mem_filter.1 hb).1 with rfl | h
          · exact absurd rfl hne
          · exact h
        exact hne (antisymm _ _ (List.rel_of_pairwise_cons hl hb')
          (List.rel_of_pairwise_cons hl' ha'))
      have hhead : a = b ∧ l.filter (key · = key a) = l'.filter (key · = key a) := by
        have := hf (key a)
        simpa [hab] using this
      obtain ⟨rfl, -⟩ := hhead
      congr 1
      refine ih hl.of_cons hl'.of_cons fun k => ?_
      have := hf k
      by_cases hk : key a = k <;> simpa [List.filter_cons, hk] using this

/-- What a nested list holds at one key, when every inner list has a key of its own. -/
theorem filter_flatMap_key {key : β → κ} {k : α → κ} {g : α → List β}
    (hg : ∀ a, ∀ b ∈ g a, key b = k a) (l : List α) (c : κ) :
    (l.flatMap g).filter (key · = c) = (l.filter (k · = c)).flatMap g := by
  induction l with
  | nil => rfl
  | cons a l ih =>
    rw [List.flatMap_cons, List.filter_append, ih]
    by_cases h : k a = c
    · rw [List.filter_cons_of_pos (by simpa using h), List.flatMap_cons,
        List.filter_eq_self.2 fun b hb => by simp [hg a b hb, h]]
    · rw [List.filter_cons_of_neg (by simpa using h),
        List.filter_eq_nil_iff.2 fun b hb => by simp [hg a b hb, h], List.nil_append]

/-- One item of each key, if no key is there twice. -/
theorem filter_key_eq_singleton {key : α → κ} {l : List α} (hnodup : (l.map key).Nodup) {a : α}
    (ha : a ∈ l) : l.filter (key · = key a) = [a] := by
  induction l with
  | nil => cases ha
  | cons b l ih =>
    rw [List.map_cons, List.nodup_cons] at hnodup
    rcases List.mem_cons.1 ha with rfl | ha
    · have hrest : l.filter (key · = key a) = [] := by
        refine List.filter_eq_nil_iff.2 fun c hc heq => hnodup.1 ?_
        exact of_decide_eq_true heq ▸ List.mem_map_of_mem hc
      rw [List.filter_cons_of_pos (by simp), hrest]
    · have hb : key b ≠ key a := fun heq => hnodup.1 (heq ▸ List.mem_map_of_mem ha)
      rw [List.filter_cons_of_neg (by simpa using hb), ih hnodup.2 ha]

/-- Two orders of one list have the same items of each key, if no key is there twice. -/
theorem filter_key_eq_of_perm {key : α → κ} {l l' : List α} (hperm : l.Perm l')
    (hnodup : (l.map key).Nodup) (k : κ) : l.filter (key · = k) = l'.filter (key · = k) := by
  by_cases h : ∃ a ∈ l, key a = k
  · obtain ⟨a, ha, rfl⟩ := h
    rw [filter_key_eq_singleton hnodup ha, filter_key_eq_singleton
      ((hperm.map key).nodup_iff.1 hnodup) (hperm.mem_iff.1 ha)]
  · have hnone : ∀ a ∈ l, ¬ decide (key a = k) = true := fun a ha hk =>
      h ⟨a, ha, of_decide_eq_true hk⟩
    rw [List.filter_eq_nil_iff.2 hnone,
      List.filter_eq_nil_iff.2 fun a ha => hnone a (hperm.mem_iff.2 ha)]
end LlmkubeRuntimes.Lib
