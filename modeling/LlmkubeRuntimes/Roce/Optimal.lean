import LlmkubeRuntimes.Roce.Symmetry
import Mathlib.Data.List.MinMax
import Mathlib.Data.Finset.Card

/-!
# The planner finds the best routes

What the planner is for, said over sets of device pairs: a matching is a set of
candidates with no device twice, and a best matching has the most verified links.

* `foldl_better`: the search over the combinations is `List.argmin` on those
  whose devices are distinct;
* `pick`: a set of candidates as the combination that carries it;
* `planRoutes_best`: what `planRoutes` returns, and when it fails.
-/

namespace LlmkubeRuntimes.Roce

/-! ## Matchings as sets -/

/-- Both devices have IPv4 addresses on one network. -/
def OneNetwork (x y : Endpoint) : Prop :=
  ∃ i j, x.ipv4 = some i ∧ y.ipv4 = some j ∧ i.network = j.network

/-- The pair `(l, r)` of a local and a remote device is on one network. -/
def IsVerified (loc rem : List Endpoint) (p : ℕ × ℕ) : Prop :=
  ∃ x y, loc[p.1]? = some x ∧ rem[p.2]? = some y ∧ OneNetwork x y

/-- Two devices of one index of which at least one has no IPv4 address. -/
def IsTrusted (loc rem : List Endpoint) (p : ℕ × ℕ) : Prop :=
  p.1 = p.2 ∧ ∃ x y, loc[p.1]? = some x ∧ rem[p.2]? = some y ∧ (x.ipv4 = none ∨ y.ipv4 = none)

def IsCandidate (loc rem : List Endpoint) (p : ℕ × ℕ) : Prop :=
  IsVerified loc rem p ∨ IsTrusted loc rem p

/-- `rails` candidates with pairwise distinct local and pairwise distinct remote devices. -/
structure IsMatching (loc rem : List Endpoint) (rails : ℕ) (m : Finset (ℕ × ℕ)) : Prop where
  card : m.card = rails
  candidate : ∀ p ∈ m, IsCandidate loc rem p
  left : Set.InjOn Prod.fst (m : Set (ℕ × ℕ))
  right : Set.InjOn Prod.snd (m : Set (ℕ × ℕ))

open Classical in
/-- The number of verified links. -/
noncomputable def verifiedLinks (loc rem : List Endpoint) (m : Finset (ℕ × ℕ)) : ℕ :=
  (m.filter (IsVerified loc rem)).card

/-- A matching with the greatest possible number of verified links. -/
structure IsBest (loc rem : List Endpoint) (rails : ℕ) (m : Finset (ℕ × ℕ)) : Prop where
  matching : IsMatching loc rem rails m
  most : ∀ m', IsMatching loc rem rails m' → verifiedLinks loc rem m' ≤ verifiedLinks loc rem m

/-- Device `h` of one rank pairs with device `h` of another on every rail. -/
def IndexPairing (endpoints : Endpoints) (rails : ℕ) : Prop :=
  (∀ devices ∈ endpoints, rails ≤ devices.length) ∧
    ∀ a b h x y, a < b → h < rails → device endpoints a h = some x → device endpoints b h = some y →
      x.ipv4 = none ∨ y.ipv4 = none ∨ OneNetwork x y

/-! ## The search is an argmin -/

theorem mem_combinations {α : Type*} {k : Nat} {xs c : List α} :
    c ∈ combinations k xs ↔ c.Sublist xs ∧ c.length = k := by
  induction xs generalizing k c with
  | nil =>
    cases k with
    | zero => simp [combinations]
    | succ k =>
      simp only [combinations, List.not_mem_nil, List.sublist_nil, false_iff, not_and]
      rintro rfl
      exact Nat.zero_ne_add_one k
  | cons x xs ih =>
    cases k with
    | zero =>
      simp only [combinations, List.mem_singleton, List.length_eq_zero_iff]
      exact ⟨fun h => ⟨h ▸ List.nil_sublist _, h⟩, fun h => h.2⟩
    | succ k =>
      simp only [combinations, List.mem_append, List.mem_map, ih]
      constructor
      · rintro (⟨d, ⟨hsub, hlen⟩, rfl⟩ | ⟨hsub, hlen⟩)
        · exact ⟨hsub.cons_cons x, by rw [List.length_cons, hlen]⟩
        · exact ⟨hsub.cons x, hlen⟩
      · rintro ⟨hsub, hlen⟩
        cases hsub with
        | cons _ h => exact .inr ⟨h, hlen⟩
        | cons_cons _ h => exact .inl ⟨_, ⟨h, Nat.succ.inj hlen⟩, rfl⟩

/-- The combinations that the loop of `bestMatching` does not skip. -/
def disjointDevices (rails : Nat) (combo : List Link) : Bool :=
  rails ≤ (combo.map Link.l).dedup.length && rails ≤ (combo.map Link.r).dedup.length

theorem better_of_skip {rails : Nat} {combo : List Link} (h : disjointDevices rails combo = false)
    (best : Option (Score × List Link)) : better rails best combo = best := by
  have : (combo.map Link.l).dedup.length < rails ∨ (combo.map Link.r).dedup.length < rails := by
    simpa only [disjointDevices, Bool.and_eq_false_iff, decide_eq_false_iff_not, not_le] using h
  unfold better
  rw [if_pos this]

theorem better_of_keep {rails : Nat} {combo : List Link} (h : disjointDevices rails combo = true)
    (best : Option (List Link)) :
    better rails (best.map fun c => (score c, c)) combo =
      (List.argAux (fun b c => score b < score c) best combo).map fun c => (score c, c) := by
  have : ¬ ((combo.map Link.l).dedup.length < rails ∨
      (combo.map Link.r).dedup.length < rails) := by
    simpa only [disjointDevices, Bool.and_eq_true, decide_eq_true_eq, not_or, not_lt] using h
  unfold better
  rw [if_neg this]
  cases best with
  | none => rfl
  | some c =>
    simp only [Option.map_some, List.argAux]
    split <;> rfl

/-- **The search keeps the first admissible combination of smallest score.** -/
theorem foldl_better (rails : Nat) (combos : List (List Link)) :
    combos.foldl (better rails) none =
      ((combos.filter (disjointDevices rails)).argmin score).map fun c => (score c, c) := by
  have hfold : ∀ (combos : List (List Link)) (best : Option (List Link)),
      combos.foldl (better rails) (best.map fun c => (score c, c)) =
        ((combos.filter (disjointDevices rails)).foldl
          (List.argAux fun b c => score b < score c) best).map fun c => (score c, c) := by
    intro combos
    induction combos with
    | nil => exact fun best => rfl
    | cons combo combos ih =>
      intro best
      rw [List.foldl_cons]
      cases h : disjointDevices rails combo with
      | false => rw [better_of_skip h, ih, List.filter_cons_of_neg (by rw [h]; decide)]
      | true => rw [better_of_keep h, ih, List.filter_cons_of_pos h, List.foldl_cons]
  exact hfold combos none

theorem bestMatching_eq (links : List Link) (rails : Nat) :
    bestMatching links rails =
      (((combinations rails links).filter (disjointDevices rails)).argmin score).map
        (List.map fun c => (c.l, c.r)) := by
  rw [bestMatching, foldl_better, Option.map_map]
  rfl

/-! ## Links and candidates -/

/-- The two ends of a link. -/
def Link.ends (c : Link) : ℕ × ℕ := (c.l, c.r)

theorem mem_verified_iff {loc rem : List Endpoint} {p : ℕ × ℕ} :
    (∃ c ∈ verified loc rem, c.ends = p) ↔ IsVerified loc rem p := by
  constructor
  · rintro ⟨c, hc, rfl⟩
    obtain ⟨x, y, hx, hy, hk⟩ := mem_verified.1 hc
    obtain ⟨i, j, hi, hj, hnet, -⟩ := linkKey_eq_some.1 hk
    exact ⟨x, y, hx, hy, i, j, hi, hj, hnet⟩
  · rintro ⟨x, y, hx, hy, i, j, hi, hj, hnet⟩
    have hk := linkKey_eq_some.2 ⟨i, j, hi, hj, hnet, rfl⟩
    exact ⟨⟨_, p.1, p.2⟩, mem_verified.2 ⟨x, y, hx, hy, hk⟩, rfl⟩

theorem mem_unverifiable_iff {loc rem : List Endpoint} {p : ℕ × ℕ} :
    (∃ c ∈ unverifiable loc rem, c.ends = p) ↔ IsTrusted loc rem p := by
  have huncheck : ∀ x y : Endpoint, uncheckable x y = true ↔ x.ipv4 = none ∨ y.ipv4 = none :=
    fun x y => by rw [uncheckable, Bool.or_eq_true, Option.isNone_iff_eq_none,
      Option.isNone_iff_eq_none]
  constructor
  · rintro ⟨c, hc, rfl⟩
    obtain ⟨hlr, -, x, y, hx, hy, hu⟩ := mem_unverifiable.1 hc
    have hy' : rem[c.r]? = some y := hlr ▸ hy
    exact ⟨hlr, x, y, hx, hy', (huncheck x y).1 hu⟩
  · obtain ⟨l, r⟩ := p
    rintro ⟨hlr, x, y, hx, hy, hu⟩
    obtain rfl : l = r := hlr
    exact ⟨⟨Key.mk 1 l 0 0, l, l⟩, mem_unverifiable.2 ⟨rfl, rfl, x, y, hx, hy, (huncheck x y).2 hu⟩, rfl⟩

theorem mem_candidates {loc rem : List Endpoint} {c : Link} :
    c ∈ candidates loc rem ↔ c ∈ verified loc rem ∨ c ∈ unverifiable loc rem := by
  rw [candidates, List.mem_insertionSort, List.mem_append]

theorem nodup_candidates (loc rem : List Endpoint) : (candidates loc rem).Nodup :=
  (List.perm_insertionSort _ _).nodup_iff.2 (nodup_links loc rem)

theorem mem_candidates_iff {loc rem : List Endpoint} {p : ℕ × ℕ} :
    (∃ c ∈ candidates loc rem, c.ends = p) ↔ IsCandidate loc rem p := by
  simp only [mem_candidates, or_and_right, exists_or, mem_verified_iff, mem_unverifiable_iff]
  rfl

/-- No pair of devices is both verified and trusted. -/
theorem not_isVerified_of_isTrusted {loc rem : List Endpoint} {p : ℕ × ℕ}
    (h : IsTrusted loc rem p) : ¬ IsVerified loc rem p := by
  rintro ⟨x', y', hx', hy', i, j, hi, hj, -⟩
  obtain ⟨-, x, y, hx, hy, hnone⟩ := h
  obtain rfl : x = x' := Option.some.inj (hx.symm.trans hx')
  obtain rfl : y = y' := Option.some.inj (hy.symm.trans hy')
  rcases hnone with hnone | hnone
  · rw [hnone] at hi
    cases hi
  · rw [hnone] at hj
    cases hj

open Classical in
theorem kind_candidate {loc rem : List Endpoint} {c : Link} (h : c ∈ candidates loc rem) :
    c.key.kind = if IsVerified loc rem c.ends then 0 else 1 := by
  rcases mem_candidates.1 h with h | h
  · rw [if_pos (mem_verified_iff.1 ⟨c, h, rfl⟩)]
    obtain ⟨x, y, -, -, hk⟩ := mem_verified.1 h
    obtain ⟨i, j, -, -, -, hkey⟩ := linkKey_eq_some.1 hk
    rw [hkey]
    rfl
  · rw [if_neg (not_isVerified_of_isTrusted (mem_unverifiable_iff.1 ⟨c, h, rfl⟩)),
      (mem_unverifiable.1 h).2.1]
    rfl

/-- The devices of a candidate determine its key. -/
theorem ends_injOn (loc rem : List Endpoint) :
    Set.InjOn Link.ends {c | c ∈ candidates loc rem} := by
  rintro ⟨k, l, r⟩ hc ⟨k', l', r'⟩ hd hends
  obtain ⟨rfl, rfl⟩ : l = l' ∧ r = r' := Prod.mk.inj hends
  have hsame : ∀ p, IsVerified loc rem p → ¬ IsTrusted loc rem p :=
    fun p hv ht => not_isVerified_of_isTrusted ht hv
  rcases mem_candidates.1 hc with hc | hc <;> rcases mem_candidates.1 hd with hd | hd
  · obtain ⟨x, y, hx, hy, hk⟩ := mem_verified.1 hc
    obtain ⟨x', y', hx', hy', hk'⟩ := mem_verified.1 hd
    obtain rfl : x = x' := Option.some.inj (hx.symm.trans hx')
    obtain rfl : y = y' := Option.some.inj (hy.symm.trans hy')
    obtain rfl : k = k' := Option.some.inj (hk.symm.trans hk')
    rfl
  · exact absurd (mem_unverifiable_iff.1 ⟨_, hd, rfl⟩)
      (hsame _ (mem_verified_iff.1 ⟨_, hc, rfl⟩))
  · exact absurd (mem_unverifiable_iff.1 ⟨_, hc, rfl⟩)
      (hsame _ (mem_verified_iff.1 ⟨_, hd, rfl⟩))
  · obtain rfl : k = Key.mk 1 l 0 0 := (mem_unverifiable.1 hc).2.1
    obtain rfl : k' = Key.mk 1 l 0 0 := (mem_unverifiable.1 hd).2.1
    rfl

/-! ## Combinations and matchings -/

section
variable {loc rem : List Endpoint} {rails : Nat}

/-- The device pairs of a combination. -/
def chosen (combo : List Link) : Finset (ℕ × ℕ) := (combo.map Link.ends).toFinset

theorem nodup_of_disjointDevices {combo : List Link} (hlen : combo.length = rails)
    (h : disjointDevices rails combo = true) :
    (combo.map Link.l).Nodup ∧ (combo.map Link.r).Nodup := by
  have hnodup : ∀ {xs : List Nat}, xs.length = rails → rails ≤ xs.dedup.length → xs.Nodup := by
    intro xs hxs hle
    rw [← List.dedup_eq_self]
    exact (List.dedup_sublist xs).eq_of_length_le (hxs.trans_le hle)
  obtain ⟨hl, hr⟩ : rails ≤ (combo.map Link.l).dedup.length ∧
      rails ≤ (combo.map Link.r).dedup.length := by
    simpa only [disjointDevices, Bool.and_eq_true, decide_eq_true_eq] using h
  exact ⟨hnodup (by rw [List.length_map, hlen]) hl, hnodup (by rw [List.length_map, hlen]) hr⟩

theorem disjointDevices_of_nodup {combo : List Link} (hlen : combo.length = rails)
    (hl : (combo.map Link.l).Nodup) (hr : (combo.map Link.r).Nodup) :
    disjointDevices rails combo = true := by
  rw [disjointDevices, hl.dedup, hr.dedup, List.length_map, List.length_map, hlen]
  simp only [le_refl, decide_true, Bool.and_self]

/-- An admissible combination is a matching. -/
theorem chosen_isMatching {combo : List Link} (hc : combo ∈ combinations rails (candidates loc rem))
    (h : disjointDevices rails combo = true) : IsMatching loc rem rails (chosen combo) := by
  obtain ⟨hsub, hlen⟩ := mem_combinations.1 hc
  obtain ⟨hl, hr⟩ := nodup_of_disjointDevices hlen h
  have hmem : ∀ p, p ∈ chosen combo ↔ ∃ c ∈ combo, c.ends = p := fun p => by
    rw [chosen, List.mem_toFinset, List.mem_map]
  have hleft : (combo.map Link.ends).Nodup := by
    refine List.Nodup.of_map Prod.fst ?_
    rw [List.map_map]
    exact hl
  refine ⟨?_, fun p hp => ?_, fun p hp q hq hpq => ?_, fun p hp q hq hpq => ?_⟩
  · rw [chosen, List.toFinset_card_of_nodup hleft, List.length_map, hlen]
  · obtain ⟨c, hc, rfl⟩ := (hmem p).1 hp
    exact mem_candidates_iff.1 ⟨c, hsub.subset hc, rfl⟩
  · obtain ⟨c, hc, rfl⟩ := (hmem p).1 hp
    obtain ⟨d, hd, rfl⟩ := (hmem q).1 hq
    rw [List.inj_on_of_nodup_map hl hc hd hpq]
  · obtain ⟨c, hc, rfl⟩ := (hmem p).1 hp
    obtain ⟨d, hd, rfl⟩ := (hmem q).1 hq
    rw [List.inj_on_of_nodup_map hr hc hd hpq]

/-- The combination that carries a set of candidates. -/
def pick (loc rem : List Endpoint) (m : Finset (ℕ × ℕ)) : List Link :=
  (candidates loc rem).filter fun c => c.ends ∈ m

theorem mem_pick {m : Finset (ℕ × ℕ)} {c : Link} :
    c ∈ pick loc rem m ↔ c ∈ candidates loc rem ∧ c.ends ∈ m := by
  rw [pick, List.mem_filter, decide_eq_true_iff]

theorem nodup_pick (m : Finset (ℕ × ℕ)) : ((pick loc rem m).map Link.ends).Nodup := by
  refine List.Nodup.map_on (fun c hc d hd => ?_) ((nodup_candidates loc rem).filter _)
  exact fun h => ends_injOn loc rem (mem_pick.1 hc).1 (mem_pick.1 hd).1 h

theorem chosen_pick {m : Finset (ℕ × ℕ)} (h : IsMatching loc rem rails m) :
    chosen (pick loc rem m) = m := by
  ext p
  rw [chosen, List.mem_toFinset, List.mem_map]
  constructor
  · rintro ⟨c, hc, rfl⟩
    exact (mem_pick.1 hc).2
  · intro hp
    obtain ⟨c, hc, rfl⟩ := mem_candidates_iff.2 (h.candidate p hp)
    exact ⟨c, mem_pick.2 ⟨hc, hp⟩, rfl⟩

/-- **Every matching is an admissible combination.** -/
theorem pick_admissible {m : Finset (ℕ × ℕ)} (h : IsMatching loc rem rails m) :
    pick loc rem m ∈ (combinations rails (candidates loc rem)).filter (disjointDevices rails) := by
  have hlen : (pick loc rem m).length = rails := by
    have hends : ((pick loc rem m).map Link.ends).Nodup := nodup_pick m
    have hcard := List.toFinset_card_of_nodup hends
    rw [← chosen, chosen_pick h, h.card, List.length_map] at hcard
    exact hcard.symm
  have hnodup : (pick loc rem m).Nodup := (nodup_pick m).of_map
  refine List.mem_filter.2 ⟨mem_combinations.2 ⟨List.filter_sublist, hlen⟩, ?_⟩
  refine disjointDevices_of_nodup hlen ?_ ?_
  · refine List.Nodup.map_on (fun c hc d hd hl => ?_) hnodup
    have hends := h.left (mem_pick.1 hc).2 (mem_pick.1 hd).2 hl
    exact ends_injOn loc rem (mem_pick.1 hc).1 (mem_pick.1 hd).1 hends
  · refine List.Nodup.map_on (fun c hc d hd hr => ?_) hnodup
    have hends := h.right (mem_pick.1 hc).2 (mem_pick.1 hd).2 hr
    exact ends_injOn loc rem (mem_pick.1 hc).1 (mem_pick.1 hd).1 hends

/-- The sum in the score counts the links that are not verified. -/
theorem verifiedLinks_add_sum {combo : List Link}
    (hc : combo ∈ combinations rails (candidates loc rem))
    (h : disjointDevices rails combo = true) :
    verifiedLinks loc rem (chosen combo) + (combo.map fun c => c.key.kind).sum = rails := by
  classical
  obtain ⟨hsub, hlen⟩ := mem_combinations.1 hc
  have hnodup : (combo.map Link.ends).Nodup := by
    refine List.Nodup.of_map Prod.fst ?_
    rw [List.map_map]
    exact (nodup_of_disjointDevices hlen h).1
  have hcount : ∀ cs : List Link, (∀ c ∈ cs, c ∈ candidates loc rem) →
      ((cs.map Link.ends).filter (IsVerified loc rem ·)).length +
        (cs.map fun c => c.key.kind).sum = cs.length := by
    intro cs hcs
    induction cs with
    | nil => rfl
    | cons c cs ih =>
      have ih' := ih fun d hd => hcs d (List.mem_cons_of_mem c hd)
      have hkind := kind_candidate (hcs c List.mem_cons_self)
      simp only [List.map_cons, List.sum_cons, List.length_cons]
      by_cases hv : IsVerified loc rem c.ends
      · rw [if_pos hv] at hkind
        rw [List.filter_cons_of_pos (by simpa using hv), List.length_cons, hkind]
        omega
      · rw [if_neg hv] at hkind
        rw [List.filter_cons_of_neg (by simpa using hv), hkind]
        omega
  have hfilter : (chosen combo).filter (IsVerified loc rem) =
      ((combo.map Link.ends).filter (IsVerified loc rem ·)).toFinset := by
    rw [chosen, List.toFinset_filter]
    simp only [decide_eq_true_eq]
  rw [verifiedLinks, hfilter, List.toFinset_card_of_nodup (hnodup.filter _),
    hcount combo fun c hc => hsub.subset hc, hlen]

/-- **The search fails only when there is no matching.** -/
theorem bestMatching_eq_none :
    bestMatching (candidates loc rem) rails = none ↔ ¬ ∃ m, IsMatching loc rem rails m := by
  rw [bestMatching_eq, Option.map_eq_none_iff, List.argmin_eq_none]
  constructor
  · rintro hnil ⟨m, hm⟩
    have hmem := pick_admissible hm
    rw [hnil] at hmem
    cases hmem
  · intro hno
    refine List.eq_nil_iff_forall_not_mem.2 fun combo hmem => hno ?_
    obtain ⟨hc, hdisj⟩ := List.mem_filter.1 hmem
    exact ⟨chosen combo, chosen_isMatching hc hdisj⟩

/-- **What the search finds is a best matching**, one pair for each rail. -/
theorem bestMatching_isBest {route : Route}
    (h : bestMatching (candidates loc rem) rails = some route) :
    route.Nodup ∧ route.length = rails ∧ IsBest loc rem rails route.toFinset := by
  rw [bestMatching_eq, Option.map_eq_some_iff] at h
  obtain ⟨combo, hmin, rfl⟩ := h
  obtain ⟨hc, hdisj⟩ := List.mem_filter.1 (List.argmin_mem hmin)
  have hlen := (mem_combinations.1 hc).2
  have hnodup : (combo.map Link.ends).Nodup := by
    refine List.Nodup.of_map Prod.fst ?_
    rw [List.map_map]
    exact (nodup_of_disjointDevices hlen hdisj).1
  refine ⟨hnodup, by rw [List.length_map, hlen], chosen_isMatching hc hdisj, fun m hm => ?_⟩
  have hle : score combo ≤ score (pick loc rem m) := List.le_of_mem_argmin (pick_admissible hm) hmin
  have hsum : (combo.map fun c => c.key.kind).sum ≤
      ((pick loc rem m).map fun c => c.key.kind).sum := by
    rcases (Prod.Lex.toLex_le_toLex.1 hle) with hlt | ⟨heq, -⟩
    · exact hlt.le
    · exact heq.le
  have hbest := verifiedLinks_add_sum hc hdisj
  obtain ⟨hcm, hdm⟩ := List.mem_filter.1 (pick_admissible hm)
  have hother := verifiedLinks_add_sum hcm hdm
  rw [chosen_pick hm] at hother
  show verifiedLinks loc rem m ≤ verifiedLinks loc rem (chosen combo)
  omega

end

/-! ## The routes -/

theorem indexPairingValid_iff {endpoints : Endpoints} {rails : Nat} :
    indexPairingValid endpoints rails = true ↔ IndexPairing endpoints rails := by
  have hpair : ∀ x y : Option Endpoint, pairable x y = true ↔
      ∀ x', x = some x' → ∀ y', y = some y' →
        x'.ipv4 = none ∨ y'.ipv4 = none ∨ OneNetwork x' y' := by
    intro x y
    rcases x with - | ⟨n, i⟩ <;> rcases y with - | ⟨n', j⟩
    · simp [pairable]
    · simp [pairable]
    · cases i <;> simp [pairable]
    · cases i <;> cases j <;> simp [pairable, OneNetwork]
  unfold indexPairingValid IndexPairing
  split
  next hshort =>
    obtain ⟨devices, hmem, hlt⟩ := List.any_eq_true.1 hshort
    rw [decide_eq_true_iff] at hlt
    exact iff_of_false (by decide) fun h => absurd (h.1 devices hmem) (by omega)
  next hlong =>
    have hlen : ∀ devices ∈ endpoints, rails ≤ devices.length := by
      intro devices hmem
      by_contra hlt
      exact hlong (List.any_eq_true.2 ⟨devices, hmem, decide_eq_true (by omega)⟩)
    simp only [List.all_eq_true, List.mem_range, List.mem_range'_1, hpair]
    constructor
    · intro h
      refine ⟨hlen, fun a b k x y hab hk hx hy => ?_⟩
      obtain ⟨devices, hb, -⟩ := Option.bind_eq_some_iff.1 hy
      have hblt := (List.getElem?_eq_some_iff.1 hb).1
      exact h a (by omega) b ⟨by omega, by omega⟩ k hk x hx y hy
    · rintro ⟨-, h⟩ a - b ⟨hab, -⟩ k hk x hx y hy
      exact h a b k x y (by omega) hk hx hy

/-- The loop over the peers fails at the first peer without a route. -/
theorem routesFrom_cases (rank rails peer : Nat) (loc : List Endpoint) (endpoints : Endpoints) :
    (∃ routes, routesFrom rank rails loc peer endpoints = .ok routes ∧
      routes.length = endpoints.length) ∨
    ∃ i rem reached, endpoints[i]? = some rem ∧ peer + i ≠ rank ∧
      bestMatching (candidates loc rem) rails = none ∧
      routesFrom rank rails loc peer endpoints =
        .error (.unlinked rank reached rails (peer + i) loc rem) := by
  induction endpoints generalizing peer with
  | nil => exact .inl ⟨[], rfl, rfl⟩
  | cons rem rest ih =>
    have hstep : (∃ route, routeTo rank rails loc peer rem = .ok route) ∨
        peer ≠ rank ∧ bestMatching (candidates loc rem) rails = none ∧ ∃ reached,
          routeTo rank rails loc peer rem = .error (.unlinked rank reached rails peer loc rem) := by
      unfold routeTo
      by_cases hpeer : peer = rank
      · exact .inl ⟨[], if_pos hpeer⟩
      · rw [if_neg hpeer]
        cases hbest : bestMatching (candidates loc rem) rails with
        | none => exact .inr ⟨hpeer, rfl, _, rfl⟩
        | some route => exact .inl ⟨route, rfl⟩
    rw [routesFrom]
    rcases hstep with ⟨route, hto⟩ | ⟨hpeer, hbest, reached, hto⟩
    · rcases ih (peer + 1) with ⟨routes, hrest, hlen⟩ | ⟨i, rem', reached, hi, hne, hbest, hrest⟩
      · exact .inl ⟨route :: routes, by rw [hto, hrest]; rfl, by simp [hlen]⟩
      · refine .inr ⟨i + 1, rem', reached, hi, by omega, hbest, ?_⟩
        rw [hto, hrest, Nat.add_assoc, Nat.add_comm 1 i]
        rfl
    · exact .inr ⟨0, rem, reached, rfl, hpeer, hbest, by rw [hto]; rfl⟩

/-- What the loop over the peers returns is best at every other rank and empty at its own. -/
theorem routesFrom_best {rank rails : Nat} {loc : List Endpoint} {endpoints : Endpoints}
    {routes : List Route} (h : routesFrom rank rails loc 0 endpoints = .ok routes) {peer : Nat}
    {rem : List Endpoint} (hpeer : endpoints[peer]? = some rem) :
    ∃ route, routes[peer]? = some route ∧ (peer = rank → route = []) ∧
      (peer ≠ rank → route.Nodup ∧ route.length = rails ∧ IsBest loc rem rails route.toFinset) := by
  obtain ⟨route, hget, hto⟩ := routesFrom_getElem? h hpeer
  rw [Nat.zero_add] at hto
  refine ⟨route, hget, fun heq => ?_, fun hne => bestMatching_isBest (routeTo_ok hto hne)⟩
  rw [routeTo, if_pos heq] at hto
  exact (Except.ok.inj hto).symm

theorem IsCandidate.lt {loc rem : List Endpoint} {p : ℕ × ℕ} (h : IsCandidate loc rem p) :
    p.1 < loc.length ∧ p.2 < rem.length := by
  rcases h with ⟨x, y, hx, hy, -⟩ | ⟨-, x, y, hx, hy, -⟩ <;>
    exact ⟨(List.getElem?_eq_some_iff.1 hx).1, (List.getElem?_eq_some_iff.1 hy).1⟩

/-- What `planRoutes` promises to the rank `rank` of `endpoints`. -/
structure PlansBest (endpoints : Endpoints) (rank rails : Nat) (hrank : rank < endpoints.length) :
    Prop where
  /-- Where index pairing is valid for all pairs of ranks, device `h` carries rail `h`. -/
  paired : IndexPairing endpoints rails → ∃ routes, planRoutes endpoints rank rails = .ok routes ∧
    routes.length = endpoints.length ∧ ∀ peer < endpoints.length, peer ≠ rank →
      routes[peer]? = some ((List.range rails).map fun h => (h, h))
  /-- Elsewhere it raises `RuntimeError` exactly when some peer admits no matching. -/
  fails : ¬ IndexPairing endpoints rails →
    ((∃ reached peer loc rem,
        planRoutes endpoints rank rails = .error (.unlinked rank reached rails peer loc rem)) ↔
      ∃ peer, ∃ hpeer : peer < endpoints.length, peer ≠ rank ∧
        ¬ ∃ m, IsMatching endpoints[rank] endpoints[peer] rails m)
  /-- Otherwise it returns a best matching for every peer. -/
  best : ¬ IndexPairing endpoints rails →
    (∀ peer, ∀ hpeer : peer < endpoints.length, peer ≠ rank →
      ∃ m, IsMatching endpoints[rank] endpoints[peer] rails m) →
    ∃ routes, planRoutes endpoints rank rails = .ok routes ∧ routes.length = endpoints.length ∧
      ∀ peer, ∀ hpeer : peer < endpoints.length, peer ≠ rank → ∃ route, routes[peer]? = some route ∧
        route.Nodup ∧ route.length = rails ∧
        IsBest endpoints[rank] endpoints[peer] rails route.toFinset
  /-- The own entry is empty. -/
  own : ∀ routes, planRoutes endpoints rank rails = .ok routes → routes[rank]? = some []
  /-- Every index is in range at its end. -/
  inRange : ∀ routes, planRoutes endpoints rank rails = .ok routes →
    ∀ peer, ∀ hpeer : peer < endpoints.length, ∀ route, routes[peer]? = some route →
      ∀ p ∈ route, p.1 < endpoints[rank].length ∧ p.2 < endpoints[peer].length

section
variable {endpoints : Endpoints} {rank rails : Nat}

theorem planRoutes_of_indexPairing (hrails : 1 ≤ rails ∧ rails ≤ maxRails)
    (h : IndexPairing endpoints rails) :
    planRoutes endpoints rank rails = .ok (indexRoutes endpoints.length rank rails) := by
  rw [planRoutes, if_neg (not_not.2 hrails), if_pos (indexPairingValid_iff.2 h)]

theorem planRoutes_of_not_indexPairing (hrails : 1 ≤ rails ∧ rails ≤ maxRails)
    (hrank : rank < endpoints.length) (h : ¬ IndexPairing endpoints rails) :
    planRoutes endpoints rank rails = routesFrom rank rails endpoints[rank] 0 endpoints := by
  rw [planRoutes, if_neg (not_not.2 hrails), if_neg (indexPairingValid_iff.not.2 h),
    List.getElem?_eq_getElem hrank]

theorem indexRoutes_getElem? {world peer : Nat} (h : peer < world) :
    (indexRoutes world rank rails)[peer]? =
      some (if peer = rank then [] else (List.range rails).map fun h => (h, h)) := by
  rw [indexRoutes, List.getElem?_map, List.getElem?_range h, Option.map_some]

/-- The promise where index pairing is valid. -/
theorem plansBest_of_indexPairing (hrails : 1 ≤ rails ∧ rails ≤ maxRails)
    (hrank : rank < endpoints.length) (hindex : IndexPairing endpoints rails) :
    PlansBest endpoints rank rails hrank := by
  have hplan : planRoutes endpoints rank rails = .ok (indexRoutes endpoints.length rank rails) :=
    planRoutes_of_indexPairing hrails hindex
  have hlen : (indexRoutes endpoints.length rank rails).length = endpoints.length := by
    rw [indexRoutes, List.length_map, List.length_range]
  refine ⟨fun _ => ⟨_, hplan, hlen, fun peer hpeer hne => ?_⟩, fun h => absurd hindex h,
    fun h => absurd hindex h, fun routes hok => ?_, fun routes hok peer hpeer route hroute p hp => ?_⟩
  · rw [indexRoutes_getElem? hpeer, if_neg hne]
  · obtain rfl := Except.ok.inj (hplan.symm.trans hok)
    rw [indexRoutes_getElem? hrank, if_pos rfl]
  · obtain rfl := Except.ok.inj (hplan.symm.trans hok)
    have hroute := Option.some.inj ((indexRoutes_getElem? hpeer).symm.trans hroute)
    split at hroute
    · rw [← hroute] at hp
      cases hp
    · rw [← hroute] at hp
      obtain ⟨k, hk, rfl⟩ := List.mem_map.1 hp
      rw [List.mem_range] at hk
      have hlocal := hindex.1 _ (List.getElem_mem hrank)
      have hremote := hindex.1 _ (List.getElem_mem hpeer)
      exact ⟨by omega, by omega⟩

/-- The promise where the routes follow the subnets. -/
theorem plansBest_of_not_indexPairing (hrails : 1 ≤ rails ∧ rails ≤ maxRails)
    (hrank : rank < endpoints.length) (hindex : ¬ IndexPairing endpoints rails) :
    PlansBest endpoints rank rails hrank := by
  have hplan := planRoutes_of_not_indexPairing hrails hrank hindex
  have hcases := routesFrom_cases rank rails 0 endpoints[rank] endpoints
  refine ⟨fun h => absurd h hindex, fun _ => ⟨?_, ?_⟩, fun _ hall => ?_, fun routes hok => ?_,
    fun routes hok peer hpeer route hroute p hp => ?_⟩
  · rintro ⟨reached, peer, loc, rem, herr⟩
    rcases hcases with ⟨routes, hok, -⟩ | ⟨i, rem', reached', hi, hne, hbest, -⟩
    · rw [hplan, hok] at herr
      cases herr
    · obtain ⟨hlt, rfl⟩ := List.getElem?_eq_some_iff.1 hi
      rw [Nat.zero_add] at hne
      exact ⟨i, hlt, hne, bestMatching_eq_none.1 hbest⟩
  · rintro ⟨peer, hpeer, hne, hno⟩
    rcases hcases with ⟨routes, hok, -⟩ | ⟨i, rem', reached', -, -, -, herr⟩
    · obtain ⟨route, -, -, hbest⟩ := routesFrom_best hok (List.getElem?_eq_getElem hpeer)
      exact absurd ⟨_, (hbest hne).2.2.matching⟩ hno
    · exact ⟨reached', _, _, rem', hplan.trans herr⟩
  · rcases hcases with ⟨routes, hok, hlen⟩ | ⟨i, rem', reached', hi, hne, hbest, -⟩
    · refine ⟨routes, hplan.trans hok, hlen, fun peer hpeer hne => ?_⟩
      obtain ⟨route, hget, -, hbest⟩ := routesFrom_best hok (List.getElem?_eq_getElem hpeer)
      exact ⟨route, hget, hbest hne⟩
    · obtain ⟨hlt, rfl⟩ := List.getElem?_eq_some_iff.1 hi
      rw [Nat.zero_add] at hne
      exact absurd (hall i hlt hne) (bestMatching_eq_none.1 hbest)
  · rw [hplan] at hok
    obtain ⟨route, hget, hown, -⟩ := routesFrom_best hok (List.getElem?_eq_getElem hrank)
    rw [hget, hown rfl]
  · rw [hplan] at hok
    obtain ⟨route', hget, hown, hbest⟩ := routesFrom_best hok (List.getElem?_eq_getElem hpeer)
    obtain rfl : route' = route := Option.some.inj (hget.symm.trans hroute)
    by_cases hne : peer = rank
    · rw [hown hne] at hp
      cases hp
    · exact ((hbest hne).2.2.matching.candidate p (List.mem_toFinset.2 hp)).lt

end

/-- **The planner finds the best routes with distinct devices, or says there are none.** -/
theorem planRoutes_best (endpoints : Endpoints) (rank rails : Nat) (hrank : rank < endpoints.length)
    (hrails : rails = 1 ∨ rails = 2) : PlansBest endpoints rank rails hrank := by
  have hguard : 1 ≤ rails ∧ rails ≤ maxRails := by
    unfold maxRails
    omega
  by_cases hindex : IndexPairing endpoints rails
  · exact plansBest_of_indexPairing hguard hrank hindex
  · exact plansBest_of_not_indexPairing hguard hrank hindex

theorem planRoutes_best_crossed : PlansBest crossed 0 2 (by decide) :=
  planRoutes_best crossed 0 2 (by decide) (by decide)

end LlmkubeRuntimes.Roce
