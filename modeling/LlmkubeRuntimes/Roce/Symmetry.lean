import LlmkubeRuntimes.Roce.Routes

/-!
# Both ends of a link agree on its rail

Seen from the other end, a candidate is itself with its devices exchanged
(`Link.swap`). Keys are symmetric, and when no address is on two devices they
identify the candidate, so the sorted candidates of one end are those of the
other end exchanged; combinations, scores and choices follow.
-/

namespace LlmkubeRuntimes.Roce

def Link.swap (c : Link) : Link := ⟨c.key, c.r, c.l⟩

@[simp]
theorem Link.swap_swap (c : Link) : c.swap.swap = c := rfl

theorem Link.swap_injective : Function.Injective Link.swap := fun a b h => by
  rw [← Link.swap_swap a, h, Link.swap_swap]

/-! ## Candidates -/

/-- The address of device `l`. -/
def address (devices : List Endpoint) (l : Nat) : Option Nat :=
  ((devices[l]?).bind Endpoint.ipv4).map IPv4Interface.ip

theorem address_eq_some {devices : List Endpoint} {l : Nat} {x : Endpoint} {i : IPv4Interface}
    (hx : devices[l]? = some x) (hi : x.ipv4 = some i) : address devices l = some i.ip := by
  rw [address, hx, Option.bind_some, hi, Option.map_some]

/-- No address is on two devices of the two ranks. -/
structure Distinct (loc rem : List Endpoint) : Prop where
  left : ∀ l l' i, address loc l = some i → address loc l' = some i → l = l'
  right : ∀ r r' i, address rem r = some i → address rem r' = some i → r = r'
  across : ∀ l r i j, address loc l = some i → address rem r = some j → i ≠ j

theorem linkKey_eq_some {a b : Endpoint} {k : Key} : linkKey a b = some k ↔
    ∃ x y, a.ipv4 = some x ∧ b.ipv4 = some y ∧ x.network = y.network ∧
      k = Key.mk 0 x.network.networkAddress (min x.ip y.ip) (max x.ip y.ip) := by
  unfold linkKey sameLink
  cases ha : a.ipv4 <;> cases hb : b.ipv4 <;> simp [eq_comm]

theorem linkKey_comm (a b : Endpoint) : linkKey a b = linkKey b a := by
  have key : ∀ a b k, linkKey a b = some k → linkKey b a = some k := by
    intro a b k h
    obtain ⟨x, y, hx, hy, hnet, rfl⟩ := linkKey_eq_some.1 h
    exact linkKey_eq_some.2 ⟨y, x, hy, hx, hnet.symm, by rw [hnet, min_comm, max_comm]⟩
  exact Option.ext fun k => ⟨key a b k, key b a k⟩

theorem mem_verified {loc rem : List Endpoint} {c : Link} : c ∈ verified loc rem ↔
    ∃ x y, loc[c.l]? = some x ∧ rem[c.r]? = some y ∧ linkKey x y = some c.key := by
  obtain ⟨k, l, r⟩ := c
  simp only [verified, List.mem_flatMap, List.mem_filterMap, List.mem_range, Option.bind_eq_bind,
    Option.bind_eq_some_iff, Option.some.injEq, Link.mk.injEq]
  constructor
  · rintro ⟨l', -, r', -, x, hx, y, hy, k', hk, rfl, rfl, rfl⟩
    exact ⟨x, y, hx, hy, hk⟩
  · rintro ⟨x, y, hx, hy, hk⟩
    exact ⟨l, (List.getElem?_eq_some_iff.1 hx).1, r, (List.getElem?_eq_some_iff.1 hy).1,
      x, hx, y, hy, k, hk, rfl, rfl, rfl⟩

theorem mem_unverifiable {loc rem : List Endpoint} {c : Link} : c ∈ unverifiable loc rem ↔
    c.l = c.r ∧ c.key = Key.mk 1 c.l 0 0 ∧
      ∃ x y, loc[c.l]? = some x ∧ rem[c.l]? = some y ∧ uncheckable x y = true := by
  obtain ⟨k, l, r⟩ := c
  simp only [unverifiable, List.mem_filterMap, List.mem_range, Option.bind_eq_bind,
    Option.bind_eq_some_iff, Option.ite_none_right_eq_some, Option.some.injEq, Link.mk.injEq]
  constructor
  · rintro ⟨h, -, x, hx, y, hy, hu, rfl, rfl, rfl⟩
    exact ⟨rfl, rfl, x, y, hx, hy, hu⟩
  · rintro ⟨rfl, rfl, x, y, hx, hy, hu⟩
    have h1 := (List.getElem?_eq_some_iff.1 hx).1
    have h2 := (List.getElem?_eq_some_iff.1 hy).1
    exact ⟨l, by omega, x, hx, y, hy, hu, rfl, rfl, rfl⟩

theorem mem_verified_swap {loc rem : List Endpoint} {c : Link} :
    c.swap ∈ verified loc rem ↔ c ∈ verified rem loc := by
  rw [mem_verified, mem_verified]
  constructor
  · rintro ⟨x, y, hx, hy, hk⟩
    exact ⟨y, x, hy, hx, by rw [linkKey_comm]; exact hk⟩
  · rintro ⟨x, y, hx, hy, hk⟩
    exact ⟨y, x, hy, hx, by rw [linkKey_comm]; exact hk⟩

theorem uncheckable_comm (x y : Endpoint) : uncheckable x y = uncheckable y x := Bool.or_comm _ _

theorem mem_unverifiable_swap {loc rem : List Endpoint} {c : Link} :
    c.swap ∈ unverifiable loc rem ↔ c ∈ unverifiable rem loc := by
  rw [mem_unverifiable, mem_unverifiable]
  obtain ⟨k, l, r⟩ := c
  simp only [Link.swap]
  constructor
  · rintro ⟨rfl, hk, x, y, hx, hy, hu⟩
    exact ⟨rfl, hk, y, x, hy, hx, by rw [uncheckable_comm]; exact hu⟩
  · rintro ⟨rfl, hk, x, y, hx, hy, hu⟩
    exact ⟨rfl, hk, y, x, hy, hx, by rw [uncheckable_comm]; exact hu⟩

theorem Key.mk_inj {a b c d a' b' c' d' : Nat} :
    Key.mk a b c d = Key.mk a' b' c' d' ↔ a = a' ∧ b = b' ∧ c = c' ∧ d = d' := by
  simp [Key.mk, Prod.ext_iff]

/-- **A key identifies its candidate.** -/
theorem key_injective {loc rem : List Endpoint} (h : Distinct loc rem) {c d : Link}
    (hc : c ∈ verified loc rem ++ unverifiable loc rem)
    (hd : d ∈ verified loc rem ++ unverifiable loc rem) (hkey : c.key = d.key) : c = d := by
  rw [List.mem_append, mem_verified, mem_unverifiable] at hc hd
  obtain ⟨k, l, r⟩ := c
  obtain ⟨k', l', r'⟩ := d
  obtain rfl : k = k' := hkey
  simp only at hc hd
  rcases hc with ⟨x, y, hx, hy, hk⟩ | ⟨rfl, hk, -⟩ <;>
    rcases hd with ⟨x', y', hx', hy', hk'⟩ | ⟨rfl, hk', -⟩
  · obtain ⟨i, j, hi, hj, -, hkm⟩ := linkKey_eq_some.1 hk
    obtain ⟨i', j', hi', hj', -, hkm'⟩ := linkKey_eq_some.1 hk'
    obtain ⟨-, -, hmin, hmax⟩ := Key.mk_inj.1 (hkm.symm.trans hkm')
    have hxi := address_eq_some hx hi
    have hyj := address_eq_some hy hj
    have hxi' := address_eq_some hx' hi'
    have hyj' := address_eq_some hy' hj'
    have hne := h.across _ _ _ _ hxi hyj'
    have hip : i.ip = i'.ip := by omega
    have hjp : j.ip = j'.ip := by omega
    obtain rfl := h.left _ _ _ hxi (hip ▸ hxi')
    obtain rfl := h.right _ _ _ hyj (hjp ▸ hyj')
    rfl
  · obtain ⟨_, _, _, _, _, hkm⟩ := linkKey_eq_some.1 hk
    have := (Key.mk_inj.1 (hkm.symm.trans hk')).1
    omega
  · obtain ⟨_, _, _, _, _, hkm⟩ := linkKey_eq_some.1 hk'
    have := (Key.mk_inj.1 (hkm.symm.trans hk)).1
    omega
  · obtain ⟨-, rfl, -⟩ := Key.mk_inj.1 (hk.symm.trans hk')
    rfl

theorem nodup_links (loc rem : List Endpoint) :
    (verified loc rem ++ unverifiable loc rem).Nodup := by
  have hv : (verified loc rem).Nodup := by
    rw [verified, List.nodup_flatMap]
    refine ⟨fun l _ => List.Nodup.filterMap ?_ List.nodup_range, ?_⟩
    · intro r r' c hc hc'
      simp only [Option.bind_eq_bind, Option.mem_def, Option.bind_eq_some_iff,
        Option.some.injEq] at hc hc'
      obtain ⟨_, _, _, _, _, _, rfl⟩ := hc
      obtain ⟨_, _, _, _, _, _, heq⟩ := hc'
      exact (Link.mk.inj heq).2.2.symm
    · refine List.nodup_range.imp fun {l l'} hne c hc hc' => hne ?_
      simp only [List.mem_filterMap, Option.bind_eq_bind, Option.bind_eq_some_iff,
        Option.some.injEq] at hc hc'
      obtain ⟨_, _, _, _, _, _, _, _, rfl⟩ := hc
      obtain ⟨_, _, _, _, _, _, _, _, heq⟩ := hc'
      exact (Link.mk.inj heq).2.1.symm
  have hu : (unverifiable loc rem).Nodup := by
    refine List.Nodup.filterMap ?_ List.nodup_range
    intro h h' c hc hc'
    simp only [Option.bind_eq_bind, Option.mem_def, Option.bind_eq_some_iff,
      Option.ite_none_right_eq_some, Option.some.injEq] at hc hc'
    obtain ⟨_, _, _, _, _, rfl⟩ := hc
    obtain ⟨_, _, _, _, _, heq⟩ := hc'
    exact (Link.mk.inj heq).2.1.symm
  refine List.Nodup.append hv hu fun c hc hc' => ?_
  obtain ⟨x, y, -, -, hk⟩ := mem_verified.1 hc
  obtain ⟨-, hk', -⟩ := mem_unverifiable.1 hc'
  obtain ⟨_, _, _, _, _, hkm⟩ := linkKey_eq_some.1 hk
  have := (Key.mk_inj.1 (hkm.symm.trans hk')).1
  omega

/-! ## The sorted candidates -/

instance : Std.Total Link.le := ⟨fun _ _ => le_total (toLex (_, toLex (_, _))) _⟩

instance : IsTrans Link Link.le := ⟨fun _ _ _ => le_trans⟩

instance : Std.Antisymm Link.le := ⟨fun a b h1 h2 => by
  have := le_antisymm h1 h2
  simp only [EmbeddingLike.apply_eq_iff_eq, Prod.mk.injEq] at this
  obtain ⟨hk, hl, hr⟩ := this
  cases a
  cases b
  simp only at hk hl hr
  rw [hk, hl, hr]⟩

/-- Between candidates with different keys, the keys decide. -/
theorem Link.le_iff_of_key_ne {a b : Link} (h : a.key ≠ b.key) : a.le b ↔ a.key < b.key := by
  unfold Link.le
  rw [Prod.Lex.toLex_le_toLex]
  simp [h]

/-- **The candidates of the other end are the same, exchanged, in the same order.** -/
theorem candidates_swap {loc rem : List Endpoint} (h : Distinct loc rem) :
    candidates rem loc = (candidates loc rem).map Link.swap := by
  have hmap : (candidates loc rem).map Link.swap =
      ((verified loc rem ++ unverifiable loc rem).map Link.swap).insertionSort Link.le := by
    refine List.map_insertionSort Link.le Link.le Link.swap _ fun a ha b hb => ?_
    by_cases hkey : a.key = b.key
    · rw [key_injective h ha hb hkey]
      exact iff_of_true (refl_of Link.le b) (refl_of Link.le b.swap)
    · rw [Link.le_iff_of_key_ne hkey]
      exact (Link.le_iff_of_key_ne (a := a.swap) (b := b.swap) hkey).symm
  have hperm : (verified rem loc ++ unverifiable rem loc).Perm
      ((verified loc rem ++ unverifiable loc rem).map Link.swap) := by
    refine (List.perm_ext_iff_of_nodup (nodup_links rem loc)
      ((nodup_links loc rem).map Link.swap_injective)).2 fun c => ?_
    rw [List.mem_append, ← mem_verified_swap, ← mem_unverifiable_swap, ← List.mem_append]
    constructor
    · exact fun hc => List.mem_map.2 ⟨c.swap, hc, c.swap_swap⟩
    · intro hc
      obtain ⟨d, hd, rfl⟩ := List.mem_map.1 hc
      rw [Link.swap_swap]
      exact hd
  rw [hmap, candidates]
  refine List.Perm.eq_of_pairwise' (List.pairwise_insertionSort _ _)
    (List.pairwise_insertionSort _ _) ?_
  exact ((List.perm_insertionSort _ _).trans hperm).trans (List.perm_insertionSort _ _).symm

/-! ## Matchings -/

theorem combinations_map {α β : Type*} (f : α → β) (k : Nat) (xs : List α) :
    combinations k (xs.map f) = (combinations k xs).map (List.map f) := by
  induction xs generalizing k with
  | nil => cases k <;> rfl
  | cons x xs ih =>
    cases k with
    | zero => rfl
    | succ k =>
      rw [List.map_cons, combinations, combinations, ih, ih, List.map_append, List.map_map,
        List.map_map]
      rfl

theorem score_swap (combo : List Link) : score (combo.map Link.swap) = score combo := by
  simp only [score, List.map_map]
  rfl

/-- A best candidate seen from the other end. -/
def swapBest (b : Score × List Link) : Score × List Link := (b.1, b.2.map Link.swap)

theorem better_swap (rails : Nat) (best : Option (Score × List Link)) (combo : List Link) :
    better rails (best.map swapBest) (combo.map Link.swap) =
      (better rails best combo).map swapBest := by
  have hl : (combo.map Link.swap).map Link.l = combo.map Link.r := by
    rw [List.map_map]
    rfl
  have hr : (combo.map Link.swap).map Link.r = combo.map Link.l := by
    rw [List.map_map]
    rfl
  unfold better
  rw [hl, hr, score_swap]
  by_cases hdup : (combo.map Link.l).dedup.length < rails ∨ (combo.map Link.r).dedup.length < rails
  · rw [if_pos hdup, if_pos hdup.symm]
  rw [if_neg hdup, if_neg fun h => hdup h.symm]
  cases best with
  | none => rfl
  | some b =>
    simp only [Option.map_some, swapBest]
    split <;> rfl

theorem bestMatching_swap (links : List Link) (rails : Nat) :
    bestMatching (links.map Link.swap) rails =
      (bestMatching links rails).map (List.map Prod.swap) := by
  have hfold : ∀ (combos : List (List Link)) (best : Option (Score × List Link)),
      (combos.map (List.map Link.swap)).foldl (better rails) (best.map swapBest) =
        (combos.foldl (better rails) best).map swapBest := by
    intro combos
    induction combos with
    | nil => exact fun best => rfl
    | cons combo combos ih =>
      intro best
      rw [List.map_cons, List.foldl_cons, List.foldl_cons, better_swap, ih]
  have hnone := hfold (combinations rails links) none
  rw [Option.map_none] at hnone
  rw [bestMatching, combinations_map, hnone, bestMatching, Option.map_map, Option.map_map]
  refine congrArg (Option.map · _) (funext fun b => ?_)
  simp only [Function.comp_apply, swapBest, List.map_map]
  rfl

/-! ## Routes -/

/-- The address of device `l` of rank `a`. -/
def addressOf (endpoints : Endpoints) (a l : Nat) : Option Nat :=
  ((device endpoints a l).bind Endpoint.ipv4).map IPv4Interface.ip

/-- No IPv4 address occurs on two devices. -/
def AddressesDistinct (endpoints : Endpoints) : Prop :=
  ∀ a b l r i, addressOf endpoints a l = some i → addressOf endpoints b r = some i → a = b ∧ l = r

theorem AddressesDistinct.distinct {endpoints : Endpoints} (h : AddressesDistinct endpoints)
    {a b : Nat} (hab : a ≠ b) {loc rem : List Endpoint} (ha : endpoints[a]? = some loc)
    (hb : endpoints[b]? = some rem) : Distinct loc rem := by
  have hloc : ∀ l, address loc l = addressOf endpoints a l := fun l => by
    rw [addressOf, device, ha, Option.bind_some]
    rfl
  have hrem : ∀ r, address rem r = addressOf endpoints b r := fun r => by
    rw [addressOf, device, hb, Option.bind_some]
    rfl
  refine ⟨fun l l' i hl hl' => ?_, fun r r' i hr hr' => ?_, fun l r i j hl hr hij => ?_⟩
  · exact (h a a l l' i (hloc l ▸ hl) (hloc l' ▸ hl')).2
  · exact (h b b r r' i (hrem r ▸ hr) (hrem r' ▸ hr')).2
  · subst hij
    exact hab (h a b l r i (hloc l ▸ hl) (hrem r ▸ hr)).1

/-- What a successful loop over the peers returns. -/
theorem routesFrom_getElem? {rank rails peer : Nat} {loc : List Endpoint} {endpoints : Endpoints}
    {routes : List Route} (h : routesFrom rank rails loc peer endpoints = .ok routes) {i : Nat}
    {rem : List Endpoint} (hi : endpoints[i]? = some rem) :
    ∃ route, routes[i]? = some route ∧ routeTo rank rails loc (peer + i) rem = .ok route := by
  induction endpoints generalizing peer routes i with
  | nil => cases hi
  | cons rem' rest ih =>
    rw [routesFrom] at h
    cases hr : routeTo rank rails loc peer rem' with
    | error e =>
      rw [hr] at h
      cases h
    | ok route =>
      cases hrest : routesFrom rank rails loc (peer + 1) rest with
      | error e =>
        rw [hr, hrest] at h
        cases h
      | ok routes' =>
        rw [hr, hrest] at h
        cases h
        cases i with
        | zero =>
          cases hi
          exact ⟨route, rfl, hr⟩
        | succ i =>
          obtain ⟨route', hget, hto⟩ := ih hrest (i := i) hi
          exact ⟨route', hget, by rw [← hto, Nat.add_right_comm, Nat.add_assoc]⟩

/-- A successful route to another rank is the best matching. -/
theorem routeTo_ok {rank rails peer : Nat} {loc rem : List Endpoint} {route : Route}
    (h : routeTo rank rails loc peer rem = .ok route) (hne : peer ≠ rank) :
    bestMatching (candidates loc rem) rails = some route := by
  rw [routeTo, if_neg hne] at h
  split at h
  · cases h
  next heq =>
    cases h
    exact heq

/-- **Both ends of a link agree on its rail.** -/
theorem planRoutes_swap {endpoints : Endpoints} {rails a b : Nat} {fromA fromB : List Route}
    (haddr : AddressesDistinct endpoints) (hab : a ≠ b) (ha : a < endpoints.length)
    (hb : b < endpoints.length) (hA : planRoutes endpoints a rails = .ok fromA)
    (hB : planRoutes endpoints b rails = .ok fromB) :
    ∃ route, fromA[b]? = some route ∧ fromB[a]? = some (route.map Prod.swap) := by
  unfold planRoutes at hA hB
  split at hA
  · cases hA
  next hrails =>
  rw [if_neg hrails] at hB
  by_cases hvalid : indexPairingValid endpoints rails
  · rw [if_pos hvalid] at hA hB
    cases hA
    cases hB
    refine ⟨(List.range rails).map fun h => (h, h), ?_, ?_⟩
    · simp [indexRoutes, hb, hab.symm]
    · simp [indexRoutes, ha, hab, Function.comp_def]
  · rw [if_neg hvalid] at hA hB
    rw [List.getElem?_eq_getElem ha] at hA
    rw [List.getElem?_eq_getElem hb] at hB
    obtain ⟨route, hget, hto⟩ := routesFrom_getElem? hA (List.getElem?_eq_getElem hb)
    obtain ⟨route', hget', hto'⟩ := routesFrom_getElem? hB (List.getElem?_eq_getElem ha)
    rw [Nat.zero_add] at hto hto'
    have hbest := routeTo_ok hto hab.symm
    have hbest' := routeTo_ok hto' hab
    have hdist := haddr.distinct hab (List.getElem?_eq_getElem ha) (List.getElem?_eq_getElem hb)
    rw [candidates_swap hdist, bestMatching_swap, hbest, Option.map_some] at hbest'
    exact ⟨route, hget, by rw [hget', hbest']⟩

/-- Two nodes cabled crosswise: device 0 of each to device 1 of the other. -/
def crossed : Endpoints :=
  [[⟨"roce0", some ⟨0x0a000001, 30, by decide, by decide⟩⟩,
      ⟨"roce1", some ⟨0x0a000101, 30, by decide, by decide⟩⟩],
    [⟨"roce0", some ⟨0x0a000102, 30, by decide, by decide⟩⟩,
      ⟨"roce1", some ⟨0x0a000002, 30, by decide, by decide⟩⟩]]

theorem crossed_distinct : AddressesDistinct crossed := by
  have hmem : ∀ a l i, addressOf crossed a l = some i → (a, l, i) ∈
      [(0, 0, 0x0a000001), (0, 1, 0x0a000101), (1, 0, 0x0a000102), (1, 1, 0x0a000002)] := by
    intro a l i h
    rcases a with - | - | a <;> rcases l with - | - | l <;> cases h <;> decide
  intro a b l r i h1 h2
  have hdec : ∀ x ∈ [(0, 0, 0x0a000001), (0, 1, 0x0a000101), (1, 0, 0x0a000102), (1, 1, 0x0a000002)],
      ∀ y ∈ [(0, 0, 0x0a000001), (0, 1, 0x0a000101), (1, 0, 0x0a000102), (1, 1, 0x0a000002)],
        x.2.2 = y.2.2 → x.1 = y.1 ∧ x.2.1 = y.2.1 := by decide
  exact hdec _ (hmem a l i h1) _ (hmem b r i h2) rfl

theorem planRoutes_swap_crossed : ∃ route, ([[], [(0, 1), (1, 0)]] : List Route)[1]? = some route ∧
    ([[(1, 0), (0, 1)], []] : List Route)[0]? = some (route.map Prod.swap) :=
  planRoutes_swap crossed_distinct (by decide) (by decide) (by decide)
    (rfl : planRoutes crossed 0 2 = .ok [[], [(0, 1), (1, 0)]])
    (rfl : planRoutes crossed 1 2 = .ok [[(1, 0), (0, 1)], []])

end LlmkubeRuntimes.Roce
