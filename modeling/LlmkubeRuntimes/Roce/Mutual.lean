import LlmkubeRuntimes.Roce.Connect
import Mathlib.Data.List.GetD
import Mathlib.Data.List.MinMax
import Mathlib.Order.Nat
import Mathlib.Tactic.Choose

/-!
# Connected queue pairs are mutual

* `Ranks`: ranks that opened their devices and exchanged their blobs;
* `Mirrored`: every rank's table for a peer is the peer's table with the ends of
  each link exchanged, in range and with distinct local devices;
* `Railed`: all peers of a rank are reached over the same number of rails;
* `connect_mutual`: then every rank is accepted, and the two ends of a rail are
  connected to each other.

The flat table is read back in `flattenFrom_spec`; the two loops of
`roce_connect` are followed in `checkRoutes_spec` and `connectRoutes_spec`.
-/

namespace LlmkubeRuntimes.Roce

open LlmkubeRuntimes.Lib

/-! ## The flat table -/

/-- The link that carries rail `k` to `p`. -/
def link (routes : RouteTable) (p k : Nat) : Int × Int := (routes.getD p []).getD k (0, 0)

theorem flatMap_pairs (f g : Nat → Int) (n : Nat) :
    ((List.range n).flatMap fun k => [f k, g k]).length = n * 2 ∧
      ∀ k < n, ((List.range n).flatMap fun k => [f k, g k]).getD (k * 2) 0 = f k ∧
        ((List.range n).flatMap fun k => [f k, g k]).getD (k * 2 + 1) 0 = g k := by
  induction n with
  | zero => exact ⟨rfl, fun k hk => absurd hk (Nat.not_lt_zero k)⟩
  | succ n ih =>
    obtain ⟨hlen, hget⟩ := ih
    rw [List.range_succ, List.flatMap_append, List.flatMap_singleton]
    refine ⟨by rw [List.length_append, hlen]; exact (Nat.succ_mul n 2).symm, fun k hk => ?_⟩
    by_cases hlast : k = n
    · subst hlast
      rw [List.getD_append_right _ _ _ _ (by omega), List.getD_append_right _ _ _ _ (by omega), hlen,
        Nat.sub_self, Nat.add_sub_cancel_left]
      exact ⟨rfl, rfl⟩
    · rw [List.getD_append _ _ _ _ (by omega), List.getD_append _ _ _ _ (by omega)]
      exact hget k (by omega)

theorem flatLinks_length (rank rails peer : Nat) (links : List (Int × Int)) :
    (flatLinks rank rails peer links).length = rails * 2 := (flatMap_pairs _ _ rails).1

theorem flatLinks_spec {rank rails peer k : Nat} (links : List (Int × Int)) (hne : peer ≠ rank)
    (hk : k < rails) :
    (flatLinks rank rails peer links).getD (k * 2) 0 = (links.getD k (0, 0)).1 ∧
      (flatLinks rank rails peer links).getD (k * 2 + 1) 0 = (links.getD k (0, 0)).2 := by
  have h := (flatMap_pairs (fun k => (if peer ≠ rank then links.getD k (0, 0) else (0, 0)).1)
    (fun k => (if peer ≠ rank then links.getD k (0, 0) else (0, 0)).2) rails).2 k hk
  simp only [if_pos hne] at h
  simpa only [flatLinks, if_pos hne] using h

/-- **The flat table lists the links, peer by peer and rail by rail.** -/
theorem flattenFrom_spec (rank rails peer : Nat) (routes : RouteTable)
    (h : ∀ i < routes.length, peer + i ≠ rank → (routes.getD i []).length = rails) :
    ∃ flat, flattenFrom rank rails peer routes = .ok flat ∧
      ∀ i < routes.length, peer + i ≠ rank → ∀ k < rails,
        flat.getD ((i * rails + k) * 2) 0 = (link routes i k).1 ∧
          flat.getD ((i * rails + k) * 2 + 1) 0 = (link routes i k).2 := by
  induction routes generalizing peer with
  | nil => exact ⟨[], rfl, fun i hi => absurd hi (Nat.not_lt_zero i)⟩
  | cons links rest ih =>
    obtain ⟨flat, hflat, hget⟩ := ih (peer + 1) fun i hi hne =>
      h (i + 1) (Nat.succ_lt_succ hi) (by omega)
    have hguard : ¬ (peer ≠ rank ∧ links.length ≠ rails) := fun hbad =>
      hbad.2 (h 0 (Nat.zero_lt_succ _) hbad.1)
    refine ⟨flatLinks rank rails peer links ++ flat, ?_, fun i hi hne k hk => ?_⟩
    · rw [flattenFrom, if_neg hguard, hflat]
      rfl
    · have hlen := flatLinks_length rank rails peer links
      cases i with
      | zero =>
        rw [Nat.zero_mul, Nat.zero_add, List.getD_append _ _ _ _ (by omega),
          List.getD_append _ _ _ _ (by omega)]
        exact flatLinks_spec links hne hk
      | succ i =>
        have hindex : ((i + 1) * rails + k) * 2 = rails * 2 + (i * rails + k) * 2 := by
          rw [Nat.succ_mul]
          omega
        rw [hindex, Nat.add_assoc, List.getD_append_right _ _ _ _ (by omega),
          List.getD_append_right _ _ _ _ (by omega), hlen, Nat.add_sub_cancel_left,
          Nat.add_sub_cancel_left]
        exact hget i (Nat.lt_of_succ_lt_succ hi) (by omega) k hk

theorem toInt32_of_lt {z : Int} (h0 : 0 ≤ z) (h1 : z < roceMaxHcas) : toInt32 z = z := by
  unfold roceMaxHcas at h1
  unfold toInt32
  apply Int.bmod_eq_of_le <;> omega

theorem getD_map_toInt32 (flat : List Int) (i : Nat) :
    (flat.map toInt32).getD i 0 = toInt32 (flat.getD i 0) := by
  rw [List.getD_eq_getElem?_getD, List.getElem?_map, List.getD_eq_getElem?_getD]
  cases flat[i]? <;> rfl

/-! ## The two loops -/

@[simp]
theorem set2_self {α : Type} (t : Nat → Nat → α) (i j : Nat) (x : α) : set2 t i j x i j = x :=
  if_pos ⟨rfl, rfl⟩

theorem set2_of_ne {α : Type} (t : Nat → Nat → α) {i j i' j' : Nat} (x : α)
    (h : ¬ (i' = i ∧ j' = j)) : set2 t i j x i' j' = t i' j' := if_neg h

section Loops

variable {c : Ctx} {flat : List Int} {rails : Nat}

/-- Every link of the flat table is in range. -/
def InRange (c : Ctx) (flat : List Int) (rails : Nat) : Prop :=
  ∀ p < c.world, p ≠ c.rank → ∀ k < rails,
    (0 ≤ localOf flat rails p k ∧ localOf flat rails p k < c.nHca) ∧
      0 ≤ remoteOf flat rails p k ∧ remoteOf flat rails p k < roceMaxHcas

/-- The rails to one peer have distinct local devices. -/
def DistinctRails (c : Ctx) (flat : List Int) (rails : Nat) : Prop :=
  ∀ p < c.world, p ≠ c.rank → ∀ j k, j < k → k < rails →
    localOf flat rails p j ≠ localOf flat rails p k

theorem checkRail_ok {p k : Nat} {t : Nat → Nat → Int}
    (hl : 0 ≤ localOf flat rails p k ∧ localOf flat rails p k < c.nHca)
    (hr : 0 ≤ remoteOf flat rails p k ∧ remoteOf flat rails p k < roceMaxHcas)
    (hdist : ∀ j < k, t p j ≠ localOf flat rails p k) :
    checkRail c flat rails p k t = .ok (set2 t p k (localOf flat rails p k)) := by
  have hfind : ((List.range k).find? fun j => t p j = localOf flat rails p k) = none := by
    refine List.find?_eq_none.2 fun j hj => ?_
    rw [decide_eq_true_iff]
    exact hdist j (List.mem_range.1 hj)
  unfold checkRail
  rw [if_neg (by omega), hfind]

/-- **The table passes the checks**, and the context remembers the local devices. -/
theorem checkRoutes_spec (hin : InRange c flat rails) (hdist : DistinctRails c flat rails)
    (t : Nat → Nat → Int) :
    ∃ t', applyAll (checkPeer c flat rails) (List.range c.world) t = .ok t' ∧
      ∀ p < c.world, p ≠ c.rank → ∀ k < rails, t' p k = localOf flat rails p k := by
  refine applyAll_range _ _ _ (fun n (t' : Nat → Nat → Int) => ∀ p < n, p ≠ c.rank → ∀ k < rails,
    t' p k = localOf flat rails p k) (fun p hp => absurd hp (Nat.not_lt_zero p)) ?_
  intro n hn t₁ h₁
  by_cases hrank : n = c.rank
  · refine ⟨t₁, if_pos hrank, fun p hp hne k hk => h₁ p ?_ hne k hk⟩
    omega
  rw [checkPeer, if_neg hrank]
  -- The rails of peer `n`: those checked are set, and the peers before it are kept.
  obtain ⟨t₂, hrun, hset, hkept⟩ := applyAll_range (checkRail c flat rails n) rails t₁
    (fun m t' => (∀ k < m, t' n k = localOf flat rails n k) ∧ ∀ p ≠ n, t' p = t₁ p)
    ⟨fun k hk => absurd hk (Nat.not_lt_zero k), fun _ _ => rfl⟩ (by
      rintro m hm t' ⟨hset, hkept⟩
      obtain ⟨hl, hr⟩ := hin n hn hrank m hm
      refine ⟨_, checkRail_ok hl hr fun j hj => ?_, fun k hk => ?_, fun p hp => ?_⟩
      · rw [hset j hj]
        exact hdist n hn hrank j m hj hm
      · by_cases hkm : k = m
        · rw [hkm, set2_self]
        · rw [set2_of_ne _ _ fun h => hkm h.2, hset k (by omega)]
      · rw [← hkept p hp]
        exact funext fun k => set2_of_ne _ _ fun h => hp h.1)
  refine ⟨t₂, hrun, fun p hp hne k hk => ?_⟩
  by_cases hpn : p = n
  · rw [hpn, hset k hk]
  · rw [hkept p hpn, h₁ p (by omega) hne k hk]

/-- The queue pair that `connect_qp` connects for rail `k` to `p`. -/
def queuePair (c : Ctx) (flat : List Int) (rails : Nat) (all : List Blob) (railHca : Nat → Nat → Int)
    (p k : Nat) : QueuePair :=
  ⟨(railHca p k).toNat, p,
    connectQp c (railHca p k).toNat (remoteOf flat rails p k).toNat (all.getD p default)⟩

variable {modify : Nat → Nat → QpAttr → Bool} {all : List Blob}

variable (c flat rails all) in
/-- **One queue pair per peer and rail is connected**, with the peer's rkey of its other end. -/
theorem connectRoutes_spec (hmodify : ∀ h p attr, modify h p attr = true) (s : Links) :
    ∃ s', applyAll (connectPeer c flat rails modify all) (List.range c.world) s = .ok s' ∧
      s'.railHca = s.railHca ∧
      s'.qps = s.qps ++ ((List.range c.world).filter (· ≠ c.rank)).flatMap (fun p =>
        (List.range rails).map (queuePair c flat rails all s.railHca p)) ∧
      ∀ p < c.world, p ≠ c.rank → ∀ k < rails,
        s'.peerRkey k p = (all.getD p default).rkey (remoteOf flat rails p k).toNat := by
  refine applyAll_range _ _ _ (fun n (s' : Links) => s'.railHca = s.railHca ∧
    s'.qps = s.qps ++ ((List.range n).filter (· ≠ c.rank)).flatMap (fun p =>
      (List.range rails).map (queuePair c flat rails all s.railHca p)) ∧
    ∀ p < n, p ≠ c.rank → ∀ k < rails,
      s'.peerRkey k p = (all.getD p default).rkey (remoteOf flat rails p k).toNat)
    ⟨rfl, (List.append_nil _).symm, fun p hp => absurd hp (Nat.not_lt_zero p)⟩ ?_
  rintro n hn s₁ ⟨hrail, hqps, hrkey⟩
  rw [List.range_succ, List.filter_append, List.flatMap_append]
  by_cases hrank : n = c.rank
  · refine ⟨s₁, if_pos hrank, hrail, ?_, fun p hp hne k hk => hrkey p (by omega) hne k hk⟩
    rw [hqps, List.filter_cons_of_neg (by simpa using hrank)]
    simp
  rw [connectPeer, if_neg hrank]
  obtain ⟨s₂, hrun, hrail₂, hqps₂, hset, hkept⟩ := applyAll_range
    (connectRail c flat rails modify all n) rails
    { s₁ with
      peerAddr := fun q => if q = n then (all.getD n default).regionAddr else s₁.peerAddr q }
    (fun m s' => s'.railHca = s.railHca ∧
      s'.qps = s₁.qps ++ (List.range m).map (queuePair c flat rails all s.railHca n) ∧
      (∀ k < m, s'.peerRkey k n = (all.getD n default).rkey (remoteOf flat rails n k).toNat) ∧
      ∀ p ≠ n, ∀ k, s'.peerRkey k p = s₁.peerRkey k p)
    ⟨hrail, (List.append_nil _).symm, fun k hk => absurd hk (Nat.not_lt_zero k), fun _ _ _ => rfl⟩ (by
      rintro m hm s' ⟨hrail', hqps', hset, hkept⟩
      refine ⟨_, if_pos (hmodify _ _ _), hrail', ?_, fun k hk => ?_, fun p hp k => ?_⟩
      · show s'.qps ++ [_] = _
        rw [hqps', List.range_succ, List.map_append, List.append_assoc, hrail']
        rfl
      · by_cases hkm : k = m
        · rw [hkm]
          exact set2_self _ _ _ _
        · exact (set2_of_ne _ _ fun h => hkm h.1).trans (hset k (by omega))
      · exact (set2_of_ne _ _ fun h => hp h.2).trans (hkept p hp k))
  refine ⟨s₂, hrun, hrail₂, ?_, fun p hp hne k hk => ?_⟩
  · rw [hqps₂, hqps, List.filter_cons_of_pos (by simpa using hrank)]
    simp
  · by_cases hpn : p = n
    · rw [hpn, hset k hk]
    · rw [hkept p hpn k, hrkey p (by omega) hne k hk]

end Loops

/-! ## Ranks and their tables -/

/-- What `roce_local_blob` writes of the devices of a context. -/
structure Describes (c : Ctx) (b : Blob) : Prop where
  regionAddr : b.regionAddr = c.regionAddr
  rkey : ∀ h < c.nHca, b.rkey h = (c.hca h).rkey
  mtu : ∀ h < c.nHca, b.mtu h = (c.hca h).mtu
  lid : ∀ h < c.nHca, b.lid h = (c.hca h).lid
  gid : ∀ h < c.nHca, b.gid h = (c.hca h).gid
  qpNum : ∀ h < c.nHca, ∀ p, b.qpNum h p = (c.hca h).qpNum p

/-- Ranks that opened their devices and exchanged their blobs, before they connect. -/
structure Ranks (world : Nat) where
  ctx : Nat → Ctx
  links : Nat → Links
  blob : Nat → Blob
  modify : Nat → Nat → Nat → QpAttr → Bool
  world_eq : ∀ a < world, (ctx a).world = world
  rank_eq : ∀ a < world, (ctx a).rank = a
  fresh : ∀ a < world, (links a).qps = []
  describes : ∀ a < world, Describes (ctx a) (blob a)
  modifies : ∀ a h p attr, modify a h p attr = true

/-- The blobs in rank order. -/
def Ranks.blobs {world : Nat} (R : Ranks world) : List (Option Blob) :=
  (List.range world).map fun a => some (R.blob a)

/-- The call of `Proxy.connect` at rank `a`. -/
def Ranks.connect {world : Nat} (R : Ranks world) (tables : Nat → RouteTable) (a : Nat) :
    Except ConnectError Links :=
  proxyConnect (R.ctx a) (R.modify a) (R.links a) R.blobs (tables a)

/-- A device index below `n`. -/
def IsDevice (n : Nat) (z : Int) : Prop := 0 ≤ z ∧ z < n

instance (n : Nat) (z : Int) : Decidable (IsDevice n z) := inferInstanceAs (Decidable (_ ∧ _))

/-- Tables that agree about every link, with its devices in range and the local devices of a
peer's rails distinct. -/
structure Mirrored {world : Nat} (R : Ranks world) (tables : Nat → RouteTable) : Prop where
  length : ∀ a < world, (tables a).length = world
  mirror : ∀ a < world, ∀ b < world, a ≠ b →
    (tables b).getD a [] = ((tables a).getD b []).map Prod.swap
  inRange : ∀ a < world, ∀ b < world, a ≠ b → ∀ l ∈ (tables a).getD b [],
    IsDevice (R.ctx a).nHca l.1 ∧ IsDevice (R.ctx b).nHca l.2
  distinct : ∀ a < world, ∀ b < world, a ≠ b → (((tables a).getD b []).map Prod.fst).Nodup

/-- Every peer is reached over `rails` rails, and the own entry has no more. -/
structure Railed (world rails : Nat) (tables : Nat → RouteTable) : Prop where
  every : ∀ a < world, ∀ b < world, a ≠ b → ((tables a).getD b []).length = rails
  own : ∀ a < world, ((tables a).getD a []).length ≤ rails

theorem railCount_eq {rails : Nat} {routes : RouteTable} (hle : ∀ l ∈ routes, l.length ≤ rails)
    (hex : ∃ l ∈ routes, l.length = rails) : railCount routes = rails := by
  obtain ⟨l, hl, hlen⟩ := hex
  refine Nat.le_antisymm (List.max_le_of_forall_le _ rails fun n hn => ?_)
    (List.le_max_of_le (List.mem_map.2 ⟨l, hl, rfl⟩) hlen.ge)
  obtain ⟨l', hl', rfl⟩ := List.mem_map.1 hn
  exact hle l' hl'

section Ranks

variable {world rails : Nat} {R : Ranks world} {tables : Nat → RouteTable}

theorem blobs_getD {p : Nat} (hp : p < world) : (R.blobs.filterMap id).getD p default = R.blob p := by
  rw [Ranks.blobs, List.filterMap_map]
  show ((List.range world).filterMap (some ∘ R.blob)).getD p default = _
  rw [List.filterMap_eq_map, List.getD_eq_getElem?_getD, List.getElem?_map, List.getElem?_range hp]
  rfl

theorem railCount_railed (hworld : 2 ≤ world) (hm : Mirrored R tables)
    (hr : Railed world rails tables) {a : Nat} (ha : a < world) : railCount (tables a) = rails := by
  have hmem : ∀ b < world, (tables a).getD b [] ∈ tables a := fun b hb => by
    rw [← hm.length a ha] at hb
    rw [List.getD_eq_getElem _ _ hb]
    exact List.getElem_mem hb
  obtain ⟨b, hb, hne⟩ : ∃ b < world, a ≠ b := by
    by_cases h0 : a = 0
    · exact ⟨1, by omega, by omega⟩
    · exact ⟨0, by omega, by omega⟩
  refine railCount_eq (fun l hl => ?_) ⟨_, hmem b hb, hr.every a ha b hb hne⟩
  obtain ⟨i, hi, rfl⟩ := List.getElem_of_mem hl
  have hget := List.getD_eq_getElem (tables a) [] hi
  rw [hm.length a ha] at hi
  rw [← hget]
  by_cases hai : a = i
  · exact hai ▸ hr.own a ha
  · exact (hr.every a ha i hi hai).le

/-- The link of a rail is listed in the table. -/
theorem link_mem (hr : Railed world rails tables) {a b k : Nat} (ha : a < world) (hb : b < world)
    (hne : a ≠ b) (hk : k < rails) : link (tables a) b k ∈ (tables a).getD b [] := by
  rw [← hr.every a ha b hb hne] at hk
  rw [link, List.getD_eq_getElem _ _ hk]
  exact List.getElem_mem hk

/-- The two ends of a rail list it with its devices exchanged. -/
theorem link_swap (hm : Mirrored R tables) (hr : Railed world rails tables) {a b k : Nat}
    (ha : a < world) (hb : b < world) (hne : a ≠ b) (hk : k < rails) :
    link (tables b) a k = (link (tables a) b k).swap := by
  have hka := hk
  have hkb := hk
  rw [← hr.every a ha b hb hne] at hka
  rw [← hr.every b hb a ha hne.symm] at hkb
  rw [link, link, List.getD_eq_getElem _ _ hka, List.getD_eq_getElem _ _ hkb]
  simp only [hm.mirror a ha b hb hne, List.getElem_map]

theorem link_distinct (hm : Mirrored R tables) (hr : Railed world rails tables) {a b j k : Nat}
    (ha : a < world) (hb : b < world) (hne : a ≠ b) (hjk : j < k) (hk : k < rails) :
    (link (tables a) b j).1 ≠ (link (tables a) b k).1 := by
  rw [← hr.every a ha b hb hne] at hk
  have hj : j < ((tables a).getD b []).length := hjk.trans hk
  have hpair := List.pairwise_iff_getElem.1 (hm.distinct a ha b hb hne) j k
    (by rwa [List.length_map]) (by rwa [List.length_map]) hjk
  rw [List.getElem_map, List.getElem_map] at hpair
  rwa [link, link, List.getD_eq_getElem _ _ hj, List.getD_eq_getElem _ _ hk]

/-- The local devices of a peer's rails, as queue pair indices. -/
theorem link_toNat_inj (hm : Mirrored R tables) (hr : Railed world rails tables) {a b j k : Nat}
    (ha : a < world) (hb : b < world) (hne : a ≠ b) (hj : j < rails) (hk : k < rails)
    (h : (link (tables a) b j).1.toNat = (link (tables a) b k).1.toNat) : j = k := by
  have hj0 := (hm.inRange a ha b hb hne _ (link_mem hr ha hb hne hj)).1.1
  have hk0 := (hm.inRange a ha b hb hne _ (link_mem hr ha hb hne hk)).1.1
  rcases lt_trichotomy j k with hlt | heq | hgt
  · exact absurd (by omega) (link_distinct hm hr ha hb hne hlt hk)
  · exact heq
  · exact absurd (by omega) (link_distinct hm hr ha hb hne hgt hj)

/-- What `roce_connect` reads in the flat table of a rank. -/
def Reads (world rails a : Nat) (routes : RouteTable) (flat : List Int) : Prop :=
  ∀ b < world, b ≠ a → ∀ k < rails,
    localOf flat rails b k = (link routes b k).1 ∧ remoteOf flat rails b k = (link routes b k).2

/-- The table of a rank is flattened, and read back as it is. -/
theorem flat_reads (hm : Mirrored R tables) (hr : Railed world rails tables) {a : Nat}
    (ha : a < world) : ∃ flat, flattenFrom a rails 0 (tables a) = .ok flat ∧
      Reads world rails a (tables a) (flat.map toInt32) := by
  obtain ⟨flat, hflat, hget⟩ := flattenFrom_spec a rails 0 (tables a)
    fun i hi hne => hr.every a ha i (hm.length a ha ▸ hi) (by omega)
  rw [hm.length a ha] at hget
  refine ⟨flat, hflat, fun b hb hne k hk => ?_⟩
  obtain ⟨hl, hrem⟩ := hget b hb (by omega) k hk
  obtain ⟨⟨hl0, hl1⟩, hr0, hr1⟩ := hm.inRange a ha b hb hne.symm _ (link_mem hr ha hb hne.symm hk)
  have hla := (R.ctx a).nHca_le
  have hlb := (R.ctx b).nHca_le
  rw [localOf, remoteOf, getD_map_toInt32, getD_map_toInt32, hl, hrem,
    toInt32_of_lt hl0 (by omega), toInt32_of_lt hr0 (by omega)]
  exact ⟨rfl, rfl⟩

theorem Reads.inRange (hm : Mirrored R tables) (hr : Railed world rails tables) {a : Nat}
    (ha : a < world) {flat : List Int} (h : Reads world rails a (tables a) flat) :
    InRange (R.ctx a) flat rails := by
  intro b hb hne k hk
  rw [R.world_eq a ha] at hb
  rw [R.rank_eq a ha] at hne
  obtain ⟨hl, hrem⟩ := h b hb hne k hk
  obtain ⟨hloc, hr0, hr1⟩ := hm.inRange a ha b hb (Ne.symm hne) _
    (link_mem hr ha hb (Ne.symm hne) hk)
  have hlb := (R.ctx b).nHca_le
  rw [hl, hrem]
  exact ⟨hloc, hr0, by omega⟩

theorem Reads.distinct (hm : Mirrored R tables) (hr : Railed world rails tables) {a : Nat}
    (ha : a < world) {flat : List Int} (h : Reads world rails a (tables a) flat) :
    DistinctRails (R.ctx a) flat rails := by
  intro b hb hne j k hjk hk
  rw [R.world_eq a ha] at hb
  rw [R.rank_eq a ha] at hne
  rw [(h b hb hne j (hjk.trans hk)).1, (h b hb hne k hk).1]
  exact link_distinct hm hr ha hb (Ne.symm hne) hjk hk

/-- The queue pair that carries rail `k` from rank `a` to rank `b`. -/
def Ranks.queuePair {world : Nat} (R : Ranks world) (tables : Nat → RouteTable) (a b k : Nat) :
    QueuePair :=
  let l := link (tables a) b k
  ⟨l.1.toNat, b, connectQp (R.ctx a) l.1.toNat l.2.toNat (R.blob b)⟩

/-- The queue pairs of a rank, peer by peer and rail by rail. -/
def Ranks.queuePairs {world : Nat} (R : Ranks world) (tables : Nat → RouteTable) (rails a : Nat) :
    List QueuePair :=
  ((List.range world).filter (· ≠ a)).flatMap fun b =>
    (List.range rails).map (R.queuePair tables a b)

theorem mem_peers {a b : Nat} : b ∈ (List.range world).filter (· ≠ a) ↔ b < world ∧ b ≠ a := by
  rw [List.mem_filter, List.mem_range, decide_eq_true_iff]

/-- No queue pair is connected twice. -/
theorem queuePairs_nodup (hm : Mirrored R tables) (hr : Railed world rails tables) {a : Nat}
    (ha : a < world) : ((R.queuePairs tables rails a).map fun q => (q.h, q.p)).Nodup := by
  rw [Ranks.queuePairs, List.map_flatMap]
  refine List.nodup_flatMap.2 ⟨fun b hb => ?_, ?_⟩
  · obtain ⟨hb, hne⟩ := mem_peers.1 hb
    rw [List.map_map]
    refine List.Nodup.map_on (fun j hj k hk hjk => ?_) List.nodup_range
    exact link_toNat_inj hm hr ha hb hne.symm (List.mem_range.1 hj) (List.mem_range.1 hk)
      (Prod.mk.inj hjk).1
  · refine (List.nodup_range.filter _).imp fun {b b'} hbb' q hq hq' => hbb' ?_
    simp only [List.map_map, List.mem_map] at hq hq'
    obtain ⟨k, -, rfl⟩ := hq
    obtain ⟨k', -, heq⟩ := hq'
    exact (Prod.mk.inj heq).2.symm

/-- **One rank is accepted**: its rails use the listed local devices, one queue pair for each
peer and rail is connected, and the rkeys are those of the peers' devices. -/
theorem connect_rank (hworld : 2 ≤ world) (hrails : 1 ≤ rails ∧ rails ≤ roceMaxRails)
    (hm : Mirrored R tables) (hr : Railed world rails tables) {a : Nat} (ha : a < world) :
    ∃ s, R.connect tables a = .ok s ∧ s.qps = R.queuePairs tables rails a ∧
      ∀ b < world, b ≠ a → ∀ k < rails, s.railHca b k = (link (tables a) b k).1 ∧
        s.peerRkey k b = (R.blob b).rkey (link (tables a) b k).2.toNat := by
  obtain ⟨flat, hflat, hreads⟩ := flat_reads hm hr ha
  obtain ⟨t, hcheck, ht⟩ := checkRoutes_spec (hreads.inRange hm hr ha) (hreads.distinct hm hr ha)
    (R.links a).railHca
  obtain ⟨s, hconn, hrail, hqps, hrkey⟩ := connectRoutes_spec (R.ctx a)
    (flat.map toInt32) rails (R.blobs.filterMap id) (R.modifies a)
    { R.links a with railHca := t, nRail := rails }
  have hworld' := R.world_eq a ha
  have hrank := R.rank_eq a ha
  rw [hworld', hrank] at ht hqps hrkey
  have hblobs : ¬ (R.blobs.length ≠ (R.ctx a).world ∨ R.blobs.any Option.isNone) := by
    simp [Ranks.blobs, hworld']
  have hlen : (R.blobs.filterMap id).length = world := by simp [Ranks.blobs]
  refine ⟨s, ?_, ?_, fun b hb hne k hk => ⟨?_, ?_⟩⟩
  · rw [Ranks.connect, proxyConnect, if_neg hblobs, if_neg (by rw [hm.length a ha, hworld']; simp),
      hrank]
    simp only [railCount_railed hworld hm hr ha, hflat]
    show roceConnect _ _ _ _ _ _ = _
    rw [roceConnect, if_neg (by rw [hlen, hworld']; simp), if_neg (by omega), hcheck]
    exact hconn
  · rw [hqps]
    show (R.links a).qps ++ _ = _
    rw [R.fresh a ha, List.nil_append]
    refine List.flatMap_congr fun b hb => List.map_congr_left fun k hk => ?_
    obtain ⟨hb, hne⟩ := mem_peers.1 hb
    obtain ⟨hl, hrem⟩ := hreads b hb hne k (List.mem_range.1 hk)
    have htl := ht b hb hne k (List.mem_range.1 hk)
    show queuePair _ _ _ _ t b k = _
    rw [queuePair, htl, hl, hrem, blobs_getD hb]
    rfl
  · rw [hrail]
    exact (ht b hb hne k hk).trans (hreads b hb hne k hk).1
  · rw [hrkey b hb hne k hk, (hreads b hb hne k hk).2, blobs_getD hb]

end Ranks

/-! ## Both ends -/

/-- The local device that carries rail `k` to rank `p`. -/
def Links.device (s : Links) (p k : Nat) : Nat := (s.railHca p k).toNat

/-- At rank `a`, the queue pair of device `h` reserved for `b` is connected to the queue pair of
`b`'s device `r` reserved for `a`. -/
def Connects {world : Nat} (R : Ranks world) (s : Links) (a h b r : Nat) : Prop :=
  ∃ attr, ⟨h, b, attr⟩ ∈ s.qps ∧ attr.destQpNum = ((R.ctx b).hca r).qpNum a ∧
    attr.dgid = ((R.ctx b).hca r).gid ∧ attr.dlid = ((R.ctx b).hca r).lid

/-- **Connected queue pairs are mutual.** -/
theorem connect_mutual {world rails : Nat} (R : Ranks world) (tables : Nat → RouteTable)
    (hworld : 2 ≤ world) (hrails : 1 ≤ rails ∧ rails ≤ roceMaxRails) (hm : Mirrored R tables)
    (hr : Railed world rails tables) :
    ∃ done : Nat → Links, (∀ a < world, R.connect tables a = .ok (done a)) ∧
      (∀ a < world, ((done a).qps.map fun q => (q.h, q.p)).Nodup) ∧
      ∀ a < world, ∀ b < world, a ≠ b → ∀ k < rails,
        link (tables a) b k = ((done a).railHca b k, (done b).railHca a k) ∧
        Connects R (done a) a ((done a).device b k) b ((done b).device a k) ∧
        Connects R (done b) b ((done b).device a k) a ((done a).device b k) ∧
        (done a).peerRkey k b = ((R.ctx b).hca ((done b).device a k)).rkey := by
  have hall : ∀ a, ∃ s, a < world → R.connect tables a = .ok s ∧
      s.qps = R.queuePairs tables rails a ∧ ∀ b < world, b ≠ a → ∀ k < rails,
        s.railHca b k = (link (tables a) b k).1 ∧
          s.peerRkey k b = (R.blob b).rkey (link (tables a) b k).2.toNat := fun a => by
    by_cases ha : a < world
    · obtain ⟨s, hs⟩ := connect_rank hworld hrails hm hr ha
      exact ⟨s, fun _ => hs⟩
    · exact ⟨R.links a, fun h => absurd h ha⟩
  choose done hdone using hall
  have hend : ∀ a < world, ∀ b < world, a ≠ b → ∀ k < rails,
      link (tables a) b k = ((done a).railHca b k, (done b).railHca a k) := by
    intro a ha b hb hne k hk
    rw [((hdone a ha).2.2 b hb hne.symm k hk).1, ((hdone b hb).2.2 a ha hne k hk).1,
      link_swap hm hr ha hb hne hk]
    rfl
  have hremote : ∀ a < world, ∀ b < world, a ≠ b → ∀ k < rails,
      (done b).device a k < (R.ctx b).nHca := by
    intro a ha b hb hne k hk
    have hin := (hm.inRange a ha b hb hne _ (link_mem hr ha hb hne hk)).2
    rw [hend a ha b hb hne k hk] at hin
    have h0 : 0 ≤ (done b).railHca a k := hin.1
    have h1 : (done b).railHca a k < (R.ctx b).nHca := hin.2
    rw [Links.device]
    omega
  have hconnects : ∀ a < world, ∀ b < world, a ≠ b → ∀ k < rails,
      Connects R (done a) a ((done a).device b k) b ((done b).device a k) := by
    intro a ha b hb hne k hk
    have hlt := hremote a ha b hb hne k hk
    have hdesc := R.describes b hb
    refine ⟨connectQp (R.ctx a) ((done a).device b k) ((done b).device a k) (R.blob b), ?_,
      ?_, hdesc.gid _ hlt, hdesc.lid _ hlt⟩
    · rw [(hdone a ha).2.1]
      refine List.mem_flatMap.2 ⟨b, mem_peers.2 ⟨hb, hne.symm⟩, List.mem_map.2
        ⟨k, List.mem_range.2 hk, ?_⟩⟩
      rw [Ranks.queuePair, hend a ha b hb hne k hk]
      rfl
    · show (R.blob b).qpNum ((done b).device a k) (R.ctx a).rank = _
      rw [R.rank_eq a ha]
      exact hdesc.qpNum _ hlt _
  refine ⟨done, fun a ha => (hdone a ha).1, fun a ha => ?_, fun a ha b hb hne k hk => ?_⟩
  · rw [(hdone a ha).2.1]
    exact queuePairs_nodup hm hr ha
  · refine ⟨hend a ha b hb hne k hk, hconnects a ha b hb hne k hk,
      hconnects b hb a ha hne.symm k hk, ?_⟩
    rw [((hdone a ha).2.2 b hb hne.symm k hk).2, hend a ha b hb hne k hk]
    exact (R.describes b hb).rkey _ (hremote a ha b hb hne k hk)

/-- Two ranks with four devices each. -/
def twoRanks : Ranks 2 where
  ctx a := ⟨2, a % 2, 4, 3, 0, a, fun h => ⟨4, h, 16 * a + h, 32 * a + h, fun p => 64 * a + 16 * h + p⟩,
    Nat.mod_lt a (by decide), by decide, by decide⟩
  links _ := ⟨0, fun _ _ => 0, fun _ => 0, fun _ _ => 0, []⟩
  blob a := ⟨a, fun h => 32 * a + h, fun _ => 4, fun h => h, fun h => 16 * a + h,
    fun h p => 64 * a + 16 * h + p⟩
  modify _ _ _ _ := true
  world_eq _ _ := rfl
  rank_eq _ ha := Nat.mod_eq_of_lt ha
  fresh _ _ := rfl
  describes _ _ := ⟨rfl, fun _ _ => rfl, fun _ _ => rfl, fun _ _ => rfl, fun _ _ => rfl,
    fun _ _ _ => rfl⟩
  modifies _ _ _ _ := rfl

/-- Rank 0 reaches rank 1 over these links, and rank 1 over the same links. -/
def pairTables (links : List (Int × Int)) (a : Nat) : RouteTable :=
  if a = 0 then [[], links] else [links.map Prod.swap, []]

theorem connect_mutual_crosswise : ∃ done : Nat → Links,
    (∀ a < 2, twoRanks.connect (pairTables [(0, 1), (1, 0)]) a = .ok (done a)) ∧
      (∀ a < 2, ((done a).qps.map fun q => (q.h, q.p)).Nodup) ∧
      ∀ a < 2, ∀ b < 2, a ≠ b → ∀ k < 2,
        link (pairTables [(0, 1), (1, 0)] a) b k = ((done a).railHca b k, (done b).railHca a k) ∧
        Connects twoRanks (done a) a ((done a).device b k) b ((done b).device a k) ∧
        Connects twoRanks (done b) b ((done b).device a k) a ((done a).device b k) ∧
        (done a).peerRkey k b = ((twoRanks.ctx b).hca ((done b).device a k)).rkey :=
  connect_mutual twoRanks (pairTables [(0, 1), (1, 0)]) (by decide) (by decide)
    ⟨by decide, by decide, by decide, by decide⟩ ⟨by decide, by decide⟩

/-- Three rails with a device of their own at either end are mirrored, and refused. -/
theorem three_rails_refused : ¬ ∀ (world : Nat) (R : Ranks world) (tables : Nat → RouteTable),
    Mirrored R tables → ∀ a < world, ∃ s, R.connect tables a = .ok s := by
  intro h
  have hm : Mirrored twoRanks (pairTables [(0, 0), (1, 1), (2, 2)]) :=
    ⟨by decide, by decide, by decide, by decide⟩
  obtain ⟨s, hs⟩ := h 2 twoRanks _ hm 0 (by decide)
  have hrefused : twoRanks.connect (pairTables [(0, 0), (1, 1), (2, 2)]) 0 =
      .error (.railCount 3) := rfl
  rw [hrefused] at hs
  cases hs

end LlmkubeRuntimes.Roce
