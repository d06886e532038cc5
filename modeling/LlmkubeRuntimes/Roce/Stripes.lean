import LlmkubeRuntimes.Lib.Spans
import LlmkubeRuntimes.Roce.Connect

/-!
# Striping a payload over rails

`post_op` sends the payload of an operation to every peer, a stripe over each
rail, and behind each stripe the sequence number to a flag word of its own.

* `roceLayout`: the sizes of the areas of a rank's region. Their offsets are not
  in the repository and are those of `Region`;
* `postRails`: the loop over the rails of a peer. A stripe begins `pack_offset`
  packs of 16 bytes into the slot;
* `postOp`: what an operation posts;
* `stripes_lossless`: the stripes of a peer are its payload, cut where they meet;
* `flagAddr_inj`, `flagAddr_inside`: the flag words of all senders differ and lie
  in the flag area.
-/

namespace LlmkubeRuntimes.Roce

open LlmkubeRuntimes.Lib

def roceSlots : Nat := 2
def roceFlagStride : Nat := 128

/-! ## The region -/

/-- The sizes of the areas of a region. -/
structure RegionSizes where
  recvBytes : UInt64
  flagBytes : UInt64
  sendBytes : UInt64

/-- `__builtin_mul_overflow`: the product, if it is one. -/
def mulOverflow (a b : UInt64) : Option UInt64 :=
  if a.toNat * b.toNat < 2 ^ 64 then some (a * b) else none

/-- `roce_layout`, up to the sizes. -/
def roceLayout (world : Nat) (slotBytes : UInt64) : Option RegionSizes :=
  if 2 ^ 40 < slotBytes.toNat then none
  else do
    let recvBytes ← mulOverflow (.ofNat world * .ofNat roceSlots) slotBytes
    let flagBytes ← mulOverflow (.ofNat world * .ofNat roceSlots * .ofNat roceMaxRails)
      (.ofNat roceFlagStride)
    let sendBytes ← mulOverflow (.ofNat roceSlots) slotBytes
    some ⟨recvBytes, flagBytes, sendBytes⟩

/-- What `post_op` reads of the layout. -/
structure Region where
  slotBytes : UInt64
  recvOff : UInt64
  flagOff : UInt64

/-! ## Posting -/

/-- The packs of the stripe of rail `k`. -/
def stripePacks (totalPacks : UInt32) (nRail k : Nat) : UInt32 :=
  totalPacks / .ofNat nRail + if UInt32.ofNat k < totalPacks % .ofNat nRail then 1 else 0

/-- Where the flag area of a peer's region begins. -/
def flagStart (region : Region) (remote : UInt64) : UInt64 := remote + region.flagOff

/-- The flag word of a sender's slot and rail. -/
def flagAddr (region : Region) (remote : UInt64) (rank : Nat) (slot : UInt32) (nRail k : Nat) :
    UInt64 :=
  flagStart region remote + ((.ofNat rank * .ofNat roceSlots + slot.toUInt64) * .ofNat nRail + .ofNat k) *
    .ofNat roceFlagStride

/-- Where a sender's receive slot begins. -/
def slotStart (region : Region) (remote : UInt64) (rank : Nat) (slot : UInt32) : UInt64 :=
  remote + region.recvOff + (.ofNat rank * .ofNat roceSlots + slot.toUInt64) * region.slotBytes

/-- The writes of a rail: its stripe, which is not written if it has no bytes, and
then its flag. -/
structure RailPost where
  hca : Int
  rkey : Nat
  dataAddr : UInt64
  dataBytes : UInt32
  flagAddr : UInt64

/-- The loop over the rails `k`, `k + 1`, ... of peer `p`, `rails` of them. -/
def postRails (c : Ctx) (links : Links) (region : Region) (p : Nat) (slot totalPacks : UInt32) :
    (rails k : Nat) → (packOffset : UInt32) → List RailPost
  | 0, _, _ => []
  | rails + 1, k, packOffset =>
    let remote : UInt64 := .ofNat (links.peerAddr p)
    let packs := stripePacks totalPacks links.nRail k
    { hca := links.railHca p k
      rkey := links.peerRkey k p
      dataAddr := slotStart region remote c.rank slot + packOffset.toUInt64 * 16
      dataBytes := packs * 16
      flagAddr := flagAddr region remote c.rank slot links.nRail k } ::
    postRails c links region p slot totalPacks rails (k + 1) (packOffset + packs)

/-- `post_op`: the writes to each peer, if the count of bytes is accepted. -/
def postOp (c : Ctx) (links : Links) (region : Region) (seq nbytes : UInt32) :
    Option (List (Nat × List RailPost)) :=
  if nbytes = 0 ∨ nbytes % 16 ≠ 0 then none
  else
    let slot := seq % .ofNat roceSlots
    some (((List.range c.world).filter (· ≠ c.rank)).map fun p =>
      (p, postRails c links region p slot (nbytes / 16) links.nRail 0 0))

/-! ## Stripes -/

/-- A stripe as a span of its slot. -/
def RailPost.span (post : RailPost) (slotStart : UInt64) : Span :=
  ⟨(post.dataAddr - slotStart).toNat, post.dataBytes.toNat⟩

theorem toNat_stripePacks {totalPacks : UInt32} (htotal : totalPacks.toNat < 2 ^ 28) {nRail k : Nat}
    (hn : nRail < 2 ^ 32) (hk : k < nRail) :
    (stripePacks totalPacks nRail k).toNat = share totalPacks.toNat nRail k := by
  have hN : (UInt32.ofNat nRail).toNat = nRail := UInt32.toNat_ofNat_of_lt' hn
  have hK : (UInt32.ofNat k).toNat = k := UInt32.toNat_ofNat_of_lt' (lt_trans hk hn)
  have hlt : UInt32.ofNat k < totalPacks % .ofNat nRail ↔ k < totalPacks.toNat % nRail := by
    rw [UInt32.lt_iff_toNat_lt, UInt32.toNat_mod, hN, hK]
  have hdiv : totalPacks.toNat / nRail ≤ totalPacks.toNat := Nat.div_le_self _ _
  rw [stripePacks, share, UInt32.toNat_add, UInt32.toNat_div, hN, if_congr hlt rfl rfl,
    apply_ite UInt32.toNat, UInt32.toNat_one, UInt32.toNat_zero]
  apply Nat.mod_eq_of_lt
  split <;> omega

/-- A post whose offset and packs are a share has the span of that share. -/
theorem span_post {post : RailPost} {start : UInt64} {packOffset packs : UInt32} {total n k : Nat}
    (htotal : total < 2 ^ 28) (hk : k < n) (haddr : post.dataAddr = start + packOffset.toUInt64 * 16)
    (hbytes : post.dataBytes = packs * 16) (hoffset : packOffset.toNat = sharesBefore total n k)
    (hpacks : packs.toNat = share total n k) :
    post.span start = (shareSpan total n k).scale 16 := by
  have hle : sharesBefore total n (k + 1) ≤ total := sharesBefore_le total hk
  rw [sharesBefore_succ] at hle
  have hstart : (packOffset.toUInt64 * 16).toNat = 16 * sharesBefore total n k := by
    rw [UInt64.toNat_mul, UInt32.toNat_toUInt64, hoffset, show (16 : UInt64).toNat = 16 from rfl]
    omega
  have hlen : (packs * 16).toNat = 16 * share total n k := by
    rw [UInt32.toNat_mul, hpacks, show (16 : UInt32).toNat = 16 from rfl]
    omega
  rw [RailPost.span, haddr, hbytes, UInt64.add_comm, UInt64.add_sub_cancel, hstart, hlen]
  rfl

/-- **The stripes of the rails from `k` on are their shares of the packs.** -/
theorem spans_postRails (c : Ctx) (links : Links) (region : Region) (p : Nat)
    {slot totalPacks : UInt32} (htotal : totalPacks.toNat < 2 ^ 28) (hn : links.nRail < 2 ^ 32)
    {rails k : Nat} (hk : k + rails = links.nRail) {packOffset : UInt32}
    (hoffset : packOffset.toNat = sharesBefore totalPacks.toNat links.nRail k) :
    (postRails c links region p slot totalPacks rails k packOffset).map
        (·.span (slotStart region (.ofNat (links.peerAddr p)) c.rank slot)) =
      (List.range' k rails).map
        fun j => (shareSpan totalPacks.toNat links.nRail j).scale 16 := by
  induction rails generalizing k packOffset with
  | zero => rfl
  | succ rails ih =>
    have hklt : k < links.nRail := by omega
    have hpacks := toNat_stripePacks htotal hn hklt
    have hle : sharesBefore totalPacks.toNat links.nRail (k + 1) ≤ totalPacks.toNat :=
      sharesBefore_le _ hklt
    have hnext : (packOffset + stripePacks totalPacks links.nRail k).toNat =
        sharesBefore totalPacks.toNat links.nRail (k + 1) := by
      rw [UInt32.toNat_add, hpacks, hoffset, ← sharesBefore_succ]
      apply Nat.mod_eq_of_lt
      omega
    rw [postRails, List.map_cons, List.range'_succ, List.map_cons,
      ih (by omega : k + 1 + rails = links.nRail) hnext,
      span_post htotal hklt rfl rfl hoffset hpacks]

/-! ## Flags -/

/-- The place of the flag word of a sender's slot and rail among all. -/
def flagIndex (rank slot nRail k : Nat) : Nat := (rank * roceSlots + slot) * nRail + k

/-- The place is below the number of flag words. -/
theorem flagIndex_lt {world rank slot nRail k : Nat} (hrank : rank < world) (hslot : slot < roceSlots)
    (hk : k < nRail) : flagIndex rank slot nRail k < world * roceSlots * nRail := by
  have hle : rank * roceSlots + slot + 1 ≤ world * roceSlots := by
    unfold roceSlots at hslot ⊢
    omega
  calc flagIndex rank slot nRail k < (rank * roceSlots + slot) * nRail + nRail :=
        Nat.add_lt_add_left hk _
    _ = (rank * roceSlots + slot + 1) * nRail := (Nat.succ_mul _ _).symm
    _ ≤ world * roceSlots * nRail := Nat.mul_le_mul_right _ hle

/-- The place tells the sender, the slot and the rail. -/
theorem flagIndex_inj {rank slot rank' slot' nRail k k' : Nat} (hslot : slot < roceSlots)
    (hslot' : slot' < roceSlots) (hk : k < nRail) (hk' : k' < nRail)
    (h : flagIndex rank slot nRail k = flagIndex rank' slot' nRail k') :
    rank = rank' ∧ slot = slot' ∧ k = k' := by
  unfold flagIndex at h
  have hdiv := congrArg (· / nRail) h
  have hmod := congrArg (· % nRail) h
  simp only [Nat.mul_add_mod_self_right, Nat.mod_eq_of_lt hk, Nat.mod_eq_of_lt hk'] at hmod
  simp only [Nat.mul_comm _ nRail, Nat.mul_add_div (lt_of_le_of_lt (Nat.zero_le k) hk),
    Nat.div_eq_of_lt hk, Nat.div_eq_of_lt hk', Nat.add_zero] at hdiv
  unfold roceSlots at hslot hslot' hdiv
  omega

section FlagAddr

variable (region : Region) (remote : UInt64) {rank rank' nRail k k' : Nat} {slot slot' : UInt32}

/-- The distance of a flag word from the start of the area. -/
theorem toNat_flagAddr_sub (hrank : rank < roceMaxPeers) (hslot : slot.toNat < roceSlots)
    (hn : nRail ≤ roceMaxRails) (hk : k < nRail) :
    (flagAddr region remote rank slot nRail k - flagStart region remote).toNat =
      flagIndex rank slot.toNat nRail k * roceFlagStride := by
  have hsmall : roceMaxPeers * roceSlots * nRail * roceFlagStride < 2 ^ 64 := by
    unfold roceMaxRails at hn
    unfold roceMaxPeers roceSlots roceFlagStride
    omega
  have hlt : flagIndex rank slot.toNat nRail k * roceFlagStride < 2 ^ 64 :=
    lt_of_le_of_lt (Nat.mul_le_mul_right _ (Nat.le_of_lt (flagIndex_lt hrank hslot hk))) hsmall
  have hword : (UInt64.ofNat rank * .ofNat roceSlots + slot.toUInt64) * .ofNat nRail + .ofNat k =
      .ofNat (flagIndex rank slot.toNat nRail k) := by
    rw [← UInt64.ofNat_uInt32ToNat, flagIndex, UInt64.ofNat_add, UInt64.ofNat_mul, UInt64.ofNat_add,
      UInt64.ofNat_mul]
  rw [flagAddr, UInt64.add_comm, UInt64.add_sub_cancel, hword, ← UInt64.ofNat_mul,
    UInt64.toNat_ofNat_of_lt' hlt]

/-- **Different senders, slots and rails have different flag words.** -/
theorem flagAddr_inj (hrank : rank < roceMaxPeers) (hrank' : rank' < roceMaxPeers)
    (hslot : slot.toNat < roceSlots) (hslot' : slot'.toNat < roceSlots) (hn : nRail ≤ roceMaxRails)
    (hk : k < nRail) (hk' : k' < nRail)
    (h : flagAddr region remote rank slot nRail k = flagAddr region remote rank' slot' nRail k') :
    rank = rank' ∧ slot = slot' ∧ k = k' := by
  have hsub := congrArg (fun addr => (addr - flagStart region remote).toNat) h
  simp only [toNat_flagAddr_sub region remote hrank hslot hn hk,
    toNat_flagAddr_sub region remote hrank' hslot' hn hk'] at hsub
  obtain ⟨h1, h2, h3⟩ :=
    flagIndex_inj hslot hslot' hk hk' (Nat.eq_of_mul_eq_mul_right (by decide) hsub)
  exact ⟨h1, UInt32.toNat_inj.1 h2, h3⟩

end FlagAddr

theorem toNat_mulOverflow {a b r : UInt64} (h : mulOverflow a b = some r) :
    r.toNat = a.toNat * b.toNat := by
  unfold mulOverflow at h
  split at h
  next hlt =>
    cases h
    rw [UInt64.toNat_mul, Nat.mod_eq_of_lt hlt]
  next => cases h

/-- The size that `roce_layout` gives the flag area. -/
theorem toNat_flagBytes {world : Nat} (hworld : world ≤ roceMaxPeers) {slotBytes : UInt64}
    {sizes : RegionSizes} (h : roceLayout world slotBytes = some sizes) :
    sizes.flagBytes.toNat = world * roceSlots * roceMaxRails * roceFlagStride := by
  unfold roceLayout at h
  split at h
  next => cases h
  next =>
    obtain ⟨recvBytes, -, h⟩ := Option.bind_eq_some_iff.1 h
    obtain ⟨flagBytes, hflag, h⟩ := Option.bind_eq_some_iff.1 h
    obtain ⟨sendBytes, -, h⟩ := Option.bind_eq_some_iff.1 h
    cases h
    have hlt : world * roceSlots * roceMaxRails < 2 ^ 64 := by
      unfold roceMaxPeers at hworld
      unfold roceSlots roceMaxRails
      omega
    rw [toNat_mulOverflow hflag, ← UInt64.ofNat_mul, ← UInt64.ofNat_mul, UInt64.toNat_ofNat_of_lt' hlt]
    rfl

/-- **Every flag word lies in the flag area**, with its stride. -/
theorem flagAddr_inside (region : Region) (remote : UInt64) {world rank nRail k : Nat} {slot : UInt32}
    (hworld : world ≤ roceMaxPeers) (hrank : rank < world) (hslot : slot.toNat < roceSlots)
    (hn : nRail ≤ roceMaxRails) (hk : k < nRail) {sizes : RegionSizes}
    (h : roceLayout world region.slotBytes = some sizes) :
    (flagAddr region remote rank slot nRail k - flagStart region remote).toNat + roceFlagStride ≤
      sizes.flagBytes.toNat := by
  have hlt : flagIndex rank slot.toNat nRail k + 1 ≤ world * roceSlots * roceMaxRails :=
    le_trans (flagIndex_lt hrank hslot hk) (Nat.mul_le_mul_left _ hn)
  rw [toNat_flagAddr_sub region remote (lt_of_lt_of_le hrank hworld) hslot hn hk,
    toNat_flagBytes hworld h, ← Nat.succ_mul]
  exact Nat.mul_le_mul_right _ hlt

/-! ## The operation -/

/-- The stripes are the payload of a slot, cut where they meet. -/
structure Lossless (slotBytes nbytes : Nat) (stripes : List Span) : Prop where
  consecutive : Consecutive 0 stripes nbytes
  aligned : ∀ s ∈ stripes, s.start % 16 = 0 ∧ s.len % 16 = 0
  disjoint : stripes.Pairwise Span.Disjoint
  covers : ∀ i, (∃ s ∈ stripes, i ∈ s) ↔ i < nbytes
  inside : ∀ s ∈ stripes, s.stop ≤ slotBytes

/-- The shares of the packs are the payload. -/
theorem lossless_shares {slotBytes nbytes n : Nat} (hn : 0 < n) (h16 : nbytes % 16 = 0)
    (hfit : nbytes ≤ slotBytes) :
    Lossless slotBytes nbytes
      ((List.range' 0 n).map fun k => (shareSpan (nbytes / 16) n k).scale 16) := by
  have hcons : Consecutive 0 ((List.range' 0 n).map fun k => (shareSpan (nbytes / 16) n k).scale 16)
      nbytes := by
    have h := (consecutive_all_shares (nbytes / 16) hn).scale 16
    rw [List.map_map, Nat.mul_zero, show 16 * (nbytes / 16) = nbytes by omega] at h
    exact h
  refine ⟨hcons, fun s hs => ?_, hcons.pairwise, fun i => ?_, fun s hs => ?_⟩
  · obtain ⟨k, -, rfl⟩ := List.mem_map.1 hs
    exact ⟨Nat.mul_mod_right _ _, Nat.mul_mod_right _ _⟩
  · rw [hcons.covers]
    omega
  · exact le_trans (hcons.bounds s hs).2 hfit

/-- The flags of the rails from `k` on are those of the sender and the slot. -/
theorem flagAddr_postRails (c : Ctx) (links : Links) (region : Region) (p : Nat)
    (slot totalPacks : UInt32) (rails k : Nat) (packOffset : UInt32) :
    (postRails c links region p slot totalPacks rails k packOffset).map (·.flagAddr) =
      (List.range' k rails).map
        (flagAddr region (.ofNat (links.peerAddr p)) c.rank slot links.nRail) := by
  induction rails generalizing k packOffset with
  | zero => rfl
  | succ rails ih => rw [postRails, List.map_cons, List.range'_succ, List.map_cons, ih]

/-- The flag words of all senders, slots and rails differ and lie in the area. -/
structure FlagsApart (region : Region) (remote : UInt64) (world nRail : Nat) (sizes : RegionSizes) :
    Prop where
  distinct : ∀ rank rank' k k' (slot slot' : UInt32), rank < world → rank' < world →
    slot.toNat < roceSlots → slot'.toNat < roceSlots → k < nRail → k' < nRail →
    flagAddr region remote rank slot nRail k = flagAddr region remote rank' slot' nRail k' →
    rank = rank' ∧ slot = slot' ∧ k = k'
  inside : ∀ rank k (slot : UInt32), rank < world → slot.toNat < roceSlots → k < nRail →
    (flagAddr region remote rank slot nRail k - flagStart region remote).toNat + roceFlagStride ≤
      sizes.flagBytes.toNat

theorem flagsApart (region : Region) (remote : UInt64) {world nRail : Nat}
    (hworld : world ≤ roceMaxPeers) (hn : nRail ≤ roceMaxRails) {sizes : RegionSizes}
    (h : roceLayout world region.slotBytes = some sizes) :
    FlagsApart region remote world nRail sizes where
  distinct _ _ _ _ _ _ hrank hrank' hslot hslot' hk hk' heq :=
    flagAddr_inj region remote (lt_of_lt_of_le hrank hworld) (lt_of_lt_of_le hrank' hworld) hslot hslot'
      hn hk hk' heq
  inside _ _ _ hrank hslot hk := flagAddr_inside region remote hworld hrank hslot hn hk h

/-- What an operation writes to the region of peer `p`: the payload, a stripe a
rail, and the flags of the sender and the slot. -/
structure Striped (c : Ctx) (links : Links) (region : Region) (slot nbytes : UInt32) (p : Nat)
    (posts : List RailPost) : Prop where
  stripes : Lossless region.slotBytes.toNat nbytes.toNat
    (posts.map (·.span (slotStart region (.ofNat (links.peerAddr p)) c.rank slot)))
  flags : posts.map (·.flagAddr) = (List.range' 0 links.nRail).map
    (flagAddr region (.ofNat (links.peerAddr p)) c.rank slot links.nRail)

/-- **Striping loses no byte and no flag**, for every sender, slot, count of rails
and payload. -/
theorem striping_lossless (c : Ctx) (links : Links) (region : Region) (sizes : RegionSizes)
    (hlayout : roceLayout c.world region.slotBytes = some sizes) (hn : 1 ≤ links.nRail)
    (hmax : links.nRail ≤ roceMaxRails) (seq nbytes : UInt32) (hpos : 0 < nbytes.toNat)
    (h16 : nbytes.toNat % 16 = 0) (hfit : nbytes.toNat ≤ region.slotBytes.toNat) :
    (∃ posts, postOp c links region seq nbytes = some posts ∧
      posts.map Prod.fst = (List.range c.world).filter (· ≠ c.rank) ∧
      ∀ sent ∈ posts, Striped c links region (seq % .ofNat roceSlots) nbytes sent.1 sent.2) ∧
    ∀ remote, FlagsApart region remote c.world links.nRail sizes := by
  have hpacks : (nbytes / 16).toNat = nbytes.toNat / 16 := UInt32.toNat_div _ _
  have htotal : (nbytes / 16).toNat < 2 ^ 28 := by
    have hlt := nbytes.toNat_lt
    omega
  have hrails : links.nRail < 2 ^ 32 := lt_of_le_of_lt hmax (by decide)
  have haccept : ¬ (nbytes = 0 ∨ nbytes % 16 ≠ 0) := by
    rw [← UInt32.toNat_inj, ne_eq, ← UInt32.toNat_inj, UInt32.toNat_mod,
      show (16 : UInt32).toNat = 16 from rfl, show (0 : UInt32).toNat = 0 from rfl]
    omega
  refine ⟨⟨_, if_neg haccept, by simp [Function.comp_def], ?_⟩, fun remote =>
    flagsApart region remote c.world_le hmax hlayout⟩
  intro sent hsent
  obtain ⟨p, -, rfl⟩ := List.mem_map.1 hsent
  refine ⟨?_, flagAddr_postRails c links region p _ _ _ _ _⟩
  rw [spans_postRails c links region p htotal hrails (Nat.zero_add _) (by simp [sharesBefore]), hpacks]
  exact lossless_shares hn h16 hfit

/-- Rank 1 of three, with two rails to each peer. -/
def stripeCtx : Ctx where
  world := 3
  rank := 1
  nHca := 2
  gidIndex := 3
  trafficClass := 0
  regionAddr := 0
  hca _ := ⟨0, 0, 0, 0, fun _ => 0⟩
  rank_lt := by decide
  world_le := by decide
  nHca_le := by decide

def stripeLinks : Links := ⟨2, fun _ k => k, fun p => 65536 * p, fun _ _ => 0, []⟩

theorem striping_lossless_three :
    (∃ posts, postOp stripeCtx stripeLinks ⟨64, 0, 384⟩ 5 48 = some posts ∧
      posts.map Prod.fst = (List.range stripeCtx.world).filter (· ≠ stripeCtx.rank) ∧
      ∀ sent ∈ posts, Striped stripeCtx stripeLinks ⟨64, 0, 384⟩ (5 % .ofNat roceSlots) 48 sent.1 sent.2) ∧
    ∀ remote, FlagsApart ⟨64, 0, 384⟩ remote stripeCtx.world stripeLinks.nRail ⟨384, 1536, 128⟩ :=
  striping_lossless stripeCtx stripeLinks ⟨64, 0, 384⟩ ⟨384, 1536, 128⟩ rfl (by decide) (by decide) 5 48
    (by decide) (by decide) (by decide)

end LlmkubeRuntimes.Roce
