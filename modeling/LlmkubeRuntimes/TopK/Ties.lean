import Mathlib.Data.Nat.Find
import LlmkubeRuntimes.Lib.RadixSelect
import LlmkubeRuntimes.Lib.Top

/-!
# Ties of the indexer's top-k

Candidates with the score of the selection's pivot are tied. Four rounds of eight
bits over the complement of the logical position find how far the free slots
reach, and the candidates within take them.

* `Schedule`: the orders in which the threads' shared-memory updates arrive;
* `Row.positionKey`: lower positions have larger keys;
* `selectLowestPositionTies`: the rounds and the writes;
* `countP_selectPivot`: the rounds find the pivot that as many ties reach as have slots;
* `selectLowestPositionTies_lowest`: the ties of the lowest positions are written,
  in whatever order the threads run.
-/

namespace LlmkubeRuntimes.TopK

open LlmkubeRuntimes.Lib

/-- Where the candidates of a row's chunk are: local ones first, then those carried from the chunks
before, which keep their logical index. -/
structure Row where
  isFirst : Bool
  rowStart : Nat
  outputIndexOffset : Nat
  chunkLen : Nat
  carryBase : Nat
  carryIndices : List Nat

namespace Row

variable (row : Row)

/-- The logical position of a candidate. -/
def position (vidx : Nat) : Nat :=
  if row.isFirst then row.rowStart + vidx + row.outputIndexOffset
  else if vidx < row.chunkLen then row.rowStart + vidx + row.outputIndexOffset
  else row.carryIndices.getD (row.carryBase + (vidx - row.chunkLen)) 0

/-- The key of a candidate's position in a descending radix. -/
def positionKey (vidx : Nat) : BitVec 32 := 0xFFFFFFFF#32 - BitVec.ofNat 32 (row.position vidx)

end Row

/-- The tied candidates: the first entries of the buffer, or those of the row with the pivot's
score. -/
inductive Tied where
  | buffer (sBuf : List Nat)
  | row (scoreKey : Nat → BitVec 32) (pivotKey : BitVec 32)

/-- The tied candidate of entry `e`. -/
def Tied.candidate : Tied → Nat → Option Nat
  | .buffer sBuf, e => sBuf[e]?
  | .row scoreKey pivotKey, e => if scoreKey e = pivotKey then some e else none

/-- Threads add to counters and claim slots in any order: the order of the entries counted in each
round, of the lanes that look for the bucket, and of the entries written. -/
structure Schedule (count : Nat) where
  counts : Nat → List Nat
  lanes : Nat → List Nat
  writes : List Nat
  counts_perm : ∀ round, (counts round).Perm (List.range count)
  lanes_perm : ∀ round, (lanes round).Perm (List.range 256)
  writes_perm : writes.Perm (List.range count)

/-- The scalar slots of the rounds: the bits of the pivot so far, and how many slots are left for
the candidates that have them. -/
structure Pivot where
  bits : BitVec 32
  remaining : Nat

def digit (key : BitVec 32) (round : Nat) : Nat :=
  ((key >>> (24 - 8 * round)) &&& 0xFF#32).toNat

/-- Does the key have the pivot's bits of the rounds before? -/
def agrees (bits : BitVec 32) (round : Nat) (key : BitVec 32) : Bool :=
  round = 0 ∨ key &&& (0xFFFFFFFF#32 <<< (32 - 8 * round)) = bits

/-- Eight doubling stages; each reads one histogram buffer and writes the other. -/
def scan (hist : List Nat) : List Nat :=
  (List.range 8).foldl (fun hist stage => scanStage 256 (1 <<< stage) hist) hist

/-- The lane where the remaining slots end writes its digit and the slots left in its bucket. -/
def findBucket (scanned : List Nat) (remaining : Nat) (lanes : List Nat) : Nat × Nat :=
  lanes.foldl (fun found tx =>
    let cge := scanned.getD tx 0
    let cgt := if tx + 1 < 256 then scanned.getD (tx + 1) 0 else 0
    if remaining ≤ cge ∧ cgt < remaining then (tx, remaining - cgt) else found) (0, remaining)

section Select

variable (row : Row) (tied : Tied) {count : Nat}

/-- The digits counted in a round. -/
def roundDigits (bits : BitVec 32) (round : Nat) (order : List Nat) : List Nat :=
  (((order.filterMap tied.candidate).map row.positionKey).filter (agrees bits round)).map
    (digit · round)

def selectRound (s : Schedule count) (p : Pivot) (round : Nat) : Pivot :=
  let hist := histogram 256 (roundDigits row tied p.bits round (s.counts round))
  let (bucket, remaining) := findBucket (scan hist) p.remaining (s.lanes round)
  ⟨p.bits ||| (BitVec.ofNat 32 bucket <<< (24 - 8 * round)), remaining⟩

/-- The key of the last position that has a slot. -/
def selectPivot (s : Schedule count) (take : Nat) : BitVec 32 :=
  ((List.range 4).foldl (selectRound row tied s) ⟨0, take⟩).bits

/-- Candidates that win claim a slot each, in their order, and are written below the limit. -/
def writeWinners (wins : Nat → Bool) (limit base : Nat) : List Nat → Nat × List Nat → Nat × List Nat
  | [], s => s
  | c :: cs, (ctr, out) =>
    writeWinners wins limit base cs
      (if wins c then (ctr + 1, if ctr < limit then out.set (base + ctr) c else out)
        else (ctr, out))

/-- Write the `take` tied candidates with the lowest positions from `outSlotBase` on. -/
def selectLowestPositionTies (s : Schedule count) (take outSlotBase : Nat) (out : List Nat) :
    List Nat :=
  if 0 < take then
    (writeWinners (fun c => decide (selectPivot row tied s take ≤ row.positionKey c)) take
      outSlotBase (s.writes.filterMap tied.candidate) (0, out)).2
  else out

end Select

/-! ## Keys and digits -/

theorem toNat_positionKey {row : Row} {vidx : Nat} (h : row.position vidx < 2 ^ 32) :
    (row.positionKey vidx).toNat = 2 ^ 32 - 1 - row.position vidx := by
  have hpos : (BitVec.ofNat 32 (row.position vidx)).toNat = row.position vidx := by
    rw [BitVec.toNat_ofNat, Nat.mod_eq_of_lt h]
  rw [Row.positionKey, BitVec.toNat_sub_of_le (by rw [BitVec.le_def, hpos]; exact Nat.le_pred_of_lt h),
    hpos]
  rfl

theorem digit_eq (key : BitVec 32) (round : Nat) :
    digit key round = key.toNat / 2 ^ (24 - 8 * round) % 256 := by
  have hmask : (0xFF#32).toNat = 2 ^ 8 - 1 := rfl
  rw [digit, BitVec.toNat_and, BitVec.toNat_ushiftRight, hmask, Nat.and_two_pow_sub_one_eq_mod,
    Nat.shiftRight_eq_div_pow]

theorem digit_lt (key : BitVec 32) (round : Nat) : digit key round < 256 := by
  rw [digit_eq]
  exact Nat.mod_lt _ (by decide)

/-- Masking the low bits away. -/
theorem toNat_and_mask (key : BitVec 32) {m : Nat} (hm : m < 32) :
    (key &&& (0xFFFFFFFF#32 <<< m)).toNat = key.toNat / 2 ^ m * 2 ^ m := by
  have hbits : key &&& (0xFFFFFFFF#32 <<< m) = (key >>> m) <<< m := by
    have hones : 0xFFFFFFFF#32 = BitVec.allOnes 32 := rfl
    refine BitVec.eq_of_getLsbD_eq fun i hi => ?_
    rw [hones, BitVec.getLsbD_and, BitVec.getLsbD_shiftLeft, BitVec.getLsbD_shiftLeft,
      BitVec.getLsbD_ushiftRight, BitVec.getLsbD_allOnes]
    by_cases him : i < m
    · simp [him]
    · simp [him, show i - m < 32 by omega, show m + (i - m) = i by omega, hi]
  have hle : key.toNat / 2 ^ m * 2 ^ m ≤ key.toNat := Nat.div_mul_le_self _ _
  rw [hbits, BitVec.toNat_shiftLeft, BitVec.toNat_ushiftRight, Nat.shiftRight_eq_div_pow,
    Nat.shiftLeft_eq, Nat.mod_eq_of_lt (Nat.lt_of_le_of_lt hle key.isLt)]

/-- With the pivot's bits known up to a round, a key agrees if its value there is the pivot's. -/
theorem agrees_iff {bits : BitVec 32} {round p : Nat} (hround : round < 4)
    (hbits : bits.toNat = p * 2 ^ (32 - 8 * round)) (key : BitVec 32) :
    agrees bits round key = true ↔ key.toNat / 2 ^ (32 - 8 * round) = p := by
  rw [agrees, decide_eq_true_iff]
  have hpow : 0 < 2 ^ (32 - 8 * round) := Nat.two_pow_pos _
  rcases Nat.eq_zero_or_pos round with rfl | hpos
  · have hp : p = 0 := by
      have hlt := bits.isLt
      rw [hbits] at hlt
      omega
    have hkey := key.isLt
    simp only [true_or, true_iff]
    omega
  · rw [← BitVec.toNat_inj, toNat_and_mask key (by omega), hbits]
    constructor
    · rintro (h | h)
      · omega
      · exact Nat.eq_of_mul_eq_mul_right hpow h
    · rintro rfl
      exact Or.inr rfl

/-- A round's bucket is appended to the pivot's bits. -/
theorem toNat_or_bucket {bits : BitVec 32} {round p d : Nat} (hround : round < 4)
    (hbits : bits.toNat = p * 2 ^ (32 - 8 * round)) (hd : d < 256) :
    (bits ||| (BitVec.ofNat 32 d <<< (24 - 8 * round))).toNat =
      (p * 256 + d) * 2 ^ (24 - 8 * round) := by
  have hshift : 32 - 8 * round = 8 + (24 - 8 * round) := by omega
  have hlt : d * 2 ^ (24 - 8 * round) < 2 ^ (32 - 8 * round) := by
    rw [hshift, Nat.pow_add]
    exact Nat.mul_lt_mul_of_pos_right hd (Nat.two_pow_pos _)
  have hle : 2 ^ (32 - 8 * round) ≤ 2 ^ 32 := Nat.pow_le_pow_right (by decide) (by omega)
  rw [BitVec.toNat_or, BitVec.toNat_shiftLeft, BitVec.toNat_ofNat,
    Nat.mod_eq_of_lt (show d < 2 ^ 32 by omega), Nat.shiftLeft_eq,
    Nat.mod_eq_of_lt (Nat.lt_of_lt_of_le hlt hle), hbits, Nat.mul_comm p,
    ← Nat.two_pow_add_eq_or_of_lt hlt, hshift, Nat.pow_add, Nat.add_mul, Nat.mul_comm _ p,
    Nat.mul_assoc]

/-! ## A round -/

theorem getD_scan {hist : List Nat} (h : hist.length = 256) (x : Nat) :
    (scan hist).getD x 0 = (hist.drop x).sum := by
  have hstages : ∀ n, (List.range n).foldl (fun hist stage => scanStage 256 (1 <<< stage) hist) hist =
      windowSums (2 ^ n) hist := fun n => by
    induction n with
    | zero => exact (windowSums_one hist).symm
    | succ n ih =>
      rw [List.range_succ, List.foldl_append, ih, List.foldl_cons, List.foldl_nil,
        Nat.shiftLeft_eq, Nat.one_mul, ← h, scanStage_windowSums, ← Nat.two_mul, Nat.pow_succ,
        Nat.mul_comm]
  rw [scan, hstages, show 2 ^ 8 = hist.length from h.symm, getD_windowSums_length]

/-- Writes of which only one lane's goes through. -/
theorem foldl_only {α : Type} (p : Nat → Prop) [DecidablePred p] (f : Nat → α) {d : Nat}
    (hp : ∀ x, p x ↔ x = d) {lanes : List Nat} (hd : d ∈ lanes) (init : α) :
    lanes.foldl (fun found x => if p x then f x else found) init = f d := by
  have hafter : ∀ (lanes : List Nat), lanes.foldl (fun found x => if p x then f x else found) (f d) =
      f d := fun lanes => by
    induction lanes with
    | nil => rfl
    | cons x lanes ih =>
      rw [List.foldl_cons]
      split
      · next hx => rw [(hp x).1 hx, ih]
      · exact ih
  induction lanes generalizing init with
  | nil => exact absurd hd List.not_mem_nil
  | cons x lanes ih =>
    rw [List.foldl_cons]
    by_cases hx : x = d
    · rw [if_pos ((hp x).2 hx), hx, hafter]
    · exact ih ((List.mem_cons.1 hd).resolve_left (Ne.symm hx)) _

/-- **One lane finds the bucket**: that of the digit which the remaining slots reach. -/
theorem findBucket_eq {hist : List Nat} (h : hist.length = 256) {remaining : Nat}
    (hpos : 0 < remaining) (hle : remaining ≤ hist.sum) {lanes : List Nat}
    (hlanes : lanes.Perm (List.range 256)) :
    ∃ d < 256, findBucket (scan hist) remaining lanes = (d, remaining - (hist.drop (d + 1)).sum) ∧
      remaining ≤ (hist.drop d).sum ∧ (hist.drop (d + 1)).sum < remaining := by
  have hanti : ∀ {x y}, x ≤ y → (hist.drop y).sum ≤ (hist.drop x).sum := fun {x y} hxy => by
    obtain ⟨k, rfl⟩ := Nat.exists_eq_add_of_le hxy
    rw [← List.drop_drop, ← List.take_append_drop k (hist.drop x), List.sum_append,
      List.take_append_drop]
    exact Nat.le_add_left _ _
  have hend : (hist.drop 256).sum = 0 := by rw [← h, List.drop_length, List.sum_nil]
  -- The first digit behind which fewer keys than slots are.
  have hex : ∃ d, (hist.drop (d + 1)).sum < remaining := ⟨255, by rw [hend]; exact hpos⟩
  obtain ⟨d, hlt, hmin⟩ : ∃ d, (hist.drop (d + 1)).sum < remaining ∧
      ∀ x < d, remaining ≤ (hist.drop (x + 1)).sum :=
    ⟨Nat.find hex, Nat.find_spec hex, fun x hx => Nat.not_lt.1 (Nat.find_min hex hx)⟩
  have hreach : remaining ≤ (hist.drop d).sum := by
    cases d with
    | zero => exact hle
    | succ d => exact hmin d (Nat.lt_succ_self d)
  have hd : d < 256 := by
    refine Nat.not_le.1 fun hge => ?_
    have hzero := hanti hge
    omega
  refine ⟨d, hd, ?_, hreach, hlt⟩
  have hcgt : ∀ tx, (if tx + 1 < 256 then (hist.drop (tx + 1)).sum else 0) =
      (hist.drop (tx + 1)).sum := fun tx => by
    split
    · rfl
    · rw [List.drop_eq_nil_of_le (by omega), List.sum_nil]
  simp only [findBucket, getD_scan h, hcgt]
  refine foldl_only _ (fun x => (x, remaining - (hist.drop (x + 1)).sum)) (fun x => ?_)
    (hlanes.mem_iff.2 (List.mem_range.2 hd)) _
  constructor
  · rintro ⟨hge, hltx⟩
    rcases Nat.lt_trichotomy x d with hx | hx | hx
    · have hxmin := hmin x hx
      omega
    · exact hx
    · have hxd := @hanti (d + 1) x hx
      omega
  · rintro rfl
    exact ⟨hreach, hlt⟩

/-! ## The rounds -/

section Rounds

variable (row : Row) (tied : Tied) {count : Nat}

/-- The tied candidates. -/
def ties (count : Nat) : List Nat := (List.range count).filterMap tied.candidate

/-- Their keys. -/
def tieKeys (count : Nat) : List Nat := ((ties tied count).map row.positionKey).map BitVec.toNat

/-- After some rounds the pivot's bits so far are where the slots end. -/
def Found (count take round : Nat) (p : Pivot) : Prop :=
  ∃ v, p.bits.toNat = v * 2 ^ (32 - 8 * round) ∧
    IsCut ((tieKeys row tied count).map (· / 2 ^ (32 - 8 * round))) take v p.remaining

theorem div_div_digit (key : BitVec 32) {round : Nat} (hround : round < 4) :
    key.toNat / 2 ^ (24 - 8 * round) / 256 = key.toNat / 2 ^ (32 - 8 * round) := by
  have hshift : 32 - 8 * round = (24 - 8 * round) + 8 := by omega
  rw [Nat.div_div_eq_div_mul, hshift, Nat.pow_add]

/-- The digits of the keys that agree with the pivot so far. -/
theorem countP_digits {bits : BitVec 32} {round v : Nat} (hround : round < 4)
    (hbits : bits.toNat = v * 2 ^ (32 - 8 * round)) (x : Nat) (keys : List (BitVec 32)) :
    ((keys.filter (agrees bits round)).map (digit · round)).countP (fun d => decide (x ≤ d)) =
      ((keys.map BitVec.toNat).map (· / 2 ^ (24 - 8 * round))).countP
        fun k => decide (k / 256 = v ∧ x ≤ k % 256) := by
  rw [List.countP_map, List.countP_filter, List.map_map, List.countP_map]
  refine List.countP_congr fun key _ => ?_
  simp only [Function.comp_apply, Bool.and_eq_true, decide_eq_true_eq, agrees_iff hround hbits,
    digit_eq, div_div_digit key hround]
  exact And.comm

/-- A round counts the digits of the keys that are at the pivot so far. -/
theorem countP_roundDigits {bits : BitVec 32} {round v : Nat} (hround : round < 4)
    (hbits : bits.toNat = v * 2 ^ (32 - 8 * round)) {order : List Nat}
    (horder : order.Perm (List.range count)) (x : Nat) :
    (roundDigits row tied bits round order).countP (fun d => decide (x ≤ d)) =
      ((tieKeys row tied count).map (· / 2 ^ (24 - 8 * round))).countP
        fun k => decide (k / 256 = v ∧ x ≤ k % 256) := by
  have hperm := (((horder.filterMap tied.candidate).map row.positionKey).map BitVec.toNat).map
    (· / 2 ^ (24 - 8 * round))
  rw [roundDigits, countP_digits hround hbits x, hperm.countP_eq, tieKeys, ties]

/-- **A round finds one more digit of the pivot.** -/
theorem found_selectRound (s : Schedule count) {take round : Nat} (hround : round < 4) {p : Pivot}
    (h : Found row tied count take round p) :
    Found row tied count take (round + 1) (selectRound row tied s p round) := by
  obtain ⟨v, hbits, hcut⟩ := h
  have hshift : 32 - 8 * (round + 1) = 24 - 8 * round := by omega
  have hmap : (tieKeys row tied count).map (· / 2 ^ (32 - 8 * round)) =
      ((tieKeys row tied count).map (· / 2 ^ (24 - 8 * round))).map (· / 256) := by
    rw [List.map_map]
    refine List.map_congr_left fun k _ => ?_
    rw [Function.comp_apply, Nat.div_div_eq_div_mul, show 256 = 2 ^ 8 from rfl, ← Nat.pow_add,
      show 24 - 8 * round + 8 = 32 - 8 * round by omega]
  rw [hmap] at hcut
  have hlt : ∀ d ∈ roundDigits row tied p.bits round (s.counts round), d < 256 := fun d hd => by
    obtain ⟨k, -, rfl⟩ := List.mem_map.1 hd
    exact digit_lt k round
  have hsum := fun x => (sum_drop_histogram hlt x).trans
    (countP_roundDigits row tied hround hbits (s.counts_perm round) x)
  have henough : p.remaining ≤
      (histogram 256 (roundDigits row tied p.bits round (s.counts round))).sum := by
    have henough := hcut.enough
    have hzero := hsum 0
    simp only [List.drop_zero, Nat.zero_le, and_true] at hzero
    rw [List.countP_map] at henough
    simp only [Function.comp_def] at henough
    rwa [← hzero] at henough
  obtain ⟨d, hd, hfind, hge, hless⟩ :=
    findBucket_eq (length_histogram hlt) hcut.pos henough (s.lanes_perm round)
  rw [hsum] at hge hless
  refine ⟨v * 256 + d, ?_, ?_⟩
  · rw [hshift]
    simp only [selectRound, hfind]
    exact toNat_or_bucket hround hbits hd
  · rw [hshift]
    simp only [selectRound, hfind, hsum]
    exact hcut.refine hd hless hge

/-- **The rounds find the pivot that as many ties reach as have slots.** -/
theorem countP_selectPivot (s : Schedule count) {take : Nat} (hpos : 0 < take)
    (htake : take ≤ (ties tied count).length) (hnodup : (tieKeys row tied count).Nodup) :
    (tieKeys row tied count).countP
      (fun k => decide ((selectPivot row tied s take).toNat ≤ k)) = take := by
  have hstart : Found row tied count take 0 ⟨0, take⟩ := by
    refine ⟨0, by simp, IsCut.start (fun k hk => ?_) hpos (by simpa [tieKeys] using htake)⟩
    obtain ⟨q, hq, rfl⟩ := List.mem_map.1 hk
    obtain ⟨key, -, rfl⟩ := List.mem_map.1 hq
    exact Nat.div_eq_of_lt key.isLt
  have hrun : ∀ n ≤ 4, Found row tied count take n
      ((List.range n).foldl (selectRound row tied s) ⟨0, take⟩) := fun n => by
    induction n with
    | zero => exact fun _ => hstart
    | succ n ih =>
      intro hn
      rw [List.range_succ, List.foldl_append]
      exact found_selectRound row tied s (by omega) (ih (by omega))
  obtain ⟨v, hbits, hcut⟩ := hrun 4 (Nat.le_refl 4)
  have hkeys : (tieKeys row tied count).map (· / 2 ^ (32 - 8 * 4)) = tieKeys row tied count := by
    simp
  rw [hkeys] at hcut
  rw [selectPivot, hbits]
  simpa using hcut.countP_le hnodup

end Rounds

/-! ## The writes -/

/-- Winners that fit are written in their order. -/
theorem writeWinners_eq (wins : Nat → Bool) {limit base : Nat} {out : List Nat}
    (hout : base + limit ≤ out.length) :
    ∀ (cs : List Nat) (ctr : Nat), ctr + (cs.filter wins).length ≤ limit →
      writeWinners wins limit base cs (ctr, out) =
        (ctr + (cs.filter wins).length,
          out.take (base + ctr) ++ cs.filter wins ++
            out.drop (base + ctr + (cs.filter wins).length)) := by
  intro cs
  induction cs generalizing out with
  | nil => intro ctr _; simp [writeWinners]
  | cons c cs ih =>
    intro ctr hfit
    rw [writeWinners]
    by_cases hc : wins c = true
    · rw [List.filter_cons_of_pos hc, List.length_cons] at hfit ⊢
      have hctr : ctr < limit := by omega
      have hset : base + ctr < out.length := by omega
      rw [if_pos hc, if_pos hctr, ih (by rw [List.length_set]; exact hout) (ctr + 1) (by omega),
        ← Nat.add_assoc, List.take_add_one, List.take_set_of_le (Nat.le_refl _),
        List.getElem?_set_self hset, Option.toList_some, List.drop_set_of_lt (by omega),
        show ctr + 1 + (cs.filter wins).length = ctr + ((cs.filter wins).length + 1) by omega,
        show base + ctr + 1 + (cs.filter wins).length =
          base + ctr + ((cs.filter wins).length + 1) by omega]
      simp only [List.append_assoc, List.cons_append, List.nil_append]
    · rw [List.filter_cons_of_neg hc] at hfit ⊢
      rw [if_neg hc]
      exact ih hout ctr hfit

/-! ## The lowest positions -/

section Lowest

variable {row : Row} {tied : Tied} {count : Nat}

theorem tieKeys_nodup (hlt : ∀ c ∈ ties tied count, row.position c < 2 ^ 32)
    (hnodup : ((ties tied count).map row.position).Nodup) : (tieKeys row tied count).Nodup := by
  rw [tieKeys, List.map_map]
  refine (List.Nodup.of_map row.position hnodup).map_on fun a ha b hb hab => ?_
  rw [Function.comp_apply, Function.comp_apply, toNat_positionKey (hlt a ha),
    toNat_positionKey (hlt b hb)] at hab
  refine List.inj_on_of_nodup_map hnodup ha hb ?_
  have hlta := hlt a ha
  have hltb := hlt b hb
  omega

/-- **The ties of the lowest positions take the free slots**, and nothing else is written, in
whatever order the threads count, look for the bucket and claim their slots. -/
theorem selectLowestPositionTies_lowest (s : Schedule count) {take base : Nat} {out : List Nat}
    (hlt : ∀ c ∈ ties tied count, row.position c < 2 ^ 32)
    (hnodup : ((ties tied count).map row.position).Nodup) (htake : take ≤ (ties tied count).length)
    (hout : base + take ≤ out.length) :
    ∃ chosen, selectLowestPositionTies row tied s take base out =
        out.take base ++ chosen ++ out.drop (base + take) ∧
      IsTop (fun a b => row.position a < row.position b) take (ties tied count) chosen := by
  rcases Nat.eq_zero_or_pos take with rfl | hpos
  · refine ⟨[], ?_, by simp, ties tied count, .refl _, fun a ha => absurd ha List.not_mem_nil⟩
    rw [selectLowestPositionTies, if_neg (Nat.lt_irrefl 0), List.append_nil, Nat.add_zero,
      List.take_append_drop]
  · have hreach := countP_selectPivot row tied s hpos htake (tieKeys_nodup hlt hnodup)
    rw [selectLowestPositionTies, if_pos hpos]
    generalize selectPivot row tied s take = pivot at hreach ⊢
    have harrive : (s.writes.filterMap tied.candidate).Perm (ties tied count) :=
      s.writes_perm.filterMap tied.candidate
    -- Positions are unique, so exactly `take` keys reach the pivot.
    have hlen : ((s.writes.filterMap tied.candidate).filter
        fun c => decide (pivot ≤ row.positionKey c)).length = take := by
      rw [(harrive.filter _).length_eq, ← List.countP_eq_length_filter, ← hreach, tieKeys,
        List.countP_map, List.countP_map]
      refine List.countP_congr fun c _ => ?_
      simp only [Function.comp_apply, decide_eq_true_eq, BitVec.le_def]
    refine ⟨_, ?_, by rw [hlen, Nat.min_eq_left htake],
      (ties tied count).filter fun c => !decide (pivot ≤ row.positionKey c), ?_, ?_⟩
    · simp only [writeWinners_eq _ hout _ 0 (by rw [hlen, Nat.zero_add]), hlen, Nat.add_zero]
    · exact (List.filter_append_perm _ _).symm.trans ((harrive.filter _).symm.append_right _)
    · intro a ha b hb
      have hwin := (List.mem_filter.1 ha).2
      have hlose := (List.mem_filter.1 hb).2
      have hta := hlt a (harrive.mem_iff.1 (List.mem_filter.1 ha).1)
      have htb := hlt b (List.mem_filter.1 hb).1
      rw [decide_eq_true_iff, BitVec.le_def, toNat_positionKey hta] at hwin
      rw [Bool.not_eq_true', decide_eq_false_iff_not, BitVec.le_def, toNat_positionKey htb] at hlose
      omega

end Lowest

/-- Threads that update in the order of the entries. -/
def inOrder (count : Nat) : Schedule count :=
  ⟨fun _ => List.range count, fun _ => List.range 256, List.range count, fun _ => .refl _,
    fun _ => .refl _, .refl _⟩

/-- Threads whose updates arrive from the last entry on. -/
def fromLast (count : Nat) : Schedule count :=
  ⟨fun _ => (List.range count).reverse, fun _ => (List.range 256).reverse,
    (List.range count).reverse, fun _ => List.reverse_perm _, fun _ => List.reverse_perm _,
    List.reverse_perm _⟩

/-- Four ties in a buffer, carried ones among them, and the threads' updates from the last on. -/
example :
    ∃ chosen, selectLowestPositionTies ⟨false, 100, 20, 3, 0, [7, 300]⟩ (.buffer [4, 0, 3, 2])
        (fromLast 4) 2 1 [9, 9, 9, 9] = [9, 9, 9, 9].take 1 ++ chosen ++ [9, 9, 9, 9].drop (1 + 2) ∧
      IsTop (fun a b => Row.position ⟨false, 100, 20, 3, 0, [7, 300]⟩ a <
          Row.position ⟨false, 100, 20, 3, 0, [7, 300]⟩ b) 2 (ties (.buffer [4, 0, 3, 2]) 4)
        chosen :=
  selectLowestPositionTies_lowest _ (by decide) (by decide) (by decide) (by decide)

end LlmkubeRuntimes.TopK
