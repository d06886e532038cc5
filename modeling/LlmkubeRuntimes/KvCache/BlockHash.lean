import Mathlib.Data.List.GetD
import Mathlib.Logic.Function.Basic
import LlmkubeRuntimes.Lib.Steps

/-!
# Hashes of prefixes

A request's tokens are hashed block by block, each hash over the one before it, the
block's tokens and extra keys: the LoRA's name, the multi-modal inputs in the block,
the cache salt, and a digest of the block's prompt embeddings.

* `requestBlockHasher`: the hashes of the full blocks that have none yet;
* `BlockHashList`: the hashes at the granularity of a cache group;
* `blockHash`, `extraKeys`: the hash of a block and its extra keys, outright;
* `hash_in_chunks`: hashes computed as tokens are generated are those computed at once;
* `resolved_fingerprint`: at any granularity equal hashes are equal prefixes.
-/

namespace LlmkubeRuntimes.KvCache

open LlmkubeRuntimes.Lib

/-- A multi-modal input and the placeholder tokens it has. -/
structure MmFeature where
  identifier : String
  offset : Nat
  length : Nat

/-- An extra key: a name or a salt, an input with its offset in the block, or a digest. -/
inductive Key (β : Type) where
  | str (s : String)
  | mm (identifier : String) (offset : Int)
  | bytes (b : β)

/-- What hashing reads of a request; `ε` is a row of the prompt embeddings. -/
structure Request (ε β : Type) where
  allTokenIds : List Nat
  mmFeatures : List MmFeature
  loraName : Option String
  cacheSalt : Option String
  promptEmbeds : Option (List ε)
  blockHashes : List β

inductive HashError where
  | mmIndex
  | blockSize
  | scaleFactor
  deriving DecidableEq, Repr

variable {ε β : Type}

/-! ## Extra keys -/

/-- The keys of the inputs in a block, and how many inputs from the first of `fs` on are behind
the block. -/
def mmLoop (start stop : Nat) : List MmFeature → List (Key β) × Nat
  | [] => ([], 0)
  | f :: fs =>
    if f.offset < stop then
      if f.offset + f.length ≤ start then
        let (keys, passed) := mmLoop start stop fs
        (keys, passed + 1)
      else
        let key := .mm f.identifier (f.offset - start)
        if f.offset + f.length ≤ stop then
          let (keys, passed) := mmLoop start stop fs
          (key :: keys, passed + 1)
        else ([key], 0)
    else ([], 0)

/-- `_gen_mm_extra_hash_keys`: the keys, and the index of the next input. -/
def genMmExtraHashKeys (r : Request ε β) (start stop : Nat) (startMmIdx : Int) :
    Except HashError (List (Key β) × Int) :=
  match r.mmFeatures.getLast? with
  | none => .ok ([], startMmIdx)
  | some last =>
    if last.offset + last.length ≤ start then .ok ([], startMmIdx)
    else if startMmIdx < 0 ∧ r.mmFeatures.length < -startMmIdx then .error .mmIndex
    else
      let currMmIdx := if startMmIdx < 0 then r.mmFeatures.length + startMmIdx else startMmIdx
      let (keys, passed) := mmLoop start stop (r.mmFeatures.drop currMmIdx.toNat)
      .ok (keys, currMmIdx + passed)

def genLoraExtraHashKeys (r : Request ε β) : List (Key β) :=
  match r.loraName with
  | none => []
  | some name => [.str name]

def cacheSaltKeys (r : Request ε β) (start : Nat) : List (Key β) :=
  match r.cacheSalt with
  | some salt => if start = 0 ∧ salt ≠ "" then [.str salt] else []
  | none => []

def genPromptEmbedsExtraHashKeys (digest : List ε → β) (r : Request ε β) (start stop : Nat) :
    List (Key β) :=
  match r.promptEmbeds with
  | none => []
  | some rows => [.bytes (digest ((rows.drop start).take (stop - start)))]

/-- All extra keys of a block, or none. -/
def tupleOf (digest : List ε → β) (r : Request ε β) (start stop : Nat) (mmKeys : List (Key β)) :
    Option (List (Key β)) :=
  match genLoraExtraHashKeys r ++ mmKeys ++ cacheSaltKeys r start ++
    genPromptEmbedsExtraHashKeys digest r start stop with
  | [] => none
  | keys => some keys

def generateBlockHashExtraKeys (digest : List ε → β) (r : Request ε β) (start stop : Nat)
    (startMmIdx : Int) : Except HashError (Option (List (Key β)) × Int) :=
  match genMmExtraHashKeys r start stop startMmIdx with
  | .ok (mmKeys, next) => .ok (tupleOf digest r start stop mmKeys, next)
  | .error e => .error e

/-! ## The hasher -/

section Hasher

variable (hashFn : β × List Nat × Option (List (Key β)) → β) (noneHash : β) (digest : List ε → β)
  (hashBlockSize : Nat)

def hashBlockTokens (parentBlockHash : Option β) (tokens : List Nat)
    (extraKeys : Option (List (Key β))) : β :=
  hashFn (parentBlockHash.getD noneHash, tokens, extraKeys)

/-- The loop over the full blocks from token `start` on; each turn takes at least a token. -/
def hashLoop (r : Request ε β) :
    Nat → Nat → Int → Option β → Except HashError (List β)
  | 0, _, _, _ => .ok []
  | fuel + 1, start, mmIdx, prev =>
    if r.allTokenIds.length < start + hashBlockSize then .ok []
    else
      match generateBlockHashExtraKeys digest r start (start + hashBlockSize) mmIdx with
      | .error e => .error e
      | .ok (keys, mmIdx') =>
        let blockHash := hashBlockTokens hashFn noneHash prev
          ((r.allTokenIds.drop start).take hashBlockSize) keys
        match hashLoop r fuel (start + hashBlockSize) mmIdx' (some blockHash) with
        | .ok hashes => .ok (blockHash :: hashes)
        | .error e => .error e

/-- The hashes of the full blocks that have none yet. -/
def requestBlockHasher (r : Request ε β) : Except HashError (List β) :=
  let start := r.blockHashes.length * hashBlockSize
  if r.allTokenIds.length < start + hashBlockSize then .ok []
  else
    hashLoop hashFn noneHash digest hashBlockSize r r.allTokenIds.length start
      (if 0 < start then -1 else 0) r.blockHashes.getLast?

/-- More tokens, and the hashes of the blocks they fill. -/
def extend (tokens : List Nat) (r : Request ε β) : Except HashError (Request ε β) :=
  let r' := { r with allTokenIds := r.allTokenIds ++ tokens }
  match requestBlockHasher hashFn noneHash digest hashBlockSize r' with
  | .ok hashes => .ok { r' with blockHashes := r'.blockHashes ++ hashes }
  | .error e => .error e

/-- The extra keys of a block, all inputs considered. -/
def extraKeys (r : Request ε β) (k : Nat) : Option (List (Key β)) :=
  tupleOf digest r (k * hashBlockSize) ((k + 1) * hashBlockSize)
    ((r.mmFeatures.filter fun f => f.offset < (k + 1) * hashBlockSize ∧
      k * hashBlockSize < f.offset + f.length).map
        fun f => .mm f.identifier (f.offset - (k * hashBlockSize : Nat)))

/-- The tokens of a block. -/
def blockTokens (r : Request ε β) (k : Nat) : List Nat :=
  (r.allTokenIds.drop (k * hashBlockSize)).take hashBlockSize

/-- The hash of block `k`. -/
def blockHash (r : Request ε β) : Nat → β
  | 0 => hashBlockTokens hashFn noneHash none (blockTokens hashBlockSize r 0)
      (extraKeys digest hashBlockSize r 0)
  | k + 1 => hashBlockTokens hashFn noneHash (some (blockHash r k))
      (blockTokens hashBlockSize r (k + 1)) (extraKeys digest hashBlockSize r (k + 1))

end Hasher

/-! ## Coarser hashes -/

/-- Hashes as computed, or a view of them in which a block is `scaleFactor` blocks. -/
inductive BlockHashList (β : Type) where
  | hashes (blockHashes : List β)
  | view (blockHashes : List β) (scaleFactor : Nat)

/-- The hashes of the list in order; `none` is an index out of range. -/
def BlockHashList.values : BlockHashList β → List (Option β)
  | .hashes blockHashes => blockHashes.map some
  | .view blockHashes scaleFactor =>
    (List.range (blockHashes.length / scaleFactor)).map fun i =>
      blockHashes[(i + 1) * scaleFactor - 1]?

def resolveBlockHashes (blockHashes : BlockHashList β) (hashBlockSize blockSize : Nat)
    (supportsFineGrainedHashLookup : Bool) (alignmentTokens : Option Nat) :
    Except HashError (BlockHashList β) :=
  if blockSize = hashBlockSize then .ok blockHashes
  else
    match blockHashes with
    | .view l scaleFactor =>
      if scaleFactor = blockSize / hashBlockSize then .ok (.view l scaleFactor)
      else .error .scaleFactor
    | .hashes l =>
      if supportsFineGrainedHashLookup &&
          alignmentTokens.any fun a => a < blockSize && blockSize % a == 0 then .ok (.hashes l)
      else if blockSize % hashBlockSize = 0 then .ok (.view l (blockSize / hashBlockSize))
      else .error .blockSize

/-! ## The index of the next input -/

/-- The inputs have their tokens one behind the other. -/
def InOrder (fs : List MmFeature) : Prop := fs.Pairwise fun f g => f.offset + f.length ≤ g.offset

/-- The place of an index, which counts from the end where it is negative. -/
def place (fs : List MmFeature) (i : Int) : Nat := (if i < 0 then fs.length + i else i).toNat

/-- The inputs before the index are behind token `start`. -/
def Reached (fs : List MmFeature) (i : Int) (start : Nat) : Prop :=
  fs ≠ [] → -fs.length ≤ i ∧ ∀ f ∈ fs.take (place fs i), f.offset + f.length ≤ start

theorem Reached.mono {fs : List MmFeature} {i : Int} {s t : Nat} (h : Reached fs i s)
    (hst : s ≤ t) : Reached fs i t := fun hne => ⟨(h hne).1, fun f hf => Nat.le_trans ((h hne).2 f hf) hst⟩

section Inputs

variable {fs : List MmFeature} {s t : Nat}

theorem InOrder.overlaps_nil (h : ∀ f ∈ fs, f.offset + f.length ≤ s ∨ t ≤ f.offset) :
    fs.filter (fun f => f.offset < t ∧ s < f.offset + f.length) = [] := by
  rw [List.filter_eq_nil_iff]
  intro f hf
  have := h f hf
  simp only [decide_eq_true_eq]
  omega

/-- The loop finds the inputs in the block, and passes none that goes on behind it. -/
theorem mmLoop_eq (h : InOrder fs) (hst : s ≤ t) :
    (mmLoop (β := β) s t fs).1 = (fs.filter fun f => f.offset < t ∧ s < f.offset + f.length).map
        (fun f => .mm f.identifier (f.offset - s)) ∧
      ∀ f ∈ fs.take (mmLoop (β := β) s t fs).2, f.offset + f.length ≤ t := by
  induction fs with
  | nil => exact ⟨rfl, fun f hf => absurd hf List.not_mem_nil⟩
  | cons f fs ih =>
    obtain ⟨hf, hfs⟩ := List.pairwise_cons.1 h
    obtain ⟨hkeys, hpassed⟩ := ih hfs
    by_cases hlt : f.offset < t
    · by_cases hbefore : f.offset + f.length ≤ s
      · -- The block has passed the input.
        rw [List.filter_cons_of_neg (by simp only [decide_eq_true_eq]; omega)]
        simp only [mmLoop, hlt, hbefore, if_true, List.take_succ_cons, List.mem_cons,
          forall_eq_or_imp]
        exact ⟨hkeys, Nat.le_trans hbefore hst, hpassed⟩
      · rw [List.filter_cons_of_pos (by simp only [decide_eq_true_eq]; omega)]
        by_cases hin : f.offset + f.length ≤ t
        · simp only [mmLoop, hlt, hbefore, hin, if_true, if_false, List.take_succ_cons,
            List.mem_cons, forall_eq_or_imp, List.map_cons]
          exact ⟨by rw [hkeys], trivial, hpassed⟩
        · -- The inputs behind this one are behind the block.
          have hrest : ∀ g ∈ fs, g.offset + g.length ≤ s ∨ t ≤ g.offset := fun g hg => by
            have := hf g hg
            omega
          simp only [mmLoop, hlt, hbefore, hin, if_true, if_false, InOrder.overlaps_nil hrest]
          exact ⟨rfl, fun g hg => absurd hg List.not_mem_nil⟩
    · have hrest : ∀ g ∈ f :: fs, g.offset + g.length ≤ s ∨ t ≤ g.offset := fun g hg => by
        rcases List.mem_cons.1 hg with rfl | hg
        · omega
        · have := hf g hg
          omega
      rw [InOrder.overlaps_nil hrest]
      simp only [mmLoop, hlt, if_false]
      exact ⟨rfl, fun g hg => absurd hg List.not_mem_nil⟩

end Inputs

section Keys

variable {r : Request ε β} {s t : Nat} {i : Int}

theorem genMmExtraHashKeys_eq (h : InOrder r.mmFeatures) (hi : Reached r.mmFeatures i s)
    (hst : s ≤ t) :
    ∃ i', genMmExtraHashKeys r s t i = .ok
        ((r.mmFeatures.filter fun f => f.offset < t ∧ s < f.offset + f.length).map
          fun f => .mm f.identifier (f.offset - s), i') ∧
      Reached r.mmFeatures i' t := by
  rcases List.eq_nil_or_concat r.mmFeatures with hnil | ⟨front, last, hlast⟩
  · exact ⟨i, by simp only [genMmExtraHashKeys, hnil]; rfl, fun hne => absurd hnil hne⟩
  rw [List.concat_eq_append] at hlast
  have hne : r.mmFeatures ≠ [] := by simp [hlast]
  obtain ⟨hindex, hpassed⟩ := hi hne
  have hget : r.mmFeatures.getLast? = some last := by rw [hlast]; simp
  by_cases hover : last.offset + last.length ≤ s
  · have hall : ∀ f ∈ r.mmFeatures, f.offset + f.length ≤ s ∨ t ≤ f.offset := fun f hf => by
      have hbefore := h
      rw [hlast] at hf hbefore
      rcases List.mem_append.1 hf with hf | hf
      · have := (List.pairwise_append.1 hbefore).2.2 f hf last List.mem_cons_self
        omega
      · rw [List.mem_singleton.1 hf]
        exact .inl hover
    refine ⟨i, ?_, hi.mono hst⟩
    simp only [genMmExtraHashKeys, hget, hover, if_true, InOrder.overlaps_nil hall]
    rfl
  · have hguard : ¬ (i < 0 ∧ (r.mmFeatures.length : Int) < -i) := by omega
    obtain ⟨hkeys, hnext⟩ := mmLoop_eq (β := β)
      (h.sublist (List.drop_sublist (place r.mmFeatures i) _)) hst
    have hsplit : r.mmFeatures.filter (fun f => f.offset < t ∧ s < f.offset + f.length) =
        (r.mmFeatures.drop (place r.mmFeatures i)).filter fun f =>
          f.offset < t ∧ s < f.offset + f.length := by
      conv_lhs => rw [← List.take_append_drop (place r.mmFeatures i) r.mmFeatures]
      rw [List.filter_append, InOrder.overlaps_nil fun f hf => .inl (hpassed f hf), List.nil_append]
    have hplace : (0 : Int) ≤ if i < 0 then r.mmFeatures.length + i else i := by
      split <;> omega
    refine ⟨(if i < 0 then r.mmFeatures.length + i else i) +
      ((mmLoop (β := β) s t (r.mmFeatures.drop (place r.mmFeatures i))).2 : Int), ?_,
      fun _ => ⟨by omega, fun f hf => ?_⟩⟩
    · simp only [genMmExtraHashKeys, hget, hover, hguard, if_false, hsplit, ← hkeys]
      rfl
    · have hplace' : place r.mmFeatures ((if i < 0 then r.mmFeatures.length + i else i) +
          ((mmLoop (β := β) s t (r.mmFeatures.drop (place r.mmFeatures i))).2 : Int)) =
          place r.mmFeatures i +
            (mmLoop (β := β) s t (r.mmFeatures.drop (place r.mmFeatures i))).2 := by
        generalize (mmLoop (β := β) s t (r.mmFeatures.drop (place r.mmFeatures i))).2 = passed
        rw [place, if_neg (by omega), place]
        omega
      rw [hplace', List.take_add] at hf
      rcases List.mem_append.1 hf with hf | hf
      · exact Nat.le_trans (hpassed f hf) hst
      · exact hnext f hf

end Keys

section Hashes

variable (hashFn : β × List Nat × Option (List (Key β)) → β) (noneHash : β) (digest : List ε → β)
  {hashBlockSize : Nat} {r : Request ε β}

/-- The hash of the block before block `k`. -/
def parentHash (hashBlockSize : Nat) (r : Request ε β) : Nat → Option β
  | 0 => none
  | k + 1 => some (blockHash hashFn noneHash digest hashBlockSize r k)

theorem blockHash_eq (k : Nat) :
    blockHash hashFn noneHash digest hashBlockSize r k =
      hashBlockTokens hashFn noneHash (parentHash hashFn noneHash digest hashBlockSize r k)
        (blockTokens hashBlockSize r k) (extraKeys digest hashBlockSize r k) := by
  cases k <;> rfl

theorem generateBlockHashExtraKeys_eq (h : InOrder r.mmFeatures) {k : Nat} {i : Int}
    (hi : Reached r.mmFeatures i (k * hashBlockSize)) :
    ∃ i', generateBlockHashExtraKeys digest r (k * hashBlockSize) ((k + 1) * hashBlockSize) i =
        .ok (extraKeys digest hashBlockSize r k, i') ∧
      Reached r.mmFeatures i' ((k + 1) * hashBlockSize) := by
  obtain ⟨i', hkeys, hnext⟩ := genMmExtraHashKeys_eq h hi
    (Nat.mul_le_mul_right hashBlockSize (Nat.le_succ k))
  exact ⟨i', by rw [generateBlockHashExtraKeys, hkeys]; rfl, hnext⟩

/-- The loop hashes the blocks from `k` on to the last full one. -/
theorem hashLoop_eq (hsize : 0 < hashBlockSize) (h : InOrder r.mmFeatures) (fuel k : Nat) {i : Int}
    (hi : Reached r.mmFeatures i (k * hashBlockSize))
    (hfuel : r.allTokenIds.length / hashBlockSize ≤ k + fuel) :
    hashLoop hashFn noneHash digest hashBlockSize r fuel (k * hashBlockSize) i
        (parentHash hashFn noneHash digest hashBlockSize r k) =
      .ok ((List.range' k (r.allTokenIds.length / hashBlockSize - k)).map
        (blockHash hashFn noneHash digest hashBlockSize r)) := by
  induction fuel generalizing k i with
  | zero =>
    rw [Nat.add_zero] at hfuel
    rw [Nat.sub_eq_zero_of_le hfuel]
    rfl
  | succ fuel ih =>
    have hstop : k * hashBlockSize + hashBlockSize = (k + 1) * hashBlockSize :=
      (Nat.succ_mul k hashBlockSize).symm
    by_cases hfull : r.allTokenIds.length < k * hashBlockSize + hashBlockSize
    · have hlast : r.allTokenIds.length / hashBlockSize ≤ k := by
        rw [hstop, ← Nat.div_lt_iff_lt_mul hsize] at hfull
        exact Nat.le_of_lt_succ hfull
      rw [hashLoop, if_pos hfull, Nat.sub_eq_zero_of_le hlast]
      rfl
    · have hmore : k + 1 ≤ r.allTokenIds.length / hashBlockSize := by
        rw [Nat.le_div_iff_mul_le hsize, ← hstop]
        exact Nat.le_of_not_lt hfull
      obtain ⟨i', hkeys, hnext⟩ := generateBlockHashExtraKeys_eq digest h hi
      have hrest := ih (k + 1) hnext (by omega)
      have hblock : hashBlockTokens hashFn noneHash
          (parentHash hashFn noneHash digest hashBlockSize r k)
          ((r.allTokenIds.drop (k * hashBlockSize)).take hashBlockSize)
          (extraKeys digest hashBlockSize r k) =
          blockHash hashFn noneHash digest hashBlockSize r k :=
        (blockHash_eq hashFn noneHash digest k).symm
      have hcount : r.allTokenIds.length / hashBlockSize - k =
          (r.allTokenIds.length / hashBlockSize - (k + 1)) + 1 := by omega
      rw [parentHash] at hrest
      rw [hashLoop, if_neg hfull, hstop, hkeys]
      simp only [hblock, hrest]
      rw [hcount, List.range'_succ, List.map_cons]

/-- The hashes that a request with the hashes of its first `k` blocks gets. -/
theorem requestBlockHasher_eq (hsize : 0 < hashBlockSize) (h : InOrder r.mmFeatures) {k : Nat}
    (hhashes : r.blockHashes = (List.range k).map
      (blockHash hashFn noneHash digest hashBlockSize r))
    (hlast : 0 < k → ∀ f ∈ r.mmFeatures.dropLast, f.offset + f.length ≤ k * hashBlockSize) :
    requestBlockHasher hashFn noneHash digest hashBlockSize r =
      .ok ((List.range' k (r.allTokenIds.length / hashBlockSize - k)).map
        (blockHash hashFn noneHash digest hashBlockSize r)) := by
  have hlength : r.blockHashes.length = k := by rw [hhashes]; simp
  have hprev : r.blockHashes.getLast? = parentHash hashFn noneHash digest hashBlockSize r k := by
    rw [hhashes]
    cases k with
    | zero => rfl
    | succ k => simp [List.range_succ, parentHash]
  have hreached : Reached r.mmFeatures (if 0 < k * hashBlockSize then -1 else 0)
      (k * hashBlockSize) := by
    intro hne
    have hpos := List.length_pos_iff.2 hne
    rcases Nat.eq_zero_or_pos k with rfl | hk
    · exact ⟨by simp, fun f hf => by simp [place] at hf⟩
    · rw [if_pos (Nat.mul_pos hk hsize)]
      refine ⟨by omega, fun f hf => hlast hk f ?_⟩
      have hplace : place r.mmFeatures (-1) = r.mmFeatures.length - 1 := by
        rw [place, if_pos (by omega)]
        omega
      rw [List.dropLast_eq_take, ← hplace]
      exact hf
  have hrun := hashLoop_eq hashFn noneHash digest hsize h r.allTokenIds.length k hreached
    (Nat.le_trans (Nat.div_le_self _ _) (Nat.le_add_left _ _))
  rw [requestBlockHasher, hlength, hprev, hrun]
  split
  · next hfull =>
    rw [← Nat.succ_mul, ← Nat.div_lt_iff_lt_mul hsize] at hfull
    rw [Nat.sub_eq_zero_of_le (Nat.le_of_lt_succ hfull)]
    rfl
  · rfl

/-! ## Hashes in chunks -/

variable (hashBlockSize) in
theorem blockHash_congr {r r' : Request ε β} (k : Nat)
    (htokens : ∀ j ≤ k, blockTokens hashBlockSize r j = blockTokens hashBlockSize r' j)
    (hkeys : ∀ j ≤ k, extraKeys digest hashBlockSize r j = extraKeys digest hashBlockSize r' j) :
    blockHash hashFn noneHash digest hashBlockSize r k =
      blockHash hashFn noneHash digest hashBlockSize r' k := by
  induction k with
  | zero => rw [blockHash, blockHash, htokens 0 (Nat.le_refl 0), hkeys 0 (Nat.le_refl 0)]
  | succ k ih =>
    rw [blockHash, blockHash, htokens _ (Nat.le_refl _), hkeys _ (Nat.le_refl _),
      ih (fun j hj => htokens j (Nat.le_succ_of_le hj)) fun j hj => hkeys j (Nat.le_succ_of_le hj)]

/-- The hashes that a request has do not count for those it gets. -/
theorem blockHash_hashes (hashBlockSize : Nat) (q : Request ε β) (hashes : List β) :
    blockHash hashFn noneHash digest hashBlockSize { q with blockHashes := hashes } =
      blockHash hashFn noneHash digest hashBlockSize q :=
  funext fun k => blockHash_congr hashFn noneHash digest hashBlockSize k (fun _ _ => rfl)
    fun _ _ => rfl

/-- The request with these tokens and the hashes of all their full blocks. -/
def hashed (hashBlockSize : Nat) (r : Request ε β) (tokens : List Nat) : Request ε β :=
  { r with
    allTokenIds := tokens
    blockHashes := (List.range (tokens.length / hashBlockSize)).map
      (blockHash hashFn noneHash digest hashBlockSize { r with allTokenIds := tokens }) }

theorem extend_eq {tokens : List Nat} {hashes : List β}
    (h : requestBlockHasher hashFn noneHash digest hashBlockSize
      { r with allTokenIds := r.allTokenIds ++ tokens } = .ok hashes) :
    extend hashFn noneHash digest hashBlockSize tokens r = .ok { r with
      allTokenIds := r.allTokenIds ++ tokens, blockHashes := r.blockHashes ++ hashes } := by
  simp only [extend, h]

theorem extend_hashed (hsize : 0 < hashBlockSize) (h : InOrder r.mmFeatures)
    (tokens more : List Nat)
    (hlast : 0 < tokens.length / hashBlockSize → ∀ f ∈ r.mmFeatures.dropLast,
      f.offset + f.length ≤ tokens.length / hashBlockSize * hashBlockSize) :
    extend hashFn noneHash digest hashBlockSize more
        (hashed hashFn noneHash digest hashBlockSize r tokens) =
      .ok (hashed hashFn noneHash digest hashBlockSize r (tokens ++ more)) := by
  have hold : (List.range (tokens.length / hashBlockSize)).map
      (blockHash hashFn noneHash digest hashBlockSize { r with allTokenIds := tokens }) =
      (List.range (tokens.length / hashBlockSize)).map
        (blockHash hashFn noneHash digest hashBlockSize
          { r with allTokenIds := tokens ++ more }) := by
    refine List.map_congr_left fun k hk => blockHash_congr hashFn noneHash digest hashBlockSize k
      (fun j hj => ?_) fun j _ => rfl
    have hin : (j + 1) * hashBlockSize ≤ tokens.length :=
      (Nat.le_div_iff_mul_le hsize).1 (Nat.lt_of_le_of_lt hj (List.mem_range.1 hk))
    rw [Nat.succ_mul] at hin
    simp only [blockTokens]
    rw [List.drop_append_of_le_length (by omega), List.take_append_of_le_length]
    rw [List.length_drop]
    omega
  have hsame := blockHash_hashes hashFn noneHash digest hashBlockSize
    { r with allTokenIds := tokens ++ more }
    (hashed hashFn noneHash digest hashBlockSize r tokens).blockHashes
  have hrun := requestBlockHasher_eq hashFn noneHash digest (k := tokens.length / hashBlockSize)
    (r := { hashed hashFn noneHash digest hashBlockSize r tokens with
      allTokenIds := tokens ++ more }) hsize h (hold.trans (by rw [← hsame]; rfl)) hlast
  have hle : tokens.length / hashBlockSize ≤ (tokens ++ more).length / hashBlockSize :=
    Nat.div_le_div_right (by rw [List.length_append]; omega)
  have hrange : List.range ((tokens ++ more).length / hashBlockSize) =
      List.range (tokens.length / hashBlockSize) ++ List.range' (tokens.length / hashBlockSize)
        ((tokens ++ more).length / hashBlockSize - tokens.length / hashBlockSize) := by
    have happend := List.range'_append_1 (s := 0) (m := tokens.length / hashBlockSize)
      (n := (tokens ++ more).length / hashBlockSize - tokens.length / hashBlockSize)
    rw [Nat.zero_add, Nat.add_sub_cancel' hle] at happend
    rw [List.range_eq_range', List.range_eq_range', happend]
  have hnew : (hashed hashFn noneHash digest hashBlockSize r tokens).blockHashes ++
      (List.range' (tokens.length / hashBlockSize)
        ((tokens ++ more).length / hashBlockSize - tokens.length / hashBlockSize)).map
          (blockHash hashFn noneHash digest hashBlockSize
            { r with allTokenIds := tokens ++ more }) =
      (hashed hashFn noneHash digest hashBlockSize r (tokens ++ more)).blockHashes := by
    simp only [hashed, hrange, List.map_append, hold]
  rw [extend_eq hashFn noneHash digest (hrun.trans
    (congrArg (fun hash => Except.ok (List.map hash _)) hsame))]
  exact congrArg (fun hashes => Except.ok ({ r with
    allTokenIds := tokens ++ more, blockHashes := hashes } : Request ε β)) hnew

theorem extendAll_hashed (hsize : 0 < hashBlockSize) (h : InOrder r.mmFeatures)
    (chunks : List (List Nat)) (tokens : List Nat)
    (hlast : ∀ n, tokens.length ≤ n → 0 < n / hashBlockSize → ∀ f ∈ r.mmFeatures.dropLast,
      f.offset + f.length ≤ n / hashBlockSize * hashBlockSize) :
    applyAll (extend hashFn noneHash digest hashBlockSize) chunks
        (hashed hashFn noneHash digest hashBlockSize r tokens) =
      .ok (hashed hashFn noneHash digest hashBlockSize r (tokens ++ chunks.flatten)) := by
  induction chunks generalizing tokens with
  | nil => rw [List.flatten_nil, List.append_nil, applyAll]
  | cons more chunks ih =>
    have hstep := extend_hashed hashFn noneHash digest hsize h tokens more
      (hlast _ (Nat.le_refl _))
    rw [applyAll_cons]
    refine ⟨_, hstep, ?_⟩
    rw [ih (tokens ++ more) fun n hn => hlast n (by rw [List.length_append] at hn; omega),
      List.flatten_cons, List.append_assoc]

/-- **Hashes computed as tokens are generated are those computed at once**, however the tokens come
behind the prompt, if every multi-modal input but the last ends within the blocks that the prompt
fills, or within the first block. -/
theorem hash_in_chunks (hsize : 0 < hashBlockSize) (h : InOrder r.mmFeatures) (prompt : List Nat)
    (chunks : List (List Nat))
    (hlast : ∀ f ∈ r.mmFeatures.dropLast,
      f.offset + f.length ≤ max hashBlockSize (prompt.length / hashBlockSize * hashBlockSize)) :
    ∃ out, applyAll (extend hashFn noneHash digest hashBlockSize) (prompt :: chunks)
        { r with allTokenIds := [], blockHashes := [] } = .ok out ∧
      out.allTokenIds = prompt ++ chunks.flatten ∧
      requestBlockHasher hashFn noneHash digest hashBlockSize { out with blockHashes := [] } =
        .ok out.blockHashes := by
  have hstart : ({ r with allTokenIds := [], blockHashes := [] } : Request ε β) =
      hashed hashFn noneHash digest hashBlockSize r [] := by
    simp [hashed]
  have hprompt := extend_hashed hashFn noneHash digest hsize h [] prompt fun hpos => by
    simp at hpos
  have hbound : ∀ n, prompt.length ≤ n → 0 < n / hashBlockSize → ∀ f ∈ r.mmFeatures.dropLast,
      f.offset + f.length ≤ n / hashBlockSize * hashBlockSize := fun n hn hpos f hf => by
    refine Nat.le_trans (hlast f hf) (Nat.max_le.2 ⟨Nat.le_mul_of_pos_left _ hpos, ?_⟩)
    exact Nat.mul_le_mul_right _ (Nat.div_le_div_right hn)
  have hrun := extendAll_hashed hashFn noneHash digest hsize h chunks prompt hbound
  refine ⟨hashed hashFn noneHash digest hashBlockSize r (prompt ++ chunks.flatten), ?_, rfl, ?_⟩
  · rw [hstart, applyAll_cons]
    exact ⟨_, hprompt, hrun⟩
  · have hwhole := requestBlockHasher_eq hashFn noneHash digest (k := 0)
      (r := { r with allTokenIds := prompt ++ chunks.flatten, blockHashes := [] }) hsize h rfl
      fun hpos => absurd hpos (Nat.lt_irrefl 0)
    rw [Nat.sub_zero, ← List.range_eq_range'] at hwhole
    refine hwhole.trans (congrArg (fun hash => Except.ok (List.map hash _)) ?_)
    exact blockHash_hashes hashFn noneHash digest hashBlockSize
      { r with allTokenIds := prompt ++ chunks.flatten } []

end Hashes

/-! ## What a hash tells -/

/-- Two requests with the same first `k` blocks. -/
structure SamePrefix (digest : List ε → β) (hashBlockSize : Nat) (r r' : Request ε β) (k : Nat) :
    Prop where
  tokens : r.allTokenIds.take (k * hashBlockSize) = r'.allTokenIds.take (k * hashBlockSize)
  keys : ∀ j < k, extraKeys digest hashBlockSize r j = extraKeys digest hashBlockSize r' j

section Fingerprint

variable {hashFn : β × List Nat × Option (List (Key β)) → β} {noneHash : β} {digest : List ε → β}
  {hashBlockSize : Nat} {r r' : Request ε β}

theorem take_blocks (k : Nat) :
    r.allTokenIds.take (k * hashBlockSize) = r'.allTokenIds.take (k * hashBlockSize) ↔
      ∀ j < k, blockTokens hashBlockSize r j = blockTokens hashBlockSize r' j := by
  constructor
  · intro h j hj
    have hin : ∀ l : List Nat, (l.drop (j * hashBlockSize)).take hashBlockSize =
        ((l.take (k * hashBlockSize)).drop (j * hashBlockSize)).take hashBlockSize := fun l => by
      have hle := Nat.mul_le_mul_right hashBlockSize (Nat.succ_le_of_lt hj)
      rw [Nat.succ_mul] at hle
      rw [List.drop_take, List.take_take, Nat.min_eq_left (by omega)]
    rw [blockTokens, blockTokens, hin, hin r'.allTokenIds, h]
  · intro h
    induction k with
    | zero => simp
    | succ k ih =>
      rw [Nat.succ_mul, List.take_add, List.take_add, ih fun j hj => h j (Nat.lt_succ_of_lt hj)]
      exact congrArg _ (h k (Nat.lt_succ_self k))

/-- Equal hashes are of blocks at one place whose tokens and keys are the same all the way. -/
theorem blockHash_inj (hinj : Function.Injective hashFn) (hnone : ∀ x, hashFn x ≠ noneHash)
    {i j : Nat} (h : blockHash hashFn noneHash digest hashBlockSize r i =
      blockHash hashFn noneHash digest hashBlockSize r' j) :
    i = j ∧ ∀ k ≤ i, blockTokens hashBlockSize r k = blockTokens hashBlockSize r' k ∧
      extraKeys digest hashBlockSize r k = extraKeys digest hashBlockSize r' k := by
  induction i generalizing j with
  | zero =>
    cases j with
    | zero =>
      have hargs := hinj h
      simp only [Prod.mk.injEq] at hargs
      refine ⟨rfl, fun k hk => ?_⟩
      rw [Nat.le_zero.1 hk]
      exact hargs.2
    | succ j =>
      have hparent := (Prod.mk.inj (hinj h)).1
      cases j <;> exact absurd hparent.symm (hnone _)
  | succ i ih =>
    cases j with
    | zero =>
      have hparent := (Prod.mk.inj (hinj h)).1
      cases i <;> exact absurd hparent (hnone _)
    | succ j =>
      have hargs := hinj h
      simp only [Prod.mk.injEq, Option.getD_some] at hargs
      obtain ⟨hij, hall⟩ := ih hargs.1
      refine ⟨congrArg Nat.succ hij, fun k hk => ?_⟩
      rcases Nat.lt_or_eq_of_le hk with hk | rfl
      · exact hall k (Nat.le_of_lt_succ hk)
      · rw [hij]
        rw [hij] at hargs
        exact hargs.2

theorem blockHash_iff (hinj : Function.Injective hashFn) (hnone : ∀ x, hashFn x ≠ noneHash)
    {i j : Nat} :
    blockHash hashFn noneHash digest hashBlockSize r i =
        blockHash hashFn noneHash digest hashBlockSize r' j ↔
      i = j ∧ SamePrefix digest hashBlockSize r r' (i + 1) := by
  constructor
  · intro h
    obtain ⟨hij, hall⟩ := blockHash_inj hinj hnone h
    exact ⟨hij, (take_blocks _).2 fun k hk => (hall k (Nat.le_of_lt_succ hk)).1,
      fun k hk => (hall k (Nat.le_of_lt_succ hk)).2⟩
  · rintro ⟨rfl, hprefix⟩
    exact blockHash_congr hashFn noneHash digest hashBlockSize i
      (fun k hk => (take_blocks _).1 hprefix.tokens k (Nat.lt_succ_of_le hk))
      fun k hk => hprefix.keys k (Nat.lt_succ_of_le hk)

/-- The hashes at a coarser granularity: those of the last block in each coarser one. -/
theorem resolveBlockHashes_eq {m n : Nat} (hsize : 0 < hashBlockSize) (hm : 0 < m) (hash : Nat → β)
    (alignmentTokens : Option Nat) :
    ∃ list, resolveBlockHashes (.hashes ((List.range n).map hash)) hashBlockSize
        (m * hashBlockSize) false alignmentTokens = .ok list ∧
      list.values = (List.range (n / m)).map fun i => some (hash ((i + 1) * m - 1)) := by
  by_cases hone : m = 1
  · refine ⟨_, if_pos (by rw [hone, Nat.one_mul]), ?_⟩
    simp [BlockHashList.values, hone]
  · have hne : m * hashBlockSize ≠ hashBlockSize := fun heq => by
      rcases Nat.lt_or_gt_of_ne hone with h | h
      · omega
      · have := Nat.mul_lt_mul_of_pos_right h hsize
        omega
    refine ⟨.view ((List.range n).map hash) m, ?_, ?_⟩
    · simp only [resolveBlockHashes, hne, if_false, Bool.false_and, Bool.false_eq_true,
        Nat.mul_mod_left, if_true, Nat.mul_div_cancel m hsize]
    · rw [BlockHashList.values, List.length_map, List.length_range]
      refine List.map_congr_left fun i hi => ?_
      have hle : (i + 1) * m ≤ n := (Nat.le_div_iff_mul_le hm).1 (List.mem_range.1 hi)
      have hpos : 0 < (i + 1) * m := Nat.mul_pos (Nat.succ_pos i) hm
      rw [List.getElem?_map, List.getElem?_range (by omega), Option.map_some]

/-- **Equal hashes are equal prefixes**, at the granularity of any cache group: a request gets a
hash for every full block of the group's size, and where the hash function has no collisions two
hashes are equal exactly when they end at the same block, behind the same tokens and with the same
extra keys all the way. -/
theorem resolved_fingerprint (hinj : Function.Injective hashFn) (hnone : ∀ x, hashFn x ≠ noneHash)
    (hsize : 0 < hashBlockSize) {m : Nat} (hm : 0 < m) (alignmentTokens : Option Nat)
    (h : InOrder r.mmFeatures) (h' : InOrder r'.mmFeatures) (hr : r.blockHashes = [])
    (hr' : r'.blockHashes = []) :
    ∃ hashes hashes' list list',
      requestBlockHasher hashFn noneHash digest hashBlockSize r = .ok hashes ∧
      requestBlockHasher hashFn noneHash digest hashBlockSize r' = .ok hashes' ∧
      resolveBlockHashes (.hashes hashes) hashBlockSize (m * hashBlockSize) false alignmentTokens =
        .ok list ∧
      resolveBlockHashes (.hashes hashes') hashBlockSize (m * hashBlockSize) false
        alignmentTokens = .ok list' ∧
      list.values.length = r.allTokenIds.length / (m * hashBlockSize) ∧
      ∀ i j hash hash', list.values[i]? = some hash → list'.values[j]? = some hash' →
        (hash = hash' ↔ i = j ∧ SamePrefix digest hashBlockSize r r' ((i + 1) * m)) := by
  have hrun : ∀ q : Request ε β, InOrder q.mmFeatures → q.blockHashes = [] →
      requestBlockHasher hashFn noneHash digest hashBlockSize q =
        .ok ((List.range (q.allTokenIds.length / hashBlockSize)).map
          (blockHash hashFn noneHash digest hashBlockSize q)) := fun q hq hnil => by
    have hrun := requestBlockHasher_eq hashFn noneHash digest (k := 0) hsize hq hnil
      fun hpos => absurd hpos (Nat.lt_irrefl 0)
    rwa [Nat.sub_zero, ← List.range_eq_range'] at hrun
  obtain ⟨list, hlist, hvalues⟩ := resolveBlockHashes_eq (n := r.allTokenIds.length / hashBlockSize)
    hsize hm (blockHash hashFn noneHash digest hashBlockSize r) alignmentTokens
  obtain ⟨list', hlist', hvalues'⟩ :=
    resolveBlockHashes_eq (n := r'.allTokenIds.length / hashBlockSize) hsize hm
      (blockHash hashFn noneHash digest hashBlockSize r') alignmentTokens
  refine ⟨_, _, list, list', hrun r h hr, hrun r' h' hr', hlist, hlist', ?_,
    fun i j hash hash' hi hj => ?_⟩
  · rw [hvalues, List.length_map, List.length_range, Nat.div_div_eq_div_mul, Nat.mul_comm]
  · rw [hvalues, List.getElem?_map, Option.map_eq_some_iff] at hi
    rw [hvalues', List.getElem?_map, Option.map_eq_some_iff] at hj
    obtain ⟨a, ha, rfl⟩ := hi
    obtain ⟨b, hb, rfl⟩ := hj
    obtain ⟨_, rfl⟩ := List.getElem?_eq_some_iff.1 ha
    obtain ⟨_, rfl⟩ := List.getElem?_eq_some_iff.1 hb
    have hpos : 0 < (i + 1) * m := Nat.mul_pos (Nat.succ_pos i) hm
    have hpos' : 0 < (j + 1) * m := Nat.mul_pos (Nat.succ_pos j) hm
    rw [List.getElem_range, List.getElem_range, Option.some.injEq, blockHash_iff hinj hnone,
      Nat.sub_add_cancel hpos]
    refine and_congr_left fun _ => ⟨fun heq => ?_, fun heq => by rw [heq]⟩
    have hmul : (i + 1) * m = (j + 1) * m := by omega
    exact Nat.succ.inj (Nat.eq_of_mul_eq_mul_right hm hmul)

end Fingerprint

/-- A hash function without collisions: its values are its arguments. -/
inductive Term where
  | seed
  | digest (rows : List Nat)
  | node (parent : Term) (tokens : List Nat) (keys : Option (List (Key Term)))

def Term.hash (x : Term × List Nat × Option (List (Key Term))) : Term := .node x.1 x.2.1 x.2.2

theorem Term.hash_injective : Function.Injective Term.hash := by
  rintro ⟨p, t, k⟩ ⟨p', t', k'⟩ h
  simp only [Term.hash, Term.node.injEq] at h
  obtain ⟨rfl, rfl, rfl⟩ := h
  rfl

theorem Term.hash_ne_seed (x : Term × List Nat × Option (List (Key Term))) :
    Term.hash x ≠ .seed := by
  simp [Term.hash]

/-- Five tokens with an input among them, in blocks of two. -/
def fiveTokens : Request Nat Term :=
  ⟨[1, 2, 3, 4, 5], [⟨"image", 1, 2⟩, ⟨"sound", 3, 1⟩], none, some "salt", none, []⟩

/-- The prompt fills a block and the first input, the rest comes token by token. -/
theorem hash_in_chunks_five :
    ∃ out, applyAll (extend Term.hash .seed .digest 2) [[1, 2, 3, 4], [5], [6]]
        { fiveTokens with allTokenIds := [], blockHashes := [] } = .ok out ∧
      out.allTokenIds = [1, 2, 3, 4] ++ [[5], [6]].flatten ∧
      requestBlockHasher Term.hash .seed .digest 2 { out with blockHashes := [] } =
        .ok out.blockHashes :=
  hash_in_chunks Term.hash .seed .digest Nat.two_pos (by simp [InOrder, fiveTokens]) _ _
    (by simp [fiveTokens])

/-- Two inputs behind the block that the prompt fills: the block they are in is hashed with the
last of them only, where all tokens at once are hashed with both. -/
example :
    let r : Request Nat Term := ⟨[], [⟨"image", 4, 1⟩, ⟨"sound", 5, 1⟩], none, none, none, []⟩
    let first := Term.hash (.seed, [1, 2, 3, 4], none)
    (applyAll (extend Term.hash .seed .digest 4) [[1, 2, 3, 4, 5, 6, 7], [8]] r).map
        (·.blockHashes) =
      .ok [first, .hash (first, [5, 6, 7, 8], some [.mm "sound" 1])] ∧
    requestBlockHasher Term.hash .seed .digest 4
        { r with allTokenIds := [1, 2, 3, 4, 5, 6, 7, 8] } =
      .ok [first, .hash (first, [5, 6, 7, 8], some [.mm "image" 0, .mm "sound" 1])] :=
  ⟨rfl, rfl⟩

/-- The two full blocks of two tokens, as one of four. -/
theorem resolved_fingerprint_five :
    ∃ hashes hashes' list list',
      requestBlockHasher Term.hash .seed .digest 2 fiveTokens = .ok hashes ∧
      requestBlockHasher Term.hash .seed .digest 2 { fiveTokens with cacheSalt := none } =
        .ok hashes' ∧
      resolveBlockHashes (.hashes hashes) 2 (2 * 2) false none = .ok list ∧
      resolveBlockHashes (.hashes hashes') 2 (2 * 2) false none = .ok list' ∧
      list.values.length = 5 / (2 * 2) ∧
      ∀ i j hash hash', list.values[i]? = some hash → list'.values[j]? = some hash' →
        (hash = hash' ↔ i = j ∧
          SamePrefix .digest 2 fiveTokens { fiveTokens with cacheSalt := none } ((i + 1) * 2)) :=
  resolved_fingerprint Term.hash_injective Term.hash_ne_seed Nat.two_pos Nat.two_pos none
    (by simp [InOrder, fiveTokens]) (by simp [InOrder, fiveTokens]) rfl rfl

end LlmkubeRuntimes.KvCache
