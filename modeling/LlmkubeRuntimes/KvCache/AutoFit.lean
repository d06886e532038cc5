import Mathlib.Order.Monotone.Defs
import LlmkubeRuntimes.Lib.Bisect

/-!
# The greatest `max_model_len`

How long a request may be with the memory of every worker.

* `KVCacheSpec`, `WorkerGroups`: what planning asks of a worker's groups;
* `estimate`: the bisection, which writes the config it reads;
* `autoFitMaxModelLen`, `checkEnoughKvCacheMemory`, `fitMaxModelLen`: the length that fits on
  every worker, and the check that it does;
* `fitMaxModelLen_greatest`: what planning leaves is the greatest length.
-/

namespace LlmkubeRuntimes.KvCache

open Lib (DownOn Bracket)

inductive Raised where
  | valueError (message : String)
  | other (message : String)
  deriving DecidableEq, Repr

/-! ## What a request needs -/

/-- What planning asks a spec. Needs are asked with a `max_model_len`. -/
structure KVCacheSpec where
  isUniformType : Bool
  pageSizeBytes : Nat
  maxMemoryUsagePages : Int → Except Raised Nat
  maxMemoryUsageBytes : Int → Except Raised Nat

/-- The layout of attention with Mamba groups whose tensors share pages. -/
structure Glm5Layout where
  attnGroup : KVCacheSpec
  mambaGroups : List KVCacheSpec
  tailNames : Bool
  bytesPerPage : Nat

/-- A worker's groups and what follows from them alone. -/
structure WorkerGroups where
  groups : List KVCacheSpec
  glm5Layout : Option Glm5Layout
  poolBytesPerBlock : Nat

def cdiv (a b : Nat) : Nat := (a + b - 1) / b

def KVCacheSpec.bytesInPages (spec : KVCacheSpec) (len : Int) : Except Raised Nat :=
  (spec.maxMemoryUsageBytes len).map fun bytes => cdiv bytes spec.pageSizeBytes

def KVCacheSpec.blocks (spec : KVCacheSpec) (len : Int) : Except Raised Nat :=
  if spec.isUniformType then spec.maxMemoryUsagePages len else spec.bytesInPages len

/-- A sum over specs, in order. -/
def sumOver (need : KVCacheSpec → Int → Except Raised Nat) :
    List KVCacheSpec → Int → Except Raised Nat
  | [], _ => .ok 0
  | spec :: specs, len => do return (← need spec len) + (← sumOver need specs len)

def maxMemoryUsageBytes (specs : List KVCacheSpec) : Int → Except Raised Nat :=
  sumOver KVCacheSpec.maxMemoryUsageBytes specs

def Glm5Layout.maxMemoryUsageBytes (layout : Glm5Layout) (len : Int) : Except Raised Nat := do
  let pages ← layout.attnGroup.maxMemoryUsagePages len
  let mamba ← sumOver KVCacheSpec.bytesInPages layout.mambaGroups len
  return (pages + mamba + if layout.tailNames then 1 else 0) * layout.bytesPerPage

def maxMemoryUsageBytesFromGroups (w : WorkerGroups) (len : Int) : Except Raised Nat :=
  if w.groups.isEmpty then .ok 0
  else match w.glm5Layout with
    | some layout => layout.maxMemoryUsageBytes len
    | none => do return w.poolBytesPerBlock * (← sumOver KVCacheSpec.blocks w.groups len)

/-! ## The bisection -/

section Estimate

variable (usage : Int → Except Raised Nat) (availableMemory : Int)

/-- The test writes the length that it tries to the config. -/
def fits (modelLen _maxModelLen : Int) : Except Raised Bool × Int :=
  ((usage modelLen).map fun needed => decide ((needed : Int) ≤ availableMemory), modelLen)

theorem shrinks_up {left right : Int} (h : left ≤ right) :
    (right + 1 - ((left + right) / 2 + 1)).toNat < (right + 1 - left).toNat := by
  omega

theorem shrinks_down {left right : Int} (h : left ≤ right) :
    ((left + right) / 2 - 1 + 1 - left).toNat < (right + 1 - left).toNat := by
  omega

def bisect (left right result maxModelLen : Int) : Except Raised Int × Int :=
  if _h : left ≤ right then
    match fits usage availableMemory ((left + right) / 2) maxModelLen with
    | (.ok true, len) => bisect ((left + right) / 2 + 1) right ((left + right) / 2) len
    | (.ok false, len) => bisect left ((left + right) / 2 - 1) result len
    | (.error e, len) => (.error e, len)
  else (.ok result, maxModelLen)
termination_by (right + 1 - left).toNat
decreasing_by
  · exact shrinks_up _h
  · exact shrinks_down _h

/-- The greatest length that fits, 0 if not one token does. The config is put back in the end. -/
def estimate (maxModelLen : Int) : Except Raised Int × Int :=
  let body := match fits usage availableMemory 1 maxModelLen with
    | (.ok true, len) => bisect usage availableMemory 1 maxModelLen 1 len
    | (.ok false, len) => (.ok 0, len)
    | (.error e, len) => (.error e, len)
  (body.1, maxModelLen)

end Estimate

def estimateMaxModelLenFromGroups (w : WorkerGroups) : Int → Int → Except Raised Int × Int :=
  estimate (maxMemoryUsageBytesFromGroups w)

def estimateMaxModelLen (specs : List KVCacheSpec) : Int → Int → Except Raised Int × Int :=
  estimate (maxMemoryUsageBytes specs)

/-! ## All workers -/

def autoFitLoop : List (WorkerGroups × Int) → Int → Int → Except Raised Int × Int
  | [], autoFitMax, len => (.ok autoFitMax, len)
  | (w, availMem) :: workers, autoFitMax, len =>
    if w.groups.isEmpty then autoFitLoop workers autoFitMax len
    else match estimateMaxModelLenFromGroups w availMem len with
      | (.error e, len) => (.error e, len)
      | (.ok workerMax, len) =>
        autoFitLoop workers (if workerMax < autoFitMax then workerMax else autoFitMax) len

def notOneToken : Raised :=
  .valueError ("Cannot auto-fit max_model_len: not enough GPU memory available " ++
    "to serve even a single token. Try increasing `gpu_memory_utilization`.")

def autoFitMaxModelLen (workers : List (WorkerGroups × Int)) (originalMax : Int) :
    Except Raised Unit × Int :=
  if workers.all (·.1.groups.isEmpty) then (.ok (), originalMax)
  else match autoFitLoop workers originalMax originalMax with
    | (.error e, len) => (.error e, len)
    | (.ok autoFitMax, len) =>
      if autoFitMax ≤ 0 then (.error notOneToken, len)
      else if originalMax ≤ autoFitMax then (.ok (), len)
      else (.ok (), autoFitMax)

def noMemory : Raised :=
  .valueError ("No available memory for the cache blocks. " ++
    "Try increasing `gpu_memory_utilization` when initializing the engine " ++
    "(this flag also controls CPU memory reservation on the CPU " ++
    "backend, despite its name). " ++
    "See https://docs.vllm.ai/en/latest/configuration/conserving_memory/ for more details.")

section Check

variable (formatGib : Int → String)

def notEnough (maxModelLen needed available estimated : Int) : Raised :=
  let estimatedMsg := if 0 < estimated then
      "Based on the available memory, " ++ s!"the estimated maximum model length is {estimated}. "
    else ""
  .valueError ("To serve at least one request with the model's max seq len " ++
    s!"({maxModelLen}), ({formatGib needed} GiB KV " ++
    "cache is needed, which is larger than the available KV cache " ++
    s!"memory ({formatGib available} GiB). " ++ estimatedMsg ++
    "Try increasing `gpu_memory_utilization` (which also controls " ++
    "CPU memory on the CPU backend) or decreasing `max_model_len` when initializing the engine. " ++
    "See https://docs.vllm.ai/en/latest/configuration/conserving_memory/ for more details.")

def checkEnoughKvCacheMemory (w : WorkerGroups) (availableMemory maxModelLen : Int) :
    Except Raised Unit × Int :=
  if availableMemory ≤ 0 then (.error noMemory, maxModelLen)
  else match maxMemoryUsageBytesFromGroups w maxModelLen with
    | .error e => (.error e, maxModelLen)
    | .ok needed =>
      if availableMemory < needed then
        match estimateMaxModelLenFromGroups w availableMemory maxModelLen with
        | (.error e, len) => (.error e, len)
        | (.ok estimated, len) =>
          (.error (notEnough formatGib maxModelLen needed availableMemory estimated), len)
      else (.ok (), maxModelLen)

def checkWorkers : List (WorkerGroups × Int) → Int → Except Raised Unit × Int
  | [], len => (.ok (), len)
  | (w, availMem) :: workers, len =>
    if w.groups.isEmpty then checkWorkers workers len
    else match checkEnoughKvCacheMemory formatGib w availMem len with
      | (.error e, len) => (.error e, len)
      | (.ok (), len) => checkWorkers workers len

/-- The part of `get_kv_cache_configs` between grouping and the configs. -/
def fitMaxModelLen (originalMaxModelLen : Int) (workers : List (WorkerGroups × Int))
    (maxModelLen : Int) : Except Raised Unit × Int :=
  match (if originalMaxModelLen = -1 then autoFitMaxModelLen workers maxModelLen
    else (.ok (), maxModelLen)) with
  | (.error e, len) => (.error e, len)
  | (.ok (), len) => checkWorkers formatGib workers len

end Check

/-! ## Needs that grow -/

/-- Up to `hi` the need is known, at least `k`, and a longer request needs no less. -/
def Growing (k : Nat) (hi : Int) (need : Int → Except Raised Nat) : Prop :=
  ∃ amount : Int → Nat, (∀ n, 1 ≤ n → n ≤ hi → need n = .ok (amount n) ∧ k ≤ amount n) ∧
    ∀ m n, 1 ≤ m → m ≤ n → n ≤ hi → amount m ≤ amount n

section Growing

variable {j k : Nat} {hi : Int} {need need' : Int → Except Raised Nat}

theorem Growing.known (h : Growing k hi need) {n : Int} (h1 : 1 ≤ n) (hn : n ≤ hi) :
    ∃ amount, need n = .ok amount ∧ k ≤ amount := by
  obtain ⟨amount, hamount, -⟩ := h
  exact ⟨amount n, hamount n h1 hn⟩

theorem Growing.weaken (hjk : j ≤ k) : Growing k hi need → Growing j hi need := by
  rintro ⟨amount, hamount, hmono⟩
  exact ⟨amount, fun n h1 hn => ⟨(hamount n h1 hn).1, hjk.trans (hamount n h1 hn).2⟩, hmono⟩

theorem Growing.map {f : Nat → Nat} (hf : Monotone f) :
    Growing k hi need → Growing (f k) hi fun n => (need n).map f := by
  rintro ⟨amount, hamount, hmono⟩
  refine ⟨fun n => f (amount n), fun n h1 hn => ⟨?_, hf (hamount n h1 hn).2⟩,
    fun m n h1 hmn hn => hf (hmono m n h1 hmn hn)⟩
  simp only [(hamount n h1 hn).1, Except.map]

theorem Growing.map₂ {f : Nat → Nat → Nat} (hf : ∀ ⦃a a' b b'⦄, a ≤ a' → b ≤ b' → f a b ≤ f a' b') :
    Growing j hi need → Growing k hi need' →
      Growing (f j k) hi fun n => do return f (← need n) (← need' n) := by
  rintro ⟨amount, hamount, hmono⟩ ⟨amount', hamount', hmono'⟩
  refine ⟨fun n => f (amount n) (amount' n), fun n h1 hn =>
    ⟨?_, hf (hamount n h1 hn).2 (hamount' n h1 hn).2⟩,
    fun m n h1 hmn hn => hf (hmono m n h1 hmn hn) (hmono' m n h1 hmn hn)⟩
  simp only [(hamount n h1 hn).1, (hamount' n h1 hn).1]
  rfl

theorem sumOver_growing {need : KVCacheSpec → Int → Except Raised Nat}
    {specs : List KVCacheSpec} (h : ∀ spec ∈ specs, Growing 1 hi (need spec)) :
    Growing specs.length hi (sumOver need specs) := by
  induction specs with
  | nil => exact ⟨fun _ => 0, fun _ _ _ => ⟨rfl, Nat.le_refl 0⟩, fun _ _ _ _ _ => Nat.le_refl 0⟩
  | cons spec specs ih =>
    obtain ⟨hspec, hspecs⟩ := List.forall_mem_cons.1 h
    refine (Growing.map₂ (f := (· + ·)) (fun _ _ _ _ => Nat.add_le_add) hspec
      (ih hspecs)).weaken ?_
    rw [List.length_cons, Nat.add_comm]

/-- A spec needs at least one page, and more for longer requests. -/
structure KVCacheSpec.Grows (hi : Int) (spec : KVCacheSpec) : Prop where
  page_pos : 0 < spec.pageSizeBytes
  pages : spec.isUniformType = true → Growing 1 hi spec.maxMemoryUsagePages
  bytes : spec.isUniformType = false → Growing 1 hi spec.maxMemoryUsageBytes

theorem KVCacheSpec.Grows.bytesInPages {spec : KVCacheSpec} (h : spec.Grows hi)
    (huniform : spec.isUniformType = false) : Growing 1 hi spec.bytesInPages := by
  have hmono : Monotone fun bytes => cdiv bytes spec.pageSizeBytes :=
    fun a b hab => Nat.div_le_div_right (by omega)
  refine ((h.bytes huniform).map hmono).weaken ?_
  rw [cdiv, Nat.add_sub_cancel_left, Nat.div_self h.page_pos]

theorem KVCacheSpec.Grows.blocks {spec : KVCacheSpec} (h : spec.Grows hi) :
    Growing 1 hi spec.blocks := by
  cases huniform : spec.isUniformType with
  | true =>
    have := h.pages huniform
    unfold KVCacheSpec.blocks
    simpa only [huniform, if_true] using this
  | false =>
    have := h.bytesInPages huniform
    unfold KVCacheSpec.blocks
    simpa only [huniform, Bool.false_eq_true, if_false] using this

/-- The groups of a worker are of growing specs, and those of its layout are among them. -/
structure WorkerGroups.Grows (hi : Int) (w : WorkerGroups) : Prop where
  specs : ∀ spec ∈ w.groups, spec.Grows hi
  block_pos : 0 < w.poolBytesPerBlock
  page_pos : ∀ layout ∈ w.glm5Layout, 0 < layout.bytesPerPage
  attn : ∀ layout ∈ w.glm5Layout, layout.attnGroup ∈ w.groups ∧
    layout.attnGroup.isUniformType = true
  mamba : ∀ layout ∈ w.glm5Layout, ∀ spec ∈ layout.mambaGroups, spec ∈ w.groups ∧
    spec.isUniformType = false

theorem WorkerGroups.Grows.usage {w : WorkerGroups} (h : w.Grows hi) (hw : w.groups ≠ []) :
    Growing 1 hi (maxMemoryUsageBytesFromGroups w) := by
  have hempty : w.groups.isEmpty = false := by simpa using hw
  unfold maxMemoryUsageBytesFromGroups
  simp only [hempty, Bool.false_eq_true, if_false]
  cases hlayout : w.glm5Layout with
  | none =>
    have htotal := sumOver_growing fun spec hspec => (h.specs spec hspec).blocks
    have hmono : Monotone fun blocks => w.poolBytesPerBlock * blocks :=
      fun a b hab => Nat.mul_le_mul_left _ hab
    exact (htotal.map hmono).weaken (Nat.mul_pos h.block_pos (List.length_pos_iff.2 hw))
  | some layout =>
    obtain ⟨hattn, huniform⟩ := h.attn layout hlayout
    have hmamba := sumOver_growing fun spec hspec =>
      (h.specs spec (h.mamba layout hlayout spec hspec).1).bytesInPages
        (h.mamba layout hlayout spec hspec).2
    refine (((h.specs _ hattn).pages huniform).map₂ (f := fun pages mamba =>
      (pages + mamba + if layout.tailNames then 1 else 0) * layout.bytesPerPage)
      (fun a a' b b' ha hb => Nat.mul_le_mul_right _ (by omega)) hmamba).weaken ?_
    exact Nat.mul_pos (by omega) (h.page_pos layout hlayout)

end Growing

/-! ## What fits -/

def Fits (usage : Int → Except Raised Nat) (availableMemory n : Int) : Prop :=
  ∃ needed : Nat, usage n = .ok needed ∧ (needed : Int) ≤ availableMemory

/-- No token, or as many as fit. -/
def NoneOrFits (usage : Int → Except Raised Nat) (availableMemory n : Int) : Prop :=
  n = 0 ∨ Fits usage availableMemory n

section Bisection

variable {k : Nat} {usage : Int → Except Raised Nat} {hi availableMemory : Int}

theorem Growing.downOn (h : Growing k hi usage) : DownOn 1 hi (Fits usage availableMemory) := by
  obtain ⟨amount, hamount, hmono⟩ := h
  rintro m n h1 hmn hn ⟨needed, hneeded, hle⟩
  rw [(hamount n (h1.trans hmn) hn).1, Except.ok.injEq] at hneeded
  have := hmono m n h1 hmn hn
  exact ⟨amount m, (hamount m h1 (hmn.trans hn)).1, by omega⟩

theorem Growing.noneOrFits_downOn (h : Growing k hi usage) :
    DownOn 0 hi (NoneOrFits usage availableMemory) := by
  rintro m n h0 hmn hn (rfl | hfits)
  · exact .inl (by omega)
  · rcases eq_or_lt_of_le h0 with hzero | hpos
    · exact .inl hzero.symm
    · exact .inr (h.downOn hpos hmn hn hfits)

theorem Growing.fits_eq (h : Growing k hi usage) (availableMemory : Int) {n : Int} (h1 : 1 ≤ n)
    (hn : n ≤ hi) (len : Int) :
    ∃ b, fits usage availableMemory n len = (.ok b, n) ∧
      (b = true ↔ Fits usage availableMemory n) := by
  obtain ⟨amount, hneed, -⟩ := h.known h1 hn
  refine ⟨decide ((amount : Int) ≤ availableMemory), by rw [fits, hneed]; rfl, ?_⟩
  rw [decide_eq_true_iff]
  constructor
  · intro hle
    exact ⟨amount, hneed, hle⟩
  · rintro ⟨needed, hneeded, hle⟩
    rw [hneed, Except.ok.injEq] at hneeded
    omega

/-- The bisection keeps its bracket. -/
theorem bisect_greatest (h : Growing k hi usage) (left right result len : Int)
    (hbracket : Bracket (Fits usage availableMemory) 1 hi left right result) :
    ∃ n len', bisect usage availableMemory left right result len = (.ok n, len') ∧
      IsGreatest {n | 1 ≤ n ∧ n ≤ hi ∧ Fits usage availableMemory n} n := by
  by_cases hle : left ≤ right
  · have hlo := hbracket.lo_le
    have hhi := hbracket.le_hi
    have hleft : left ≤ (left + right) / 2 := by omega
    have hright : (left + right) / 2 ≤ right := by omega
    obtain ⟨b, hb, hiff⟩ := h.fits_eq availableMemory (hlo.trans hleft) (hright.trans hhi) len
    rw [bisect, dif_pos hle, hb]
    cases b with
    | false =>
      exact bisect_greatest h _ _ _ _
        (hbracket.down h.downOn hleft hright fun hfits => Bool.false_ne_true (hiff.2 hfits))
    | true =>
      exact bisect_greatest h _ _ _ _ (hbracket.up hleft hright (hiff.1 rfl))
  · rw [bisect, dif_neg hle]
    exact ⟨result, len, rfl, hbracket.isGreatest (Int.lt_of_not_ge hle)⟩
termination_by (right + 1 - left).toNat
decreasing_by
  · exact shrinks_down hle
  · exact shrinks_up hle

/-- The config is as before, and the estimate is the greatest length. -/
theorem estimate_greatest {len : Int} (h : Growing k len usage) (availableMemory : Int)
    (hlen : 1 ≤ len) :
    ∃ n, estimate usage availableMemory len = (.ok n, len) ∧
      IsGreatest {n | 0 ≤ n ∧ n ≤ len ∧ NoneOrFits usage availableMemory n} n := by
  obtain ⟨b, hb, hiff⟩ := h.fits_eq availableMemory le_rfl hlen len
  rw [estimate, hb]
  cases b with
  | true =>
    obtain ⟨n, len', hn, ⟨h1, hle, hfits⟩, hmax⟩ := bisect_greatest h 1 len 1 1
      (Bracket.whole (hiff.1 rfl) hlen)
    refine ⟨n, by simp only [hn], ⟨by omega, hle, .inr hfits⟩, ?_⟩
    rintro m ⟨h0, hm, rfl | hfits⟩
    · omega
    · rcases eq_or_lt_of_le h0 with hzero | hpos
      · omega
      · exact hmax ⟨hpos, hm, hfits⟩
  | false =>
    refine ⟨0, rfl, ⟨le_rfl, by omega, .inl rfl⟩, ?_⟩
    rintro m ⟨h0, hm, rfl | hfits⟩
    · exact le_rfl
    · by_contra hpos
      exact Bool.false_ne_true (hiff.2 (h.downOn le_rfl (by omega) hm hfits))

theorem estimateMaxModelLen_greatest {specs : List KVCacheSpec} {len : Int}
    (h : ∀ spec ∈ specs, Growing 1 len spec.maxMemoryUsageBytes) (availableMemory : Int)
    (hlen : 1 ≤ len) :
    ∃ n, estimateMaxModelLen specs availableMemory len = (.ok n, len) ∧
      IsGreatest {n | 0 ≤ n ∧ n ≤ len ∧
        NoneOrFits (maxMemoryUsageBytes specs) availableMemory n} n :=
  estimate_greatest (sumOver_growing h) availableMemory hlen

end Bisection

/-! ## Planning -/

/-- Every worker that has groups holds a request of `n` tokens. -/
def AllFit (workers : List (WorkerGroups × Int)) (n : Int) : Prop :=
  ∀ w ∈ workers, w.1.groups ≠ [] → NoneOrFits (maxMemoryUsageBytesFromGroups w.1) w.2 n

theorem allFit_cons {w : WorkerGroups × Int} {workers : List (WorkerGroups × Int)} {n : Int} :
    AllFit (w :: workers) n ↔
      (w.1.groups ≠ [] → NoneOrFits (maxMemoryUsageBytesFromGroups w.1) w.2 n) ∧
        AllFit workers n :=
  List.forall_mem_cons

section Workers

variable {workers : List (WorkerGroups × Int)} {len : Int}

/-- The loop goes on from the greatest length for the workers behind it, which has `p`. -/
theorem autoFitLoop_greatest (hlen : 1 ≤ len) (hgrow : ∀ w ∈ workers, w.1.Grows len)
    {p : Int → Prop} (hp : DownOn 0 len p) (acc : Int)
    (hacc : IsGreatest {n | 0 ≤ n ∧ n ≤ len ∧ p n} acc) :
    ∃ n, autoFitLoop workers acc len = (.ok n, len) ∧
      IsGreatest {n | 0 ≤ n ∧ n ≤ len ∧ p n ∧ AllFit workers n} n := by
  induction workers generalizing p acc with
  | nil => exact ⟨acc, rfl, by simpa [AllFit] using hacc⟩
  | cons w workers ih =>
    obtain ⟨hw, hworkers⟩ := List.forall_mem_cons.1 hgrow
    by_cases hempty : w.1.groups = []
    · obtain ⟨n, hn, hgreatest⟩ := ih hworkers hp acc hacc
      refine ⟨n, ?_, ?_⟩
      · rw [autoFitLoop, hempty, List.isEmpty_nil, if_pos rfl, hn]
      · simpa only [allFit_cons, hempty, ne_eq, not_true_eq_false, false_implies, true_and]
          using hgreatest
    · have hgrowing := hw.usage hempty
      obtain ⟨m, hm, hfits⟩ := estimate_greatest hgrowing w.2 hlen
      obtain ⟨n, hn, hgreatest⟩ := ih hworkers (hp.and hgrowing.noneOrFits_downOn) _
        (Lib.isGreatest_min hp hgrowing.noneOrFits_downOn hacc hfits)
      have hmin : (if m < acc then m else acc) = min acc m := by omega
      refine ⟨n, ?_, ?_⟩
      · rw [autoFitLoop, if_neg (by simpa using hempty), estimateMaxModelLenFromGroups, hm]
        simpa only [hmin] using hn
      · simpa only [allFit_cons, hempty, ne_eq, not_false_eq_true, true_implies, and_assoc]
          using hgreatest

theorem autoFit_greatest (hlen : 1 ≤ len) (hgrow : ∀ w ∈ workers, w.1.Grows len) :
    ∃ n, IsGreatest {n | 0 ≤ n ∧ n ≤ len ∧ AllFit workers n} n ∧
      autoFitMaxModelLen workers len =
        if n = 0 then (.error notOneToken, len) else (.ok (), n) := by
  by_cases hall : workers.all (·.1.groups.isEmpty) = true
  · have hfit : AllFit workers len := fun w hw hne =>
      absurd (List.isEmpty_iff.1 (List.all_eq_true.1 hall w hw)) hne
    refine ⟨len, ⟨⟨by omega, le_rfl, hfit⟩, fun n hn => hn.2.1⟩, ?_⟩
    rw [autoFitMaxModelLen, if_pos hall, if_neg (by omega)]
  · obtain ⟨n, hn, hgreatest⟩ := autoFitLoop_greatest hlen hgrow (p := fun _ => True)
      (fun _ _ _ _ _ _ => trivial) len
      ⟨⟨by omega, le_rfl, trivial⟩, fun n hn => hn.2.1⟩
    simp only [true_and] at hgreatest
    refine ⟨n, hgreatest, ?_⟩
    obtain ⟨h0, hle, -⟩ := hgreatest.1
    rw [autoFitMaxModelLen, if_neg hall, hn]
    by_cases hzero : n = 0
    · simp only [hzero, le_refl, if_true]
    · have hpos : ¬ n ≤ 0 := by omega
      simp only [hzero, hpos, if_false]
      split
      · rw [le_antisymm hle ‹_›]
      · rfl

/-- What the check says of a worker that cannot hold `len` tokens. -/
def Refusal (formatGib : Int → String) (w : WorkerGroups × Int) (len : Int) (e : Raised) : Prop :=
  (w.2 ≤ 0 ∧ e = noMemory) ∨
    ∃ (needed : Nat) (n : Int), maxMemoryUsageBytesFromGroups w.1 len = .ok needed ∧
      IsGreatest {n | 0 ≤ n ∧ n ≤ len ∧
        NoneOrFits (maxMemoryUsageBytesFromGroups w.1) w.2 n} n ∧
      e = notEnough formatGib len needed w.2 n

variable (formatGib : Int → String)

theorem check_ok {w : WorkerGroups} {availableMemory hi : Int}
    (h : Growing 1 hi (maxMemoryUsageBytesFromGroups w)) (hlen : 1 ≤ len) (hle : len ≤ hi)
    (hfits : Fits (maxMemoryUsageBytesFromGroups w) availableMemory len) :
    checkEnoughKvCacheMemory formatGib w availableMemory len = (.ok (), len) := by
  obtain ⟨needed, hneeded, hmem⟩ := hfits
  obtain ⟨amount, hamount, hpos⟩ := h.known hlen hle
  rw [hneeded, Except.ok.injEq] at hamount
  rw [checkEnoughKvCacheMemory, if_neg (by omega), hneeded]
  exact if_neg (by omega)

theorem check_error {w : WorkerGroups} {availableMemory : Int}
    (h : Growing 1 len (maxMemoryUsageBytesFromGroups w)) (hlen : 1 ≤ len)
    (hfits : ¬ Fits (maxMemoryUsageBytesFromGroups w) availableMemory len) :
    ∃ e, Refusal formatGib (w, availableMemory) len e ∧
      checkEnoughKvCacheMemory formatGib w availableMemory len = (.error e, len) := by
  by_cases hmem : availableMemory ≤ 0
  · exact ⟨noMemory, .inl ⟨hmem, rfl⟩, by rw [checkEnoughKvCacheMemory, if_pos hmem]⟩
  · obtain ⟨n, hn, hgreatest⟩ := estimate_greatest h availableMemory hlen
    obtain ⟨amount, hamount, -⟩ := h.known hlen le_rfl
    have hlt : availableMemory < amount := by
      by_contra hge
      exact hfits ⟨amount, hamount, by omega⟩
    refine ⟨notEnough formatGib len amount availableMemory n,
      .inr ⟨amount, n, hamount, hgreatest, rfl⟩, ?_⟩
    rw [checkEnoughKvCacheMemory, if_neg hmem, hamount]
    simp only [hlt, if_true, estimateMaxModelLenFromGroups, hn]

theorem checkWorkers_ok {hi : Int} (hgrow : ∀ w ∈ workers, w.1.Grows hi) (hlen : 1 ≤ len)
    (hle : len ≤ hi) (hfit : AllFit workers len) :
    checkWorkers formatGib workers len = (.ok (), len) := by
  induction workers with
  | nil => rfl
  | cons w workers ih =>
    obtain ⟨hw, hworkers⟩ := List.forall_mem_cons.1 hgrow
    obtain ⟨hfits, hrest⟩ := allFit_cons.1 hfit
    by_cases hempty : w.1.groups = []
    · rw [checkWorkers, hempty, List.isEmpty_nil, if_pos rfl, ih hworkers hrest]
    · have hlenFits := (hfits hempty).resolve_left (by omega)
      rw [checkWorkers, if_neg (by simpa using hempty),
        check_ok formatGib (hw.usage hempty) hlen hle hlenFits]
      exact ih hworkers hrest

theorem checkWorkers_error (hgrow : ∀ w ∈ workers, w.1.Grows len) (hlen : 1 ≤ len)
    (hfit : ¬ AllFit workers len) :
    ∃ w ∈ workers, ∃ e, Refusal formatGib w len e ∧
      checkWorkers formatGib workers len = (.error e, len) := by
  induction workers with
  | nil => exact absurd (fun w hw => absurd hw List.not_mem_nil) hfit
  | cons w workers ih =>
    obtain ⟨hw, hworkers⟩ := List.forall_mem_cons.1 hgrow
    by_cases hhere : w.1.groups ≠ [] → NoneOrFits (maxMemoryUsageBytesFromGroups w.1) w.2 len
    · have hrest : ¬ AllFit workers len := fun hrest => hfit (allFit_cons.2 ⟨hhere, hrest⟩)
      obtain ⟨v, hv, e, he, hcheck⟩ := ih hworkers hrest
      refine ⟨v, List.mem_cons_of_mem w hv, e, he, ?_⟩
      by_cases hempty : w.1.groups = []
      · rw [checkWorkers, hempty, List.isEmpty_nil, if_pos rfl, hcheck]
      · have hlenFits := (hhere hempty).resolve_left (by omega)
        rw [checkWorkers, if_neg (by simpa using hempty),
          check_ok formatGib (hw.usage hempty) hlen le_rfl hlenFits]
        exact hcheck
    · obtain ⟨hempty, hnone⟩ := Classical.not_imp.1 hhere
      obtain ⟨e, he, hcheck⟩ := check_error formatGib (hw.usage hempty) hlen
        fun hfits => hnone (.inr hfits)
      refine ⟨w, List.mem_cons_self, e, he, ?_⟩
      rw [checkWorkers, if_neg (by simpa using hempty), hcheck]

end Workers

/-- **Planning leaves the greatest `max_model_len`** that fits on every worker: found when it is to
be fitted, unless not one token fits, and then no check behind it fails; and else demanded. -/
theorem fitMaxModelLen_greatest (formatGib : Int → String)
    (workers : List (WorkerGroups × Int)) (originalMaxModelLen len : Int) (hlen : 1 ≤ len)
    (hgrow : ∀ w ∈ workers, w.1.Grows len) :
    ∃ n, IsGreatest {n | 0 ≤ n ∧ n ≤ len ∧ AllFit workers n} n ∧
      (originalMaxModelLen = -1 → fitMaxModelLen formatGib originalMaxModelLen workers len =
        if n = 0 then (.error notOneToken, len) else (.ok (), n)) ∧
      (originalMaxModelLen ≠ -1 → n = len →
        fitMaxModelLen formatGib originalMaxModelLen workers len = (.ok (), len)) ∧
      (originalMaxModelLen ≠ -1 → n ≠ len → ∃ w ∈ workers, ∃ e, Refusal formatGib w len e ∧
        fitMaxModelLen formatGib originalMaxModelLen workers len = (.error e, len)) := by
  obtain ⟨n, hgreatest, hauto⟩ := autoFit_greatest hlen hgrow
  obtain ⟨h0, hle, hfit⟩ := hgreatest.1
  refine ⟨n, hgreatest, fun horiginal => ?_, fun horiginal hn => ?_, fun horiginal hn => ?_⟩
  · rw [fitMaxModelLen, if_pos horiginal, hauto]
    by_cases hzero : n = 0
    · simp only [hzero, if_true]
    · simp only [hzero, if_false]
      exact checkWorkers_ok formatGib hgrow (by omega) hle hfit
  · subst hn
    rw [fitMaxModelLen, if_neg horiginal]
    exact checkWorkers_ok formatGib hgrow hlen le_rfl hfit
  · have hnot : ¬ AllFit workers len := fun hall =>
      hn (le_antisymm hle (hgreatest.2 ⟨by omega, le_rfl, hall⟩))
    rw [fitMaxModelLen, if_neg horiginal]
    exact checkWorkers_error formatGib hgrow hlen hnot

/-- A cache of four blocks of four tokens. -/
def fourBlocks : List (WorkerGroups × Int) :=
  [(⟨[⟨false, 64, fun _ => .error (.other "not uniform"), fun n => .ok (64 * cdiv n.toNat 4)⟩],
    none, 64⟩, 256)]

theorem fourBlocks_grows (hi : Int) : ∀ w ∈ fourBlocks, w.1.Grows hi := by
  intro w hw
  obtain rfl := List.mem_singleton.1 hw
  refine ⟨List.forall_mem_singleton.2 ⟨Nat.succ_pos 63, fun h => absurd h Bool.false_ne_true,
    fun _ => ⟨fun n => 64 * cdiv n.toNat 4, fun n h1 _ => ⟨rfl, ?_⟩, fun m n _ hmn _ => ?_⟩⟩,
    Nat.succ_pos 63, fun _ h => absurd h (Option.not_mem_none _),
    fun _ h => absurd h (Option.not_mem_none _), fun _ h => absurd h (Option.not_mem_none _)⟩
  · dsimp only [cdiv]
    omega
  · dsimp only [cdiv]
    omega

theorem allFit_fourBlocks {n : Int} (h0 : 0 ≤ n) : AllFit fourBlocks n ↔ n ≤ 16 := by
  have hfits : ∀ w ∈ fourBlocks, Fits (maxMemoryUsageBytesFromGroups w.1) w.2 n ↔ n ≤ 16 := by
    intro w hw
    obtain rfl := List.mem_singleton.1 hw
    constructor
    · rintro ⟨needed, hneeded, hle⟩
      cases hneeded
      simp only [cdiv] at hle
      omega
    · intro hle
      refine ⟨_, rfl, ?_⟩
      simp only [cdiv]
      omega
  constructor
  · intro h
    rcases h _ List.mem_cons_self (List.cons_ne_nil _ _) with hzero | h
    · omega
    · exact (hfits _ List.mem_cons_self).1 h
  · exact fun h w hw _ => .inr ((hfits w hw).2 h)

/-- Of 100 tokens 16 are found when the length is to be fitted; 16 are accepted when they are
demanded, and 100 are not. -/
theorem fitMaxModelLen_greatest_four :
    fitMaxModelLen toString (-1) fourBlocks 100 = (.ok (), 16) ∧
      fitMaxModelLen toString 16 fourBlocks 16 = (.ok (), 16) ∧
      ∃ w ∈ fourBlocks, ∃ e, Refusal toString w 100 e ∧
        fitMaxModelLen toString 100 fourBlocks 100 = (.error e, 100) := by
  have hgreatest {len n : Int} (hlen : 16 ≤ len)
      (h : IsGreatest {n | 0 ≤ n ∧ n ≤ len ∧ AllFit fourBlocks n} n) : n = 16 :=
    le_antisymm ((allFit_fourBlocks h.1.1).1 h.1.2.2)
      (h.2 ⟨by decide, hlen, (allFit_fourBlocks (by decide)).2 le_rfl⟩)
  obtain ⟨n, hn, hfitted, -, -⟩ :=
    fitMaxModelLen_greatest toString fourBlocks (-1) 100 (by decide) (fourBlocks_grows 100)
  obtain ⟨n', hn', -, haccepted, -⟩ :=
    fitMaxModelLen_greatest toString fourBlocks 16 16 (by decide) (fourBlocks_grows 16)
  obtain ⟨m, hm, -, -, hrefused⟩ :=
    fitMaxModelLen_greatest toString fourBlocks 100 100 (by decide) (fourBlocks_grows 100)
  obtain rfl := hgreatest (by decide) hn
  obtain rfl := hgreatest (by decide) hn'
  obtain rfl := hgreatest (by decide) hm
  exact ⟨hfitted rfl, haccepted (by decide) rfl, hrefused (by decide) (by decide)⟩

end LlmkubeRuntimes.KvCache
