import Mathlib.Algebra.GroupWithZero.Nat
import Mathlib.Data.List.AList
import Mathlib.Data.List.TakeWhile
import Mathlib.Algebra.Order.Group.Int
import LlmkubeRuntimes.Lib.Text

/-!
# The promoter's state file

`State` is the map from digests to verdict records that the promoter keeps in
its JSON file. A revision tag is `<ref>-llmkube<N>`; `lastRevision` finds the
largest `N` recorded for a ref by scanning the recorded tags.

* `fmtSscan`: `fmt.Sscanf(s, "%d", &n)` on what follows the prefix;
* `revisionTag`: `fmt.Sprintf("%s-llmkube%d", ref, n)`;
* `revisionTag_fresh`: below the largest int, the next revision tag of a ref is
  in no record;
* `State.lastRevision_perm`, `revisionTag_injective`: the number does not depend on
  the order of the records, and a revision tag determines its ref and number.

`int` is 64 bits wide (`wrap64`).
-/

namespace LlmkubeRuntimes.Promoter

open LlmkubeRuntimes.Lib

abbrev Digest := String
abbrev Tag := String

/-! ## Integers -/

def maxInt : Int := 2 ^ 63 - 1
def minInt : Int := -2 ^ 63

/-- The value of an `int` operation whose exact result is `z`. -/
def wrap64 (z : Int) : Int := Int.bmod z (2 ^ 64)

theorem wrap64_eq_self {z : Int} (h1 : minInt ≤ z) (h2 : z ≤ maxInt) : wrap64 z = z := by
  unfold wrap64 minInt maxInt at *
  apply Int.bmod_eq_of_le <;> omega

/-! ## Scanning a number -/

/-- `SkipSpace`: a newline before the number is an error. -/
def skipSpace : List Char → Option (List Char)
  | [] => some []
  | c :: cs => if c = '\n' then none else if isSpace c then skipSpace cs else some (c :: cs)

/-- The optional sign, and whether it is a minus. -/
def scanSign : List Char → Bool × List Char
  | '+' :: cs => (false, cs)
  | '-' :: cs => (true, cs)
  | cs => (false, cs)

/-- The number `%d` reads at the start of `s`; text after it is ignored. -/
def fmtSscan (s : List Char) : Option Int := do
  let s ← skipSpace s
  let (neg, s) := scanSign s
  let digits := s.takeWhile Char.isDigit
  if digits = [] then none
  else
    let m : Int := Nat.ofDigitChars 10 digits 0
    let n := if neg then -m else m
    if minInt ≤ n ∧ n ≤ maxInt then some n else none

/-- A digit starts neither a space nor a sign. -/
theorem skipSpace_digit {c : Char} {cs : List Char} (h : c.isDigit) :
    skipSpace (c :: cs) = some (c :: cs) := by
  have hnl : c ≠ '\n' := by
    rintro rfl
    exact absurd h (by decide)
  rw [skipSpace, if_neg hnl, isSpace_of_isDigit h, if_neg Bool.false_ne_true]

theorem scanSign_digit {c : Char} {cs : List Char} (h : c.isDigit) :
    scanSign (c :: cs) = (false, c :: cs) := by
  unfold scanSign
  split
  next he => cases he; exact absurd h (by decide)
  next he => cases he; exact absurd h (by decide)
  next => rfl

theorem toString_toList (n : Int) : (toString n).toList =
    if 0 ≤ n then Nat.toDigits 10 n.toNat else '-' :: Nat.toDigits 10 (-n).toNat := by
  have hrepr : ∀ m : Nat, m.repr.toList = Nat.toDigits 10 m := fun m => by
    rw [← Nat.toString_eq_repr, Nat.toString_eq_ofList_toDigits, String.toList_ofList]
  show n.repr.toList = _
  rw [Int.repr_eq_if]
  split
  · rw [hrepr]
  · rw [String.toList_append, hrepr]
    rfl

/-- Scanning the decimal digits of a number that an `int` holds gives it back. -/
theorem fmtSscan_toString {n : Nat} (h : (n : Int) ≤ maxInt) :
    fmtSscan (toString (n : Int)).toList = some (n : Int) := by
  have hs : (toString (n : Int)).toList = Nat.toDigits 10 n := by
    rw [toString_toList, if_pos (Int.natCast_nonneg n), Int.toNat_natCast]
  have hall : ∀ c ∈ Nat.toDigits 10 n, c.isDigit = true := fun c hc =>
    Nat.isDigit_of_mem_toDigits (by decide) (by decide) hc
  obtain ⟨c, cs, hcs⟩ := List.exists_cons_of_ne_nil (@Nat.toDigits_ne_nil n 10)
  have hc : c.isDigit = true := hall c (by rw [hcs]; exact List.mem_cons_self)
  have hskip : skipSpace (Nat.toDigits 10 n) = some (Nat.toDigits 10 n) := by
    rw [hcs, skipSpace_digit hc]
  have hsign : scanSign (Nat.toDigits 10 n) = (false, Nat.toDigits 10 n) := by
    rw [hcs, scanSign_digit hc]
  have htake : (Nat.toDigits 10 n).takeWhile Char.isDigit = Nat.toDigits 10 n :=
    List.takeWhile_eq_self_iff.2 hall
  have hmin : minInt ≤ (n : Int) := by unfold minInt; omega
  rw [hs]
  simp only [fmtSscan, hskip, hsign, htake, Nat.ofDigitChars_ten_toDigits, Option.bind_eq_bind,
    Option.bind_some, Nat.toDigits_ne_nil, if_false, Bool.false_eq_true, hmin, h, and_self, if_true]

/-! ## Records -/

structure Record where
  verdict : String
  tag : Tag
  deriving DecidableEq, Repr

structure State where
  processed : AList fun _ : Digest => Record

/-- `LoadState` when there is no file yet. -/
def State.empty : State := ⟨∅⟩

namespace State

def seen (s : State) (digest : Digest) : Bool := decide (digest ∈ s.processed)

def record (s : State) (digest : Digest) (verdict : String) (tag : Tag) : State :=
  ⟨s.processed.insert digest ⟨verdict, tag⟩⟩

/-- The record of a digest. -/
def get? (s : State) (digest : Digest) : Option Record := s.processed.lookup digest

end State

/-! ## Revision tags -/

def revisionTag (ref : String) (n : Int) : Tag := ref ++ "-llmkube" ++ toString n

/-- The number `LastRevision` reads in a recorded tag. -/
def revisionNumber (ref : String) (tag : Tag) : Option Int :=
  ((ref ++ "-llmkube").toList.isPrefixOf? tag.toList).bind fmtSscan

/-- The body of the loop of `LastRevision`: `max` after one more record. -/
def higher (ref : String) (max : Int) (r : Record) : Int :=
  match revisionNumber ref r.tag with
  | some n => if n > max then n else max
  | none => max

def State.lastRevision (s : State) (ref : String) : Int :=
  s.processed.entries.foldl (fun max e => higher ref max e.2) 0

/-- The number of the next revision tag of `ref`. -/
def State.nextRevision (s : State) (ref : String) : Int := wrap64 (s.lastRevision ref + 1)

theorem revisionNumber_revisionTag {ref : String} {n : Nat} (h : (n : Int) ≤ maxInt) :
    revisionNumber ref (revisionTag ref n) = some (n : Int) := by
  have hp : (ref ++ "-llmkube").toList.isPrefixOf? (revisionTag ref n).toList =
      some (toString (n : Int)).toList :=
    List.isPrefixOf?_eq_some_iff_append_eq.2 (by simp [revisionTag, String.toList_append])
  rw [revisionNumber, hp, Option.bind_some, fmtSscan_toString h]

theorem fmtSscan_le {cs : List Char} {n : Int} (h : fmtSscan cs = some n) : n ≤ maxInt := by
  simp only [fmtSscan, Option.bind_eq_bind, Option.bind_eq_some_iff, Option.ite_none_left_eq_some,
    Option.ite_none_right_eq_some, Option.some.injEq] at h
  obtain ⟨_, -, -, ⟨-, hle⟩, rfl⟩ := h
  exact hle

theorem le_higher (ref : String) (max : Int) (r : Record) : max ≤ higher ref max r := by
  unfold higher
  split
  · split <;> omega
  · exact le_rfl

theorem higher_le {ref : String} {max : Int} {r : Record} (h : max ≤ maxInt) :
    higher ref max r ≤ maxInt := by
  unfold higher
  split
  next n hn =>
    obtain ⟨cs, -, hcs⟩ := Option.bind_eq_some_iff.1 hn
    have := fmtSscan_le hcs
    split <;> omega
  next => exact h

theorem number_le_higher {ref : String} {max n : Int} {r : Record}
    (h : revisionNumber ref r.tag = some n) : n ≤ higher ref max r := by
  simp only [higher, h]
  split <;> omega

section Loop

variable {ref : String} {es : List (Sigma fun _ : Digest => Record)}

theorem le_foldl_higher (max : Int) : max ≤ es.foldl (fun m e => higher ref m e.2) max := by
  induction es generalizing max with
  | nil => exact le_rfl
  | cons e es ih => exact (le_higher ref max e.2).trans (ih _)

theorem foldl_higher_le {max : Int} (h : max ≤ maxInt) :
    es.foldl (fun m e => higher ref m e.2) max ≤ maxInt := by
  induction es generalizing max with
  | nil => exact h
  | cons e es ih => exact ih (higher_le h)

theorem number_le_foldl_higher {max n : Int} {e : Sigma fun _ : Digest => Record} (he : e ∈ es)
    (hn : revisionNumber ref e.2.tag = some n) :
    n ≤ es.foldl (fun m e => higher ref m e.2) max := by
  induction es generalizing max with
  | nil => cases he
  | cons e' es ih =>
    rcases List.mem_cons.1 he with rfl | he
    · exact (number_le_higher hn).trans (le_foldl_higher _)
    · exact ih he

end Loop

namespace State

theorem lastRevision_nonneg (s : State) (ref : String) : 0 ≤ s.lastRevision ref := le_foldl_higher 0

/-- With `lastRevision_nonneg`: `LastRevision` never leaves the range of an `int`. -/
theorem lastRevision_le (s : State) (ref : String) : s.lastRevision ref ≤ maxInt :=
  foldl_higher_le (by decide)

/-- No recorded number of `ref` exceeds `lastRevision`. -/
theorem number_le_lastRevision {s : State} {ref : String} {d : Digest} {r : Record} {n : Int}
    (h : s.get? d = some r) (hn : revisionNumber ref r.tag = some n) : n ≤ s.lastRevision ref :=
  number_le_foldl_higher (AList.mem_lookup_iff.1 h) hn

/-- Below the largest int, the next revision is the successor. -/
theorem nextRevision_eq {s : State} {ref : String} (h : s.lastRevision ref < maxInt) :
    s.nextRevision ref = s.lastRevision ref + 1 := by
  have h0 := s.lastRevision_nonneg ref
  exact wrap64_eq_self (by unfold minInt; omega) (by omega)

/-- **Below the largest int, the next revision tag is in no record.** -/
theorem revisionTag_fresh {s : State} {ref : String} (h : s.lastRevision ref < maxInt) {d : Digest}
    {r : Record} (hr : s.get? d = some r) : r.tag ≠ revisionTag ref (s.nextRevision ref) := by
  intro he
  have h0 := s.lastRevision_nonneg ref
  have hnext := nextRevision_eq h
  have hn : revisionNumber ref r.tag = some (s.nextRevision ref) := by
    have hcast : ((s.nextRevision ref).toNat : Int) = s.nextRevision ref := by omega
    rw [he, ← hcast]
    exact revisionNumber_revisionTag (by omega)
  have := number_le_lastRevision hr hn
  omega

@[simp]
theorem get?_record_self (s : State) (d : Digest) (v : String) (t : Tag) :
    (s.record d v t).get? d = some ⟨v, t⟩ := AList.lookup_insert _

theorem get?_record_of_ne (s : State) {d d' : Digest} (v : String) (t : Tag) (h : d' ≠ d) :
    (s.record d v t).get? d' = s.get? d' := AList.lookup_insert_ne h

theorem seen_iff {s : State} {d : Digest} : s.seen d = true ↔ ∃ r, s.get? d = some r := by
  rw [seen, decide_eq_true_eq, ← AList.lookup_isSome, Option.isSome_iff_exists]
  rfl

/-- `t` is the tag of some record. -/
def Recorded (s : State) (t : Tag) : Prop := ∃ d r, s.get? d = some r ∧ r.tag = t

/-- Recording an unseen digest keeps the recorded tags. -/
theorem Recorded.record {s : State} {t : Tag} (h : s.Recorded t) {d : Digest} (hd : s.seen d = false)
    (v : String) (t' : Tag) : (s.record d v t').Recorded t := by
  obtain ⟨d', r, hr, ht⟩ := h
  have hne : d' ≠ d := by
    rintro rfl
    exact Bool.false_ne_true (hd ▸ seen_iff.2 ⟨r, hr⟩)
  exact ⟨d', r, by rw [get?_record_of_ne s v t' hne, hr], ht⟩

theorem recorded_self (s : State) (d : Digest) (v : String) (t : Tag) :
    (s.record d v t).Recorded t := ⟨d, ⟨v, t⟩, get?_record_self s d v t, rfl⟩

end State

/-! ## Iteration order -/

theorem foldl_higher_lt {ref : String} {es : List (Sigma fun _ : Digest => Record)} {max bound : Int}
    (h : max < bound) (hes : ∀ e ∈ es, ∀ n, revisionNumber ref e.2.tag = some n → n < bound) :
    es.foldl (fun m e => higher ref m e.2) max < bound := by
  induction es generalizing max with
  | nil => exact h
  | cons e es ih =>
    refine ih ?_ fun e' he' => hes e' (List.mem_cons_of_mem e he')
    show higher ref max e.2 < bound
    unfold higher
    split
    next n hn =>
      have := hes e List.mem_cons_self n hn
      split <;> omega
    next => exact h

/-- The loop body takes the maximum, so two records commute. -/
theorem higher_comm (ref : String) (max : Int) (r r' : Record) :
    higher ref (higher ref max r) r' = higher ref (higher ref max r') r := by
  unfold higher
  cases revisionNumber ref r.tag <;> cases revisionNumber ref r'.tag <;> simp only
  · split <;> split <;> (try split) <;> omega

/-- **The order in which the records are visited does not matter.** -/
theorem State.lastRevision_perm {s s' : State}
    (h : s'.processed.entries.Perm s.processed.entries) (ref : String) :
    s'.lastRevision ref = s.lastRevision ref :=
  h.foldl_eq' (fun _ _ _ _ _ => higher_comm ref _ _ _) 0

/-- Every number that `LastRevision` parses is below the largest int. -/
def State.Below (s : State) (ref : String) : Prop :=
  ∀ d r n, s.get? d = some r → revisionNumber ref r.tag = some n → n < maxInt

theorem State.Below.lastRevision_lt {s : State} {ref : String} (h : s.Below ref) :
    s.lastRevision ref < maxInt :=
  foldl_higher_lt (by decide) fun e he n hn => h e.1 e.2 n (AList.mem_lookup_iff.2 he) hn

/-! ## Revision tags are unambiguous -/

theorem toDigits_injective {m n : Nat} (h : Nat.toDigits 10 m = Nat.toDigits 10 n) : m = n := by
  rw [← @Nat.ofDigitChars_ten_toDigits m, h, Nat.ofDigitChars_ten_toDigits]

theorem notMem_toDigits {c : Char} (h : c.isDigit = false) (n : Nat) : c ∉ Nat.toDigits 10 n :=
  fun hc => by
    rw [Nat.isDigit_of_mem_toDigits (by decide) (by decide) hc] at h
    cases h

theorem toString_injective {m n : Int} (h : (toString m).toList = (toString n).toList) :
    m = n := by
  have hminus : ∀ {a : List Char} {b : Nat}, '-' :: a ≠ Nat.toDigits 10 b := fun {a b} hab =>
    notMem_toDigits (c := '-') (by decide) b (hab ▸ List.mem_cons_self)
  rw [toString_toList, toString_toList] at h
  split at h <;> split at h
  · have := toDigits_injective h
    omega
  · exact absurd h.symm hminus
  · exact absurd h hminus
  · have := toDigits_injective (List.cons.inj h).2
    omega

/-- The decimal form of an `int` has no letter. -/
theorem e_notMem_toString (n : Int) : 'e' ∉ (toString n).toList := by
  rw [toString_toList]
  split
  · exact notMem_toDigits (by decide) _
  · rw [List.mem_cons, not_or]
    exact ⟨by decide, notMem_toDigits (by decide) _⟩

/-- **A revision tag determines its ref and its number**: after the last letter of a tag
stands its number. -/
theorem revisionTag_injective {ref ref' : String} {n n' : Int}
    (h : revisionTag ref n = revisionTag ref' n') : ref = ref' ∧ n = n' := by
  have hsplit : ∀ (ref : String) (n : Int), (revisionTag ref n).toList =
      (ref.toList ++ "-llmkub".toList) ++ 'e' :: (toString n).toList := by
    intro ref n
    rw [revisionTag, String.toList_append, String.toList_append, List.append_assoc,
      List.append_assoc]
    rfl
  have hlist := congrArg String.toList h
  rw [hsplit, hsplit] at hlist
  obtain ⟨href, hnum⟩ := append_cons_inj_right (e_notMem_toString n) (e_notMem_toString n') hlist
  exact ⟨String.toList_injective (List.append_cancel_right href),
    toString_injective hnum⟩

/-- **Revision numbers are fresh**, in whatever order the records are visited, and two revision
tags are equal only if their refs and their numbers are. -/
theorem revision_numbers_fresh (s : State) (ref : String) (h : s.Below ref) :
    ¬ s.Recorded (revisionTag ref (s.nextRevision ref)) ∧
      (∀ s' : State, s'.processed.entries.Perm s.processed.entries →
        revisionTag ref (s'.nextRevision ref) = revisionTag ref (s.nextRevision ref)) ∧
      s.nextRevision ref = s.lastRevision ref + 1 ∧
      ∀ ref₁ ref₂ n₁ n₂, revisionTag ref₁ n₁ = revisionTag ref₂ n₂ → ref₁ = ref₂ ∧ n₁ = n₂ := by
  refine ⟨?_, fun s' hperm => ?_, State.nextRevision_eq h.lastRevision_lt,
    fun _ _ _ _ => revisionTag_injective⟩
  · rintro ⟨d, r, hr, htag⟩
    exact State.revisionTag_fresh h.lastRevision_lt hr htag
  · rw [State.nextRevision, State.lastRevision_perm hperm]
    rfl

/-- A ref that contains the suffix of another ref's tag. -/
def twoRefs : State :=
  (State.empty.record "d1" "promoted" (revisionTag "a" 1)).record "d2" "promoted"
    (revisionTag "a-llmkube1" 1)

theorem twoRefs_below : twoRefs.Below "a" := by
  intro d r n hr hn
  have hmem : r ∈ [(⟨"promoted", revisionTag "a-llmkube1" 1⟩ : Record),
      ⟨"promoted", revisionTag "a" 1⟩] := by
    by_cases h2 : d = "d2"
    · subst h2
      rw [twoRefs, State.get?_record_self] at hr
      cases hr
      exact List.mem_cons_self
    · rw [twoRefs, State.get?_record_of_ne _ _ _ h2] at hr
      by_cases h1 : d = "d1"
      · subst h1
        rw [State.get?_record_self] at hr
        cases hr
        exact List.mem_cons_of_mem _ List.mem_cons_self
      · rw [State.get?_record_of_ne _ _ _ h1] at hr
        cases hr
  have hdec : ∀ r ∈ [(⟨"promoted", revisionTag "a-llmkube1" 1⟩ : Record),
      ⟨"promoted", revisionTag "a" 1⟩], revisionNumber "a" r.tag = some 1 := by decide
  rw [hdec r hmem] at hn
  cases hn
  decide

theorem revision_numbers_fresh_twoRefs :
    ¬ twoRefs.Recorded (revisionTag "a" (twoRefs.nextRevision "a")) :=
  (revision_numbers_fresh twoRefs "a" twoRefs_below).1

/-- `stable` has no revision form. -/
theorem revisionTag_ne_stable (ref : String) (n : Int) : revisionTag ref n ≠ "stable" := by
  intro h
  have hmem : '-' ∈ (revisionTag ref n).toList := by simp [revisionTag, String.toList_append]
  rw [h] at hmem
  exact absurd hmem (by decide)

/-- `t` is `<ref>-llmkube<N>` for some ref and number. -/
def IsRevision (t : Tag) : Prop := ∃ ref n, t = revisionTag ref n

end LlmkubeRuntimes.Promoter
