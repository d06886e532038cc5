import Mathlib.Order.Bounds.Basic
import Mathlib.Order.Lattice
import Mathlib.Data.Int.Order.Basic

/-!
# Bisection

For the last number in a range with a property which, once lost, is not regained.

* `DownOn`: such a property;
* `Bracket`: where the search stands; `Bracket.up` and `Bracket.down` are its steps,
  `Bracket.isGreatest` is its end;
* `isGreatest_min`: the last number with two properties.
-/

namespace LlmkubeRuntimes.Lib

/-- What has the property in `[lo, hi]` is a lower part of it. -/
def DownOn {α : Type} [LE α] (lo hi : α) (p : α → Prop) : Prop :=
  ∀ ⦃m n⦄, lo ≤ m → m ≤ n → n ≤ hi → p n → p m

section Min

variable {α : Type} [LinearOrder α] {lo hi a b : α} {p q : α → Prop}

theorem DownOn.and (hp : DownOn lo hi p) (hq : DownOn lo hi q) :
    DownOn lo hi fun n => p n ∧ q n :=
  fun _ _ hm hmn hn h => ⟨hp hm hmn hn h.1, hq hm hmn hn h.2⟩

theorem isGreatest_min (hp : DownOn lo hi p) (hq : DownOn lo hi q)
    (ha : IsGreatest {n | lo ≤ n ∧ n ≤ hi ∧ p n} a)
    (hb : IsGreatest {n | lo ≤ n ∧ n ≤ hi ∧ q n} b) :
    IsGreatest {n | lo ≤ n ∧ n ≤ hi ∧ p n ∧ q n} (min a b) := by
  obtain ⟨⟨hloa, hahi, hpa⟩, hmaxa⟩ := ha
  obtain ⟨⟨hlob, hbhi, hqb⟩, hmaxb⟩ := hb
  have hlo : lo ≤ min a b := le_min hloa hlob
  refine ⟨⟨hlo, (min_le_left a b).trans hahi, hp hlo (min_le_left a b) hahi hpa,
    hq hlo (min_le_right a b) hbhi hqb⟩, ?_⟩
  rintro n ⟨hlon, hnhi, hpn, hqn⟩
  exact le_min (hmaxa ⟨hlon, hnhi, hpn⟩) (hmaxb ⟨hlon, hnhi, hqn⟩)

end Min

/-- `result` has the property, and a later number that has it is in `[left, right]`. -/
structure Bracket (p : Int → Prop) (lo hi left right result : Int) : Prop where
  lo_le : lo ≤ left
  le_hi : right ≤ hi
  lo_le_result : lo ≤ result
  result_le_hi : result ≤ hi
  holds : p result
  left_le : left ≤ result + 1
  above : ∀ n, right < n → n ≤ hi → ¬ p n

namespace Bracket

variable {p : Int → Prop} {lo hi left right result mid : Int}

theorem whole (hp : p lo) (h : lo ≤ hi) : Bracket p lo hi lo hi lo where
  lo_le := le_rfl
  le_hi := le_rfl
  lo_le_result := le_rfl
  result_le_hi := h
  holds := hp
  left_le := by omega
  above n hlt hle := by omega

theorem up (h : Bracket p lo hi left right result) (hleft : left ≤ mid) (hright : mid ≤ right)
    (hmid : p mid) : Bracket p lo hi (mid + 1) right mid where
  lo_le := by have := h.lo_le; omega
  le_hi := h.le_hi
  lo_le_result := h.lo_le.trans hleft
  result_le_hi := hright.trans h.le_hi
  holds := hmid
  left_le := le_rfl
  above := h.above

theorem down (h : Bracket p lo hi left right result) (hp : DownOn lo hi p) (hleft : left ≤ mid)
    (hright : mid ≤ right) (hmid : ¬ p mid) : Bracket p lo hi left (mid - 1) result where
  lo_le := h.lo_le
  le_hi := by have := h.le_hi; omega
  lo_le_result := h.lo_le_result
  result_le_hi := h.result_le_hi
  holds := h.holds
  left_le := h.left_le
  above n hlt hle hn := hmid (hp (h.lo_le.trans hleft) (by omega) hle hn)

theorem isGreatest (h : Bracket p lo hi left right result) (hdone : right < left) :
    IsGreatest {n | lo ≤ n ∧ n ≤ hi ∧ p n} result := by
  refine ⟨⟨h.lo_le_result, h.result_le_hi, h.holds⟩, ?_⟩
  rintro n ⟨-, hle, hn⟩
  by_contra hlt
  have := h.left_le
  exact h.above n (by omega) hle hn

end Bracket

end LlmkubeRuntimes.Lib
