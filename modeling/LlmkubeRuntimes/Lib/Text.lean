import Mathlib.Data.List.DropRight
import Mathlib.Data.List.TakeWhile

/-!
# Text

* `append_cons_inj_left`, `append_cons_inj_right`: the first, or the last,
  occurrence of a character splits a text;
* `decidableForallMem`, `decidableExistsHead`, `decidableForallHead`: a property of
  the characters of a text, or of one at an end, decided;
* `isSpace`: Unicode `White_Space`, which Go's `unicode.IsSpace` tests;
* `trim`: text without certain characters at either end;
* `trimSpace`, `fields`: text without the space around it, and its parts
  between runs of space.
-/

namespace LlmkubeRuntimes.Lib

/-- Two splits of a text at the first occurrence of `a` are the same. -/
theorem append_cons_inj_left {α : Type*} {a : α} {xs ys xs' ys' : List α} (hx : a ∉ xs)
    (hx' : a ∉ xs') (h : xs ++ a :: ys = xs' ++ a :: ys') : xs = xs' ∧ ys = ys' := by
  induction xs generalizing xs' with
  | nil =>
    cases xs' with
    | nil => exact ⟨rfl, (List.cons.inj h).2⟩
    | cons b bs => exact absurd ((List.cons.inj h).1 ▸ List.mem_cons_self) hx'
  | cons b bs ih =>
    cases xs' with
    | nil => exact absurd ((List.cons.inj h).1 ▸ List.mem_cons_self) hx
    | cons b' bs' =>
      obtain ⟨rfl, htail⟩ := List.cons.inj h
      obtain ⟨rfl, hys⟩ := ih (fun ha => hx (List.mem_cons_of_mem b ha))
        (fun ha => hx' (List.mem_cons_of_mem b ha)) htail
      exact ⟨rfl, hys⟩

/-- Two splits of a text at the last occurrence of `a` are the same. -/
theorem append_cons_inj_right {α : Type*} {a : α} {xs ys xs' ys' : List α} (hy : a ∉ ys)
    (hy' : a ∉ ys') (h : xs ++ a :: ys = xs' ++ a :: ys') : xs = xs' ∧ ys = ys' := by
  have hrev := congrArg List.reverse h
  simp only [List.reverse_append, List.reverse_cons, List.append_assoc, List.singleton_append] at hrev
  obtain ⟨hys, hxs⟩ := append_cons_inj_left (by simpa using hy) (by simpa using hy') hrev
  exact ⟨List.reverse_inj.1 hxs, List.reverse_inj.1 hys⟩

/-! ## Deciding

The instances come before those that try every character there is. -/

section

variable {p : Char → Prop} [DecidablePred p]

instance (priority := 1100) decidableForallMem (text : List Char) : Decidable (∀ c ∈ text, p c) :=
  List.decidableBAll p text

instance (priority := 1100) decidableExistsHead (head : Option Char) :
    Decidable (∃ c ∈ head, p c) :=
  head.decidableExistsMem

instance (priority := 1100) decidableForallHead (head : Option Char) :
    Decidable (∀ c ∈ head, p c) :=
  head.decidableForallMem

end

/-! ## White space -/

def isSpace (c : Char) : Bool :=
  let n := c.toNat
  (9 ≤ n && n ≤ 13) || n == 32 || n == 0x85 || n == 0xa0 || n == 0x1680 ||
    (0x2000 ≤ n && n ≤ 0x200a) || n == 0x2028 || n == 0x2029 || n == 0x202f || n == 0x205f ||
    n == 0x3000

/-- No digit is a space. -/
theorem isSpace_of_isDigit {c : Char} (h : c.isDigit) : isSpace c = false := by
  have hn : 48 ≤ c.toNat ∧ c.toNat ≤ 57 := by
    simp only [Char.isDigit, Bool.and_eq_true, decide_eq_true_eq, UInt32.le_iff_toNat_le] at h
    exact h
  simp only [isSpace, Bool.or_eq_false_iff, Bool.and_eq_false_iff, decide_eq_false_iff_not,
    beq_eq_false_iff_ne]
  omega

/-- `text` without the characters in `p` at either end. -/
def trim (p : Char → Bool) (text : List Char) : List Char :=
  ((text.dropWhile p).reverse.dropWhile p).reverse

/-- A text of nothing but space. -/
def isBlank (space : Char → Bool) (text : List Char) : Bool := text.all space

/-- Trimming leaves nothing only of a text of nothing else. -/
theorem all_of_trim_eq_nil {p : Char → Bool} {text : List Char} (h : trim p text = []) :
    ∀ c ∈ text, p c := by
  have hdrop : ∀ c ∈ text.dropWhile p, p c := by
    simpa [trim, List.dropWhile_eq_nil_iff] using h
  intro c hc
  rw [← List.takeWhile_append_dropWhile (p := p) (l := text), List.mem_append] at hc
  rcases hc with hc | hc
  · exact List.mem_takeWhile_imp hc
  · exact hdrop c hc

/-- Text with nothing to trim at its start. -/
theorem dropWhile_of_head {p : Char → Bool} {text : List Char}
    (h : ∀ c, text.head? = some c → p c = false) : text.dropWhile p = text := by
  cases text with
  | nil => rfl
  | cons c cs => rw [List.dropWhile_cons, h c rfl, if_neg Bool.false_ne_true]

section

variable {p : Char → Bool} {word rest : List Char}

/-- A word is what comes before the character behind it. -/
theorem takeWhile_append_of_head (hword : ∀ c ∈ word, p c)
    (hrest : ∀ c, rest.head? = some c → p c = false) : (word ++ rest).takeWhile p = word := by
  rw [List.takeWhile_append_of_pos hword]
  cases rest with
  | nil => rw [List.takeWhile_nil, List.append_nil]
  | cons c rest => rw [List.takeWhile_cons_of_neg (by rw [hrest c rfl]; decide), List.append_nil]

theorem dropWhile_append_of_head (hword : ∀ c ∈ word, p c)
    (hrest : ∀ c, rest.head? = some c → p c = false) : (word ++ rest).dropWhile p = rest := by
  rw [List.dropWhile_append_of_pos hword, dropWhile_of_head hrest]

end

/-- The parts of a text hold characters of it, and none it is split at. -/
theorem mem_part {p : Char → Bool} {text part : List Char} (h : part ∈ text.splitOnP p) :
    ∀ c ∈ part, c ∈ text ∧ p c = false := by
  induction text generalizing part with
  | nil =>
    rw [List.splitOnP_nil, List.mem_singleton] at h
    subst h
    exact fun _ hc => absurd hc List.not_mem_nil
  | cons d ds ih =>
    have htail : ∀ part ∈ ds.splitOnP p, ∀ c ∈ part, c ∈ d :: ds ∧ p c = false :=
      fun part hpart c hc => (ih hpart c hc).imp_left (List.mem_cons_of_mem d)
    rw [List.splitOnP_cons_eq_if_modifyHead] at h
    split at h
    · rcases List.mem_cons.1 h with rfl | h
      · exact fun _ hc => absurd hc List.not_mem_nil
      · exact htail part h
    · rename_i hd
      obtain ⟨first, rest, heq⟩ := List.exists_cons_of_ne_nil (List.splitOnP_ne_nil p ds)
      rw [heq, List.modifyHead_cons, List.mem_cons] at h
      rcases h with rfl | h
      · intro c hc
        rcases List.mem_cons.1 hc with rfl | hc
        · exact ⟨List.mem_cons_self, by simpa using hd⟩
        · exact htail first (heq ▸ List.mem_cons_self) c hc
      · exact htail part (heq ▸ List.mem_cons_of_mem first h)

theorem head?_dropWhile {p : Char → Bool} {line : List Char} {c : Char}
    (h : c ∈ (line.dropWhile p).head?) : p c = false := by
  have := List.head?_dropWhile_not p line
  rwa [Option.mem_def.1 h] at this

theorem rdropWhile_append_of_pos {p : Char → Bool} {body tail : List Char} (h : ∀ c ∈ tail, p c) :
    (body ++ tail).rdropWhile p = body.rdropWhile p := by
  rw [List.rdropWhile, List.reverse_append, List.dropWhile_append_of_pos, List.rdropWhile]
  exact fun c hc => h c (List.mem_reverse.1 hc)

theorem head?_rdropWhile {p : Char → Bool} {line : List Char} {c : Char}
    (h : c ∈ (line.rdropWhile p).head?) : c ∈ line.head? := by
  obtain ⟨rest, hrest⟩ := List.rdropWhile_prefix p line
  rw [← hrest, List.head?_append, Option.mem_def.1 h]
  rfl

theorem getLast?_rdropWhile {p : Char → Bool} {line : List Char} {c : Char}
    (h : c ∈ (line.rdropWhile p).getLast?) : p c = false := by
  rw [List.rdropWhile, List.getLast?_reverse] at h
  exact head?_dropWhile h

/-- Text with nothing to trim. -/
theorem trim_eq_self {p : Char → Bool} {line : List Char} (hhead : ∀ c ∈ line.head?, p c = false)
    (hlast : ∀ c ∈ line.getLast?, p c = false) : trim p line = line := by
  rw [trim, dropWhile_of_head hhead, dropWhile_of_head, List.reverse_reverse]
  intro c hc
  rw [List.head?_reverse] at hc
  exact hlast c hc

theorem trim_concat {p : Char → Bool} {c : Char} (h : p c) (line : List Char) :
    trim p (line ++ [c]) = trim p line := by
  rw [trim, trim, List.dropWhile_append]
  split
  · rename_i hnil
    simp [List.isEmpty_iff.1 hnil, h]
  · simp [h]

/-- Trimming takes indentation off. -/
theorem trim_append {p : Char → Bool} {indent line : List Char} (hindent : ∀ c ∈ indent, p c)
    (hhead : ∀ c ∈ line.head?, p c = false) (hlast : ∀ c ∈ line.getLast?, p c = false) :
    trim p (indent ++ line) = line := by
  rw [trim, List.dropWhile_append_of_pos hindent, ← trim]
  exact trim_eq_self hhead hlast

/-- `strings.TrimSpace`. -/
def trimSpace (s : String) : String := String.ofList (trim isSpace s.toList)

/-- `strings.Fields`. -/
def fields (s : String) : List String :=
  ((s.toList.splitOnP isSpace).filter (· ≠ [])).map String.ofList

end LlmkubeRuntimes.Lib
