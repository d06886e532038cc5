import Mathlib.Data.List.Basic

/-!
# UTF-8

* `encode`: the bytes of a text;
* `decode`: the text of bytes, in which a byte that starts no character is U+FFFD;
* `decode_encode`: decoding gives an encoded text back;
* `decode_take`: bytes cut off an encoded text are a text cut off, and perhaps
  characters that are not ASCII in place of the one cut through.
-/

namespace LlmkubeRuntimes.Lib.Utf8

def encode (text : List Char) : List UInt8 := text.flatMap String.utf8EncodeChar

def decode : List UInt8 → List Char
  | [] => []
  | b :: bs =>
    match ByteArray.utf8DecodeChar? (b :: bs).toByteArray 0 with
    | some c => c :: decode (bs.drop (c.utf8Size - 1))
    | none => '\uFFFD' :: decode bs
termination_by bs => bs.length

theorem decode_cons_append (c : Char) (bs : List UInt8) :
    decode (String.utf8EncodeChar c ++ bs) = c :: decode bs := by
  have hlen := String.length_utf8EncodeChar c
  have hread : ByteArray.utf8DecodeChar? (String.utf8EncodeChar c ++ bs).toByteArray 0 = some c := by
    rw [List.toByteArray_append]
    exact ByteArray.utf8DecodeChar?_utf8EncodeChar_append
  cases hbytes : String.utf8EncodeChar c with
  | nil =>
    rw [hbytes] at hlen
    exact absurd hlen (Nat.ne_of_lt c.utf8Size_pos)
  | cons b rest =>
    rw [hbytes] at hread hlen
    rw [List.cons_append] at hread ⊢
    rw [decode, hread]
    simp only [← hlen, List.length_cons, Nat.add_sub_cancel]
    rw [List.drop_left]

theorem decode_encode_append (text : List Char) (bs : List UInt8) :
    decode (encode text ++ bs) = text ++ decode bs := by
  induction text with
  | nil => rfl
  | cons c text ih =>
    rw [encode, List.flatMap_cons, List.append_assoc, decode_cons_append]
    exact congrArg (c :: ·) ih

/-- **Decoding gives an encoded text back.** -/
theorem decode_encode (text : List Char) : decode (encode text) = text := by
  simpa [decode] using decode_encode_append text []

theorem le_or {a b : UInt8} (h : 128 ≤ b) : 128 ≤ a ||| b := by
  rw [UInt8.le_iff_toNat_le] at h ⊢
  rw [UInt8.toNat_or]
  exact Nat.le_trans h Nat.right_le_or

/-- The bytes of a character that is not ASCII are none of ASCII. -/
theorem le_of_mem_utf8EncodeChar {c : Char} (h : c.utf8Size ≠ 1) :
    ∀ b ∈ String.utf8EncodeChar c, 128 ≤ b := by
  rcases c.utf8Size_eq with h1 | h2 | h3 | h4
  · exact absurd h1 h
  · rw [String.utf8EncodeChar_eq_cons_cons h2]
    simp only [List.forall_mem_cons]
    exact ⟨le_or (by decide), le_or (by decide), by simp⟩
  · rw [String.utf8EncodeChar_eq_cons_cons_cons h3]
    simp only [List.forall_mem_cons]
    exact ⟨le_or (by decide), le_or (by decide), le_or (by decide), by simp⟩
  · rw [String.utf8EncodeChar_eq_cons_cons_cons_cons h4]
    simp only [List.forall_mem_cons]
    exact ⟨le_or (by decide), le_or (by decide), le_or (by decide), le_or (by decide), by simp⟩

/-- A character that is decoded first has the first byte. -/
theorem mem_of_utf8DecodeChar? {b : UInt8} {bs : List UInt8} {c : Char}
    (h : ByteArray.utf8DecodeChar? (b :: bs).toByteArray 0 = some c) :
    b ∈ String.utf8EncodeChar c := by
  obtain ⟨l, hl⟩ := ByteArray.exists_of_utf8DecodeChar?_eq_some h
  have hlist : b :: bs = String.utf8EncodeChar c ++ l.data.toList := by
    simpa using congrArg (·.data.toList) hl
  have hlen := String.length_utf8EncodeChar c
  cases hbytes : String.utf8EncodeChar c with
  | nil =>
    rw [hbytes] at hlen
    exact absurd hlen (Nat.ne_of_lt c.utf8Size_pos)
  | cons b' rest =>
    rw [hbytes, List.cons_append] at hlist
    rw [(List.cons.inj hlist).1]
    exact List.mem_cons_self

/-- Bytes that are not ASCII are decoded as characters that are not. -/
theorem lt_of_mem_decode {bs : List UInt8} (h : ∀ b ∈ bs, 128 ≤ b) :
    ∀ c ∈ decode bs, 127 < c.val := by
  induction bs using decode.induct with
  | case1 => simp [decode]
  | case2 b bs c hread ih =>
    obtain ⟨hb, hbs⟩ := List.forall_mem_cons.1 h
    rw [decode, hread]
    refine List.forall_mem_cons.2 ⟨?_, ih fun b' hb' => hbs b' (List.mem_of_mem_drop hb')⟩
    by_contra hascii
    rw [UInt32.not_lt] at hascii
    have hmem := mem_of_utf8DecodeChar? hread
    rw [String.utf8EncodeChar_eq_singleton (Char.utf8Size_eq_one_iff.2 hascii),
      List.mem_singleton] at hmem
    rw [hmem, UInt8.le_iff_toNat_le, UInt32.toNat_toUInt8] at hb
    rw [UInt32.le_iff_toNat_le] at hascii
    simp at hb hascii
    omega
  | case3 b bs hread ih =>
    rw [decode, hread]
    exact List.forall_mem_cons.2 ⟨by decide, ih (List.forall_mem_cons.1 h).2⟩

/-- **Bytes cut off an encoded text** are read as a text cut off, and perhaps characters
that are not ASCII in place of the first one missing. -/
theorem decode_take {text : List Char} {n : Nat} (h : n < (encode text).length) :
    ∃ before c after cut, text = before ++ c :: after ∧
      decode ((encode text).take n) = before ++ cut ∧ ∀ d ∈ cut, 127 < d.val := by
  induction text generalizing n with
  | nil => exact absurd h (Nat.not_lt_zero n)
  | cons c text ih =>
    have hcons : encode (c :: text) = String.utf8EncodeChar c ++ encode text := List.flatMap_cons
    have hlen := String.length_utf8EncodeChar c
    rw [hcons] at h ⊢
    rw [List.length_append, hlen] at h
    by_cases hn : n < c.utf8Size
    · refine ⟨[], c, text, decode ((String.utf8EncodeChar c).take n), rfl, ?_, ?_⟩
      · rw [List.take_append_of_le_length (by omega)]
        rfl
      · by_cases hone : c.utf8Size = 1
        · obtain rfl : n = 0 := by omega
          simp [decode]
        · exact lt_of_mem_decode fun b hb =>
            le_of_mem_utf8EncodeChar hone b (List.mem_of_mem_take hb)
    · obtain ⟨before, d, after, cut, htext, hdecode, hcut⟩ := ih (n := n - c.utf8Size) (by omega)
      refine ⟨c :: before, d, after, cut, by rw [htext]; rfl, ?_, hcut⟩
      rw [List.take_append, List.take_of_length_le (by omega), hlen, decode_cons_append, hdecode]
      rfl

end LlmkubeRuntimes.Lib.Utf8
