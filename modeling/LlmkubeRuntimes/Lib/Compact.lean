import LlmkubeRuntimes.Lib.JsonText
import LlmkubeRuntimes.Lib.Lines

/-!
# Compact JSON

JSON text without white space, as a tree of the strings, names and atoms that are
written.

* `Escaped`: what stands between the quotes of a string;
* `Doc`, `Doc.text`: a value and its text;
* `HasKey`: a member with a key, at any depth;
* `infix_of_text`, `text_of_hasKey`: a quoted key and a colon are found in a text
  where a member has the key, and nowhere else;
* `Str.of`: a text as it is stored.
-/

namespace LlmkubeRuntimes.Lib.Compact

/-! ## Strings -/

/-- The text of a string: quotes, backslashes and control characters are escaped. -/
inductive Escaped : List Char → Prop where
  | nil : Escaped []
  | char {c : Char} {raw : List Char} : c ≠ '"' → c ≠ '\\' → ¬ c < ' ' → Escaped raw →
      Escaped (c :: raw)
  | escape {c : Char} {raw : List Char} : ¬ c < ' ' → Escaped raw → Escaped ('\\' :: c :: raw)

/-- The character needs no escape. -/
def isPlain (c : Char) : Bool := c ≠ '"' && c ≠ '\\' && !(c < ' ')

structure Str where
  raw : List Char
  escaped : Escaped raw

/-- A key, without escapes. -/
structure Key where
  raw : List Char
  plain : ∀ c ∈ raw, isPlain c
  deriving DecidableEq

/-- A number or a literal. -/
structure Atom where
  raw : List Char
  chars : ∀ c ∈ raw, JsonText.isAtomChar c

/-! ## Values -/

inductive Doc where
  | atom (a : Atom)
  | str (s : Str)
  | arr (items : List Doc)
  | obj (members : List (Key × Doc))

def quoted (raw : List Char) : List Char := '"' :: (raw ++ ['"'])

mutual

def Doc.text : Doc → List Char
  | .atom a => a.raw
  | .str s => quoted s.raw
  | .arr [] => ['[', ']']
  | .arr (d :: ds) => '[' :: (d.text ++ itemsTail ds ++ [']'])
  | .obj [] => ['{', '}']
  | .obj ((k, d) :: ms) => '{' :: (quoted k.raw ++ ':' :: d.text ++ membersTail ms ++ ['}'])

/-- The items after the first. -/
def itemsTail : List Doc → List Char
  | [] => []
  | d :: ds => ',' :: (d.text ++ itemsTail ds)

/-- The members after the first. -/
def membersTail : List (Key × Doc) → List Char
  | [] => []
  | (k, d) :: ms => ',' :: (quoted k.raw ++ ':' :: d.text ++ membersTail ms)

end

/-- A member with this key is in the value. -/
inductive HasKey (key : List Char) : Doc → Prop where
  | here {k : Key} {d : Doc} {members : List (Key × Doc)} : (k, d) ∈ members → k.raw = key →
      HasKey key (.obj members)
  | member {k : Key} {d : Doc} {members : List (Key × Doc)} : (k, d) ∈ members → HasKey key d →
      HasKey key (.obj members)
  | item {d : Doc} {items : List Doc} : d ∈ items → HasKey key d → HasKey key (.arr items)

/-! ## Where a key is found -/

/-- A quoted key and its colon. -/
def keyText (key : List Char) : List Char := quoted key ++ [':']

/-- What may come behind a value. -/
def Follows (rest : List Char) : Prop := ∀ c ∈ rest.head?, c ∈ [',', '}', ']']

theorem follows_cons {c : Char} {rest : List Char} (h : c ∈ [',', '}', ']']) : Follows (c :: rest) := by
  intro d hd
  rw [List.head?_cons, Option.mem_some_iff] at hd
  exact hd ▸ h

/-- A key that is searched for: no escapes, and no mark of JSON at its start. -/
structure Searched (key : List Char) : Prop where
  plain : ∀ c ∈ key, isPlain c
  head : ∃ c ∈ key.head?, c ∉ [':', ',', '}', ']']

instance (key : List Char) : Decidable (Searched key) :=
  decidable_of_iff ((∀ c ∈ key, isPlain c) ∧ ∃ c ∈ key.head?, c ∉ [':', ',', '}', ']'])
    ⟨fun h => ⟨h.1, h.2⟩, fun h => ⟨h.plain, h.head⟩⟩

variable {key raw rest : List Char}

theorem keyText_eq (key : List Char) : keyText key = '"' :: (key ++ '"' :: [':']) := by
  simp [keyText, quoted]

theorem infix_of_cons_ne {c : Char} (hc : c ≠ '"') (h : keyText key <:+: c :: rest) :
    keyText key <:+: rest := by
  rcases List.infix_cons_iff.1 h with ⟨t, ht⟩ | h
  · rw [keyText_eq] at ht
    exact absurd (List.cons.inj ht).1.symm hc
  · exact h

/-- A plain text at the front of a string up to a quote is the whole string. -/
theorem eq_of_quoted (hplain : ∀ c ∈ key, isPlain c) (hraw : Escaped raw)
    (h : key ++ '"' :: [':'] <+: raw ++ '"' :: rest) : raw = key ∧ rest.head? = some ':' := by
  induction hraw generalizing key with
  | nil =>
    cases key with
    | nil =>
      obtain ⟨t, ht⟩ := h
      rw [List.nil_append] at ht
      exact ⟨rfl, by rw [← (List.cons.inj ht).2]; rfl⟩
    | cons k key =>
      obtain ⟨t, ht⟩ := h
      obtain rfl : k = '"' := (List.cons.inj ht).1
      exact absurd (hplain _ List.mem_cons_self) (by decide)
  | @char c raw hquote hback hctl hraw ih =>
    cases key with
    | nil =>
      obtain ⟨t, ht⟩ := h
      exact absurd (List.cons.inj ht).1.symm hquote
    | cons k key =>
      rw [List.cons_append, List.cons_append, List.cons_prefix_cons] at h
      obtain ⟨rfl, h⟩ := h
      obtain ⟨rfl, hrest⟩ := ih (fun d hd => hplain d (List.mem_cons_of_mem _ hd)) h
      exact ⟨rfl, hrest⟩
  | @escape c raw hctl hraw ih =>
    cases key with
    | nil =>
      obtain ⟨t, ht⟩ := h
      exact absurd (List.cons.inj ht).1 (by decide)
    | cons k key =>
      rw [List.cons_append, List.cons_append, List.cons_prefix_cons] at h
      obtain ⟨rfl, -⟩ := h
      exact absurd (hplain _ List.mem_cons_self) (by decide)

/-- The closing quote of a string opens no key. -/
theorem not_prefix_close (hkey : Searched key) (hrest : ∀ c ∈ rest.head?, c ∈ [':', ',', '}', ']']) :
    ¬ keyText key <+: '"' :: rest := by
  obtain ⟨c, hc, hnot⟩ := hkey.head
  obtain ⟨tail, rfl⟩ := List.head?_eq_some_iff.1 hc
  rw [keyText_eq, List.cons_prefix_cons]
  rintro ⟨-, t, rfl⟩
  exact hnot (hrest c rfl)

/-- Inside a string a key is found only if a backslash is there and a colon behind. -/
theorem infix_of_raw (hkey : Searched key) (hraw : Escaped raw)
    (hrest : ∀ c ∈ rest.head?, c ∈ [':', ',', '}', ']']) (h : keyText key <:+: raw ++ '"' :: rest) :
    ('\\' ∈ raw ∧ rest.head? = some ':') ∨ keyText key <:+: rest := by
  induction hraw with
  | nil =>
    rcases List.infix_cons_iff.1 h with h | h
    · exact absurd h (not_prefix_close hkey hrest)
    · exact .inr h
  | @char c raw hquote hback hctl hraw ih =>
    exact (ih (infix_of_cons_ne hquote h)).imp_left fun hand =>
      ⟨List.mem_cons_of_mem c hand.1, hand.2⟩
  | @escape c raw hctl hraw ih =>
    rcases List.infix_cons_iff.1 (infix_of_cons_ne (by decide) h) with hpre | hin
    · rw [keyText_eq, List.cons_prefix_cons] at hpre
      exact .inl ⟨List.mem_cons_self, (eq_of_quoted hkey.plain hraw hpre.2).2⟩
    · exact (ih hin).imp_left fun hand => ⟨List.mem_cons_self, hand.2⟩

/-- **A string that is a value hides no key**, whatever its text. -/
theorem infix_of_str (hkey : Searched key) (s : Str) (hrest : Follows rest)
    (h : keyText key <:+: quoted s.raw ++ rest) : keyText key <:+: rest := by
  have hcolon : rest.head? ≠ some ':' := fun heq => absurd (hrest ':' heq) (by decide)
  have hmarks : ∀ c ∈ rest.head?, c ∈ [':', ',', '}', ']'] :=
    fun c hc => List.mem_cons_of_mem ':' (hrest c hc)
  rw [quoted, List.cons_append, List.append_assoc, List.singleton_append] at h
  rcases List.infix_cons_iff.1 h with hpre | hin
  · rw [keyText_eq, List.cons_prefix_cons] at hpre
    exact absurd (eq_of_quoted hkey.plain s.escaped hpre.2).2 hcolon
  · exact (infix_of_raw hkey s.escaped hmarks hin).resolve_left fun hand => hcolon hand.2

theorem Key.escaped (k : Key) : Escaped k.raw := by
  obtain ⟨raw, hplain⟩ := k
  induction raw with
  | nil => exact .nil
  | cons c raw ih =>
    obtain ⟨hc, hraw⟩ := List.forall_mem_cons.1 hplain
    simp only [isPlain, Bool.and_eq_true, decide_eq_true_eq, Bool.not_eq_true', decide_eq_false_iff_not] at hc
    exact .char hc.1.1 hc.1.2 hc.2 (ih hraw)

/-- Another key does not hide it. -/
theorem infix_of_key (hkey : Searched key) (k : Key) (hne : k.raw ≠ key)
    (h : keyText key <:+: quoted k.raw ++ ':' :: rest) : keyText key <:+: rest := by
  have hback : '\\' ∉ k.raw := fun hmem => absurd (k.plain _ hmem) (by decide)
  rw [quoted, List.cons_append, List.append_assoc, List.singleton_append] at h
  rcases List.infix_cons_iff.1 h with hpre | hin
  · rw [keyText_eq, List.cons_prefix_cons] at hpre
    exact absurd (eq_of_quoted hkey.plain k.escaped hpre.2).1 hne
  · have hmarks : ∀ c ∈ (':' :: rest).head?, c ∈ [':', ',', '}', ']'] := by
      rintro c hc
      cases hc
      exact List.mem_cons_self
    exact infix_of_cons_ne (by decide) ((infix_of_raw hkey k.escaped hmarks hin).resolve_left
      fun hand => hback hand.1)

/-- What has no quote hides no key. -/
theorem infix_of_no_quote {cs : List Char} (hcs : '"' ∉ cs) (h : keyText key <:+: cs ++ rest) :
    keyText key <:+: rest := by
  induction cs with
  | nil => exact h
  | cons c cs ih =>
    rw [List.mem_cons, not_or] at hcs
    exact ih hcs.2 (infix_of_cons_ne (Ne.symm hcs.1) h)

theorem Atom.no_quote (a : Atom) : '"' ∉ a.raw := fun hmem => absurd (a.chars _ hmem) (by decide)

theorem follows_itemsTail (ds : List Doc) (hrest : Follows rest) : Follows (itemsTail ds ++ rest) := by
  cases ds with
  | nil => exact hrest
  | cons d ds => exact follows_cons (by decide)

theorem follows_membersTail (ms : List (Key × Doc)) (hrest : Follows rest) :
    Follows (membersTail ms ++ rest) := by
  cases ms with
  | nil => exact hrest
  | cons m ms => exact follows_cons (by decide)

mutual

/-- **A key that no member has is not found** in the text of a value. -/
theorem infix_of_text (hkey : Searched key) (rest : List Char) (hrest : Follows rest) : (d : Doc) →
    ¬ HasKey key d → keyText key <:+: d.text ++ rest → keyText key <:+: rest
  | .atom a, _, h => infix_of_no_quote a.no_quote (by simpa only [Doc.text] using h)
  | .str s, _, h => infix_of_str hkey s hrest (by simpa only [Doc.text] using h)
  | .arr [], _, h => by
    rw [Doc.text] at h
    exact infix_of_cons_ne (by decide) (infix_of_cons_ne (by decide) h)
  | .arr (d :: ds), hno, h => by
    rw [Doc.text, List.cons_append, List.append_assoc, List.append_assoc, List.singleton_append] at h
    have hclose : Follows (']' :: rest) := follows_cons (by decide)
    have h := infix_of_text hkey _ (follows_itemsTail ds hclose) d
      (fun hd => hno (.item List.mem_cons_self hd)) (infix_of_cons_ne (by decide) h)
    have h := infix_of_itemsTail hkey _ hclose ds
      (fun d' hd' hk => hno (.item (List.mem_cons_of_mem d hd') hk)) h
    exact infix_of_cons_ne (by decide) h
  | .obj [], _, h => by
    rw [Doc.text] at h
    exact infix_of_cons_ne (by decide) (infix_of_cons_ne (by decide) h)
  | .obj ((k, d) :: ms), hno, h => by
    rw [Doc.text] at h
    simp only [List.cons_append, List.append_assoc, List.nil_append] at h
    have hclose : Follows ('}' :: rest) := follows_cons (by decide)
    have h := infix_of_key hkey k (fun hk => hno (.here List.mem_cons_self hk))
      (infix_of_cons_ne (by decide) h)
    have h := infix_of_text hkey _ (follows_membersTail ms hclose) d
      (fun hd => hno (.member List.mem_cons_self hd)) h
    have h := infix_of_membersTail hkey _ hclose ms (fun m hm =>
      ⟨fun hk => hno (.here (List.mem_cons_of_mem _ hm) hk),
        fun hd => hno (.member (List.mem_cons_of_mem _ hm) hd)⟩) h
    exact infix_of_cons_ne (by decide) h

theorem infix_of_itemsTail (hkey : Searched key) (rest : List Char) (hrest : Follows rest) :
    (ds : List Doc) → (∀ d ∈ ds, ¬ HasKey key d) → keyText key <:+: itemsTail ds ++ rest →
      keyText key <:+: rest
  | [], _, h => h
  | d :: ds, hno, h => by
    obtain ⟨hd, hds⟩ := List.forall_mem_cons.1 hno
    rw [itemsTail, List.cons_append, List.append_assoc] at h
    have h := infix_of_text hkey _ (follows_itemsTail ds hrest) d hd (infix_of_cons_ne (by decide) h)
    exact infix_of_itemsTail hkey rest hrest ds hds h

theorem infix_of_membersTail (hkey : Searched key) (rest : List Char) (hrest : Follows rest) :
    (ms : List (Key × Doc)) → (∀ m ∈ ms, m.1.raw ≠ key ∧ ¬ HasKey key m.2) →
      keyText key <:+: membersTail ms ++ rest → keyText key <:+: rest
  | [], _, h => h
  | (k, d) :: ms, hno, h => by
    obtain ⟨⟨hk, hd⟩, hms⟩ := List.forall_mem_cons.1 hno
    rw [membersTail] at h
    simp only [List.cons_append, List.append_assoc] at h
    have h := infix_of_key hkey k hk (infix_of_cons_ne (by decide) h)
    have h := infix_of_text hkey _ (follows_membersTail ms hrest) d hd h
    exact infix_of_membersTail hkey rest hrest ms hms h

end

/-! ## Where a key is written -/

theorem itemsTail_append (xs ys : List Doc) : itemsTail (xs ++ ys) = itemsTail xs ++ itemsTail ys := by
  induction xs with
  | nil => rfl
  | cons x xs ih =>
    rw [List.cons_append, itemsTail, ih, itemsTail]
    simp only [List.cons_append, List.append_assoc]

theorem membersTail_append (xs ys : List (Key × Doc)) :
    membersTail (xs ++ ys) = membersTail xs ++ membersTail ys := by
  induction xs with
  | nil => rfl
  | cons x xs ih =>
    rw [List.cons_append, membersTail, ih, membersTail]
    simp only [List.cons_append, List.append_assoc]

/-- The text of an object, from one of its members on. -/
theorem text_obj_append (xs : List (Key × Doc)) (k : Key) (d : Doc) (ys : List (Key × Doc)) :
    ∃ front, (Doc.obj (xs ++ (k, d) :: ys)).text =
      front ++ (keyText k.raw ++ (d.text ++ (membersTail ys ++ ['}']))) := by
  cases xs with
  | nil =>
    refine ⟨['{'], ?_⟩
    rw [List.nil_append, Doc.text, keyText]
    simp only [List.cons_append, List.append_assoc, List.nil_append]
  | cons x xs =>
    refine ⟨'{' :: (quoted x.1.raw ++ ':' :: (x.2.text ++ (membersTail xs ++ [',']))), ?_⟩
    rw [List.cons_append, Doc.text, membersTail_append, membersTail, keyText]
    simp only [List.cons_append, List.append_assoc, List.nil_append]

/-- An item is in the text of its array. -/
theorem text_item {d : Doc} {items : List Doc} (h : d ∈ items) : d.text <:+: (Doc.arr items).text := by
  obtain ⟨xs, ys, rfl⟩ := List.append_of_mem h
  cases xs with
  | nil =>
    rw [List.nil_append, Doc.text]
    exact ⟨['['], itemsTail ys ++ [']'], by simp⟩
  | cons x xs =>
    rw [List.cons_append, Doc.text, itemsTail_append, itemsTail]
    exact ⟨'[' :: (x.text ++ (itemsTail xs ++ [','])), itemsTail ys ++ [']'], by simp⟩

/-- **A key is found where a member has it.** -/
theorem text_of_hasKey {d : Doc} (h : HasKey key d) : keyText key <:+: d.text := by
  induction h with
  | @here k d members hmem heq =>
    obtain ⟨xs, ys, rfl⟩ := List.append_of_mem hmem
    obtain ⟨front, hfront⟩ := text_obj_append xs k d ys
    rw [hfront, heq]
    exact ⟨front, _, List.append_assoc _ _ _⟩
  | @member k d members hmem _ ih =>
    obtain ⟨xs, ys, rfl⟩ := List.append_of_mem hmem
    obtain ⟨front, hfront⟩ := text_obj_append xs k d ys
    rw [hfront]
    exact ih.trans ⟨front ++ keyText k.raw, membersTail ys ++ ['}'], by simp⟩
  | item hmem _ ih => exact ih.trans (text_item hmem)

theorem newline_not_mem_quoted {raw : List Char} (h : Escaped raw) : '\n' ∉ quoted raw := by
  have hraw : '\n' ∉ raw := by
    induction h with
    | nil => exact List.not_mem_nil
    | char _ _ hctl _ ih =>
      refine List.not_mem_cons_of_ne_of_not_mem ?_ ih
      rintro rfl
      exact hctl (by decide)
    | escape hctl _ ih =>
      refine List.not_mem_cons_of_ne_of_not_mem (by decide) (List.not_mem_cons_of_ne_of_not_mem ?_ ih)
      rintro rfl
      exact hctl (by decide)
  rw [quoted, List.mem_cons, List.mem_append, List.mem_singleton]
  rintro (h | h | h)
  · cases h
  · exact hraw h
  · cases h

mutual

/-- A text is one line. -/
theorem newline_not_mem_text : (d : Doc) → '\n' ∉ d.text
  | .atom a => by
    rw [Doc.text]
    exact fun hmem => absurd (a.chars _ hmem) (by decide)
  | .str s => by
    rw [Doc.text]
    exact newline_not_mem_quoted s.escaped
  | .arr [] => by
    rw [Doc.text]
    decide
  | .arr (d :: ds) => by
    rw [Doc.text]
    simp [newline_not_mem_text d, newline_not_mem_itemsTail ds]
  | .obj [] => by
    rw [Doc.text]
    decide
  | .obj ((k, d) :: ms) => by
    rw [Doc.text]
    simp [newline_not_mem_quoted k.escaped, newline_not_mem_text d, newline_not_mem_membersTail ms]

theorem newline_not_mem_itemsTail : (ds : List Doc) → '\n' ∉ itemsTail ds
  | [] => List.not_mem_nil
  | d :: ds => by
    rw [itemsTail]
    simp [newline_not_mem_text d, newline_not_mem_itemsTail ds]

theorem newline_not_mem_membersTail : (ms : List (Key × Doc)) → '\n' ∉ membersTail ms
  | [] => List.not_mem_nil
  | (k, d) :: ms => by
    rw [membersTail]
    simp [newline_not_mem_quoted k.escaped, newline_not_mem_text d, newline_not_mem_membersTail ms]

end

/-! ## Stored texts -/

theorem Escaped.append {a b : List Char} (ha : Escaped a) (hb : Escaped b) : Escaped (a ++ b) := by
  induction ha with
  | nil => exact hb
  | char hquote hback hctl _ ih => exact .char hquote hback hctl ih
  | escape hctl _ ih => exact .escape hctl ih

theorem escaped_of_plain {cs : List Char} (h : ∀ c ∈ cs, ¬ c < ' ' ∧ c ≠ '"' ∧ c ≠ '\\') : Escaped cs := by
  induction cs with
  | nil => exact .nil
  | cons c cs ih =>
    obtain ⟨⟨hctl, hquote, hback⟩, hcs⟩ := List.forall_mem_cons.1 h
    exact .char hquote hback hctl (ih hcs)

theorem escaped_escapeChar (c : Char) : Escaped (JsonText.escapeChar c) := by
  rcases JsonText.escapeChar_cases c with ⟨e, he, hunescape⟩ | ⟨he, -⟩ | ⟨he, hplain⟩
  · rw [he]
    exact .escape (JsonText.not_lt_of_unescape hunescape) .nil
  · rw [he]
    exact .escape (by decide) (escaped_of_plain (JsonText.hexDigits_plain c.toNat))
  · rw [he]
    exact escaped_of_plain (List.forall_mem_singleton.2 hplain)

/-- A text as a JSON writer stores it. -/
def Str.of (text : String) : Str where
  raw := text.toList.flatMap JsonText.escapeChar
  escaped := by
    induction text.toList with
    | nil => exact .nil
    | cons c cs ih =>
      rw [List.flatMap_cons]
      exact (escaped_escapeChar c).append ih

/-- **Every text can be stored**, and is read back. -/
theorem unquote_of (text : String) : JsonText.unquote (Str.of text).raw = some text :=
  JsonText.unquote_flatMap_escapeChar text

end LlmkubeRuntimes.Lib.Compact
