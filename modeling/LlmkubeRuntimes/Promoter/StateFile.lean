import Mathlib.Data.List.Sort
import LlmkubeRuntimes.Lib.JsonText
import LlmkubeRuntimes.Lib.Utf8
import LlmkubeRuntimes.Promoter.State

/-!
# The bytes of the state file

* `State.marshalIndent`: `json.MarshalIndent(s, "", "  ")`, which sorts the digests;
* `unmarshal`: `json.Unmarshal` into a `State`. The name of a field matches in either
  case, other members are ignored, `null` changes no field of a record, and a value of
  another type is an error;
* `writeFile`: what `os.WriteFile` does to the file, byte by byte. `Save` may be killed
  after any number of these operations.

`loadState_marshalIndent`, `reloaded_eq`: a saved state is loaded with the same records.
`loadState_interrupted`: a file that `Save` was killed in is not loaded at all.
-/

namespace LlmkubeRuntimes.Promoter

open LlmkubeRuntimes.Lib LlmkubeRuntimes.Lib.JsonText

abbrev Bytes := List UInt8

/-! ## LoadState -/

abbrev Processed := AList fun _ : Digest => Record

/-- The least rune that folds to the same letter, for the letters of the field names. -/
def foldRune (c : Char) : Char :=
  if c = '\u017F' then 'S' else if c = '\u212A' then 'K' else c.toUpper

def fieldMatches (name key : String) : Bool :=
  key.toList.map foldRune == name.toList.map foldRune

def decodeString (old : String) : Json → Option String
  | .str s => some s
  | .null => some old
  | _ => none

/-- One member of a record's object. -/
def Record.decodeMember (r : Record) (member : String × Json) : Option Record :=
  if fieldMatches "verdict" member.1 then
    (decodeString r.verdict member.2).map fun verdict => { r with verdict }
  else if fieldMatches "tag" member.1 then
    (decodeString r.tag member.2).map fun tag => { r with tag }
  else some r

def decodeRecord : Json → Option Record
  | .null => some ⟨"", ""⟩
  | .obj members => members.foldlM Record.decodeMember ⟨"", ""⟩
  | _ => none

def decodeEntry (m : Processed) (member : String × Json) : Option Processed :=
  (decodeRecord member.2).map fun r => m.insert member.1 r

/-- The map after a value; `none` is a nil map. -/
def decodeProcessed (old : Option Processed) : Json → Option (Option Processed)
  | .null => some none
  | .obj members => (members.foldlM decodeEntry (old.getD ∅)).map some
  | _ => none

/-- One member of the state's object. -/
def decodeField (old : Option Processed) (member : String × Json) : Option (Option Processed) :=
  if fieldMatches "processed" member.1 then decodeProcessed old member.2 else some old

def decodeState : Json → Option (Option Processed)
  | .null => some none
  | .obj members => members.foldlM decodeField none
  | _ => none

def unmarshal (b : Bytes) : Option (Option Processed) := (parse (Utf8.decode b)).bind decodeState

inductive ReadError where
  | notExist
  | other
  deriving DecidableEq, Repr

inductive LoadError where
  | read
  | unmarshal
  deriving DecidableEq, Repr

/-- `LoadState`, on what `os.ReadFile` returns. -/
def loadState : Except ReadError Bytes → Except LoadError State
  | .error .notExist => .ok State.empty
  | .error .other => .error .read
  | .ok b =>
    match unmarshal b with
    | none => .error .unmarshal
    | some processed => .ok ⟨processed.getD ∅⟩

/-! ## Save -/

/-- `omitempty`: an empty tag is left out. -/
def Record.text (r : Record) : List Char :=
  objectText 2 (("verdict", quote r.verdict) ::
    if r.tag = "" then [] else [("tag", quote r.tag)])

namespace State

def sortedEntries (s : State) : List (Sigma fun _ : Digest => Record) :=
  s.processed.entries.insertionSort fun e e' => e.1 ≤ e'.1

def text (s : State) : List Char :=
  objectText 0 [("processed", objectText 1 (s.sortedEntries.map fun e => (e.1, e.2.text)))]

def marshalIndent (s : State) : Bytes := Utf8.encode s.text

end State

/-- An operation on the file; `none` is no file. -/
inductive FileOp where
  /-- Opened with `O_CREATE` and `O_TRUNC`. -/
  | truncate
  | write (b : UInt8)

def FileOp.apply (file : Option Bytes) : FileOp → Option Bytes
  | .truncate => some []
  | .write b => file.map (· ++ [b])

/-- `os.WriteFile`. -/
def writeFile (b : Bytes) : List FileOp := .truncate :: b.map .write

namespace State

/-- The file when `Save` is killed after `k` operations on it. -/
def saveKilled (s : State) (k : Nat) (file : Option Bytes) : Option Bytes :=
  ((writeFile s.marshalIndent).take k).foldl FileOp.apply file

/-- The file when `Save` returns. -/
def save (s : State) (file : Option Bytes) : Option Bytes :=
  (writeFile s.marshalIndent).foldl FileOp.apply file

end State

/-- `os.ReadFile` of a file that can be read. -/
def readFile : Option Bytes → Except ReadError Bytes
  | none => .error .notExist
  | some b => .ok b

/-! ## A saved state is loaded -/

/-- The same records. -/
def State.Same (s t : State) : Prop := ∀ d, s.get? d = t.get? d

def Record.value (r : Record) : Json :=
  .obj (("verdict", .str r.verdict) :: if r.tag = "" then [] else [("tag", .str r.tag)])

theorem Record.reads_text (r : Record) : Reads r.text r.value := by
  refine reads_objectText (.cons ⟨rfl, reads_quote r.verdict⟩ ?_)
  split_ifs
  · exact .nil
  · exact .cons ⟨rfl, reads_quote r.tag⟩ .nil

theorem decodeRecord_value (r : Record) : decodeRecord r.value = some r := by
  have hverdict : fieldMatches "verdict" "verdict" = true := by decide +kernel
  have htag : fieldMatches "verdict" "tag" = false := by decide +kernel
  have htag' : fieldMatches "tag" "tag" = true := by decide +kernel
  have hfirst : ∀ r₀ : Record, r₀.decodeMember ("verdict", .str r.verdict) =
      some ⟨r.verdict, r₀.tag⟩ := fun r₀ => by
    rw [Record.decodeMember, hverdict, if_pos rfl]
    rfl
  have hsecond : ∀ r₀ : Record, r₀.decodeMember ("tag", .str r.tag) =
      some ⟨r₀.verdict, r.tag⟩ := fun r₀ => by
    rw [Record.decodeMember, htag, if_neg Bool.false_ne_true, htag', if_pos rfl]
    rfl
  obtain ⟨verdict, tag⟩ := r
  unfold Record.value
  split_ifs with hempty
  · obtain rfl : tag = "" := hempty
    rw [decodeRecord, List.foldlM_cons, hfirst]
    rfl
  · rw [decodeRecord, List.foldlM_cons, hfirst, Option.bind_eq_bind, Option.bind_some,
      List.foldlM_cons, hsecond]
    rfl

/-- The map after the entries of a list. -/
theorem foldlM_decodeEntry (es : List (Sigma fun _ : Digest => Record)) (m : Processed) :
    (es.map fun e => (e.1, e.2.value)).foldlM decodeEntry m =
      some (es.foldl (fun m e => m.insert e.1 e.2) m) := by
  induction es generalizing m with
  | nil => rfl
  | cons e es ih =>
    have hentry : decodeEntry m (e.1, e.2.value) = some (m.insert e.1 e.2) := by
      rw [decodeEntry, decodeRecord_value]
      rfl
    rw [List.map_cons, List.foldlM_cons, hentry, Option.bind_eq_bind, Option.bind_some, ih]
    rfl

theorem lookup_foldl_insert {es : List (Sigma fun _ : Digest => Record)} (h : es.NodupKeys)
    (m : Processed) (d : Digest) : (es.foldl (fun m e => m.insert e.1 e.2) m).lookup d =
      (es.dlookup d).or (m.lookup d) := by
  induction es generalizing m with
  | nil => rfl
  | cons e es ih =>
    obtain ⟨hnew, hes⟩ := List.nodupKeys_cons.1 h
    rw [List.foldl_cons, ih hes]
    by_cases hd : d = e.1
    · subst hd
      rw [List.dlookup_eq_none.2 hnew, AList.lookup_insert, List.dlookup_cons_eq]
      rfl
    · rw [AList.lookup_insert_ne hd, List.dlookup_cons_ne _ _ hd]

namespace State

theorem sortedEntries_perm (s : State) : s.sortedEntries.Perm s.processed.entries :=
  List.perm_insertionSort _ _

theorem dlookup_sortedEntries (s : State) (d : Digest) : s.sortedEntries.dlookup d = s.get? d :=
  List.perm_dlookup d ((List.perm_nodupKeys s.sortedEntries_perm).2 s.processed.nodupKeys)
    s.sortedEntries_perm

def value (s : State) : Json :=
  .obj [("processed", .obj (s.sortedEntries.map fun e => (e.1, e.2.value)))]

theorem reads_text (s : State) : Reads s.text s.value := by
  refine reads_objectText (.cons ⟨rfl, reads_objectText ?_⟩ .nil)
  rw [List.forall₂_map_left_iff, List.forall₂_map_right_iff, List.forall₂_same]
  exact fun e _ => ⟨rfl, e.2.reads_text⟩

theorem decodeState_value (s : State) : decodeState s.value =
    some (some (s.sortedEntries.foldl (fun m e => m.insert e.1 e.2) ∅)) := by
  have hfield : fieldMatches "processed" "processed" = true := by decide +kernel
  rw [value, decodeState, List.foldlM_cons, decodeField, hfield, if_pos rfl, decodeProcessed,
    Option.getD_none, foldlM_decodeEntry]
  rfl

/-- **A saved state is loaded** with the same records. -/
theorem loadState_marshalIndent (s : State) :
    ∃ t, loadState (.ok s.marshalIndent) = .ok t ∧ t.Same s := by
  refine ⟨⟨s.sortedEntries.foldl (fun m e => m.insert e.1 e.2) ∅⟩, ?_, fun d => ?_⟩
  · rw [loadState, unmarshal, marshalIndent, Utf8.decode_encode, s.reads_text.parse,
      Option.bind_some, decodeState_value]
    rfl
  · rw [get?, lookup_foldl_insert
      ((List.perm_nodupKeys s.sortedEntries_perm).2 s.processed.nodupKeys), dlookup_sortedEntries]
    exact Option.or_none

/-- One candidate is promoted. -/
def promoted : State := empty.record "sha256:abc" "promoted" "b9663-llmkube1"

example : String.ofList promoted.text =
    "\x7b\n  \"processed\": \x7b\n    \"sha256:abc\": \x7b\n" ++
    "      \"verdict\": \"promoted\",\n      \"tag\": \"b9663-llmkube1\"\n" ++
    "    \x7d\n  \x7d\n\x7d" := by decide +kernel

/-- The same records, in whatever order. -/
theorem Same.perm {s t : State} (h : s.Same t) : s.processed.entries.Perm t.processed.entries :=
  List.lookup_ext s.processed.nodupKeys t.processed.nodupKeys fun d r => by
    rw [show s.processed.entries.dlookup d = t.processed.entries.dlookup d from h d]

theorem Same.seen {s t : State} (h : s.Same t) (d : Digest) : s.seen d = t.seen d := by
  rw [Bool.eq_iff_iff, seen_iff, seen_iff, h d]

/-! ## Killed in Save -/

theorem foldl_write (written b : Bytes) :
    (b.map FileOp.write).foldl FileOp.apply (some written) = some (written ++ b) := by
  induction b generalizing written with
  | nil => rw [List.append_nil]; rfl
  | cons x b ih =>
    rw [List.map_cons, List.foldl_cons, FileOp.apply, Option.map_some, ih, List.append_assoc]
    rfl

@[simp]
theorem saveKilled_zero (s : State) (file : Option Bytes) : s.saveKilled 0 file = file := rfl

@[simp]
theorem saveKilled_succ (s : State) (n : Nat) (file : Option Bytes) :
    s.saveKilled (n + 1) file = some (s.marshalIndent.take n) := by
  rw [saveKilled, writeFile, List.take_succ_cons, ← List.map_take]
  exact foldl_write [] _

@[simp]
theorem save_eq (s : State) (file : Option Bytes) : s.save file = some s.marshalIndent := by
  rw [save, writeFile, List.foldl_cons]
  exact foldl_write [] _

theorem loadState_save (s : State) (file : Option Bytes) :
    ∃ t, loadState (readFile (s.save file)) = .ok t ∧ t.Same s := by
  rw [save_eq]
  exact s.loadState_marshalIndent

/-- **A reloaded state cannot be told from the saved one**: every digest has its record, and
every ref its last revision. -/
theorem reloaded_eq (s : State) (file : Option Bytes) :
    ∃ t, loadState (readFile (s.save file)) = .ok t ∧ (∀ d, t.get? d = s.get? d) ∧
      (∀ d, t.seen d = s.seen d) ∧ ∀ ref, t.lastRevision ref = s.lastRevision ref := by
  obtain ⟨t, hload, hsame⟩ := s.loadState_save file
  exact ⟨t, hload, hsame, hsame.seen, lastRevision_perm hsame.perm⟩

/-- **A file that `Save` was killed in is not loaded.** -/
theorem loadState_interrupted {s : State} {n : Nat} (h : n < s.marshalIndent.length) :
    loadState (.ok (s.marshalIndent.take n)) = .error .unmarshal := by
  obtain ⟨before, c, after, cut, htext, hdecode, hcut⟩ := Utf8.decode_take h
  have hparse : parse (before ++ cut) = none := parse_objectText_cut s.reads_text htext hcut
  rw [loadState, unmarshal, marshalIndent, hdecode, hparse]
  rfl

/-- **A state survives a kill in `Save` exactly if** the file is not yet truncated or every
byte of the new state is written. -/
theorem save_survives_iff (s s' : State) (file : Option Bytes) (k : Nat) :
    (∃ t, loadState (readFile (s'.saveKilled k (s.save file))) = .ok t ∧
      (t.Same s ∨ t.Same s')) ↔ k = 0 ∨ s'.marshalIndent.length < k := by
  cases k with
  | zero =>
    obtain ⟨t, hload, hsame⟩ := s.loadState_save file
    rw [saveKilled_zero]
    exact ⟨fun _ => .inl rfl, fun _ => ⟨t, hload, .inl hsame⟩⟩
  | succ n =>
    rw [saveKilled_succ, readFile]
    constructor
    · rintro ⟨t, hload, -⟩
      refine .inr (Nat.lt_succ_of_le (Nat.le_of_not_lt fun hn => ?_))
      rw [loadState_interrupted hn] at hload
      cases hload
    · rintro (hzero | hn)
      · cases hzero
      · obtain ⟨t, hload, hsame⟩ := s'.loadState_marshalIndent
        rw [List.take_of_length_le (Nat.le_of_lt_succ hn)]
        exact ⟨t, hload, .inr hsame⟩

/-- Killed when the file is truncated, `Save` of a second record leaves no state. -/
theorem truncated_state_lost : ¬ ∀ (s s' : State) (file : Option Bytes) (k : Nat),
    ∃ t, loadState (readFile (s'.saveKilled k (s.save file))) = .ok t ∧
      (t.Same s ∨ t.Same s') := by
  intro h
  obtain ⟨t, hload, -⟩ := h promoted (promoted.record "sha256:def" "failed-smoke" "") none 1
  rw [saveKilled_succ, List.take_zero, readFile, loadState, unmarshal, Utf8.decode] at hload
  cases hload

end State

end LlmkubeRuntimes.Promoter
