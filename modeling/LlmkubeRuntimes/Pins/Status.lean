import LlmkubeRuntimes.Pins.Host

/-!
# Reading `git status`

`_status_paths` on the text of arbitrary records. The loop skips the entry after
one whose first character is `R` or `C`; a record's source follows if either
character is. The text is read with its line ends translated.

* `taggedEntries`: the entries of a record, each with what it is;
* `readEntries`: the entries that the loop of `entryPaths` takes a path from;
* `FollowsGrammar`: the paths read are those of the records, and none is read
  from a source;
* `followsGrammar_iff`: so it is if no path has a carriage return and the source
  of a rename in the work tree alone is too short to be read.
-/

namespace LlmkubeRuntimes.Pins

open LlmkubeRuntimes.Lib

/-- What an entry of `git status --porcelain -z` is. -/
inductive EntryKind where
  | status
  | source
  deriving DecidableEq, Repr

namespace StatusRecord

/-- The entries a record is printed as, with their kinds. -/
def taggedEntries (r : StatusRecord) : List (EntryKind × Line) :=
  (.status, r.x :: r.y :: ' ' :: r.path) :: r.source.toList.map fun s => (.source, s)

/-- The loop does not read the source of the record. -/
def SourceSkipped (r : StatusRecord) : Prop :=
  r.WorkTreeRename → ∀ s ∈ r.source, (universalNewlines s).length ≤ 3

/-- The loop reads the path of the record, and not its source. -/
def Readable (r : StatusRecord) : Prop := r.path ≠ [] ∧ '\r' ∉ r.path ∧ r.SourceSkipped

end StatusRecord

/-- The entries of which `entryPaths` takes the path. -/
def readEntries : Bool → List (EntryKind × Line) → List (EntryKind × Line)
  | _, [] => []
  | true, _ :: entries => readEntries false entries
  | false, entry :: entries =>
    if 3 < entry.2.length then
      entry :: readEntries (entry.2.head? = some 'R' ∨ entry.2.head? = some 'C') entries
    else readEntries false entries

/-- The paths of the entries that are read, in order. -/
theorem entryPaths_eq (skip : Bool) (entries : List (EntryKind × Line)) :
    entryPaths skip (entries.map Prod.snd) = (readEntries skip entries).map (·.2.drop 3) := by
  induction entries generalizing skip with
  | nil => cases skip <;> rfl
  | cons entry entries ih =>
    cases skip with
    | true => exact ih false
    | false =>
      rw [List.map_cons, entryPaths, readEntries]
      split
      · rw [List.map_cons, ih]
      · exact ih false

/-- An empty entry at the end is not read. -/
theorem entryPaths_concat_nil (skip : Bool) (entries : List Line) :
    entryPaths skip (entries ++ [[]]) = entryPaths skip entries := by
  induction entries generalizing skip with
  | nil => cases skip <;> rfl
  | cons entry entries ih =>
    cases skip with
    | true => exact ih false
    | false =>
      rw [List.cons_append, entryPaths, entryPaths]
      split
      · rw [ih]
      · exact ih false

/-- An entry with its line ends translated. -/
def translated (entry : EntryKind × Line) : EntryKind × Line :=
  (entry.1, universalNewlines entry.2)

/-- The entries read of the text of some records. -/
def readOf (records : List StatusRecord) : List (EntryKind × Line) :=
  readEntries false ((records.flatMap (·.taggedEntries)).map translated)

theorem statusPaths_eq_read {records : List StatusRecord} (h : ∀ r ∈ records, r.Written) :
    statusPaths (statusText records) = (readOf records).map (·.2.drop 3) := by
  have hentries : (records.flatMap (·.entries)).map universalNewlines =
      ((records.flatMap (·.taggedEntries)).map translated).map Prod.snd := by
    rw [List.map_flatMap, List.map_flatMap, List.map_flatMap]
    congr 1
    funext r
    simp [StatusRecord.entries, StatusRecord.taggedEntries, translated, Function.comp_def]
  rw [statusPaths_eq h, entryPaths_concat_nil, hentries, entryPaths_eq, readOf]

/-- What is read has a path. -/
theorem length_of_mem_readEntries {skip : Bool} {entries : List (EntryKind × Line)}
    {entry : EntryKind × Line} (h : entry ∈ readEntries skip entries) : 3 < entry.2.length := by
  induction entries generalizing skip with
  | nil => cases skip <;> exact absurd h List.not_mem_nil
  | cons first entries ih =>
    cases skip with
    | true => exact ih h
    | false =>
      rw [readEntries] at h
      split at h
      next hlen =>
        rcases List.mem_cons.1 h with rfl | h
        · exact hlen
        · exact ih h
      next => exact ih h

/-- The paths read are those of the records, and none is cut out of a source. -/
def FollowsGrammar (records : List StatusRecord) : Prop :=
  (∀ path, path ∈ statusPaths (statusText records) ↔ ∃ r ∈ records, r.path = path) ∧
    ∀ entry ∈ readOf records, entry.1 = .status

theorem map_taggedEntries {r : StatusRecord} (h : r.Written) : r.taggedEntries.map translated =
    (.status, r.x :: r.y :: ' ' :: universalNewlines r.path) ::
      r.source.toList.map fun s => (.source, universalNewlines s) := by
  rw [StatusRecord.taggedEntries, List.map_cons, translated, universalNewlines_entry h, List.map_map]
  rfl

/-- A record whose source is skipped is read as its path, and the loop goes on at the next. -/
theorem readEntries_skipped {r : StatusRecord} (h : r.Written) (hpath : r.path ≠ [])
    (hskip : r.SourceSkipped) (rest : List (EntryKind × Line)) :
    readEntries false (r.taggedEntries.map translated ++ rest) =
      (.status, r.x :: r.y :: ' ' :: universalNewlines r.path) :: readEntries false rest := by
  have hlen : 0 < (universalNewlines r.path).length :=
    List.length_pos_of_ne_nil (mt universalNewlines_eq_nil.1 hpath)
  have hsource := h.2.2.2.2
  rw [map_taggedEntries h]
  by_cases hx : r.x = 'R' ∨ r.x = 'C'
  · -- the source is skipped
    obtain ⟨s, hs⟩ := Option.isSome_iff_exists.1 (hsource.2 (.inl (by simpa using hx)))
    simp [readEntries, hs, hlen, hx]
  · cases hs : r.source with
    | none => simp [readEntries, hlen, hx]
    | some s =>
      have hy : r.y ∈ ['R', 'C'] := (hsource.1 (by rw [hs]; rfl)).resolve_left (by simpa using hx)
      have hshort := hskip ⟨hy, by simpa using hx⟩ s hs
      simp [readEntries, hlen, hx, Nat.not_lt.2 hshort]

/-- The source of any other record is read as an entry. -/
theorem readEntries_source {r : StatusRecord} (h : r.Written) (hpath : r.path ≠ [])
    (hr : r.WorkTreeRename) {s : Line} (hs : s ∈ r.source) (hlen : 3 < (universalNewlines s).length)
    (rest : List (EntryKind × Line)) :
    (.source, universalNewlines s) ∈ readEntries false (r.taggedEntries.map translated ++ rest) := by
  have hpos : 0 < (universalNewlines r.path).length :=
    List.length_pos_of_ne_nil (mt universalNewlines_eq_nil.1 hpath)
  have hx : ¬ (r.x = 'R' ∨ r.x = 'C') := by simpa using hr.2
  rw [map_taggedEntries h]
  simp [readEntries, Option.mem_def.1 hs, hpos, hx, hlen]

/-- Records whose sources are skipped are read as their paths, in order. -/
theorem readOf_skipped {records : List StatusRecord} (h : ∀ r ∈ records, r.Written)
    (hpath : ∀ r ∈ records, r.path ≠ []) (hskip : ∀ r ∈ records, r.SourceSkipped) :
    readOf records =
      records.map fun r => (.status, r.x :: r.y :: ' ' :: universalNewlines r.path) := by
  unfold readOf
  induction records with
  | nil => rfl
  | cons r records ih =>
    rw [List.forall_mem_cons] at h hpath hskip
    rw [List.flatMap_cons, List.map_append, readEntries_skipped h.1 hpath.1 hskip.1,
      ih h.2 hpath.2 hskip.2, List.map_cons]

/-- If no source is read, no work-tree rename has a source that is long enough. -/
theorem skipped_of_readOf {records : List StatusRecord} (h : ∀ r ∈ records, r.Written)
    (hpath : ∀ r ∈ records, r.path ≠ []) (hread : ∀ entry ∈ readOf records, entry.1 = .status) :
    ∀ r ∈ records, r.SourceSkipped := by
  unfold readOf at hread
  induction records with
  | nil => exact fun r hr => absurd hr List.not_mem_nil
  | cons r records ih =>
    rw [List.forall_mem_cons] at h hpath ⊢
    rw [List.flatMap_cons, List.map_append] at hread
    have hr : r.SourceSkipped := by
      intro hr s hs
      by_contra hlen
      have hmem := readEntries_source h.1 hpath.1 hr hs (Nat.not_le.1 hlen)
        ((records.flatMap (·.taggedEntries)).map translated)
      cases hread _ hmem
    rw [readEntries_skipped h.1 hpath.1 hr, List.forall_mem_cons] at hread
    exact ⟨hr, ih h.2 hpath.2 hread.2⟩

/-- What is read has its line ends translated. -/
theorem mem_of_mem_readEntries {skip : Bool} {entries : List (EntryKind × Line)}
    {entry : EntryKind × Line} (h : entry ∈ readEntries skip entries) : entry ∈ entries := by
  induction entries generalizing skip with
  | nil => cases skip <;> exact h
  | cons first entries ih =>
    cases skip with
    | true => exact List.mem_cons_of_mem first (ih h)
    | false =>
      rw [readEntries] at h
      split at h
      · rcases List.mem_cons.1 h with rfl | h
        · exact List.mem_cons_self
        · exact List.mem_cons_of_mem first (ih h)
      · exact List.mem_cons_of_mem first (ih h)

/-- No path is read that is empty or has a carriage return. -/
theorem of_mem_statusPaths {records : List StatusRecord} (h : ∀ r ∈ records, r.Written)
    {path : Line} (hmem : path ∈ statusPaths (statusText records)) :
    path ≠ [] ∧ '\r' ∉ path := by
  rw [statusPaths_eq_read h, List.mem_map] at hmem
  obtain ⟨entry, hentry, rfl⟩ := hmem
  have hlen := length_of_mem_readEntries hentry
  obtain ⟨printed, -, rfl⟩ := List.mem_map.1 (mem_of_mem_readEntries hentry)
  refine ⟨by simpa using hlen, fun hcr => ?_⟩
  exact notMem_universalNewlines printed.2 (List.mem_of_mem_drop hcr)

/-- **Git's grammar is followed exactly if every record is readable**: no path is
empty or has a carriage return, and no rename in the work tree alone has a source of
more than three characters. -/
theorem followsGrammar_iff (records : List StatusRecord) (h : ∀ r ∈ records, r.Written) :
    FollowsGrammar records ↔ ∀ r ∈ records, r.Readable := by
  constructor
  · rintro ⟨hset, hread⟩
    have hpath : ∀ r ∈ records, r.path ≠ [] ∧ '\r' ∉ r.path := fun r hr =>
      of_mem_statusPaths h ((hset r.path).2 ⟨r, hr, rfl⟩)
    have hskip := skipped_of_readOf h (fun r hr => (hpath r hr).1) hread
    exact fun r hr => ⟨(hpath r hr).1, (hpath r hr).2, hskip r hr⟩
  · intro hread
    have hof := readOf_skipped h (fun r hr => (hread r hr).1) fun r hr => (hread r hr).2.2
    have htranslated : ∀ r ∈ records, universalNewlines r.path = r.path := fun r hr =>
      universalNewlines_of_notMem (hread r hr).2.1
    refine ⟨fun path => ?_, fun entry hentry => ?_⟩
    · rw [statusPaths_eq_read h, hof, List.map_map, List.mem_map]
      constructor <;> rintro ⟨r, hr, rfl⟩ <;> exact ⟨r, hr, by simp [htranslated r hr]⟩
    · rw [hof, List.mem_map] at hentry
      obtain ⟨r, -, rfl⟩ := hentry
      rfl

/-- A carriage return in a path is read as a line feed. -/
example : statusPaths (statusText [⟨'M', ' ', "a\r.py".toList, none⟩]) = ["a\n.py".toList] := by
  decide +kernel

/-- A rename in the index, and one in the work tree of a short path. -/
theorem followsGrammar_iff_renames :
    FollowsGrammar [⟨'R', ' ', "new".toList, some "older".toList⟩, ⟨' ', 'R', "bb".toList, some "aa".toList⟩] ↔
      ∀ r ∈ [(⟨'R', ' ', "new".toList, some "older".toList⟩ : StatusRecord),
        ⟨' ', 'R', "bb".toList, some "aa".toList⟩], r.Readable :=
  followsGrammar_iff [⟨'R', ' ', "new".toList, some "older".toList⟩,
    ⟨' ', 'R', "bb".toList, some "aa".toList⟩] (by unfold StatusRecord.Written; decide +kernel)

/-- The source of a rename in the work tree is read, without its first three
characters. -/
theorem source_read :
    (⟨' ', 'R', "new.py".toList, some "src/old.py".toList⟩ : StatusRecord).Written ∧
      statusPaths (statusText [⟨' ', 'R', "new.py".toList, some "src/old.py".toList⟩]) =
        ["new.py".toList, "/old.py".toList] ∧
      ¬ FollowsGrammar [⟨' ', 'R', "new.py".toList, some "src/old.py".toList⟩] := by
  have hpaths : statusPaths (statusText [⟨' ', 'R', "new.py".toList, some "src/old.py".toList⟩]) =
      ["new.py".toList, "/old.py".toList] := by
    decide +kernel
  refine ⟨by unfold StatusRecord.Written; decide +kernel, hpaths, fun hfollow => ?_⟩
  have hmem := (hfollow.1 "/old.py".toList).1 (by rw [hpaths]; simp)
  obtain ⟨r, hr, hpath⟩ := hmem
  rw [List.mem_singleton] at hr
  subst hr
  revert hpath
  decide +kernel

end LlmkubeRuntimes.Pins
