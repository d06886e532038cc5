import Mathlib.Data.List.Forall2
import LlmkubeRuntimes.Glm53.ReplaceFile
import LlmkubeRuntimes.Lib.Replace

/-!
# Patchers of installed files

Patches that are applied to files of an image, each known by a mark it leaves.

* `count`: Python's `count` of a text in a text;
* `Patcher.prepare`, `prepareSites`: the edit of a file, or why there is none;
* `kpoolTail`, `xgrammarBackend`, `xgrammarManager`: the patchers;
* `Settles`: what is prepared is verified, and prepared once more stays;
* `runPatchers`: all files are prepared and compiled before one is written;
* `Plan`: a file and the text that is prepared of it;
* `runPatchers_settles`: no file is touched before all are prepared and compiled, each is
  then patched or as it was, and a second run ends in the same files.
-/

namespace LlmkubeRuntimes.Glm53

open Lib (notMem_universalNewlines replaceFirst universalNewlines)

/-! ## One file -/

/-- Places that do not overlap, `skip` characters being part of the last one. -/
def countFrom (m : List Char) : (skip : Nat) → List Char → Nat
  | _, [] => 0
  | skip + 1, _ :: text => countFrom m skip text
  | 0, c :: text =>
    if m <+: c :: text then 1 + countFrom m (m.length - 1) text else countFrom m 0 text

def count (m text : List Char) : Nat := countFrom m 0 text

/-- A text that is put into a file: its lines end in a newline alone. -/
abbrev Literal := {text : List Char // '\r' ∉ text}

theorem notMem_replaceFirst {old new text : List Char} (hnew : '\r' ∉ new) (htext : '\r' ∉ text) :
    '\r' ∉ replaceFirst old new text := by
  induction text with
  | nil => exact htext
  | cons c text ih =>
    rw [replaceFirst]
    split
    · exact fun h => (List.mem_append.1 h).elim hnew fun h => htext (List.mem_of_mem_drop h)
    · rw [List.mem_cons, not_or] at htext ⊢
      exact ⟨htext.1, ih htext.2⟩

/-- What the scripts of a kind differ in. -/
structure Patcher where
  mark : List Char
  verifiedState : List Char → Bool
  /-- What is said of a file with the mark that is not as the patch leaves it. -/
  inconsistent : List Char → String
  /-- What is said of a file without the mark that needs no patch. -/
  already : String
  drifted : List Char → Option String
  edit : List Char → List Char
  edit_plain : ∀ ⦃text⦄, '\r' ∉ text → '\r' ∉ edit text
  failed : String

def Patcher.prepare (p : Patcher) (source : List Char) : Except Failure (List Char × String) :=
  if count p.mark source ≠ 0 then
    if count p.mark source ≠ 1 ∨ ¬ p.verifiedState source then
      .error (.valueError (p.inconsistent source))
    else .ok (source, "already present")
  else if p.verifiedState source then .ok (source, p.already)
  else match p.drifted source with
    | some message => .error (.valueError message)
    | none =>
      if ¬ p.verifiedState (p.edit source) ∨ count p.mark (p.edit source) ≠ 1 then
        .error (.valueError p.failed)
      else .ok (p.edit source, "patched")

/-! ## The patchers -/

section Patchers

/-- The clamp of the slot mapping. Its verified state has the mark. -/
def kpoolTail (mark anchor : List Char) (patched : Literal) (clamp : List Char) : Patcher where
  mark := mark
  verifiedState text := count anchor text == 0 && count patched.1 text == 1 &&
    count mark text == 1 && decide (clamp <:+: text)
  inconsistent source :=
    s!"partial/inconsistent kpool tail slot-map patch (marker={count mark source})"
  already := "already patched"
  drifted source :=
    if count anchor source ≠ 1 then
      some s!"pinned block_table slot-mapping anchor drifted (anchor={count anchor source})"
    else if clamp <:+: source then
      some ("block_table already clamps block_indices but the pinned " ++
        "anchor was not found — re-derive the patch")
    else none
  edit source := replaceFirst anchor patched.1 source
  edit_plain _ htext := notMem_replaceFirst patched.2 htext
  failed := "kpool tail slot-map post-patch verification failed"

def replaceEach (edits : List (List Char × Literal)) (text : List Char) : List Char :=
  edits.foldl (fun text e => replaceFirst e.1 e.2.1 text) text

theorem notMem_replaceEach {edits : List (List Char × Literal)} {text : List Char}
    (h : '\r' ∉ text) : '\r' ∉ replaceEach edits text := by
  induction edits generalizing text with
  | nil => exact h
  | cons e edits ih => exact ih (notMem_replaceFirst e.2.2 h)

/-- `old` and `new` are the counts of the texts that the patch replaces and of those it puts in
their place. -/
def xgrammar (mark : Literal) (edits : List (List Char × Literal)) (what anchors : String)
    (repr : List Nat → String) : Patcher where
  mark := mark.1
  verifiedState text := (edits.map fun e => count e.1 text) == edits.map (fun _ => 0) &&
    (edits.map fun e => count e.2.1 text) == edits.map (fun _ => 1)
  inconsistent source :=
    let old := repr (edits.map fun e => count e.1 source)
    let new := repr (edits.map fun e => count e.2.1 source)
    s!"partial/inconsistent xgrammar {what} patch (marker={count mark.1 source}, " ++
      s!"old={old}, new={new})"
  already := "already upstream"
  drifted source :=
    let old := edits.map fun e => count e.1 source
    let new := edits.map fun e => count e.2.1 source
    if old ≠ edits.map (fun _ => 1) ∨ new ≠ edits.map (fun _ => 0) then
      let oldText := repr old
      let newText := repr new
      some s!"pinned xgrammar {what} {anchors} drifted (old={oldText}, new={newText})"
    else none
  -- the mark stands in front of what replaces the first text
  edit source := match edits with
    | [] => source
    | e :: rest => replaceEach rest (replaceFirst e.1 (mark.1 ++ e.2.1) source)
  edit_plain text htext := by
    cases edits with
    | nil => exact htext
    | cons e rest =>
      refine notMem_replaceEach (notMem_replaceFirst (fun h => ?_) htext)
      exact (List.mem_append.1 h).elim mark.2 e.2.2
  failed := s!"xgrammar {what} post-patch verification failed"

def xgrammarBackend (mark : Literal) (accept validate reset : List Char × Literal) : Patcher :=
  xgrammar mark [accept, validate, reset] "termination" "anchors" toString

/-- One text, whose count is printed as a number. -/
def xgrammarManager (mark : Literal) (manager : List Char × Literal) : Patcher :=
  xgrammar mark [manager] "reasoning" "anchor" fun counts => toString (counts.headD 0)

end Patchers

/-! ## Sites -/

structure Site where
  name : String
  mark : List Char
  anchor : List Char
  patched : Literal

/-- The marks of all sites. -/
def marks : List Site → List Char → Nat
  | [], _ => 0
  | site :: sites, text => count site.mark text + marks sites text

/-- A replacement may keep its anchor. -/
def verifiedSites (sites : List Site) (text : List Char) : Bool :=
  sites.all fun site => count site.mark text == 1 && count site.patched.1 text == 1 &&
    count site.anchor text == count site.anchor site.patched.1

def editSites : List Site → List Char → Except Failure (List Char)
  | [], out => .ok out
  | site :: sites, out =>
    if count site.anchor out ≠ 1 then
      let name := site.name
      let n := count site.anchor out
      .error (.valueError s!"pinned indexer anchor '{name}' drifted (found {n}, expected 1)")
    else editSites sites (replaceFirst site.anchor site.patched.1 out)

def prepareSites (sites : List Site) (source : List Char) :
    Except Failure (List Char × String) :=
  if marks sites source ≠ 0 then
    if marks sites source ≠ sites.length ∨ ¬ verifiedSites sites source then
      .error (.valueError ("partial/inconsistent indexer workspace patch " ++
        s!"(marks={marks sites source}, expected {sites.length}) -- refusing to touch " ++
        "a half-patched file"))
    else .ok (source, "already present")
  else match editSites sites source with
    | .error e => .error e
    | .ok out =>
      if ¬ verifiedSites sites out then
        .error (.valueError "indexer workspace post-patch verification failed")
      else .ok (out, "patched")

/-! ## Prepared files -/

/-- What is prepared is verified, its lines end as before, and prepared once more it stays as it
is. -/
def Settles (prepare : List Char → Except Failure (List Char × String))
    (verified : List Char → Bool) : Prop :=
  ∀ ⦃source text action⦄, prepare source = .ok (text, action) →
    verified text = true ∧ ('\r' ∉ source → '\r' ∉ text) ∧
      ∃ action', prepare text = .ok (text, action')

theorem Patcher.settles (p : Patcher) : Settles p.prepare p.verifiedState := by
  intro source text action h
  have hkeep : ∀ text, count p.mark text = 1 → p.verifiedState text = true →
      p.prepare text = .ok (text, "already present") := fun text hone hverified => by
    rw [prepare, hone, hverified, if_pos Nat.one_ne_zero, if_neg (by decide)]
  by_cases hmark : count p.mark source = 0
  · by_cases hverified : p.verifiedState source = true
    · have hupstream : p.prepare source = .ok (source, p.already) := by
        rw [prepare, if_neg (not_not.2 hmark), if_pos hverified]
      rw [hupstream, Except.ok.injEq, Prod.mk.injEq] at h
      obtain ⟨rfl, -⟩ := h
      exact ⟨hverified, id, _, hupstream⟩
    · rw [prepare, if_neg (not_not.2 hmark), if_neg hverified] at h
      cases hdrifted : p.drifted source with
      | some message =>
        rw [hdrifted] at h
        cases h
      | none =>
        rw [hdrifted] at h
        by_cases hfailed : ¬ p.verifiedState (p.edit source) = true ∨
            count p.mark (p.edit source) ≠ 1
        · rw [if_pos hfailed] at h
          cases h
        · rw [if_neg hfailed, Except.ok.injEq, Prod.mk.injEq] at h
          obtain ⟨rfl, -⟩ := h
          obtain ⟨hedit, hone⟩ := not_or.1 hfailed
          exact ⟨not_not.1 hedit, fun hsource => p.edit_plain hsource, _,
            hkeep _ (not_not.1 hone) (not_not.1 hedit)⟩
  · by_cases hbad : count p.mark source ≠ 1 ∨ ¬ p.verifiedState source = true
    · rw [prepare, if_pos hmark, if_pos hbad] at h
      cases h
    · obtain ⟨hone, hverified⟩ := not_or.1 hbad
      rw [hkeep source (not_not.1 hone) (not_not.1 hverified), Except.ok.injEq,
        Prod.mk.injEq] at h
      obtain ⟨rfl, -⟩ := h
      exact ⟨not_not.1 hverified, id, _, hkeep _ (not_not.1 hone) (not_not.1 hverified)⟩

theorem marks_of_verified {sites : List Site} {text : List Char}
    (h : verifiedSites sites text = true) : marks sites text = sites.length := by
  induction sites with
  | nil => rfl
  | cons site sites ih =>
    rw [verifiedSites, List.all_cons, Bool.and_eq_true, Bool.and_eq_true, Bool.and_eq_true,
      beq_iff_eq] at h
    have hrest : marks sites text = sites.length := ih h.2
    rw [marks, h.1.1.1, hrest, List.length_cons, Nat.add_comm]

theorem notMem_editSites {sites : List Site} {source out : List Char}
    (h : editSites sites source = .ok out) (hsource : '\r' ∉ source) : '\r' ∉ out := by
  induction sites generalizing source with
  | nil =>
    rw [editSites, Except.ok.injEq] at h
    exact h ▸ hsource
  | cons site sites ih =>
    by_cases hone : count site.anchor source = 1
    · simp only [editSites, hone, ne_eq, not_true_eq_false, if_false] at h
      exact ih h (notMem_replaceFirst site.patched.2 hsource)
    · simp only [editSites, hone, ne_eq, not_false_eq_true, if_true] at h
      cases h

theorem prepareSites_settles (sites : List Site) :
    Settles (prepareSites sites) (verifiedSites sites) := by
  intro source text action h
  have hkeep : ∀ text, verifiedSites sites text = true →
      ∃ action', prepareSites sites text = .ok (text, action') := fun text hverified => by
    have hmarks := marks_of_verified hverified
    cases sites with
    | nil => exact ⟨"patched", rfl⟩
    | cons site sites =>
      refine ⟨"already present", ?_⟩
      have hsome : marks (site :: sites) text ≠ 0 := by
        rw [hmarks]
        exact Nat.succ_ne_zero _
      rw [prepareSites, if_pos hsome, if_neg (not_or.2 ⟨not_not.2 hmarks, not_not.2 hverified⟩)]
  suffices hout : verifiedSites sites text = true ∧ ('\r' ∉ source → '\r' ∉ text) from
    ⟨hout.1, hout.2, hkeep text hout.1⟩
  by_cases hmarks : marks sites source = 0
  · rw [prepareSites, if_neg (not_not.2 hmarks)] at h
    cases hedit : editSites sites source with
    | error e =>
      rw [hedit] at h
      cases h
    | ok out =>
      rw [hedit] at h
      by_cases hfailed : ¬ verifiedSites sites out = true
      · simp only [hfailed] at h
        cases h
      · simp only [hfailed, if_false, Except.ok.injEq, Prod.mk.injEq] at h
        obtain ⟨rfl, -⟩ := h
        exact ⟨not_not.1 hfailed, notMem_editSites hedit⟩
  · by_cases hbad : marks sites source ≠ sites.length ∨ ¬ verifiedSites sites source = true
    · rw [prepareSites, if_pos hmarks, if_pos hbad] at h
      cases h
    · rw [prepareSites, if_pos hmarks, if_neg hbad, Except.ok.injEq, Prod.mk.injEq] at h
      obtain ⟨rfl, -⟩ := h
      exact ⟨not_not.1 (not_or.1 hbad).2, id⟩

/-- A site whose replacement keeps its anchor. -/
example : prepareSites [⟨"size", "M".toList, "x".toList, "Mx".toList, by decide⟩] "axb".toList =
    .ok ("aMxb".toList, "patched") := by decide

/-! ## A run -/

/-- A file that is patched, and what is printed of it. -/
structure Target where
  prepare : List Char → Except Failure (List Char × String)
  verifiedState : List Char → Bool
  settles : Settles prepare verifiedState
  clearsPyc : Bool
  path : String
  report : String → String

def Patcher.target (p : Patcher) (clearsPyc : Bool) (path : String) (report : String → String) :
    Target :=
  ⟨p.prepare, p.verifiedState, p.settles, clearsPyc, path, report⟩

def sitesTarget (sites : List Site) (path : String) (report : String → String) : Target :=
  ⟨prepareSites sites, verifiedSites sites, prepareSites_settles sites, true, path, report⟩

/-- What the files hold. -/
def present : List (Target × Option (List Char)) → Except Failure (List (Target × List Char))
  | [] => .ok []
  | (t, none) :: _ => .error (.systemExit ("missing " ++ t.path))
  | (t, some file) :: files => match present files with
    | .error e => .error e
    | .ok sources => .ok ((t, file) :: sources)

def prepareAll : List (Target × List Char) → Except Failure (List (List Char × String))
  | [] => .ok []
  | (t, file) :: files => match t.prepare (universalNewlines file) with
    | .error e => .error e
    | .ok o => match prepareAll files with
      | .error e => .error e
      | .ok out => .ok (o :: out)

def compileAll (compile : List Char → Except Failure Unit) : List (List Char) → Except Failure Unit
  | [] => .ok ()
  | text :: texts => match compile text with
    | .error e => .error e
    | .ok () => compileAll compile texts

/-- The files are replaced one after the other, until a call raises. -/
def writeAll (calls : String → FileCalls) :
    List (Target × List Char) → List (List Char) → Except Failure Unit × List (List Char)
  | (t, file) :: files, text :: texts => match putFile (calls t.path) t.clearsPyc text file with
    | (.error e, after) => (.error e, after :: files.map Prod.snd)
    | (.ok (), after) => match writeAll calls files texts with
      | (result, afters) => (result, after :: afters)
  | files, _ => (.ok (), files.map Prod.snd)

/-- The lines that are printed, or what is raised, and the files behind the run. -/
def runPatchers (calls : String → FileCalls) (compile : List Char → Except Failure Unit)
    (title : String) (files : List (Target × Option (List Char))) :
    Except Failure (List String) × List (Option (List Char)) :=
  match present files with
  | .error e => (.error e, files.map Prod.snd)
  | .ok sources => match prepareAll sources with
    | .error (.valueError message) =>
      (.error (.systemExit (title ++ s!" preflight failed: {message}")), files.map Prod.snd)
    | .error e => (.error e, files.map Prod.snd)
    | .ok out => match compileAll compile (out.map Prod.fst) with
      | .error e => (.error e, files.map Prod.snd)
      | .ok () => match writeAll calls sources (out.map Prod.fst) with
        | (.error e, afters) => (.error e, afters.map some)
        | (.ok (), afters) =>
          (.ok (List.zipWith (fun s o => s.1.report o.2) sources out), afters.map some)

section Scripts

variable (calls : String → FileCalls) (compile : List Char → Except Failure Unit)

/-- `main` of the slot-mapping patch. -/
def kpoolMain (p : Patcher) (path name : String) (file : Option (List Char)) :
    Except Failure (List String) × List (Option (List Char)) :=
  runPatchers calls compile "kpool tail slot-map"
    [(p.target true path fun action => s!"{name}: kpool tail slot-map {action}", file)]

/-- `main` of the grammar patch: two files, whose byte code stays. -/
def xgrammarMain (backend manager : Patcher) (backendPath backendName managerPath : String)
    (managerName : String) (backendFile managerFile : Option (List Char)) :
    Except Failure (List String) × List (Option (List Char)) :=
  runPatchers calls compile "xgrammar patch"
    [(backend.target false backendPath fun action =>
        s!"{backendName}: termination fix {action} (#52805)", backendFile),
      (manager.target false managerPath fun action =>
        s!"{managerName}: reasoning fix {action} (#53046)", managerFile)]

/-- `main` of the workspace patch without `--preflight`; `mode` is the setting as printed. -/
def workspaceMain (sites : List Site) (path name mode : String) (file : Option (List Char)) :
    Except Failure (List String) × List (Option (List Char)) :=
  runPatchers calls compile "indexer workspace"
    [(sitesTarget sites path fun action =>
      s!"{name}: indexer workspace {action} (GLM53_INDEXER_WORKSPACE={mode})", file)]

end Scripts

/-! ## What a run plans -/

/-- A file, and the text that is prepared of it. -/
structure Plan where
  target : Target
  file : List Char
  text : List Char
  prepared : ∃ action, target.prepare (universalNewlines file) = .ok (text, action)

namespace Plan

variable (p : Plan)

def source : Target × List Char := (p.target, p.file)

def input : Target × Option (List Char) := (p.target, some p.file)

def after : List Char := written p.text p.file

/-- Nothing is left to be written. -/
def Done : Prop := p.text = universalNewlines p.file

theorem verified : p.target.verifiedState p.text = true := by
  obtain ⟨action, h⟩ := p.prepared
  exact (p.target.settles h).1

theorem read_after : universalNewlines p.after = p.text := by
  obtain ⟨action, h⟩ := p.prepared
  exact read_written ((p.target.settles h).2.1 (notMem_universalNewlines p.file))

/-- The plan when the file has been written. -/
def finished : Plan where
  target := p.target
  file := p.after
  text := p.text
  prepared := by
    obtain ⟨action, h⟩ := p.prepared
    rw [p.read_after]
    exact (p.target.settles h).2.2

theorem done_finished : p.finished.Done := p.read_after.symm

theorem after_of_done {p : Plan} (h : p.Done) : p.after = p.file := if_neg (not_not.2 h)

theorem after_finished : p.finished.after = p.after := after_of_done p.done_finished

/-- The plans when the first `n` files have been written. -/
def advance (n : Nat) (plans : List Plan) : List Plan :=
  (plans.take n).map finished ++ plans.drop n

variable {plans : List Plan}

/-- What has been written does not change what a plan is otherwise. -/
theorem map_advance {β : Type*} (n : Nat) {f : Plan → β} (h : ∀ p : Plan, f p.finished = f p) :
    (advance n plans).map f = plans.map f := by
  have hf : f ∘ finished = f := funext h
  rw [advance, List.map_append, List.map_map, hf, ← List.map_append, List.take_append_drop]

theorem map_file_advance (n : Nat) : (advance n plans).map file =
    (plans.map after).take n ++ (plans.map file).drop n := by
  rw [advance, List.map_append, List.map_map, List.map_take, List.map_drop]
  rfl

/-- All files have been written. -/
theorem map_file_advance_length : (advance plans.length plans).map file = plans.map after := by
  rw [map_file_advance, List.take_of_length_le (List.length_map _).le,
    List.drop_of_length_le (List.length_map _).le, List.append_nil]

end Plan

section Plans

variable {calls : String → FileCalls} {compile : List Char → Except Failure Unit}
  {plans : List Plan}

theorem exists_plans {sources : List (Target × List Char)} {out : List (List Char × String)}
    (h : prepareAll sources = .ok out) :
    ∃ plans : List Plan, sources = plans.map Plan.source ∧
      out.map Prod.fst = plans.map Plan.text := by
  induction sources generalizing out with
  | nil =>
    rw [prepareAll, Except.ok.injEq] at h
    subst h
    exact ⟨[], rfl, rfl⟩
  | cons s sources ih =>
    obtain ⟨t, file⟩ := s
    rw [prepareAll] at h
    cases hprepare : t.prepare (universalNewlines file) with
    | error e =>
      rw [hprepare] at h
      cases h
    | ok o =>
      cases hrest : prepareAll sources with
      | error e =>
        simp only [hprepare, hrest] at h
        cases h
      | ok rest =>
        simp only [hprepare, hrest, Except.ok.injEq] at h
        subst h
        obtain ⟨plans, hsources, htexts⟩ := ih hrest
        refine ⟨⟨t, file, o.1, o.2, hprepare⟩ :: plans, ?_, ?_⟩
        · rw [List.map_cons, hsources]
          rfl
        · rw [List.map_cons, List.map_cons, htexts]

theorem prepareAll_plans (plans : List Plan) : ∃ out,
    prepareAll (plans.map Plan.source) = .ok out ∧ out.map Prod.fst = plans.map Plan.text := by
  induction plans with
  | nil => exact ⟨[], rfl, rfl⟩
  | cons p plans ih =>
    obtain ⟨out, hout, htexts⟩ := ih
    obtain ⟨action, hprepare⟩ := p.prepared
    refine ⟨(p.text, action) :: out, ?_, ?_⟩
    · simp only [List.map_cons, Plan.source, prepareAll, hprepare]
      rw [show prepareAll (plans.map Plan.source) = .ok out from hout]
    · rw [List.map_cons, List.map_cons, htexts]

theorem present_eq_ok {files : List (Target × Option (List Char))}
    {sources : List (Target × List Char)} (h : present files = .ok sources) :
    files = sources.map fun s => (s.1, some s.2) := by
  induction files generalizing sources with
  | nil =>
    rw [present, Except.ok.injEq] at h
    exact h ▸ rfl
  | cons f files ih =>
    obtain ⟨t, _ | file⟩ := f
    · cases h
    · rw [present] at h
      cases hpresent : present files with
      | error e =>
        rw [hpresent] at h
        cases h
      | ok rest =>
        rw [hpresent, Except.ok.injEq] at h
        rw [← h, List.map_cons, ← ih hpresent]

theorem present_plans (plans : List Plan) :
    present (plans.map Plan.input) = .ok (plans.map Plan.source) := by
  induction plans with
  | nil => rfl
  | cons p plans ih =>
    simp only [List.map_cons, Plan.input, present]
    rw [show present (plans.map Plan.input) = _ from ih]
    rfl

theorem compileAll_eq_ok {texts : List (List Char)} :
    compileAll compile texts = .ok () ↔ ∀ text ∈ texts, compile text = .ok () := by
  induction texts with
  | nil => exact iff_of_true rfl fun text hmem => absurd hmem List.not_mem_nil
  | cons text texts ih =>
    rw [compileAll, List.forall_mem_cons, ← ih]
    cases compile text with
    | error e => exact iff_of_false (fun h => by cases h) fun h => by cases h.1
    | ok u => exact (and_iff_right rfl).symm

/-- A run that comes as far as writing. -/
theorem runPatchers_plans (calls : String → FileCalls) (title : String)
    (hcompile : compileAll compile (plans.map Plan.text) = .ok ()) : ∃ lines,
      runPatchers calls compile title (plans.map Plan.input) =
        ((writeAll calls (plans.map Plan.source) (plans.map Plan.text)).1.map fun _ => lines,
          (writeAll calls (plans.map Plan.source) (plans.map Plan.text)).2.map some) := by
  obtain ⟨out, hprepare, htexts⟩ := prepareAll_plans plans
  simp only [runPatchers, present_plans, hprepare, htexts, hcompile]
  obtain ⟨result, afters⟩ := writeAll calls (plans.map Plan.source) (plans.map Plan.text)
  cases result
  · exact ⟨[], rfl⟩
  · exact ⟨_, rfl⟩

/-- The files in front of the call that raises are written. -/
theorem writeAll_plans (calls : String → FileCalls) (plans : List Plan) : ∃ n,
    (writeAll calls (plans.map Plan.source) (plans.map Plan.text)).2 =
        (Plan.advance n plans).map Plan.file ∧
      ((writeAll calls (plans.map Plan.source) (plans.map Plan.text)).1 = .ok () →
        n = plans.length) := by
  induction plans with
  | nil => exact ⟨0, rfl, fun _ => rfl⟩
  | cons p plans ih =>
    obtain ⟨n, hfiles, hall⟩ := ih
    have hput : (putFile (calls p.target.path) p.target.clearsPyc p.text p.file).2 =
        if Moved (calls p.target.path) then p.after else p.file := putFile_snd
    have hdone : (putFile (calls p.target.path) p.target.clearsPyc p.text p.file).1 = .ok () →
        (putFile (calls p.target.path) p.target.clearsPyc p.text p.file).2 = p.after :=
      putFile_of_ok
    rw [List.map_cons, List.map_cons, Plan.source, writeAll]
    rcases hrun : putFile (calls p.target.path) p.target.clearsPyc p.text p.file with ⟨result, file⟩
    rw [hrun] at hput hdone
    cases result with
    | error e =>
      have hrest : (plans.map Plan.source).map Prod.snd = plans.map Plan.file := List.map_map
      by_cases hmoved : Moved (calls p.target.path)
      · refine ⟨1, ?_, fun h => by cases h⟩
        have hfile : file = p.after := hput.trans (if_pos hmoved)
        rw [hfile, hrest]
        rfl
      · refine ⟨0, ?_, fun h => by cases h⟩
        have hfile : file = p.file := hput.trans (if_neg hmoved)
        rw [hfile, hrest]
        rfl
    | ok u =>
      refine ⟨n + 1, ?_, fun h => congrArg Nat.succ (hall h)⟩
      have hfile : file = p.after := hdone rfl
      simp only [hfiles, hfile]
      rfl

theorem writeAll_of_ok (calls : String → FileCalls)
    (h : (writeAll calls (plans.map Plan.source) (plans.map Plan.text)).1 = .ok ()) :
    (writeAll calls (plans.map Plan.source) (plans.map Plan.text)).2 = plans.map Plan.after := by
  obtain ⟨n, hfiles, hall⟩ := writeAll_plans calls plans
  rw [hfiles, hall h, Plan.map_file_advance_length]

theorem writeAll_quiet (plans : List Plan) :
    (writeAll (fun _ => .quiet) (plans.map Plan.source) (plans.map Plan.text)).1 = .ok () := by
  induction plans with
  | nil => rfl
  | cons p plans ih =>
    simp only [List.map_cons, Plan.source, writeAll, putFile_quiet]
    exact ih

/-- Where nothing is left to be written no call is made. -/
theorem writeAll_done (calls : String → FileCalls) (h : ∀ p ∈ plans, p.Done) :
    (writeAll calls (plans.map Plan.source) (plans.map Plan.text)).1 = .ok () := by
  induction plans with
  | nil => rfl
  | cons p plans ih =>
    rw [List.forall_mem_cons] at h
    simp only [List.map_cons, Plan.source, writeAll, putFile_of_eq h.1]
    exact ih h.2

/-- A run whose writes succeed. -/
theorem runPatchers_of_ok (calls : String → FileCalls) (title : String)
    (hcompile : compileAll compile (plans.map Plan.text) = .ok ())
    (h : (writeAll calls (plans.map Plan.source) (plans.map Plan.text)).1 = .ok ()) :
    ∃ lines, runPatchers calls compile title (plans.map Plan.input) =
      (.ok lines, (plans.map Plan.after).map some) := by
  obtain ⟨lines, hrun⟩ := runPatchers_plans calls title hcompile
  rw [h, writeAll_of_ok calls h] at hrun
  exact ⟨lines, hrun⟩

end Plans

/-- The files behind a run, to be patched once more. -/
def again (files : List (Target × Option (List Char))) (after : List (Option (List Char))) :
    List (Target × Option (List Char)) :=
  (files.map Prod.fst).zip after

theorem again_plans (n : Nat) (plans : List Plan) :
    again (plans.map Plan.input) (((Plan.advance n plans).map Plan.file).map some) =
      (Plan.advance n plans).map Plan.input := by
  have htargets : (plans.map Plan.input).map Prod.fst =
      (Plan.advance n plans).map Plan.target := by
    rw [List.map_map]
    exact (Plan.map_advance n (f := Plan.target) fun p => rfl).symm
  rw [again, htargets, List.map_map, List.zip_map']
  rfl

/-- **No file is touched before all are prepared and compile**, and then the files in front of a
call that raises are patched and the others as they were. Behind a run that succeeds every file
is in the verified state of its patcher and compiles, and a second run keeps them all; behind one
that raises, a second run that no call disturbs ends in the same files. -/
theorem runPatchers_settles (compile : List Char → Except Failure Unit) (title : String)
    (files : List (Target × Option (List Char))) :
    ((∃ e, (runPatchers (fun _ => .quiet) compile title files).1 = .error e) →
      ∀ calls, (runPatchers calls compile title files).2 = files.map Prod.snd) ∧
    ∀ lines after, runPatchers (fun _ => .quiet) compile title files = (.ok lines, after) →
      List.Forall₂ (fun f file => ∃ raw, file = some raw ∧
        f.1.verifiedState (universalNewlines raw) = true ∧
        compile (universalNewlines raw) = .ok ()) files after ∧
      (∀ calls, ∃ n, (runPatchers calls compile title files).2 =
          after.take n ++ (files.map Prod.snd).drop n ∧
        ((∃ lines', (runPatchers calls compile title files).1 = .ok lines') →
          n = files.length)) ∧
      (∀ calls, ∃ lines', runPatchers calls compile title (again files after) =
        (.ok lines', after)) ∧
      ∀ calls, ∃ lines', runPatchers (fun _ => .quiet) compile title
        (again files (runPatchers calls compile title files).2) = (.ok lines', after) := by
  cases hpresent : present files with
  | error e =>
    have hkept calls : runPatchers calls compile title files = (.error e, files.map Prod.snd) := by
      rw [runPatchers, hpresent]
    simp only [hkept]
    exact ⟨fun _ _ => trivial, fun lines after h => by cases h⟩
  | ok sources =>
    cases hprepare : prepareAll sources with
    | error e =>
      obtain ⟨e', hkept⟩ : ∃ e', ∀ calls, runPatchers calls compile title files =
          (.error e', files.map Prod.snd) := by
        cases e <;> simp only [runPatchers, hpresent, hprepare] <;> exact ⟨_, fun _ => rfl⟩
      simp only [hkept]
      exact ⟨fun _ _ => trivial, fun lines after h => by cases h⟩
    | ok out =>
      obtain ⟨plans, rfl, htexts⟩ := exists_plans hprepare
      obtain rfl : files = plans.map Plan.input := by
        rw [present_eq_ok hpresent, List.map_map]
        rfl
      cases hcompile : compileAll compile (out.map Prod.fst) with
      | error e =>
        have hkept calls : runPatchers calls compile title (plans.map Plan.input) =
            (.error e, (plans.map Plan.input).map Prod.snd) := by
          simp only [runPatchers, hpresent, hprepare, hcompile]
        simp only [hkept]
        exact ⟨fun _ _ => trivial, fun lines after h => by cases h⟩
      | ok u =>
        rw [htexts] at hcompile
        obtain ⟨lines₀, hquiet⟩ := runPatchers_of_ok _ title hcompile (writeAll_quiet plans)
        rw [hquiet]
        refine ⟨fun h => ?_, fun lines after h => ?_⟩
        · obtain ⟨e, he⟩ := h
          cases he
        rw [Prod.mk.injEq] at h
        obtain ⟨-, rfl⟩ := h
        -- a second run, of which each file is as it was or is patched
        have hsecond (calls : String → FileCalls) (n : Nat)
            (h : (writeAll calls ((Plan.advance n plans).map Plan.source)
              ((Plan.advance n plans).map Plan.text)).1 = .ok ()) :
            ∃ lines', runPatchers calls compile title (again (plans.map Plan.input)
                (((Plan.advance n plans).map Plan.file).map some)) =
              (.ok lines', (plans.map Plan.after).map some) := by
          rw [again_plans, ← Plan.map_advance n (f := Plan.after) Plan.after_finished]
          refine runPatchers_of_ok calls title ?_ h
          rw [Plan.map_advance n (f := Plan.text) fun p => rfl, hcompile]
        refine ⟨?_, fun calls => ?_, fun calls => ?_, fun calls => ?_⟩
        · rw [List.map_map, List.forall₂_map_left_iff, List.forall₂_map_right_iff,
            List.forall₂_same]
          intro p hp
          refine ⟨p.after, rfl, ?_, ?_⟩
          · rw [p.read_after]
            exact p.verified
          · rw [p.read_after]
            exact compileAll_eq_ok.1 hcompile p.text (List.mem_map_of_mem hp)
        · obtain ⟨n, hfiles, hall⟩ := writeAll_plans calls plans
          obtain ⟨lines', hrun⟩ := runPatchers_plans calls title hcompile
          rw [hrun, hfiles, Plan.map_file_advance]
          refine ⟨n, ?_, ?_⟩
          · rw [List.map_append, List.map_take, List.map_drop, List.map_map, List.map_map,
              List.map_map]
            rfl
          · rintro ⟨lines'', hlines⟩
            rw [List.length_map]
            refine hall ?_
            cases hresult : (writeAll calls (plans.map Plan.source) (plans.map Plan.text)).1 with
            | error e =>
              rw [hresult] at hlines
              cases hlines
            | ok u => rfl
        · have hkeeps := hsecond calls plans.length (writeAll_done calls fun p hp => ?_)
          · rwa [Plan.map_file_advance_length] at hkeeps
          · rw [Plan.advance, List.take_length, List.drop_length, List.append_nil] at hp
            obtain ⟨p', -, rfl⟩ := List.mem_map.1 hp
            exact p'.done_finished
        · obtain ⟨n, hfiles, -⟩ := writeAll_plans calls plans
          obtain ⟨lines', hrun⟩ := runPatchers_plans calls title hcompile
          rw [hrun, hfiles]
          exact hsecond _ n (writeAll_quiet _)

end LlmkubeRuntimes.Glm53
