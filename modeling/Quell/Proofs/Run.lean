import Quell.Proofs.Disk
import Quell.Proofs.Print.Sheet
import Quell.Proofs.Source.Reading
import Quell.Run

/-!
A run of `suppress` writes only what it reports.

All files are read and annotated before the first one is written, so each report is on the old text of
its file. A file may lie at several places of the disk and behind links, and may so be reported by
several paths. It ends with the text of its last report (`Batch.writeFrom_ok`). That is the text of
every report on it if the linter says the same of their paths (`Batch.Reports.outcome_eq`), as on a
disk without links.
-/
namespace Quell

theorem annotateSource_congr {options : AnnotateOptions} {path path' text : Text} {ds : List Diagnostic}
    (dialect : Dialect.ofPath path' = Dialect.ofPath path) :
    annotateSource options path' text ds = annotateSource options path text ds := by
  unfold annotateSource Document.read?
  rw [dialect]

namespace Batch

variable {disk : Disk} {lint : LintResults} {options : AnnotateOptions}

def Reports (disk : Disk) (lint : LintResults) (options : AnnotateOptions) (r : FileReport) : Prop :=
  ∃ ds, disk.read r.path = .ok r.source ∧ lint.of? (disk.canonical r.path) = some ds ∧
    annotateSource options r.path r.source ds = .ok (some r.outcome)

theorem reports_addFile {b b' : Batch} {path : Text} (h : ∀ r ∈ b.reports, Reports disk lint options r)
    (added : b.addFile disk lint options path = .ok b') :
    ∀ r ∈ b'.reports, Reports disk lint options r := by
  unfold addFile at added
  cases known : lint.of? (disk.canonical path) with
  | none =>
    rw [known] at added
    cases added
    exact h
  | some ds =>
    rw [known] at added
    dsimp only at added
    cases found : disk.read path with
    | error e =>
      rw [found] at added
      cases added
      exact h
    | ok source =>
      rw [found] at added
      dsimp only at added
      cases annotated : annotateSource options path source ds with
      | error e =>
        rw [annotated] at added
        cases added
      | ok result =>
        rw [annotated] at added
        cases result with
        | none =>
          cases added
          exact h
        | some outcome =>
          dsimp only at added
          split at added
          · cases added
            exact h
          · cases added
            intro r mem
            rcases List.mem_append.mp mem with old | new
            · exact h r old
            · obtain rfl := List.mem_singleton.mp new
              exact ⟨ds, found, known, annotated⟩

theorem reports_run {files : List Text} {b : Batch} (h : Batch.run disk lint options files = .ok b) :
    ∀ r ∈ b.reports, Reports disk lint options r :=
  foldlM_keeps (I := fun b => ∀ r ∈ b.reports, Reports disk lint options r)
    (fun _ _ _ _ before added => reports_addFile before added) (fun _ mem => nomatch (mem : _ ∈ [])) h

theorem Reports.outcome_eq {r r' : FileReport} (h : Reports disk lint options r)
    (h' : Reports disk lint options r') {id : FileId} (place : disk.fileId? r.path = some id)
    (place' : disk.fileId? r'.path = some id)
    (known : lint.of? (disk.canonical r'.path) = lint.of? (disk.canonical r.path))
    (dialect : Dialect.ofPath r'.path = Dialect.ofPath r.path) : r'.outcome = r.outcome := by
  obtain ⟨ds, found, said, annotated⟩ := h
  obtain ⟨ds', found', said', annotated'⟩ := h'
  have source : r'.source = r.source := by
    have here := (Disk.read_eq_ok place).mp found
    rw [(Disk.read_eq_ok place').mp found'] at here
    exact Option.some.inj here
  rw [known, said] at said'
  obtain rfl := Option.some.inj said'
  rw [source, annotateSource_congr dialect, annotated] at annotated'
  exact (Option.some.inj (Except.ok.inj annotated')).symm

theorem Reports.exists_fileId {r : FileReport} (h : Reports disk lint options r) :
    ∃ id, disk.fileId? r.path = some id := by
  obtain ⟨ds, found, -⟩ := h
  exact Disk.exists_fileId_of_read found

theorem mem_changed {b : Batch} {r : FileReport} :
    r ∈ b.changed ↔ r ∈ b.reports ∧ ∃ text, r.outcome.text = some text := by
  unfold changed
  rw [List.mem_filter, Option.isSome_iff_exists]

def newText? (disk : Disk) (id : FileId) : List FileReport → Option Text
  | [] => none
  | r :: rest =>
    (newText? disk id rest).or (if disk.fileId? r.path = some id then r.outcome.text else none)

theorem newText?_eq_some {id : FileId} {text : Text} {reports : List FileReport}
    (h : newText? disk id reports = some text) :
    ∃ r ∈ reports, disk.fileId? r.path = some id ∧ r.outcome.text = some text := by
  induction reports with
  | nil => cases h
  | cons r rest ih =>
    rcases Option.or_eq_some_iff.mp h with later | ⟨-, here⟩
    · obtain ⟨q, mem, found⟩ := ih later
      exact ⟨q, List.mem_cons_of_mem r mem, found⟩
    · split at here
      · exact ⟨r, List.mem_cons_self, ‹_›, here⟩
      · cases here

theorem newText?_eq_none {id : FileId} {reports : List FileReport} :
    newText? disk id reports = none ↔
      ∀ r ∈ reports, disk.fileId? r.path = some id → r.outcome.text = none := by
  induction reports with
  | nil => exact iff_of_true rfl nofun
  | cons r rest ih =>
    rw [newText?, List.forall_mem_cons, ← ih]
    cases newText? disk id rest with
    | none => simp
    | some text => simp

theorem newText?_append {id : FileId} (front back : List FileReport) :
    newText? disk id (front ++ back) = (newText? disk id back).or (newText? disk id front) := by
  induction front with
  | nil => simp [newText?]
  | cons r front ih =>
    rw [List.cons_append, newText?, ih, newText?]
    cases newText? disk id back <;> rfl

theorem newText?_filter {id : FileId} (reports : List FileReport) :
    newText? disk id (reports.filter (·.outcome.text.isSome)) = newText? disk id reports := by
  induction reports with
  | nil => rfl
  | cons r rest ih =>
    cases has : r.outcome.text with
    | none => simp [newText?, has, ih]
    | some text => simp [newText?, has, ih]

/-- Files that are there are written in turn, so each one ends with the text of its last report, and
all other files stay. -/
theorem writeFrom_ok {reports : List FileReport} {disk : Disk}
    (there : ∀ r ∈ reports, ∃ id, disk.fileId? r.path = some id) (n : Nat) :
    ∃ disk' m, writeFrom n disk reports = (disk', .ok m) ∧ disk.SameShape disk' ∧
      ∀ id, disk'.textAt id = (newText? disk id reports).or (disk.textAt id) := by
  induction reports generalizing disk n with
  | nil => exact ⟨disk, n, rfl, fun _ => rfl, fun _ => rfl⟩
  | cons r rest ih =>
    have later := (List.forall_mem_cons.mp there).2
    unfold writeFrom
    cases new : r.outcome.text with
    | none =>
      obtain ⟨disk', m, ran, shape, texts⟩ := ih later n
      refine ⟨disk', m, ran, shape, fun id => (texts id).trans ?_⟩
      rw [newText?, new, ite_self]
      cases newText? disk id rest <;> rfl
    | some text =>
      obtain ⟨place, lies⟩ := there r List.mem_cons_self
      obtain ⟨mid, wrote, kept, put⟩ := Disk.exists_write lies text
      dsimp only
      rw [wrote]
      have same : ∀ id, newText? mid id rest = newText? disk id rest := by
        intro id
        clear ih there later
        induction rest with
        | nil => rfl
        | cons q rest ih => rw [newText?, newText?, kept.fileId?_eq, ih]
      obtain ⟨disk', m, ran, shape, texts⟩ := ih
        (fun q mem => (later q mem).imp fun _ at' => (kept.fileId?_eq q.path).trans at') (n + 1)
      refine ⟨disk', m, ran, kept.trans shape, fun id => (texts id).trans ?_⟩
      rw [same, put, newText?, lies, new]
      cases newText? disk id rest with
      | some _ => rfl
      | none =>
        by_cases here : id = place
        · subst here
          simp
        · simp [here, Ne.symm here]

end Batch

namespace Console

theorem files_foldl_add (folder : Text) (reports : List FileReport) (t : Totals) :
    (reports.foldl (Totals.add folder) t).files = t.files ++
      (reports.filter (·.outcome.text.isSome)).map fun r =>
        ⟨Path.shown folder r.path, r.outcome.summary.inserted, r.outcome.summary.merged⟩ := by
  induction reports generalizing t with
  | nil => simp
  | cons r reports ih =>
    rw [List.foldl_cons, ih]
    cases has : r.outcome.text.isSome with
    | true => simp [Totals.add, has]
    | false => simp [Totals.add, has]

theorem files_totals (b : Batch) (checked : Nat) (applied : Bool) (folder : Text) :
    (Totals.of b checked applied folder).files = b.changed.map fun r =>
      ⟨Path.shown folder r.path, r.outcome.summary.inserted, r.outcome.summary.merged⟩ :=
  (files_foldl_add folder b.reports _).trans (List.nil_append _)

end Console

namespace World

/-- A run that wrote. Each changed report holds what annotating the old text of its file gives. A file
is what several paths may lead to: it has the text of its last report now (`last`), which is the text of
each if the linter says the same of their paths and they are of one dialect (`own`), and so where there
are no links (`plain`). A file whose text differs from before is one of those, and every file, folder
and link lies where it was. -/
structure Wrote (before after : Disk) (lint : LintResults) (options : AnnotateOptions)
    (changed : List FileReport) : Prop where
  reported : ∀ r ∈ changed, ∃ ds text, before.read r.path = .ok r.source ∧
    lint.of? (before.canonical r.path) = some ds ∧
    annotateSource options r.path r.source ds = .ok (some r.outcome) ∧ r.outcome.text = some text
  last : ∀ front r back text, changed = front ++ r :: back → r.outcome.text = some text →
    (∀ q ∈ back, before.fileId? q.path ≠ before.fileId? r.path) → after.read r.path = .ok text
  own : ∀ r ∈ changed, (∀ q ∈ changed, before.fileId? q.path = before.fileId? r.path →
      lint.of? (before.canonical q.path) = lint.of? (before.canonical r.path) ∧
      Dialect.ofPath q.path = Dialect.ofPath r.path) →
    ∀ text, r.outcome.text = some text → after.read r.path = .ok text
  plain : before.Plain → ∀ r ∈ changed, ∀ text, r.outcome.text = some text →
    after.read r.path = .ok text
  others : ∀ id, after.textAt id ≠ before.textAt id → ∃ r ∈ changed, before.fileId? r.path = some id
  shape : before.SameShape after

theorem wrote_nothing (disk : Disk) (lint : LintResults) (options : AnnotateOptions) :
    Wrote disk disk lint options [] where
  reported := List.forall_mem_nil _
  last := by simp
  own := List.forall_mem_nil _
  plain _ := List.forall_mem_nil _
  others _ differs := absurd rfl differs
  shape _ := rfl

theorem wrote_batch {disk : Disk} {lint : LintResults} {options : AnnotateOptions} {files : List Text}
    {b : Batch} (h : Batch.run disk lint options files = .ok b) :
    ∃ disk' n, b.write disk = (disk', .ok n) ∧ Wrote disk disk' lint options b.changed := by
  have reports : ∀ r ∈ b.changed, Batch.Reports disk lint options r :=
    fun r mem => Batch.reports_run h r (Batch.mem_changed.mp mem).1
  obtain ⟨disk', n, wrote, shape, texts⟩ := Batch.writeFrom_ok
    (fun r mem => (Batch.reports_run h r mem).exists_fileId) 0
  have texts : ∀ id, disk'.textAt id = (Batch.newText? disk id b.changed).or (disk.textAt id) := by
    intro id
    rw [texts, Batch.changed, Batch.newText?_filter]
  -- what a path reads is the text of the file that it leads to
  have reads : ∀ {r : FileReport} {text id}, disk.fileId? r.path = some id →
      Batch.newText? disk id b.changed = some text → disk'.read r.path = .ok text := by
    intro r text id place new
    rw [Disk.read_eq_ok ((shape.fileId?_eq _).trans place), texts, new]
    rfl
  have own : ∀ r ∈ b.changed, (∀ q ∈ b.changed, disk.fileId? q.path = disk.fileId? r.path →
      lint.of? (disk.canonical q.path) = lint.of? (disk.canonical r.path) ∧
      Dialect.ofPath q.path = Dialect.ofPath r.path) →
      ∀ text, r.outcome.text = some text → disk'.read r.path = .ok text := by
    intro r mem agree text has
    obtain ⟨id, place⟩ := (reports r mem).exists_fileId
    refine reads place ?_
    cases new : Batch.newText? disk id b.changed with
    | none =>
      rw [Batch.newText?_eq_none.mp new r mem place] at has
      cases has
    | some text' =>
      obtain ⟨q, mem', place', has'⟩ := Batch.newText?_eq_some new
      obtain ⟨known, dialect⟩ := agree q mem' (place'.trans place.symm)
      rw [(reports r mem).outcome_eq (reports q mem') place place' known dialect, has] at has'
      exact has'.symm
  refine ⟨disk', n, wrote, ?_, ?_, own, ?_, ?_, shape⟩
  · intro r mem
    obtain ⟨ds, found, known, annotated⟩ := reports r mem
    obtain ⟨text, has⟩ := (Batch.mem_changed.mp mem).2
    exact ⟨ds, text, found, known, annotated, has⟩
  · intro front r back text split has after
    have mem : r ∈ b.changed := by simp [split]
    obtain ⟨id, place⟩ := (reports r mem).exists_fileId
    refine reads place ?_
    have rest : Batch.newText? disk id back = none := by
      refine Batch.newText?_eq_none.mpr fun q mem' place' => absurd ?_ (after q mem')
      rw [place', place]
    rw [split, Batch.newText?_append, Batch.newText?, rest, place, has]
    simp
  · intro plain r mem
    obtain ⟨id, place⟩ := (reports r mem).exists_fileId
    obtain ⟨names, rfl⟩ := plain.placed place
    refine own r mem fun q _ same => ?_
    have place' := same.trans place
    refine ⟨congrArg lint.of? (Disk.canonical_eq_of_placed place place'), ?_⟩
    unfold Dialect.ofPath Path.extension?
    rw [plain.unlinked.fileName_eq place place']
  · intro id differs
    rw [texts] at differs
    cases new : Batch.newText? disk id b.changed with
    | none =>
      rw [new] at differs
      exact absurd rfl differs
    | some text =>
      obtain ⟨r, mem, place, -⟩ := Batch.newText?_eq_some new
      exact ⟨r, mem, place⟩

theorem finish_spec (w : World) (a : SuppressArgs) {lint : LintResults} {options : AnnotateOptions}
    {files : List Text} {b : Batch} (h : Batch.run w.disk lint options files = .ok b) :
    (a.apply = false → (w.finish a files b).disk = w.disk) ∧
    (a.apply = true → Wrote w.disk (w.finish a files b).disk lint options b.changed) ∧
    (w.finish a files b).stdout = Console.unplaced w.folder b.reports ++
      Console.summary (Console.Totals.of b files.length a.apply w.folder) := by
  unfold finish
  cases a.apply with
  | false => exact ⟨fun _ => rfl, nofun, rfl⟩
  | true =>
    obtain ⟨disk', n, wrote, done⟩ := wrote_batch h
    rw [if_pos rfl, wrote]
    exact ⟨nofun, fun _ => done, rfl⟩

theorem suppressFiles_spec {w : World} {c : Config} {a : SuppressArgs} {files : List Text}
    {r : RunResult} (h : w.suppressFiles c a files = .ok r) :
    (∃ e, (w.lint c a files).2 = .error e ∧ r.disk = w.disk ∧ r.status = .error e) ∨
    ∃ lint b, (w.lint c a files).2 = .ok lint ∧
      Batch.run w.disk lint c.annotateOptions files = .ok b ∧
      r.disk = (w.finish a files b).disk ∧ r.stdout = (w.finish a files b).stdout := by
  unfold suppressFiles at h
  generalize w.lint c a files = linted at h ⊢
  obtain ⟨calls, results⟩ := linted
  cases results with
  | error e =>
    cases h
    exact .inl ⟨e, rfl, rfl, rfl⟩
  | ok lint =>
    obtain ⟨b, ran, rfl⟩ := map_eq_ok h
    exact .inr ⟨lint, b, rfl, ran, rfl, rfl⟩

/-- One file at two places, a file behind a link, and a report that finds something else at each path. -/
def orchard : World where
  disk := {
    root := .folder [("p".toList, .folder [
      ("a.js".toList, .file (.shared 0)),
      ("b.js".toList, .file (.shared 0)),
      ("c.js".toList, .file (.text "d\n".toList)),
      ("l.js".toList, .link "c.js".toList),
      ("r.json".toList, .file (.text ("[\x7b\"filePath\":\"a.js\",\"messages\":[\x7b\"ruleId\":\"r\"," ++
        "\"severity\":2,\"line\":1\x7d]\x7d,\x7b\"filePath\":\"b.js\",\"messages\":" ++
        "[\x7b\"ruleId\":\"q\",\"severity\":2,\"line\":1\x7d]\x7d,\x7b\"filePath\":\"l.js\"," ++
        "\"messages\":[\x7b\"ruleId\":\"s\",\"severity\":2,\"line\":1\x7d]\x7d]").toList))])]
    shared := fun _ => some "b\n".toList }
  folder := "/p".toList

/-- The file behind the link is named by the link only. -/
def picking : SuppressArgs where
  paths := ["a.js".toList, "b.js".toList, "l.js".toList]
  apply := true
  message := some "m".toList
  report := some "r.json".toList

namespace Orchard

/-- The files in the order in which they are handled. -/
def files : List Text := ["/p/a.js".toList, "/p/b.js".toList, "/p/l.js".toList]

def results : LintResults :=
  [("/p/a.js".toList, [complaint 1 'r']), ("/p/b.js".toList, [complaint 1 'q']),
    ("/p/c.js".toList, [complaint 1 's'])]

def options : AnnotateOptions := (override {} picking).annotateOptions

def annotated (rule : Char) (text : Text) : Text :=
  "// eslint-disable-next-line ".toList ++ rule :: " -- m\n".toList ++ text

/-- The path, the rule that is broken there, and the text that is read. -/
def found : List (Text × Char × Text) :=
  [("/p/a.js".toList, 'r', "b\n".toList), ("/p/b.js".toList, 'q', "b\n".toList),
    ("/p/l.js".toList, 's', "d\n".toList)]

def report (f : Text × Char × Text) : FileReport :=
  ⟨f.1, f.2.2, ⟨{ inserted := 1 }, some (annotated f.2.1 f.2.2)⟩⟩

def batch : Batch where
  reports := found.map report

theorem scanned : (Scan.run orchard.disk orchard.folder picking.paths [] true false).files = files := by
  have sorted : files.mergeSort Text.le = files := List.mergeSort_of_pairwise (by decide +kernel)
  have found : Scan.roots orchard.disk ⟨orchard.folder, [], []⟩
    (picking.paths.map (Path.join orchard.folder)) = (files, 0, []) := by decide +kernel
  have listed : Scan.listedRules orchard.disk orchard.folder Scan.ignoreFiles = ([], []) := by rfl
  unfold Scan.run
  rw [if_pos rfl, listed]
  simp only [Scan.patternRules]
  rw [if_neg (by decide), found]
  change dropRepeats (files.mergeSort Text.le) = files
  rw [sorted]
  decide +kernel

set_option maxRecDepth 100000 in
theorem added (b : Batch) : ∀ f ∈ found, b.addFile orchard.disk results options f.1 =
    .ok { b with reports := b.reports ++ [report f] } := by
  have done : ∀ f ∈ found, annotateSource options f.1 f.2.2 [complaint 1 f.2.1] =
      .ok (some (report f).outcome) := by
    unfold found
    simp only [List.forall_mem_cons]
    exact ⟨annotateSource_of_inOrder (by decide) (by decide +kernel),
      annotateSource_of_inOrder (by decide) (by decide +kernel),
      annotateSource_of_inOrder (by decide) (by decide +kernel), List.forall_mem_nil _⟩
  intro f mem
  have known : results.of? (orchard.disk.canonical f.1) = some [complaint 1 f.2.1] := by
    revert f
    decide +kernel
  have read : orchard.disk.read f.1 = .ok f.2.2 := by
    revert f
    decide +kernel
  unfold Batch.addFile
  rw [known, read]
  dsimp only
  rw [done f mem]
  rfl

theorem handled : Batch.run orchard.disk results options files = .ok batch := by
  have step : ∀ {rest : List (Text × Char × Text)} {b : Batch}, (∀ f ∈ rest, f ∈ found) →
      (rest.map (·.1)).foldlM (Batch.addFile orchard.disk results options) b =
        .ok { b with reports := b.reports ++ rest.map report } := by
    intro rest b all
    induction rest generalizing b with
    | nil => simp; rfl
    | cons f rest ih =>
      obtain ⟨mem, all⟩ := List.forall_mem_cons.mp all
      rw [List.map_cons, List.foldlM_cons, added b f mem]
      refine (ih all).trans ?_
      simp
  exact step fun f mem => mem

end Orchard

end World
end Quell
