import Mathlib.Data.List.Forall2
import Quell.Lint
import Quell.Proofs.Json.Spelling
import Quell.Run

/-!
What the linter says of a file when it is called more than once.

A report is taken as what it says of each file, in order. `said` gathers that for one file, and so
does reading a report. Between calls it is otherwise: what a later call says of a file stands in for
what was known (`LintResults.of?_override`), so of all calls that name a file the last one is heard.
-/
namespace Quell

namespace LintResults

def Distinct (r : LintResults) : Prop := (r.map (·.1)).Nodup

variable (key k : Text) (ds : List Diagnostic) (r new : LintResults)

theorem of?_cons (name : Text) : of? ((name, ds) :: r) k = if k = name then some ds else r.of? k := by
  unfold of?
  by_cases same : k = name
  · simp [same]
  · have apart : (k == name) = false := beq_eq_false_iff_ne.mpr same
    rw [if_neg same, List.lookup_cons, apart]

theorem of?_add : (r.add key ds).of? k =
    if k = key then some ((r.of? key).getD [] ++ ds) else r.of? k := by
  induction r with
  | nil => rw [add, of?_cons]; rfl
  | cons x rest ih =>
    obtain ⟨name, old⟩ := x
    rw [add]
    by_cases here : name = key
    · subst here
      rw [if_pos rfl, of?_cons, of?_cons, of?_cons, if_pos rfl]
      split
      · rfl
      · rfl
    · rw [if_neg here, of?_cons, ih, of?_cons, of?_cons, if_neg (Ne.symm here)]
      by_cases same : k = name
      · rw [if_pos same, if_pos same, if_neg fun e => here (same.symm.trans e)]
      · rw [if_neg same, if_neg same]

theorem of?_set : (r.set key ds).of? k = if k = key then some ds else r.of? k := by
  induction r with
  | nil => rw [set, of?_cons]
  | cons x rest ih =>
    obtain ⟨name, old⟩ := x
    rw [set]
    by_cases here : name = key
    · subst here
      rw [if_pos rfl, of?_cons, of?_cons]
      split
      · rfl
      · rfl
    · rw [if_neg here, of?_cons, ih, of?_cons]
      by_cases same : k = name
      · rw [if_pos same, if_pos same, if_neg fun e => here (same.symm.trans e)]
      · rw [if_neg same, if_neg same]

theorem mem_keys_add {name : Text} :
    name ∈ (r.add key ds).map (·.1) ↔ name = key ∨ name ∈ r.map (·.1) := by
  induction r with
  | nil => simp [add]
  | cons x rest ih =>
    rw [add]
    split
    · rename_i here
      simp [← here]
    · rw [List.map_cons, List.map_cons, List.mem_cons, List.mem_cons, ih]
      tauto

variable {r new}

theorem Distinct.add (distinct : r.Distinct) : (r.add key ds).Distinct := by
  unfold Distinct at distinct ⊢
  induction r with
  | nil => simp [LintResults.add]
  | cons x rest ih =>
    obtain ⟨fresh, distinct⟩ := List.nodup_cons.mp distinct
    rw [LintResults.add]
    split
    · exact List.nodup_cons.mpr ⟨fresh, distinct⟩
    · rename_i other
      refine List.nodup_cons.mpr ⟨fun mem => ?_, ih distinct⟩
      rcases (mem_keys_add key ds rest).mp mem with e | mem
      · exact other e
      · exact fresh mem

theorem of?_override (distinct : new.Distinct) :
    (r.override new).of? k = (new.of? k).or (r.of? k) := by
  unfold override
  induction new generalizing r with
  | nil => rfl
  | cons x rest ih =>
    obtain ⟨name, ds⟩ := x
    obtain ⟨fresh, distinct⟩ := List.nodup_cons.mp distinct
    rw [List.foldl_cons, ih distinct, of?_set, of?_cons]
    by_cases here : k = name
    · subst here
      have absent : of? rest k = none := by
        refine List.lookup_eq_none_iff.mpr fun y hy => bne_iff_ne.mpr fun e => fresh ?_
        exact List.mem_map.mpr ⟨y, hy, e.symm⟩
      rw [if_pos rfl, if_pos rfl, absent]
      rfl
    · rw [if_neg here, if_neg here]

end LintResults

def report? (text : Text) : Option (List FileResult) :=
  (Json.read? text).bind (Json.list? FileResult.ofJson?)

/-- The key under which the results of a file are kept. -/
def FileResult.key (disk : Disk) (folder : Text) (f : FileResult) : Text :=
  disk.canonical (Path.join folder f.path)

/-- Lists one behind the other, if there are any. -/
def together (xs : List (List Diagnostic)) : Option (List Diagnostic) :=
  if xs = [] then none else some xs.flatten

theorem together_append_left (xs ys : List (List Diagnostic)) :
    together ((together xs).toList ++ ys) = together (xs ++ ys) := by
  unfold together
  by_cases none : xs = []
  · simp [none]
  · simp [none]

theorem together_append_right (xs ys : List (List Diagnostic)) :
    together (xs ++ (together ys).toList) = together (xs ++ ys) := by
  unfold together
  by_cases none : ys = []
  · simp [none]
  · simp [none]

def entries (disk : Disk) (folder key : Text) (files : List FileResult) : List (List Diagnostic) :=
  files.filterMap fun f => if f.key disk folder = key then some f.messages else none

def said (disk : Disk) (folder key : Text) (files : List FileResult) : Option (List Diagnostic) :=
  together (entries disk folder key files)

section Report

variable {disk : Disk} {folder : Text}

theorem of?_foldl_add (key : Text) (files : List FileResult) (r : LintResults) :
    (files.foldl (fun r f => r.add (f.key disk folder) f.messages) r).of? key =
      together ((r.of? key).toList ++ entries disk folder key files) := by
  induction files generalizing r with
  | nil =>
    rw [List.foldl_nil, entries, List.filterMap_nil, List.append_nil]
    cases r.of? key with
    | none => rfl
    | some ds => simp [together]
  | cons f files ih =>
    rw [List.foldl_cons, ih, LintResults.of?_add, entries, entries, List.filterMap_cons]
    by_cases here : f.key disk folder = key
    · rw [if_pos here.symm, if_pos here, here]
      cases r.of? key with
      | none => rfl
      | some ds => simp [together]
    · rw [if_neg (Ne.symm here), if_neg here]

theorem distinct_foldl_add (files : List FileResult) {r : LintResults} (distinct : r.Distinct) :
    (files.foldl (fun r f => r.add (f.key disk folder) f.messages) r).Distinct := by
  induction files generalizing r with
  | nil => exact distinct
  | cons f files ih => exact ih (distinct.add (f.key disk folder) f.messages)

theorem parseReport_eq {text : Text} {files : List FileResult} (h : report? text = some files) :
    ∃ r : LintResults, parseReport disk folder text = .ok r ∧ r.Distinct ∧
      ∀ key, r.of? key = said disk folder key files := by
  have empty : LintResults.Distinct [] := List.nodup_nil
  refine ⟨_, ?_, distinct_foldl_add files empty, fun key => of?_foldl_add key files []⟩
  unfold parseReport
  unfold report? at h
  rw [h]
  rfl

end Report

/-- The calls for a list of files. -/
def lintCalls (folder : Text) (baseConfig : Option Text) (files : List Text) : List Call :=
  (chunks filesPerCall files.length files).map (lintCall folder baseConfig)

/-- The linter ends each call in good order, and writes a report. -/
def Answers (run : Call → Output) : List Call → List (List FileResult) → Prop :=
  List.Forall₂ fun call files =>
    (run call).ending.isRegular = true ∧ report? (run call).stdout = some files

/-- What each report that names a file says of it, in the order of the calls. -/
def sayings (disk : Disk) (folder key : Text) (reports : List (List FileResult)) :
    List (List Diagnostic) :=
  reports.filterMap (said disk folder key)

section Calls

variable {disk : Disk} {folder : Text} {run : Call → Output}

theorem said_flatten (key : Text) (reports : List (List FileResult)) :
    said disk folder key reports.flatten = together (sayings disk folder key reports) := by
  unfold sayings
  induction reports with
  | nil => rfl
  | cons files reports ih =>
    have apart : together (entries disk folder key files ++
        entries disk folder key reports.flatten) =
        together ((said disk folder key files).toList ++
          reports.filterMap (said disk folder key)) := by
      unfold said at ih ⊢
      rw [together_append_left, ← together_append_right, ih, together_append_right]
    rw [List.flatten_cons, said, entries, List.filterMap_append]
    exact apart.trans (by cases here : said disk folder key files <;> simp [here])

theorem runCalls_ok {calls : List Call} {reports : List (List FileResult)}
    (answers : Answers run calls reports) (r : LintResults) :
    ∃ r', runCalls disk folder (some run) r calls = (calls, .ok r') ∧
      ∀ key, r'.of? key = (sayings disk folder key reports).getLast?.or (r.of? key) := by
  induction answers generalizing r with
  | nil => exact ⟨r, rfl, fun _ => rfl⟩
  | @cons call files calls reports answer _ ih =>
    obtain ⟨regular, text⟩ := answer
    obtain ⟨new, parsed, distinct, found⟩ := @parseReport_eq disk folder _ _ text
    obtain ⟨r', rest, known⟩ := ih (r.override new)
    refine ⟨r', ?_, fun key => ?_⟩
    · unfold runCalls resultOf
      dsimp only
      rw [if_pos regular, parsed]
      dsimp only
      rw [rest]
    · rw [known, LintResults.of?_override key distinct, found]
      unfold sayings
      cases here : said disk folder key files with
      | none => rw [List.filterMap_cons_none here, Option.none_or]
      | some ds =>
        rw [List.filterMap_cons_some here, List.getLast?_cons]
        cases (List.filterMap (said disk folder key) reports).getLast? <;> rfl

theorem getLast?_eq_together_iff {xs : List (List Diagnostic)} :
    xs.getLast? = together xs ↔ ∀ ds ∈ xs.dropLast, ds = [] := by
  unfold together
  rcases List.eq_nil_or_concat xs with rfl | ⟨front, last, rfl⟩
  · simp
  · rw [List.concat_eq_append, List.getLast?_concat, if_neg (by simp), List.dropLast_concat]
    simp

theorem chunks_spec {size fuel : Nat} (pos : 0 < size) {files : List Text}
    (enough : files.length ≤ fuel) : (chunks size fuel files).flatten = files ∧
      ∀ c ∈ chunks size fuel files, c ≠ [] ∧ c.length ≤ size := by
  induction fuel generalizing files with
  | zero =>
    have none : files = [] := List.length_eq_zero_iff.mp (Nat.le_zero.mp enough)
    rw [none]
    exact ⟨rfl, nofun⟩
  | succ fuel ih =>
    cases files with
    | nil => exact ⟨rfl, nofun⟩
    | cons f files =>
      have fewer : ((f :: files).drop size).length ≤ fuel := by
        rw [List.length_drop]
        rw [List.length_cons] at enough ⊢
        omega
      obtain ⟨joined, fits⟩ := ih fewer
      rw [chunks]
      · refine ⟨by rw [List.flatten_cons, joined, List.take_append_drop], ?_⟩
        intro c hc
        rcases List.mem_cons.mp hc with rfl | hc
        · refine ⟨?_, List.length_take_le ..⟩
          rw [ne_eq, List.take_eq_nil_iff]
          rintro (h | h)
          · omega
          · cases h
        · exact fits c hc
      · exact nofun

/-- The text is one report, of the arrays of all calls one behind the other. -/
def Joins (run : Call → Output) (calls : List Call) (text : Text) : Prop :=
  ∃ arrays, List.Forall₂ (fun call items => Json.read? (run call).stdout = some (.array items))
    calls arrays ∧ Json.read? text = some (.array arrays.flatten)

/-- A joined report speaks of the files of all reports. -/
theorem Joins.report {calls : List Call} {reports : List (List FileResult)} {text : Text}
    (joins : Joins run calls text) (answers : Answers run calls reports) :
    report? text = some reports.flatten := by
  obtain ⟨arrays, items, joined⟩ := joins
  have each : arrays.flatten.mapM FileResult.ofJson? = some reports.flatten := by
    clear joined
    induction answers generalizing arrays with
    | nil =>
      cases items
      rfl
    | @cons call files calls reports answer _ ih =>
      cases items with
      | @cons _ array _ arrays here later =>
        have first : array.mapM FileResult.ofJson? = some files := by
          have := answer.2
          unfold report? at this
          rwa [here] at this
        rw [List.flatten_cons, List.flatten_cons, List.mapM_append, first, ih arrays later]
        rfl
  unfold report?
  rw [joined]
  exact each

end Calls

/-- The linter is called for all files, a few hundred at a time. If each call ends in good order and
writes a report, there is a result, and it has of each file what the last call that names it says.
That is what one joined report says of the file exactly if no other call has a message for it: what
earlier calls say is lost. -/
theorem runLinter_keeps_last (disk : Disk) (run : Call → Output) (folder : Text)
    (baseConfig : Option Text) (files : List Text) {reports : List (List FileResult)}
    (answers : Answers run (lintCalls folder baseConfig files) reports) :
    (chunks filesPerCall files.length files).flatten = files ∧
    (∀ c ∈ chunks filesPerCall files.length files, c ≠ [] ∧ c.length ≤ filesPerCall) ∧
    ∃ r, runLinter disk (some run) folder baseConfig files =
        (lintCalls folder baseConfig files, .ok r) ∧
      (∀ key, r.of? key = (sayings disk folder key reports).getLast?) ∧
      ∀ text, Joins run (lintCalls folder baseConfig files) text →
        ∃ whole, parseReport disk folder text = .ok whole ∧
          ∀ key, whole.of? key = together (sayings disk folder key reports) ∧
            (r.of? key = whole.of? key ↔ ∀ ds ∈ (sayings disk folder key reports).dropLast, ds = []) := by
  obtain ⟨joined, fits⟩ := chunks_spec (by decide : 0 < filesPerCall) (Nat.le_refl files.length)
  refine ⟨joined, fits, ?_⟩
  obtain ⟨r, ran, known⟩ := @runCalls_ok disk folder run _ _ answers []
  have latest : ∀ key, r.of? key = (sayings disk folder key reports).getLast? := fun key =>
    (known key).trans (Option.or_none ..)
  refine ⟨r, ran, latest, fun text joins => ?_⟩
  obtain ⟨whole, parsed, -, found⟩ :=
    @parseReport_eq disk folder _ _ (joins.report answers)
  refine ⟨whole, parsed, fun key => ?_⟩
  have all := (found key).trans (said_flatten key reports)
  exact ⟨all, by rw [latest, all, getLast?_eq_together_iff]⟩

namespace Chorus

/-- One file more than a call takes. -/
def files : List Text := (List.range 201).map fun n => 'f' :: Text.ofNat n ++ ".js".toList

def disk : Disk where
  root := .folder [("p".toList, .folder [("a.js".toList, .file (.text "x".toList))])]

def messageOf (path rule : String) : Json :=
  .ofFields [("filePath", .ofText path.toList), ("messages", .array [
    .ofFields [("ruleId", .ofText rule.toList), ("severity", .ofNat 2), ("line", .ofNat 1)]])]

theorem plain_messageOf (path rule : String) : (messageOf path rule).Plain := by
  have message : (Json.ofFields [("ruleId", .ofText rule.toList), ("severity", .ofNat 2),
      ("line", .ofNat 1)]).Plain :=
    .ofFields (by simp [Json.Plain.string, Json.Plain.number])
  exact .ofFields (by simp [Json.Plain.string, Json.Plain.array, message])

def echo (_ : Call) : Output where
  stdout := (Json.array [messageOf "a.js" "r"]).compact

/-- The second call finds another rule than the first one, and names the file in full. -/
def run (call : Call) : Output where
  stdout := if call.arguments.length < 100 then (Json.array [messageOf "/p/a.js" "q"]).compact
    else (Json.array [messageOf "a.js" "r"]).compact

def objection (rule : Char) : Diagnostic := { line := 1, rule := some [rule], severity := 2 }

def reports : List (List FileResult) :=
  [[⟨"a.js".toList, [objection 'r']⟩], [⟨"/p/a.js".toList, [objection 'q']⟩]]

/-- What both calls write, as one report. -/
def joined : Text := (Json.array [messageOf "a.js" "r", messageOf "/p/a.js" "q"]).compact

theorem lintCalls_eq : lintCalls "/p".toList none files =
    [lintCall "/p".toList none (files.take 200), lintCall "/p".toList none (files.drop 200)] := by
  decide +kernel

end Chorus

open Chorus in
theorem runLinter_keeps_last_chorus :
    Answers run (lintCalls "/p".toList none files) reports ∧
    ∃ r, runLinter disk (some run) "/p".toList none files =
        (lintCalls "/p".toList none files, .ok r) ∧
      r.of? "/p/a.js".toList = some [objection 'q'] ∧
      ∃ whole, parseReport disk "/p".toList joined = .ok whole ∧
        whole.of? "/p/a.js".toList = some [objection 'r', objection 'q'] := by
  have answers : Answers run (lintCalls "/p".toList none files) reports := by
    rw [lintCalls_eq]
    exact .cons (by decide +kernel) (.cons (by decide +kernel) .nil)
  obtain ⟨-, -, r, ran, latest, merges⟩ :=
    runLinter_keeps_last disk run "/p".toList none files answers
  refine ⟨answers, r, ran, ?_, ?_⟩
  · rw [latest]
    decide +kernel
  · have plain : ∀ items, (∀ j ∈ items, j.Plain) →
        Json.read? (Json.array items).compact = some (.array items) :=
      fun _ all => (Json.Plain.array all).compact.read?_eq
    have joins : Joins run (lintCalls "/p".toList none files) joined := by
      refine ⟨[[messageOf "a.js" "r"], [messageOf "/p/a.js" "q"]], ?_, ?_⟩
      · rw [lintCalls_eq]
        refine .cons ?_ (.cons ?_ .nil)
        · rw [run, if_neg (by decide +kernel)]
          exact plain _ (by simp [plain_messageOf])
        · rw [run, if_pos (by decide +kernel)]
          exact plain _ (by simp [plain_messageOf])
      · exact plain _ (by simp [plain_messageOf])
    obtain ⟨whole, parsed, found⟩ := merges joined joins
    refine ⟨whole, parsed, ?_⟩
    rw [(found _).1]
    decide +kernel

open Chorus in
/-- The second call says of a file what the first one says, and is heard alone. -/
theorem runLinter_drops_earlier :
    let echoed : List FileResult := [⟨"a.js".toList, [objection 'r']⟩]
    Answers echo (lintCalls "/p".toList none files) [echoed, echoed] ∧
    ∃ r, runLinter disk (some echo) "/p".toList none files =
        (lintCalls "/p".toList none files, .ok r) ∧
      r.of? "/p/a.js".toList = some [objection 'r'] ∧
      said disk "/p".toList "/p/a.js".toList [echoed, echoed].flatten =
        some [objection 'r', objection 'r'] := by
  have answers : Answers echo (lintCalls "/p".toList none files)
      [[⟨"a.js".toList, [objection 'r']⟩], [⟨"a.js".toList, [objection 'r']⟩]] := by
    rw [lintCalls_eq]
    exact .cons (by decide +kernel) (.cons (by decide +kernel) .nil)
  obtain ⟨r, ran, known⟩ := @runCalls_ok disk "/p".toList echo _ _ answers []
  refine ⟨answers, r, ran, ?_, by decide +kernel⟩
  rw [known]
  decide +kernel

end Quell
