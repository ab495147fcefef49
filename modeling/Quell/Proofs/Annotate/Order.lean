import Mathlib.Data.List.Permutation
import Quell.Proofs.Annotate.Stages
import Quell.Proofs.Print.Alike
import Quell.Proofs.Source.Reading

/-!
The order of diagnostics.

On ordinary lines a run does not depend on the order of its diagnostics, as long as no statement is
served both at itself and as the last one of a block: `annotate_permuted`.
-/
namespace Quell

open Text Relation

namespace Summary

/-- The same counts, and the same skips in any order. -/
structure Alike (s s' : Summary) : Prop where
  inserted : s'.inserted = s.inserted
  merged : s'.merged = s.merged
  alreadySuppressed : s'.alreadySuppressed = s.alreadySuppressed
  skipped : s.skipped.Perm s'.skipped

theorem Alike.refl (s : Summary) : s.Alike s := ⟨rfl, rfl, rfl, .refl _⟩

theorem Alike.trans {s t u : Summary} (h : s.Alike t) (k : t.Alike u) : s.Alike u :=
  ⟨k.inserted.trans h.inserted, k.merged.trans h.merged,
    k.alreadySuppressed.trans h.alreadySuppressed, h.skipped.trans k.skipped⟩

theorem Alike.symm {s s' : Summary} (h : s.Alike s') : s'.Alike s :=
  ⟨h.inserted.symm, h.merged.symm, h.alreadySuppressed.symm, h.skipped.symm⟩

theorem Alike.record {s s' : Summary} (alike : s.Alike s') (line : Nat) (rule : Text)
    (r : Resolution) : (s.record line rule r).Alike (s'.record line rule r) := by
  obtain ⟨inserted, merged, already, skipped⟩ := alike
  cases r with
  | inserted => exact ⟨congrArg (· + 1) inserted, merged, already, skipped⟩
  | merged => exact ⟨inserted, congrArg (· + 1) merged, already, skipped⟩
  | alreadySuppressed => exact ⟨inserted, merged, congrArg (· + 1) already, skipped⟩
  | skipped reason => exact ⟨inserted, merged, already, skipped.append_right _⟩

theorem record_comm (s : Summary) (line line' : Nat) (rule rule' : Text) (a b : Resolution) :
    ((s.record line rule a).record line' rule' b).Alike
      ((s.record line' rule' b).record line rule a) := by
  cases a <;> cases b <;> refine ⟨rfl, rfl, rfl, ?_⟩ <;>
    simp only [record, List.append_assoc, List.Perm.refl]
  exact (List.Perm.swap _ _ []).append_left s.skipped

theorem record_swap (s : Summary) (line line' : Nat) (rule rule' : Text) {a b a' b' : Resolution}
    (settled : ∀ reason, a ≠ .skipped reason) (settled' : ∀ reason, b ≠ .skipped reason)
    (perm : [a, b].Perm [b', a']) :
    ((s.record line rule a).record line' rule' b).Alike
      ((s.record line' rule' b').record line rule a') := by
  have free : ∀ (s : Summary) {r : Resolution}, (∀ reason, r ≠ .skipped reason) →
      ∀ (line line' : Nat) (rule rule' : Text), s.record line rule r = s.record line' rule' r := by
    intro s r h line line' rule rule'
    cases r with
    | skipped reason => exact absurd rfl (h reason)
    | _ => rfl
  rcases List.perm_pair.mp perm with h | h
  · cases h
    rw [free s settled line line' rule rule', free _ settled' line' line rule' rule]
    exact .refl _
  · cases h
    exact record_comm s line line' rule rule' a b

end Summary

namespace Document

variable {source : Text} {doc doc' : Document} {o : AnnotateOptions} {rule : Text} {line : Nat}

def advance (o : AnnotateOptions) (x : Document × Summary) (d : Diagnostic) : Document × Summary :=
  match d.actionableRule with
  | none => x
  | some rule =>
    if o.allows rule then
      match x.1.annotateOne o d.line rule with
      | .ok (doc, r) => (doc, x.2.record d.line rule r)
      | .error _ => x
    else x

section Advance

variable {x : Document × Summary} {d : Diagnostic} {r : Resolution}

theorem advance_asks (asks : Asks o d rule) (called : x.1.annotateOne o d.line rule = .ok (doc, r)) :
    advance o x d = (doc, x.2.record d.line rule r) := by
  unfold advance
  rw [asks.1]
  dsimp only
  rw [if_pos asks.2, called]

theorem advance_idle (idle : ¬ ∃ rule, Asks o d rule) (x : Document × Summary) :
    advance o x d = x := by
  unfold advance
  cases actionable : d.actionableRule with
  | none => rfl
  | some rule =>
    dsimp only
    rw [if_neg fun allows => idle ⟨rule, actionable, allows⟩]

theorem annotateFrom_cons (sound : doc.Sound source) (o : AnnotateOptions) (s : Summary)
    (d : Diagnostic) (ds : List Diagnostic) :
    (advance o (doc, s) d).1.Sound source ∧ doc.annotateFrom o s (d :: ds) =
      (advance o (doc, s) d).1.annotateFrom o (advance o (doc, s) d).2 ds := by
  rw [annotateFrom]
  by_cases asked : ∃ rule, Asks o d rule
  · obtain ⟨rule, asks⟩ := asked
    obtain ⟨next, r, called, call⟩ := annotateOne_ok sound o d.line rule
    rw [advance_asks (x := (doc, s)) asks called, asks.1]
    dsimp only
    rw [if_pos asks.2, called]
    exact ⟨Edits.sound (call.settles sound).edits sound, rfl⟩
  · rw [advance_idle asked]
    refine ⟨sound, ?_⟩
    cases actionable : d.actionableRule with
    | none => rfl
    | some rule =>
      dsimp only
      rw [if_neg fun allows => asked ⟨rule, actionable, allows⟩]

theorem annotateFrom_eq_foldl (sound : doc.Sound source) (o : AnnotateOptions) (s : Summary)
    (ds : List Diagnostic) : doc.annotateFrom o s ds = .ok (ds.foldl (advance o) (doc, s)) := by
  induction ds generalizing doc s with
  | nil => rfl
  | cons d ds ih =>
    obtain ⟨next, step⟩ := annotateFrom_cons sound o s d ds
    rw [step, List.foldl_cons]
    exact ih next _

end Advance

section Run

variable {base : Document} {lines : Nat → Prop} {x y : Document × Summary} {d e : Diagnostic}
variable {v : Document} {t : Target} {a : Resolution} {p : NodeId} {ds : List Diagnostic}

/-- The diagnostic asks for nothing, or for a rule on one of the lines. -/
def Calling (o : AnnotateOptions) (lines : Nat → Prop) (d : Diagnostic) : Prop :=
  ∀ rule, Asks o d rule → lines d.line ∧ RuleName rule

theorem Stage.advance_missed (stage : Stage source base lines x.1) (here : lines d.line)
    (none : base.locate d.line = none) (asks : Asks o d rule) :
    advance o x d = (x.1, x.2.record d.line rule (.skipped .noNodeOnLine)) := by
  refine advance_asks asks ?_
  unfold annotateOne
  rw [(stage.upholds d.line here).missed none]

theorem Stage.advance_call (stage : Stage source base lines x.1) (here : lines d.line)
    (found : base.locate d.line = some t) (asks : Asks o d rule)
    (called : x.1.annotateAt o t d.line rule = .ok (v, a)) :
    advance o x d = (v, x.2.record d.line rule a) ∧ Stage source base lines v := by
  obtain ⟨v', a', called', result, next⟩ := stage.call here found o rule
  cases called.symm.trans called'
  exact ⟨advance_asks asks result, next⟩

theorem Stage.advance (stage : Stage source base lines x.1) (calls : Calling o lines d) :
    Stage source base lines (advance o x d).1 := by
  by_cases asked : ∃ rule, Asks o d rule
  · obtain ⟨rule, asks⟩ := asked
    have here := (calls rule asks).1
    cases found : base.locate d.line with
    | none =>
      rw [stage.advance_missed here found asks]
      exact stage
    | some t =>
      obtain ⟨v, a, called, -⟩ := stage.call here found o rule
      obtain ⟨step, next⟩ := stage.advance_call here found asks called
      rw [step]
      exact next
  · rw [advance_idle asked]
    exact stage

theorem Stage.foldl (stage : Stage source base lines x.1) (calls : ∀ d ∈ ds, Calling o lines d) :
    Stage source base lines (ds.foldl (Document.advance o) x).1 := by
  induction ds generalizing x with
  | nil => exact stage
  | cons d ds ih =>
    exact ih (stage.advance (calls d List.mem_cons_self)) fun e he => calls e (List.mem_cons_of_mem d he)

/-- Runs that have come to the same so far. -/
structure Same (source : Text) (base : Document) (lines : Nat → Prop) (x y : Document × Summary) :
    Prop where
  akin : Akin base.nodes.size x.1 y.1
  left : Stage source base lines x.1
  right : Stage source base lines y.1
  summary : x.2.Alike y.2

theorem Same.refl (stage : Stage source base lines x.1) : Same source base lines x x :=
  ⟨.refl _ _, stage, stage, .refl _⟩

theorem Same.symm (h : Same source base lines x y) : Same source base lines y x :=
  ⟨h.akin.symm, h.right, h.left, h.summary.symm⟩

theorem Same.trans {z : Document × Summary} (h : Same source base lines x y)
    (k : Same source base lines y z) : Same source base lines x z :=
  ⟨h.akin.trans k.akin, h.left, k.right, h.summary.trans k.summary⟩

variable (root : base.Sound source)
include root

theorem Same.advance (same : Same source base lines x y) (calls : Calling o lines d) :
    Same source base lines (advance o x d) (advance o y d) := by
  by_cases asked : ∃ rule, Asks o d rule
  · obtain ⟨rule, asks⟩ := asked
    obtain ⟨here, name⟩ := calls rule asks
    cases found : base.locate d.line with
    | none =>
      rw [same.left.advance_missed here found asks, same.right.advance_missed here found asks]
      exact ⟨same.akin, same.left, same.right, same.summary.record d.line rule (.skipped .noNodeOnLine)⟩
    | some t =>
      obtain ⟨u, v, a, called, called', akin⟩ :=
        same.left.akin_call same.right root same.akin here found name o
      obtain ⟨step, left⟩ := same.left.advance_call here found asks called
      obtain ⟨step', right⟩ := same.right.advance_call here found asks called'
      rw [step, step']
      exact ⟨akin, left, right, same.summary.record d.line rule a⟩
  · rw [advance_idle asked, advance_idle asked]
    exact same

theorem Same.foldl (same : Same source base lines x y) (calls : ∀ d ∈ ds, Calling o lines d) :
    Same source base lines (ds.foldl (Document.advance o) x) (ds.foldl (Document.advance o) y) := by
  induction ds generalizing x y with
  | nil => exact same
  | cons d ds ih =>
    exact ih (same.advance root (calls d List.mem_cons_self)) fun e he =>
      calls e (List.mem_cons_of_mem d he)

section Trim

/-- A run and one that starts from where the texts of an element are cut. -/
structure Ahead (source : Text) (base : Document) (lines : Nat → Prop) (p : NodeId)
    (x y : Document × Summary) : Prop where
  stage : Stage source base lines x.1
  cut : ∃ w, x.1.segmentChildren p p = .ok w ∧ Same source base lines (w, x.2) y

variable (above : base.Reaches p) (markup : (base.kind p).hasMarkupChildren = true)
include above markup

theorem Ahead.advance (ahead : Ahead source base lines p x y) (calls : Calling o lines d) :
    Ahead source base lines p (advance o x d) (advance o y d) := by
  obtain ⟨stage, w, done, same⟩ := ahead
  have next := same.advance root calls
  by_cases asked : ∃ rule, Asks o d rule
  · obtain ⟨rule, asks⟩ := asked
    obtain ⟨here, name⟩ := calls rule asks
    cases found : base.locate d.line with
    | none =>
      rw [same.left.advance_missed here found asks] at next
      rw [stage.advance_missed here found asks]
      exact ⟨stage, w, done, next⟩
    | some t =>
      obtain ⟨v, z, w', a, called, done', called', akin⟩ :=
        stage.cut_call root here found above markup done name o
      obtain ⟨step, stage'⟩ := stage.advance_call here found asks called
      obtain ⟨step', right⟩ := same.left.advance_call here found asks called'
      obtain ⟨above', markup'⟩ := stage'.above root above markup
      obtain ⟨_, again, left, -⟩ := stage'.cut above' markup'
      cases done'.symm.trans again
      have moved : Same source base lines (z, x.2.record d.line rule a)
          (w', x.2.record d.line rule a) := ⟨akin.symm, left, right, .refl _⟩
      rw [step'] at next
      rw [step]
      exact ⟨stage', z, done', moved.trans next⟩
  · rw [advance_idle asked] at next ⊢
    exact ⟨stage, w, done, next⟩

theorem Ahead.foldl (ahead : Ahead source base lines p x y) (calls : ∀ d ∈ ds, Calling o lines d) :
    Ahead source base lines p (ds.foldl (Document.advance o) x) (ds.foldl (Document.advance o) y) := by
  induction ds generalizing x y with
  | nil => exact ahead
  | cons d ds ih =>
    exact ih (ahead.advance root above markup (calls d List.mem_cons_self)) fun e he =>
      calls e (List.mem_cons_of_mem d he)

end Trim

/-- The diagnostic asks for a rule at a child of the element. -/
def Slices (o : AnnotateOptions) (base : Document) (d : Diagnostic) (p : NodeId) : Prop :=
  (∃ rule, Asks o d rule) ∧ ∃ id, base.locate d.line = some (.node id (some p)) ∧ base.Among id p

theorem Stage.whole_advance (stage : Stage source base lines x.1) (above : base.Reaches p)
    (markup : (base.kind p).hasMarkupChildren = true) (calls : Calling o lines d)
    (work : (∀ y, x.1.Holds p y → x.1.Whole y) ∨ Slices o base d p) :
    ∀ y, (Document.advance o x d).1.Holds p y → (Document.advance o x d).1.Whole y := by
  have above' := ((stage.advance calls).above root above markup).1
  by_cases asked : ∃ rule, Asks o d rule
  · obtain ⟨rule, asks⟩ := asked
    rcases work with whole | ⟨-, id, found, among⟩
    · obtain ⟨_, _, called, call⟩ := annotateOne_ok stage.sound o d.line rule
      rw [advance_asks asks called] at above' ⊢
      exact Edits.whole (call.settles stage.sound).edits stage.sound whole above'
    · have here := (calls rule asks).1
      obtain ⟨z, -, ready, prepared, same⟩ := stage.prepare here found
      have whole := prepared ((ready.among _ id p here found).mpr among)
      obtain ⟨_, stands⟩ := ready.sound.stands (ready.suits here found).1 prepared o
      obtain ⟨v, called, -, edits, -⟩ := ready.deed here found prepared stands rule
      rw [← same] at called
      rw [(stage.advance_call here found asks called).1] at above' ⊢
      exact Edits.whole edits ready.sound whole above'
  · rw [advance_idle asked]
    exact work.resolve_right fun h => asked h.1

/-- The texts of an element are cut by the first of the diagnostics that asks for a child of it. -/
theorem Stage.whole_foldl (stage : Stage source base lines x.1) (above : base.Reaches p)
    (markup : (base.kind p).hasMarkupChildren = true) (calls : ∀ d ∈ ds, Calling o lines d)
    (work : (∀ y, x.1.Holds p y → x.1.Whole y) ∨ ∃ d ∈ ds, Slices o base d p) :
    ∀ y, (ds.foldl (Document.advance o) x).1.Holds p y →
      (ds.foldl (Document.advance o) x).1.Whole y := by
  induction ds generalizing x with
  | nil =>
    rcases work with whole | ⟨d, mem, -⟩
    · exact whole
    · cases mem
  | cons d ds ih =>
    have call := calls d List.mem_cons_self
    have first := stage.whole_advance root above markup call
    refine ih (stage.advance call) (fun e he => calls e (List.mem_cons_of_mem d he)) ?_
    rcases work with whole | ⟨e, mem, slices⟩
    · exact .inl (first (.inl whole))
    · rcases List.mem_cons.mp mem with rfl | mem
      · exact .inl (first (.inr slices))
      · exact .inr ⟨e, mem, slices⟩

/-- A run comes to the same from where the texts are cut already that it cuts itself. -/
theorem Stage.trim {ps : List NodeId} (stage : Stage source base lines doc)
    (markup : ∀ p ∈ ps, base.Reaches p ∧ (base.kind p).hasMarkupChildren = true) :
    ∃ n, Stage source base lines n ∧
      (∀ p, base.Reaches p → (base.kind p).hasMarkupChildren = true →
        (p ∈ ps ∨ ∀ y, doc.Holds p y → doc.Whole y) → ∀ y, n.Holds p y → n.Whole y) ∧
      ∀ (ds : List Diagnostic) (s : Summary), (∀ d ∈ ds, Calling o lines d) →
        (∀ p ∈ ps, ∃ d ∈ ds, Slices o base d p) →
        Same source base lines (ds.foldl (Document.advance o) (doc, s))
          (ds.foldl (Document.advance o) (n, s)) := by
  induction ps generalizing doc with
  | nil =>
    refine ⟨doc, stage, fun p _ _ h => h.resolve_left List.not_mem_nil, fun ds s calls _ => ?_⟩
    exact .refl (Stage.foldl (x := (doc, s)) stage calls)
  | cons p ps ih =>
    obtain ⟨above, kind⟩ := markup p List.mem_cons_self
    obtain ⟨above', kind'⟩ := stage.above root above kind
    obtain ⟨w, done, next, whole⟩ := stage.cut above' kind'
    obtain ⟨_, again, slits, -⟩ := stage.sound.cut above' kind'
    cases done.symm.trans again
    obtain ⟨n, last, wholes, runs⟩ := ih next fun q hq => markup q (List.mem_cons_of_mem p hq)
    refine ⟨n, last, fun q reached markup h => wholes q reached markup ?_, fun ds s calls work => ?_⟩
    · rcases h with mem | before
      · rcases List.mem_cons.mp mem with rfl | mem
        · exact .inr whole
        · exact .inl mem
      · have edits : Edits {} [] doc w := Slits.edits slits stage.sound above' kind'
        exact .inr (Edits.whole edits stage.sound before (next.above root reached markup).1)
    · have ahead : Ahead source base lines p (doc, s) (w, s) := ⟨stage, w, done, .refl next⟩
      obtain ⟨stage', w', done', same⟩ := ahead.foldl root above kind calls
      have cut := Stage.whole_foldl (x := (doc, s)) root stage above kind calls
        (.inr (work p List.mem_cons_self))
      cases done'.symm.trans (segmentChildren_of_whole fun y hy => .inr (cut y hy))
      exact same.trans (runs ds s calls fun q hq => work q (List.mem_cons_of_mem p hq))

omit root in
theorem Trimmed.advance (ready : Trimmed source base lines x.1) (calls : Calling o lines d) :
    Trimmed source base lines (Document.advance o x d).1 := by
  by_cases asked : ∃ rule, Asks o d rule
  · obtain ⟨rule, asks⟩ := asked
    have here := (calls rule asks).1
    cases found : base.locate d.line with
    | none =>
      rw [ready.advance_missed here found asks]
      exact ready
    | some t =>
      obtain ⟨_, stands⟩ := ready.sound.stands (ready.suits here found).1
        (ready.prepared d.line t here found) o
      obtain ⟨v, called, -, next⟩ := ready.deed here found stands rule
      rw [(ready.advance_call here found asks called).1]
      exact next
  · rw [advance_idle asked]
    exact ready

omit root in
theorem Stage.advance_swap {r q : Text} (stage : Stage source base lines x.1) (here : lines d.line)
    (here' : lines e.line) (none : base.locate d.line = none) (asks : Asks o d r)
    (asks' : Asks o e q) :
    Same source base lines (Document.advance o (Document.advance o x d) e)
      (Document.advance o (Document.advance o x e) d) := by
  have skip : ∀ {u : Document} (s : Summary), Stage source base lines u →
      Document.advance o (u, s) d = (u, s.record d.line r (.skipped .noNodeOnLine)) :=
    fun s stage => Stage.advance_missed (x := (_, s)) stage here none asks
  have first : Document.advance o x d = (x.1, _) := skip x.2 stage
  rw [first]
  cases found : base.locate e.line with
  | none =>
    have skip' : ∀ s : Summary, Document.advance o (x.1, s) e =
        (x.1, s.record e.line q (.skipped .noNodeOnLine)) :=
      fun s => Stage.advance_missed (x := (_, s)) stage here' found asks'
    have second : Document.advance o x e = (x.1, _) := skip' x.2
    rw [second, skip', skip _ stage]
    exact ⟨.refl _ _, stage, stage,
      x.2.record_comm d.line e.line r q (.skipped .noNodeOnLine) (.skipped .noNodeOnLine)⟩
  | some t =>
    obtain ⟨v, b, called, -⟩ := stage.call here' found o q
    have step : ∀ s : Summary, Document.advance o (x.1, s) e = (v, s.record e.line q b) ∧
        Stage source base lines v := fun s => Stage.advance_call (x := (_, s)) stage here' found asks' called
    have second : Document.advance o x e = (v, _) := (step x.2).1
    have next := (step x.2).2
    rw [second, (step _).1, skip _ next]
    exact ⟨.refl _ _, next, next, x.2.record_comm d.line e.line r q (.skipped .noNodeOnLine) b⟩

theorem Trimmed.advance_swap (ready : Trimmed source base lines x.1) (calls : Calling o lines d)
    (calls' : Calling o lines e) :
    Same source base lines (Document.advance o (Document.advance o x d) e)
      (Document.advance o (Document.advance o x e) d) := by
  have next := ready.advance calls
  have next' := ready.advance calls'
  by_cases asked : ∃ rule, Asks o d rule
  · by_cases asked' : ∃ rule, Asks o e rule
    · obtain ⟨r, asks⟩ := asked
      obtain ⟨q, asks'⟩ := asked'
      obtain ⟨here, name⟩ := calls r asks
      obtain ⟨here', name'⟩ := calls' q asks'
      cases found : base.locate d.line with
      | none => exact ready.toStage.advance_swap here here' found asks asks'
      | some t =>
        cases found' : base.locate e.line with
        | none => exact (ready.toStage.advance_swap here' here found' asks' asks).symm
        | some u =>
          obtain ⟨left, right, a, b', called, called', both, both', b, a', again, again', akin, answers⟩ :=
            ready.swap root here here' found found' name name' o
          obtain ⟨step, stage⟩ := ready.advance_call here found asks called
          obtain ⟨step', stage'⟩ := ready.advance_call here' found' asks' called'
          obtain ⟨step₂, stage₂⟩ :=
            Stage.advance_call (x := (left, x.2.record d.line r a)) stage here' found' asks' again
          obtain ⟨step₂', stage₂'⟩ :=
            Stage.advance_call (x := (right, x.2.record e.line q b')) stage' here found asks again'
          rw [step, step', step₂, step₂']
          refine ⟨akin, stage₂, stage₂', ?_⟩
          cases answers with
          | same one two =>
            rw [one, two]
            exact x.2.record_comm d.line e.line r q a b
          | shared settled settled' _ _ perm =>
            exact x.2.record_swap d.line e.line r q settled settled' perm
    · rw [advance_idle asked', advance_idle asked']
      exact .refl next.toStage
  · rw [advance_idle asked, advance_idle asked]
    exact .refl next'.toStage

theorem Same.foldl_perm {ds' : List Diagnostic} (same : Same source base lines x y)
    (left : Trimmed source base lines x.1) (right : Trimmed source base lines y.1) (perm : ds.Perm ds')
    (calls : ∀ d ∈ ds, Calling o lines d) :
    Same source base lines (ds.foldl (Document.advance o) x) (ds'.foldl (Document.advance o) y) := by
  induction perm generalizing x y with
  | nil => exact same
  | cons d _ ih =>
    have call := calls d List.mem_cons_self
    exact ih (same.advance root call) (left.advance call) (right.advance call) fun e he =>
      calls e (List.mem_cons_of_mem d he)
  | swap d e l =>
    have first := calls e List.mem_cons_self
    have second := calls d (List.mem_cons_of_mem e List.mem_cons_self)
    have swapped := left.advance_swap root first second
    have both := (same.advance root second).advance root first
    exact (swapped.trans both).foldl root fun c hc =>
      calls c (List.mem_cons_of_mem e (List.mem_cons_of_mem d hc))
  | trans first second ih ih' =>
    have back := ih same left right calls
    exact back.trans (ih' (.refl right.toStage) right right fun d hd => calls d (first.mem_iff.mpr hd))

end Run

/-- On steady lines, and with no statement that is served both at itself and as the last one of a
block, the order of diagnostics does not matter: the same are skipped, and the printed texts differ
at most in the order of rules inside directives. -/
theorem annotate_permuted (wf : doc.WellFormed source) (o : AnnotateOptions)
    {ds ds' : List Diagnostic} (perm : ds.Perm ds') (steady : ∀ d ∈ ds, doc.Steady d.line)
    (apart : ∀ d ∈ ds, ∀ e ∈ ds, ∀ t u, doc.locate d.line = some t → doc.locate e.line = some u →
      doc.Apart t u)
    (names : ∀ d ∈ ds, ∀ rule, d.actionableRule = some rule →
      rule.trim = rule ∧ ',' ∉ rule ∧ ¬ Directive.separator <:+: rule) :
    ∃ one two s s', doc.annotate o ds = .ok (one, s) ∧ doc.annotate o ds' = .ok (two, s') ∧
      s.Alike s' ∧ Both Rearranged (one.print source) (two.print source) := by
  classical
  have root := wf.sound
  have calls : ∀ d ∈ ds, Calling o (fun l => ∃ d ∈ ds, (∃ rule, Asks o d rule) ∧ d.line = l) d := by
    intro d mem rule asks
    obtain ⟨trimmed, comma, dashes⟩ := names d mem rule asks.1
    exact ⟨⟨d, mem, ⟨rule, asks⟩, rfl⟩, nonempty_of_actionable asks.1, trimmed, comma, dashes⟩
  generalize same : (fun l => ∃ d ∈ ds, (∃ rule, Asks o d rule) ∧ d.line = l) = lines at calls
  have asked : ∀ l, lines l → ∃ d ∈ ds, (∃ rule, Asks o d rule) ∧ d.line = l := fun l h => by
    rw [← same] at h
    exact h
  have start : Stage source doc lines doc := by
    refine .start root (fun l h => ?_) fun l l' t t' h h' found found' => ?_
    · obtain ⟨d, mem, -, rfl⟩ := asked l h
      exact steady d mem
    · obtain ⟨d, mem, -, rfl⟩ := asked l h
      obtain ⟨e, mem', -, rfl⟩ := asked l' h'
      exact apart d mem e mem' t t' found found'
  -- The elements that calls of the run cut.
  obtain ⟨ps, cuts⟩ : ∃ ps : List NodeId, ∀ p, p ∈ ps ↔ p < doc.nodes.size ∧ ∃ d ∈ ds, Slices o doc d p :=
    ⟨(List.range doc.nodes.size).filter fun p => ∃ d ∈ ds, Slices o doc d p, fun p => by simp⟩
  have kinds : ∀ p ∈ ps, doc.Reaches p ∧ (doc.kind p).hasMarkupChildren = true := by
    intro p mem
    obtain ⟨-, d, -, -, id, found, among⟩ := (cuts p).mp mem
    obtain ⟨_, e, seated⟩ := root.suits found
    cases e
    exact ⟨seated.above, among.markup⟩
  obtain ⟨n, stage, whole, runs⟩ := start.trim root kinds
  have ready : Trimmed source doc lines n := by
    refine ⟨stage, fun l t here found => ?_⟩
    cases t with
    | blockTail => trivial
    | node id q =>
      obtain ⟨p, rfl, seated⟩ := root.suits found
      intro among
      have among' := (stage.among l id p here found).mp among
      obtain ⟨d, mem, asks, rfl⟩ := asked l here
      exact whole p seated.above among'.markup (.inl ((cuts p).mpr
        ⟨root.reaches_lt seated.above, d, mem, asks, id, found, among'⟩))
  have calls' : ∀ d ∈ ds', Calling o lines d := fun d mem => calls d (perm.mem_iff.mpr mem)
  have one := runs ds {} calls fun p mem => ((cuts p).mp mem).2
  have two := runs ds' {} calls' fun p mem => by
    obtain ⟨-, d, mem, slices⟩ := (cuts p).mp mem
    exact ⟨d, perm.mem_iff.mp mem, slices⟩
  have mid := Same.foldl_perm root (x := (n, {})) (.refl stage) ready ready perm calls
  obtain ⟨⟨f, alike⟩, -, -, summary⟩ := (one.trans mid).trans two.symm
  exact ⟨_, _, _, _, annotateFrom_eq_foldl root o {} ds, annotateFrom_eq_foldl root o {} ds', summary,
    alike.print root.root_lt source⟩

/-- Words that run on into the line of a hole, and an element behind them. -/
def mingledSource : Text := "<a>\n b\n c \x7bd\x7d\n <e/>\n</a>".toList

def mingledSample : Document where
  nodes := #[
    { kind := .program, span := some ⟨0, 24, 1, 5⟩, children := [1] },
    { kind := .statement, span := some ⟨0, 24, 1, 5⟩, parent := some 0, children := [2] },
    { kind := .element, span := some ⟨0, 24, 1, 5⟩, parent := some 1
      children := [3, 4, 5, 7, 8, 10, 11] },
    { kind := .openingTag, span := some ⟨0, 3, 1, 1⟩, parent := some 2 },
    { kind := .text "\n b\n c ".toList, span := some ⟨3, 10, 1, 3⟩, parent := some 2 },
    { kind := .hole, span := some ⟨10, 13, 3, 3⟩, parent := some 2, children := [6] },
    { kind := .expression, span := some ⟨11, 12, 3, 3⟩, parent := some 5 },
    { kind := .text "\n ".toList, span := some ⟨13, 15, 3, 4⟩, parent := some 2 },
    { kind := .element, span := some ⟨15, 19, 4, 4⟩, parent := some 2, children := [9] },
    { kind := .openingTag, span := some ⟨15, 19, 4, 4⟩, parent := some 8 },
    { kind := .text "\n".toList, span := some ⟨19, 20, 4, 5⟩, parent := some 2 },
    { kind := .closingTag, span := some ⟨20, 24, 5, 5⟩, parent := some 2 }]

set_option maxRecDepth 100000 in
/-- Once the texts are cut for the element, the first node of the line of the hole is a word. -/
theorem annotate_permuted_sample : read? "a.jsx".toList mingledSource = .ok (some mingledSample) ∧
    mingledSample.WellFormed mingledSource ∧ mingledSample.Steady 3 ∧ mingledSample.Steady 4 ∧
    ∃ one two s s',
      mingledSample.annotate {} [complaint 3 'r', complaint 4 'q', complaint 3 's'] = .ok (one, s) ∧
      mingledSample.annotate {} [complaint 4 'q', complaint 3 's', complaint 3 'r'] = .ok (two, s') ∧
      s.Alike s' ∧ Both Rearranged (one.print mingledSource) (two.print mingledSource) := by
  have read : read? "a.jsx".toList mingledSource = .ok (some mingledSample) := by
    apply read?_of_inOrder
    unfold mingledSample mingledSource
    simp only [String.reduceToList]
    decide +kernel
  have wf : mingledSample.WellFormed mingledSource := wellFormed_of_reads (by decide)
  have third : mingledSample.locate 3 = some (.node 5 (some 2)) := by decide
  have fourth : mingledSample.locate 4 = some (.node 8 (some 2)) := by decide
  have owner : ∀ p < mingledSample.nodes.size, ∀ x ∈ mingledSample.children p,
      mingledSample.text? x ≠ none → p = 2 := by decide
  have steady : ∀ {line id : Nat}, mingledSample.locate line = some (.node id (some 2)) →
      mingledSample.text? id = none → mingledSample.Among id 2 →
      mingledSample.kind id ≠ .openingTag → mingledSample.Steady line := by
    intro line id found code among plain
    refine ⟨fun k p found' => ?_, fun p reached run => ?_⟩
    · cases found.symm.trans found'
      exact code
    · obtain ⟨x, t, -, -, -, -, hold, value, -⟩ := run
      cases owner p (wf.linked.reaches_lt wf.root_lt reached) x hold (by rw [value]; exact nofun)
      exact ⟨id, found, among, plain⟩
  have none : ∀ id ∈ [5, 8], mingledSample.commentSlot id = none := by decide
  have among : ∀ id ∈ [5, 8], mingledSample.Among id 2 := fun id mem =>
    ⟨by revert id; decide, by revert id; decide, by decide, fun e slot => by
      rw [none id mem] at slot
      cases slot⟩
  have steady₃ := steady third (by decide) (among 5 (by decide)) (by decide)
  have steady₄ := steady fourth (by decide) (among 8 (by decide)) (by decide)
  have lines : ∀ d ∈ [complaint 3 'r', complaint 4 'q', complaint 3 's'],
      d.line = 3 ∨ d.line = 4 := by decide
  refine ⟨read, wf, steady₃, steady₄, annotate_permuted wf {} (by decide) ?_ ?_ (by decide)⟩
  · intro d hd
    rcases lines d hd with e | e <;> rw [e]
    · exact steady₃
    · exact steady₄
  · have aimed : ∀ d ∈ [complaint 3 'r', complaint 4 'q', complaint 3 's'], ∀ t,
        mingledSample.locate d.line = some t → ∃ id, t = .node id (some 2) := by
      intro d hd t found
      rcases lines d hd with e | e <;> rw [e] at found
      · exact ⟨5, Option.some.inj (found.symm.trans third)⟩
      · exact ⟨8, Option.some.inj (found.symm.trans fourth)⟩
    intro d hd e he t u found found'
    obtain ⟨_, rfl⟩ := aimed d hd t found
    obtain ⟨_, rfl⟩ := aimed e he u found'
    trivial

end Document

set_option maxRecDepth 100000 in
/-- The last statement of a block is not apart from the end of the block: a directive that was put
behind the statement, for the end of the block, takes up the rule of the statement itself. -/
theorem annotateSource_order_matters :
    annotateSource briefOptions "a.js".toList "if (a) \x7b\n  x;\n\x7d else if (b) \x7b\x7d".toList
        [complaint 2 'r', complaint 3 'q'] =
      .ok (some ⟨{ inserted := 2 }, some ("if (a) \x7b\n  // eslint-disable-next-line r -- m\n  x;\n" ++
        "  // eslint-disable-next-line q -- m\n\x7d else if (b) \x7b\x7d").toList⟩) ∧
    annotateSource briefOptions "a.js".toList "if (a) \x7b\n  x;\n\x7d else if (b) \x7b\x7d".toList
        [complaint 3 'q', complaint 2 'r'] =
      .ok (some ⟨{ inserted := 1, merged := 1 }, some ("if (a) \x7b\n  x;\n" ++
        "  // eslint-disable-next-line q, r -- m\n\x7d else if (b) \x7b\x7d").toList⟩) := by
  simp only [String.toList_append, String.reduceToList]
  constructor
  · exact annotateSource_of_inOrder (by decide) (by decide +kernel)
  · exact annotateSource_of_inOrder (by decide) (by decide +kernel)

end Quell
