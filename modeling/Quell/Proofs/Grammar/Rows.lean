import Quell.Proofs.Grammar.Gains
import Quell.Proofs.Text.Weave

/-!
Line comments put in above several lines.

One after another, each above the first token on a line: what is read is the old program with its offsets
moved by all the rows, and the comments (`Program.read?_notes`).
-/
namespace Quell.Grammar

open Text

/-- A line comment for a line of its own. -/
structure Note where
  /-- The offset at which it is put in. -/
  lo : Nat
  body : Text
  indent : Text

def Note.row (eol : LineEnding) (note : Note) : RowAt := (note.lo, Gap.row note.body eol note.indent)

/-- The comment where it stands then. -/
def Note.remark (rows : List RowAt) (note : Note) : Remark :=
  ⟨.line, note.body, stopAfter rows note.lo, stopAfter rows note.lo + 2 + bytes note.body⟩

/-- It goes in front of the first token on a line. -/
structure Note.Fits (source : Text) (p : Program) (note : Note) : Prop where
  plain : ∀ c ∈ note.body, isLineEnd c = false
  opens : ∃ st ∈ p.stretches, st.lo = note.lo ∧ st.fresh = true
  blank : Run note.indent
  stands : ∃ a b, source = a ++ b ∧ bytes a = note.lo ∧ note.indent = lastLine a

structure Program.Regains (p : Program) (eol : LineEnding) (notes : List Note) (p' : Program) :
    Prop where
  terms : p'.terms = movedAll (startAfter (notes.map (Note.row eol)))
    (stopAfter (notes.map (Note.row eol))) p.terms
  stretches : p'.stretches = p.stretches.map (Stretch.moved (startAfter (notes.map (Note.row eol)))
    (stopAfter (notes.map (Note.row eol))))
  remarks : ∀ r, r ∈ p'.remarks ↔
    (∃ q ∈ p.remarks, r = q.moved (startAfter (notes.map (Note.row eol)))
      (stopAfter (notes.map (Note.row eol)))) ∨
    ∃ note ∈ notes, r = note.remark (notes.map (Note.row eol))
  apart : ∀ note ∈ notes, ∀ t ∈ p.terms,
    t.All fun label _ hi => label ≠ .shown .emptyHole → hi ≠ note.lo

section

variable {f g f' g' : Nat → Nat}

mutual

theorem Term.moved_moved : (t : Term) → (t.moved f g).moved f' g' = t.moved (f' ∘ f) (g' ∘ g)
  | .mk label lo hi ps => by
    rw [Term.moved, Term.moved, Term.moved, movedAll_movedAll ps]
    split <;> rfl

theorem movedAll_movedAll : (ts : List Term) →
    movedAll f' g' (movedAll f g ts) = movedAll (f' ∘ f) (g' ∘ g) ts
  | [] => by rw [movedAll, movedAll, movedAll]
  | t :: ts => by rw [movedAll, movedAll, movedAll, t.moved_moved, movedAll_movedAll ts]

end

mutual

theorem Term.moved_id : (t : Term) → t.moved id id = t
  | .mk label lo hi ps => by
    rw [Term.moved, movedAll_id ps]
    simp

theorem movedAll_id : (ts : List Term) → movedAll id id ts = ts
  | [] => by rw [movedAll]
  | t :: ts => by rw [movedAll, t.moved_id, movedAll_id ts]

end

theorem mem_movedAll {ts : List Term} {t : Term} (mem : t ∈ ts) : t.moved f g ∈ movedAll f g ts := by
  induction ts with
  | nil => cases mem
  | cons u ts ih =>
    rw [movedAll]
    rcases List.mem_cons.mp mem with rfl | mem
    · exact List.mem_cons_self
    · exact List.mem_cons_of_mem _ (ih mem)

section

variable {P : Label → Nat → Nat → Prop}

mutual

theorem Term.all_of_moved : (t : Term) → (t.moved f g).All P → t.All fun label lo hi =>
    P label (f lo) (if label = .shown .emptyHole then f hi else g hi)
  | .mk label lo hi ps, h => by
    rw [Term.moved] at h
    obtain ⟨here, inside⟩ := Term.all_mk.mp h
    exact .mk here (all_of_movedAll ps inside)

theorem all_of_movedAll : (ts : List Term) → (∀ t ∈ movedAll f g ts, t.All P) →
    ∀ t ∈ ts, t.All fun label lo hi =>
      P label (f lo) (if label = .shown .emptyHole then f hi else g hi)
  | [], _ => nofun
  | t :: ts, h => by
    rw [movedAll] at h
    obtain ⟨first, rest⟩ := List.forall_mem_cons.mp h
    exact List.forall_mem_cons.mpr ⟨t.all_of_moved first, all_of_movedAll ts rest⟩

end

end

end

section

variable {rows : List RowAt} {x : Nat} {w : Text}

theorem startAfter_snoc (n : Nat) : startAfter (rows ++ [(x, w)]) n =
    movedStart (startAfter rows x) (bytes w) (startAfter rows n) := by
  have one : gained bytes (· ≤ n) [(x, w)] = if x ≤ n then bytes w else 0 := by simp [gained]
  have iff : startAfter rows x ≤ startAfter rows n ↔ x ≤ n := startAfter_le_iff
  unfold movedStart
  unfold startAfter at iff ⊢
  rw [gained_append, one]
  split <;> split <;> omega

theorem stopAfter_snoc (n : Nat) : stopAfter (rows ++ [(x, w)]) n =
    movedEnd (startAfter rows x) (bytes w) (stopAfter rows n) := by
  have one : gained bytes (· < n) [(x, w)] = if x < n then bytes w else 0 := by simp [gained]
  have iff : startAfter rows x < stopAfter rows n ↔ x < n := startAfter_lt_stopAfter_iff
  unfold movedEnd
  unfold startAfter stopAfter at iff ⊢
  rw [gained_append, one]
  split <;> split <;> omega

/-- A row lies between what ends and what starts at its offset. -/
theorem row_fits (mem : (x, w) ∈ rows) : stopAfter rows x + bytes w ≤ startAfter rows x := by
  have split : gained bytes (· < x) rows + bytes w ≤ gained bytes (· ≤ x) rows := by
    induction rows with
    | nil => cases mem
    | cons r rows ih =>
      have mono : gained bytes (· < x) rows ≤ gained bytes (· ≤ x) rows := gained_mono
        fun r _ lt => decide_eq_true (Nat.le_of_lt (of_decide_eq_true lt))
      rw [gained_cons, gained_cons]
      rcases List.mem_cons.mp mem with rfl | mem
      · simp only [Nat.lt_irrefl, decide_false, Nat.le_refl, decide_true, if_true]
        simp only [Bool.false_eq_true, if_false]
        omega
      · have := ih mem
        by_cases lt : r.1 < x
        · rw [if_pos (decide_eq_true lt), if_pos (decide_eq_true (Nat.le_of_lt lt))]
          omega
        · rw [if_neg (fun h => lt (of_decide_eq_true h))]
          omega
  unfold startAfter stopAfter
  omega

end

theorem Note.size_lt (eol : LineEnding) (note : Note) : 2 + bytes note.body < bytes (note.row eol).2 := by
  have slash : '/'.utf8Size = 1 := rfl
  have ends : 0 < bytes eol.text := by cases eol <;> decide
  simp only [Note.row, Gap.row, bytes_cons, bytes_append, slash]
  omega

namespace Program.Regains

variable {p p' p'' : Program} {eol : LineEnding} {notes : List Note} {note : Note}

theorem nil (p : Program) (eol : LineEnding) : p.Regains eol [] p := by
  have start : startAfter [] = id := funext fun n => Nat.add_zero n
  have stop : stopAfter [] = id := funext fun n => Nat.add_zero n
  refine ⟨?_, ?_, fun r => ?_, nofun⟩
  · rw [List.map_nil, start, stop, movedAll_id]
  · rw [List.map_nil, start, stop]
    exact (List.map_id _).symm
  · rw [List.map_nil, start, stop]
    simp [Remark.moved]

/-- One more note, behind all the others. -/
theorem snoc (regains : p.Regains eol notes p')
    (gains : p'.Gains (startAfter (notes.map (Note.row eol)) note.lo) (bytes (note.row eol).2)
      ⟨.line, note.body, startAfter (notes.map (Note.row eol)) note.lo,
        startAfter (notes.map (Note.row eol)) note.lo + 2 + bytes note.body⟩ p'')
    (behind : ∀ n ∈ notes, n.lo < note.lo) : p.Regains eol (notes ++ [note]) p'' := by
  generalize rows_eq : notes.map (Note.row eol) = rows at gains
  have rows' : (notes ++ [note]).map (Note.row eol) = rows ++ [(note.lo, (note.row eol).2)] := by
    rw [List.map_append, rows_eq]
    rfl
  have start : startAfter (rows ++ [(note.lo, (note.row eol).2)]) =
      movedStart (startAfter rows note.lo) (bytes (note.row eol).2) ∘ startAfter rows :=
    funext startAfter_snoc
  have stop : stopAfter (rows ++ [(note.lo, (note.row eol).2)]) =
      movedEnd (startAfter rows note.lo) (bytes (note.row eol).2) ∘ stopAfter rows :=
    funext stopAfter_snoc
  have free : stopAfter rows note.lo = startAfter rows note.lo := by
    refine stopAfter_eq_startAfter fun r mem => ?_
    rw [← rows_eq] at mem
    obtain ⟨n, held, rfl⟩ := List.mem_map.mp mem
    exact Nat.ne_of_lt (behind n held)
  obtain ⟨terms, stretches, remarks, apart⟩ := regains
  rw [rows_eq] at terms stretches remarks
  refine ⟨?_, ?_, fun r => ?_, fun n mem t ht => ?_⟩
  · rw [rows', start, stop, gains.terms, terms, movedAll_movedAll]
  · rw [rows', start, stop, gains.stretches, stretches, List.map_map]
    rfl
  · have here : note.remark (rows ++ [(note.lo, (note.row eol).2)]) = ⟨.line, note.body,
        startAfter rows note.lo, startAfter rows note.lo + 2 + bytes note.body⟩ := by
      unfold Note.remark
      rw [stopAfter_snoc, free, movedEnd, if_neg (Nat.lt_irrefl _)]
    have before : ∀ n ∈ notes, (n.remark rows).moved
        (movedStart (startAfter rows note.lo) (bytes (note.row eol).2))
        (movedEnd (startAfter rows note.lo) (bytes (note.row eol).2)) =
          n.remark (rows ++ [(note.lo, (note.row eol).2)]) := fun n mem => by
      have lt := behind n mem
      have held : (n.lo, (n.row eol).2) ∈ rows := rows_eq ▸ List.mem_map_of_mem mem
      have fits := row_fits held
      have size := n.size_lt eol
      have past : startAfter rows n.lo < startAfter rows note.lo := startAfter_lt lt
      unfold Note.remark
      rw [stopAfter_snoc]
      unfold Remark.moved movedStart movedEnd
      dsimp only
      rw [if_neg (by omega), if_neg (by omega), if_neg (by omega)]
    rw [rows', gains.remarks]
    constructor
    · rintro (rfl | ⟨o, held, rfl⟩)
      · exact .inr ⟨note, List.mem_append_right _ List.mem_cons_self, here.symm⟩
      · rcases (remarks o).mp held with ⟨q, mem, rfl⟩ | ⟨n, mem, rfl⟩
        · exact .inl ⟨q, mem, by rw [start, stop]; rfl⟩
        · exact .inr ⟨n, List.mem_append_left _ mem, before n mem⟩
    · rintro (⟨q, mem, rfl⟩ | ⟨n, mem, rfl⟩)
      · exact .inr ⟨_, (remarks _).mpr (.inl ⟨q, mem, rfl⟩), by rw [start, stop]; rfl⟩
      · rcases List.mem_append.mp mem with mem | mem
        · exact .inr ⟨_, (remarks _).mpr (.inr ⟨n, mem, rfl⟩), (before n mem).symm⟩
        · rw [List.mem_singleton.mp mem]
          exact .inl here
  · rcases List.mem_append.mp mem with mem | mem
    · exact apart n mem t ht
    · rw [List.mem_singleton.mp mem]
      have there := Term.all_of_moved t (gains.apart (t.moved _ _) (terms ▸ mem_movedAll ht))
      refine there.imp fun label lo hi h full same => h full ?_
      rw [if_neg full, same, free]

end Program.Regains

theorem lastLine_congr {a b : Text} (h : lastLine a = lastLine b) (m : Text) :
    lastLine (a ++ m) = lastLine (b ++ m) := by
  by_cases breaks : '\n' ∈ m
  · rw [lastLine_append breaks, lastLine_append breaks]
  · rw [lastLine_append_free breaks, lastLine_append_free breaks, h]

theorem lastLine_row (a body : Text) (eol : LineEnding) {indent : Text} (blank : Run indent) :
    lastLine (a ++ Gap.row body eol indent) = indent := by
  have free : '\n' ∉ indent := fun mem => absurd (blank '\n' mem) (by decide)
  obtain ⟨e, ends⟩ : ∃ e, eol.text = e ++ ['\n'] := by
    cases eol
    · exact ⟨[], rfl⟩
    · exact ⟨['\r'], rfl⟩
  have split : a ++ Gap.row body eol indent = a ++ '/' :: '/' :: (body ++ eol.text) ++ indent := by
    unfold Gap.row
    simp only [List.append_assoc, List.cons_append]
  rw [split]
  exact Text.lastLine_eq (.inr ⟨a ++ '/' :: '/' :: (body ++ e), by rw [ends]; simp⟩) free

/-- One note after another. -/
theorem Program.read?_notes_from {d : Dialect} (untyped : d.typed = false) {source : Text} {p : Program}
    {eol : LineEnding} {done todo : List Note} {a front t u : Text} {p₁ : Program}
    (whole : source = a ++ t) (line : lastLine front = lastLine a)
    (size : bytes front = startAfter (done.map (Note.row eol)) (bytes a))
    (low : ∀ n ∈ done, n.lo ≤ bytes a)
    (read : Program.read? d (front ++ t) = some p₁) (regains : p.Regains eol done p₁)
    (weaves : Weaves (todo.map (Note.row eol)) (bytes a) t u)
    (fits : ∀ n ∈ todo, n.Fits source p) (order : (done ++ todo).Pairwise (·.lo < ·.lo)) :
    ∃ p', Program.read? d (front ++ u) = some p' ∧ p.Regains eol (done ++ todo) p' := by
  induction todo generalizing done a front t u p₁ with
  | nil =>
    cases weaves
    exact ⟨p₁, read, by rwa [List.append_nil]⟩
  | cons note todo ih =>
    obtain ⟨plain, ⟨st, mem, start, fresh⟩, blank, b, c, split, place, indent⟩ :=
      fits note List.mem_cons_self
    generalize rows_eq : (note :: todo).map (Note.row eol) = rows at weaves
    cases weaves with
    | nil => cases rows_eq
    | @row rows _ m w t u behind =>
      obtain ⟨here, rfl⟩ := List.cons.inj rows_eq
      obtain ⟨lo, rfl⟩ := Prod.mk.inj here
      have before : ∀ n ∈ done, n.lo < note.lo := fun n held =>
        (List.pairwise_append.mp order).2.2 n held note List.mem_cons_self
      -- the text in front of the target, in the source and now
      obtain ⟨rfl, -⟩ : b = a ++ m ∧ c = t := by
        refine append_inj_bytes (split.symm.trans (whole.trans (List.append_assoc ..).symm)) ?_
        rw [place, lo, bytes_append]
      have line' := lastLine_congr line m
      have size' : bytes (front ++ m) = startAfter (done.map (Note.row eol)) note.lo := by
        have same : gained bytes (· ≤ bytes a) (done.map (Note.row eol)) =
            gained bytes (· ≤ note.lo) (done.map (Note.row eol)) := by
          refine gained_congr fun r held => ?_
          obtain ⟨n, done, rfl⟩ := List.mem_map.mp held
          exact decide_eq_decide.mpr (iff_of_true (low n done) (Nat.le_of_lt (before n done)))
        unfold startAfter at size ⊢
        rw [bytes_append, size, same, lo]
        omega
      rw [← List.append_assoc] at read
      obtain ⟨p₂, read', gains⟩ := Program.read?_row untyped eol read ⟨st.moved _ _, by
          rw [regains.stretches]
          exact List.mem_map_of_mem mem, by
          rw [size', ← start]
          rfl, fresh⟩ (by rw [line', ← indent]; exact blank) plain blank
      rw [size'] at gains
      have regains' := regains.snoc gains before
      have low' : ∀ n ∈ done ++ [note], n.lo ≤ bytes (a ++ m) := fun n held => by
        rw [bytes_append, ← lo]
        rcases List.mem_append.mp held with held | held
        · exact Nat.le_of_lt (before n held)
        · rw [List.mem_singleton.mp held]
      have shorter : done ++ note :: todo = done ++ [note] ++ todo := by simp
      rw [shorter] at order ⊢
      have final := @ih (done ++ [note]) (a ++ m) (front ++ m ++ Gap.row note.body eol note.indent) t u p₂
        (by rw [whole, List.append_assoc]) ?_ ?_ low' ?_ regains' ?_
        (fun n held => fits n (List.mem_cons_of_mem _ held)) order
      · obtain ⟨p', read'', regains''⟩ := final
        refine ⟨p', ?_, regains''⟩
        rw [← read'']
        simp only [List.append_assoc]
      · rw [lastLine_row _ _ _ blank, indent]
      · rw [List.map_append, List.map_singleton, bytes_append a m, ← lo, bytes_append, size']
        refine (Eq.trans (startAfter_snoc _) ?_).symm
        rw [movedStart, if_pos (Nat.le_refl _)]
      · rw [← read']
        simp only [List.append_assoc]
      · rw [bytes_append]
        exact behind

/-- Line comments above lines that a token starts: the same is read, and the comments. -/
theorem Program.read?_notes {d : Dialect} (untyped : d.typed = false) {source text : Text}
    {p : Program} {eol : LineEnding} {notes : List Note} (read : Program.read? d source = some p)
    (weaves : Weaves (notes.map (Note.row eol)) 0 source text) (fits : ∀ n ∈ notes, n.Fits source p)
    (order : notes.Pairwise (·.lo < ·.lo)) :
    ∃ p', Program.read? d text = some p' ∧ p.Regains eol notes p' :=
  @read?_notes_from d untyped source p eol [] notes [] [] source text p rfl rfl rfl nofun read (.nil p eol)
    weaves fits order

end Quell.Grammar
