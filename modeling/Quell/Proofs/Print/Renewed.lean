import Quell.Proofs.Annotate.Stems
import Quell.Proofs.Print.Ahead

/-!
Revised comments read otherwise.

A comment with a rule more may be shorter than it was, for spaces and rules that are named twice go.
But a block comment does not hold what it becomes (`Comment.delimit_block_ne`), and a line comment
holds it only in front of something else (`Comment.delimit_line_part`).
-/
namespace Quell

open Text Relation Grammar

theorem Text.solid_of_firm {t : Text} (firm : Firm t) : solid t = t := by
  obtain ⟨c, last, dark⟩ := firm
  obtain ⟨front, rfl⟩ := List.getLast?_eq_some_iff.mp last
  have ink : Page.isSpaceOrTab c = false := by
    cases blank : Page.isSpaceOrTab c with
    | false => rfl
    | true => 
      rw [isBlank_of_isSpaceOrTab blank] at dark
      cases dark
  rw [solid_append_cons ink]
  rfl

namespace Comment

variable {source : Text} {c : Comment} {old new : Text} {s : Span}

theorem delimit_block_ne (holds : Holds .block old) (grown : Directive.Regrown .block old new)
    (d v : Text) : delimit .block old ≠ d ++ delimit .block new ++ v := by
  intro same
  -- the closing delimiter is the first one, so it ends both
  obtain rfl : v = [] := by
    rcases List.eq_nil_or_concat v with h | ⟨u, e, rfl⟩
    · exact h
    · obtain ⟨x, y, w, front⟩ : ∃ x y w, d ++ '/' :: '*' :: new = x :: y :: w := by
        cases d with
        | nil => exact ⟨_, _, _, rfl⟩
        | cons x d =>
          cases d with
          | nil => exact ⟨_, _, _, rfl⟩
          | cons y d => exact ⟨_, _, _, rfl⟩
      have split : '/' :: '*' :: (old ++ ['*'] ++ ['/']) = x :: y :: (w ++ ['*', '/'] ++ u ++ [e]) := by
        have regroup : d ++ delimit .block new ++ u.concat e =
            (d ++ '/' :: '*' :: new) ++ ['*', '/'] ++ u ++ [e] := by
          simp [delimit]
        rw [regroup, front] at same
        simpa [delimit] using same
      obtain ⟨-, -, inner⟩ : _ ∧ _ ∧ old ++ ['*'] ++ ['/'] = w ++ ['*', '/'] ++ u ++ [e] := by
        simpa using split
      have inside := List.append_inj_left' inner rfl
      exact absurd ⟨w, u, inside.symm⟩ holds.not_infix_star
  have whole : ('/' :: '*' :: old) ++ ['*', '/'] = (d ++ ['/', '*'] ++ new) ++ ['*', '/'] := by
    simpa [delimit] using same
  have bodies := List.append_cancel_right whole
  refine grown.body_ne (o := ['/', '*']) (a := d ++ ['/', '*']) (w := []) (by decide) rfl ?_
  simpa using bodies

theorem delimit_line_part (holds : Holds .line old) (grown : Directive.Regrown .line old new)
    {d v : Text} (same : solid (delimit .line old) = d ++ delimit .line new ++ v) :
    ∃ e ∈ v.head?, isLineEnd e = false := by
  cases v with
  | nil =>
    obtain ⟨w, whole, run⟩ := solid_split (delimit .line old)
    rw [same] at whole
    refine absurd ?_ (grown.body_ne (o := ['/', '/']) (a := d ++ ['/', '/']) (w := w) (by decide)
      (Run.allBlank run))
    simpa [delimit] using whole
  | cons e v =>
    refine ⟨e, rfl, ?_⟩
    have mem : e ∈ delimit .line old := (solid_starts _).subset (by rw [same]; simp)
    rcases (by simpa [delimit] using mem : e = '/' ∨ e ∈ old) with rfl | mem
    · decide
    · exact holds e mem

theorem firm_regrown {kind : CommentKind} (grown : Directive.Regrown kind old new) :
    Firm (delimit kind new) := by
  obtain ⟨d, more, parsed, -, -, listed, rfl⟩ := grown
  have trimmed := Directive.explanation_of_parse parsed
  have clean : Directive.Clean { d with rules := d.rules ++ more } := ⟨listed, trimmed⟩
  cases kind with
  | line => exact Firm.append ['/', '/'] clean.firm
  | block =>
    refine Firm.append ('/' :: '*' :: _) ⟨'/', rfl, by decide⟩

/-- A comment of the source takes up its delimiters at least. -/
theorem Stems.wide (stems : c.Stems source) (span : c.span = some s) : s.lo + 2 ≤ s.hi := by
  obtain ⟨old, found, -⟩ := stems s span
  have long := slice?_bytes found
  have slash : ('/' : Char).utf8Size = 1 := by decide
  have star : ('*' : Char).utf8Size = 1 := by decide
  cases kind : c.kind with
  | line =>
    rw [kind, delimit, bytes_cons, bytes_cons] at long
    omega
  | block =>
    rw [kind, delimit, List.cons_append, List.cons_append, bytes_cons, bytes_cons] at long
    omega

def revision (c : Comment) (s : Span) : Revision := ⟨s.lo, s.hi, c.render⟩

theorem Stems.tight (stems : c.Stems source) (span : c.span = some s) (revised : c.revised = true)
    (kind : c.kind = .block) : (c.revision s).Tight source := by
  obtain ⟨old, found, holds, -, grown⟩ := stems s span
  have grown := grown revised
  intro old' found' d v
  cases found.symm.trans found'
  rw [kind] at holds grown ⊢
  have firm : Firm (delimit .block old) := Firm.append ('/' :: '*' :: old) ⟨'/', rfl, by decide⟩
  rw [solid_of_firm firm]
  have text : (c.revision s).text = delimit .block c.text := by
    rw [← kind]
    rfl
  rw [text]
  exact delimit_block_ne holds grown d v

theorem Stems.renewed (stems : c.Stems source) (span : c.span = some s) (revised : c.revised = true)
    (ends : c.kind = .line → ∀ a b, source = a ++ b → bytes a = s.hi →
      ∀ e ∈ b.head?, isLineEnd e = true) : (c.revision s).Renewed source := by
  obtain ⟨old, found, holds, -, grown⟩ := id stems s span
  have grown := grown revised
  have slashed : ∀ (kind : CommentKind) body, ∃ z, delimit kind body = '/' :: z := by
    intro kind body
    cases kind <;> exact ⟨_, rfl⟩
  refine ⟨?_, slashed _ _, solid_of_firm (firm_regrown grown), ?_, ?_⟩
  · obtain ⟨y, e⟩ := slashed c.kind old
    exact ⟨y, e ▸ found⟩
  · intro old' d v found' same
    cases kind : c.kind with
    | line => 
      cases found.symm.trans found'
      have text : (c.revision s).text = delimit .line c.text := by
        rw [← kind]
        rfl
      rw [kind] at holds grown same
      exact delimit_line_part holds grown (text ▸ same)
    | block => exact absurd same (stems.tight span revised kind old' found' d v)
  · cases kind : c.kind with
    | line => exact .inr (ends kind)
    | block => exact .inl (stems.tight span revised kind)

end Comment

end Quell
