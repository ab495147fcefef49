import Quell.Proofs.Text.Offsets
import Quell.Text.Blank

/-!
The last line of a text, and runs of blanks.
-/
namespace Quell.Text

theorem splitLast?_eq_none {sep : Char} {t : Text} : splitLast? sep t = none ↔ sep ∉ t := by
  induction t with
  | nil => simp [splitLast?]
  | cons c cs ih =>
    rw [splitLast?]
    cases found : splitLast? sep cs with
    | some x =>
      have mem : sep ∈ cs := by
        by_contra free
        rw [ih.mpr free] at found
        cases found
      simp [mem]
    | none =>
      have free := ih.mp found
      by_cases here : c = sep
      · simp [here]
      · simp [here, free, Ne.symm here]

theorem splitLast?_eq_some {sep : Char} {t a b : Text} (h : splitLast? sep t = some (a, b)) :
    t = a ++ sep :: b ∧ sep ∉ b := by
  induction t generalizing a with
  | nil => cases h
  | cons c cs ih =>
    rw [splitLast?] at h
    split at h
    · rename_i x y found
      cases h
      obtain ⟨rfl, free⟩ := ih found
      exact ⟨rfl, free⟩
    · rename_i absent
      split at h
      · rename_i here
        cases h
        exact ⟨by rw [here]; rfl, splitLast?_eq_none.mp absent⟩
      · cases h

theorem lastLine_spec (t : Text) :
    ∃ a, t = a ++ lastLine t ∧ '\n' ∉ lastLine t ∧ (a = [] ∨ ∃ x, a = x ++ ['\n']) := by
  unfold lastLine
  cases found : splitLast? '\n' t with
  | some x =>
    obtain ⟨a, b⟩ := x
    obtain ⟨rfl, free⟩ := splitLast?_eq_some found
    exact ⟨a ++ ['\n'], by simp, free, .inr ⟨a, rfl⟩⟩
  | none => exact ⟨[], rfl, splitLast?_eq_none.mp found, .inl rfl⟩

theorem eq_nil_of_lineStart {b m : Text} (start : b ++ m = [] ∨ ∃ x, b ++ m = x ++ ['\n'])
    (free : '\n' ∉ m) : m = [] := by
  rcases start with e | ⟨x, e⟩
  · exact (List.append_eq_nil_iff.mp e).2
  · rcases List.eq_nil_or_concat m with rfl | ⟨y, c, rfl⟩
    · rfl
    · obtain rfl : c = '\n' := by
        have last := congrArg List.getLast? e
        simpa using last
      exact absurd (by simp) free

theorem lastLine_eq {a w : Text} (start : a = [] ∨ ∃ x, a = x ++ ['\n']) (free : '\n' ∉ w) :
    lastLine (a ++ w) = w := by
  obtain ⟨b, eq, free', start'⟩ := lastLine_spec (a ++ w)
  generalize lastLine (a ++ w) = l at eq free'
  rcases List.append_eq_append_iff.mp eq with ⟨m, rfl, rfl⟩ | ⟨m, rfl, rfl⟩
  · have none : m = [] := eq_nil_of_lineStart start' fun mem => free (List.mem_append_left l mem)
    rw [none, List.nil_append]
  · have none : m = [] := eq_nil_of_lineStart start fun mem => free' (List.mem_append_left w mem)
    rw [none, List.nil_append]

end Quell.Text
