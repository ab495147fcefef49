import Quell.Proofs.Text.Offsets

/-!
Rows woven into a text.

A row is a text with the offset at which it is put in. What starts at or behind that offset moves on by
the size of the row (`startAfter`), what ends there stays (`stopAfter`).
-/
namespace Quell

namespace Text

abbrev RowAt := Nat × Text

/-- The sum of a measure over the rows that a test takes. -/
def gained (measure : Text → Nat) (passes : Nat → Bool) (rows : List RowAt) : Nat :=
  rows.foldr (fun r n => (if passes r.1 then measure r.2 else 0) + n) 0

/-- Where something starts that started at `n`. -/
def startAfter (rows : List RowAt) (n : Nat) : Nat := n + gained bytes (· ≤ n) rows

/-- Where something ends that ended at `n`. -/
def stopAfter (rows : List RowAt) (n : Nat) : Nat := n + gained bytes (· < n) rows

/-- A text that starts at an offset, with rows put in. -/
inductive Weaves : List RowAt → Nat → Text → Text → Prop
  | nil {n : Nat} {t : Text} : Weaves [] n t t
  | row {rows : List RowAt} {n : Nat} {m w t u : Text} (behind : Weaves rows (n + bytes m) t u) :
    Weaves ((n + bytes m, w) :: rows) n (m ++ t) (m ++ (w ++ u))

section Gained

variable {measure : Text → Nat} {p q : Nat → Bool} {rows : List RowAt} {m n : Nat} {r : RowAt}

theorem gained_cons : gained measure p (r :: rows) =
    (if p r.1 then measure r.2 else 0) + gained measure p rows :=
  rfl

theorem gained_append (rows' : List RowAt) :
    gained measure p (rows ++ rows') = gained measure p rows + gained measure p rows' := by
  induction rows with
  | nil => exact (Nat.zero_add _).symm
  | cons r rows ih => rw [List.cons_append, gained_cons, ih, gained_cons, Nat.add_assoc]

theorem gained_mono (h : ∀ r ∈ rows, p r.1 = true → q r.1 = true) :
    gained measure p rows ≤ gained measure q rows := by
  induction rows with
  | nil => exact Nat.le_refl 0
  | cons r rows ih =>
    rw [gained_cons, gained_cons]
    refine Nat.add_le_add ?_ (ih fun r mem => h r (List.mem_cons_of_mem _ mem))
    split
    next here => rw [if_pos (h r List.mem_cons_self here)]
    next => exact Nat.zero_le _

theorem gained_congr (h : ∀ r ∈ rows, p r.1 = q r.1) :
    gained measure p rows = gained measure q rows := by
  induction rows with
  | nil => rfl
  | cons r rows ih =>
    rw [gained_cons, gained_cons, h r List.mem_cons_self,
      ih fun r mem => h r (List.mem_cons_of_mem _ mem)]

theorem gained_eq_zero (h : ∀ r ∈ rows, p r.1 = false) : gained measure p rows = 0 := by
  induction rows with
  | nil => rfl
  | cons r rows ih =>
    rw [gained_cons, if_neg (Bool.eq_false_iff.mp (h r List.mem_cons_self)), Nat.zero_add,
      ih fun r mem => h r (List.mem_cons_of_mem _ mem)]

theorem startAfter_lt (lt : m < n) : startAfter rows m < startAfter rows n := by
  have : gained bytes (· ≤ m) rows ≤ gained bytes (· ≤ n) rows := gained_mono
    fun r _ le => decide_eq_true (Nat.le_trans (of_decide_eq_true le) (Nat.le_of_lt lt))
  unfold startAfter
  omega

theorem stopAfter_lt (lt : m < n) : stopAfter rows m < stopAfter rows n := by
  have : gained bytes (· < m) rows ≤ gained bytes (· < n) rows := gained_mono
    fun r _ le => decide_eq_true (Nat.lt_trans (of_decide_eq_true le) lt)
  unfold stopAfter
  omega

theorem startAfter_lt_stopAfter (lt : m < n) : startAfter rows m < stopAfter rows n := by
  have : gained bytes (· ≤ m) rows ≤ gained bytes (· < n) rows := gained_mono
    fun r _ le => decide_eq_true (Nat.lt_of_le_of_lt (of_decide_eq_true le) lt)
  unfold startAfter stopAfter
  omega

theorem stopAfter_le_startAfter (le : m ≤ n) : stopAfter rows m ≤ startAfter rows n := by
  have : gained bytes (· < m) rows ≤ gained bytes (· ≤ n) rows := gained_mono
    fun r _ lt => decide_eq_true (Nat.le_trans (Nat.le_of_lt (of_decide_eq_true lt)) le)
  unfold startAfter stopAfter
  omega

theorem startAfter_le_iff : startAfter rows m ≤ startAfter rows n ↔ m ≤ n := by
  constructor
  · intro le
    by_contra lt
    exact absurd (startAfter_lt (Nat.lt_of_not_le lt)) (Nat.not_lt_of_le le)
  · intro le
    rcases Nat.lt_or_eq_of_le le with lt | rfl
    · exact Nat.le_of_lt (startAfter_lt lt)
    · exact Nat.le_refl _

theorem stopAfter_le_iff : stopAfter rows m ≤ stopAfter rows n ↔ m ≤ n := by
  constructor
  · intro le
    by_contra lt
    exact absurd (stopAfter_lt (Nat.lt_of_not_le lt)) (Nat.not_lt_of_le le)
  · intro le
    rcases Nat.lt_or_eq_of_le le with lt | rfl
    · exact Nat.le_of_lt (stopAfter_lt lt)
    · exact Nat.le_refl _

theorem stopAfter_le_startAfter_iff : stopAfter rows m ≤ startAfter rows n ↔ m ≤ n := by
  refine ⟨fun le => ?_, stopAfter_le_startAfter⟩
  by_contra lt
  exact absurd (startAfter_lt_stopAfter (Nat.lt_of_not_le lt)) (Nat.not_lt_of_le le)

theorem startAfter_lt_stopAfter_iff : startAfter rows m < stopAfter rows n ↔ m < n := by
  rw [← Nat.not_le, ← Nat.not_le, stopAfter_le_startAfter_iff]

/-- Where no row is put in, nothing tells starts from ends. -/
theorem stopAfter_eq_startAfter (free : ∀ r ∈ rows, r.1 ≠ n) :
    stopAfter rows n = startAfter rows n := by
  unfold stopAfter startAfter
  rw [gained_congr fun r mem => ?_]
  have := free r mem
  exact decide_eq_decide.mpr ⟨Nat.le_of_lt, fun le => Nat.lt_of_le_of_ne le this⟩

end Gained

namespace Weaves

variable {rows : List RowAt} {n : Nat} {t u x y : Text}

theorem le_row (weaves : Weaves rows n t u) : ∀ r ∈ rows, n ≤ r.1 := by
  induction weaves with
  | nil => nofun
  | row _ ih =>
    intro r mem
    rcases List.mem_cons.mp mem with rfl | mem
    · exact Nat.le_add_right _ _
    · exact Nat.le_trans (Nat.le_add_right _ _) (ih r mem)

theorem prepend (weaves : Weaves rows (n + bytes x) t u) : Weaves rows n (x ++ t) (x ++ u) := by
  cases weaves with
  | nil => exact .nil
  | @row rows _ m w t u behind =>
    rw [← List.append_assoc, ← List.append_assoc, Nat.add_assoc, ← bytes_append]
    rw [Nat.add_assoc, ← bytes_append] at behind
    exact .row behind

theorem append {rows' : List RowAt} {t' u' : Text} (weaves : Weaves rows n t u)
    (weaves' : Weaves rows' (n + bytes t) t' u') : Weaves (rows ++ rows') n (t ++ t') (u ++ u') := by
  induction weaves with
  | nil => exact weaves'.prepend
  | row _ ih =>
    rw [List.append_assoc, List.append_assoc, List.append_assoc, List.cons_append]
    rw [bytes_append, ← Nat.add_assoc] at weaves'
    exact .row (ih weaves')

/-- The front of the new text up to where the front of the old one goes, with the rows that the test
takes. -/
theorem split (weaves : Weaves rows n (x ++ y) u) {p : Nat → Bool}
    (low : ∀ k < n + bytes x, p k = true) (high : ∀ k, n + bytes x < k → p k = false) :
    ∃ a b, u = a ++ b ∧ bytes a = bytes x + gained bytes p rows ∧
      breaks a = breaks x + gained breaks p rows := by
  generalize whole : x ++ y = t at weaves
  induction weaves generalizing x with
  | nil => exact ⟨x, y, whole.symm, rfl, rfl⟩
  | @row rows n m w t u behind ih =>
    have later := behind.le_row
    by_cases reaches : p (n + bytes m) = true
    · have le : bytes m ≤ bytes x := by
        by_contra beyond
        rw [high _ (by omega)] at reaches
        cases reaches
      obtain ⟨x', rfl, rfl⟩ := exists_middle whole.symm le
      rw [bytes_append, ← Nat.add_assoc] at low high
      obtain ⟨a, b, rfl, size, lines⟩ := ih low high rfl
      refine ⟨m ++ (w ++ a), b, by simp only [List.append_assoc], ?_, ?_⟩
      · simp only [bytes_append, gained_cons, reaches, if_true]
        omega
      · simp only [breaks_append, gained_cons, reaches, if_true]
        omega
    · have le : bytes x ≤ bytes m := by
        by_contra beyond
        exact reaches (low _ (by omega))
      obtain ⟨m', rfl, rfl⟩ := exists_middle whole le
      have none : ∀ (measure : Text → Nat),
          gained measure p ((n + bytes (x ++ m'), w) :: rows) = 0 := fun measure => by
        refine gained_eq_zero fun r mem => ?_
        rw [bytes_append] at reaches later mem
        rcases List.mem_cons.mp mem with rfl | mem
        · exact Bool.not_eq_true _ ▸ reaches
        · have := later r mem
          rcases Nat.lt_or_eq_of_le (by omega : n + bytes x ≤ r.1) with lt | e
          · exact high r.1 lt
          · rw [← e]
            have : bytes m' = 0 := by omega
            rw [this, Nat.add_zero] at reaches
            exact Bool.not_eq_true _ ▸ reaches
      exact ⟨x, m' ++ (w ++ u), by rw [List.append_assoc], by rw [none, Nat.add_zero],
        by rw [none, Nat.add_zero]⟩

end Weaves

section

variable {rows : List RowAt} {source text : Text} {n : Nat} (weaves : Weaves rows 0 source text)

include weaves

theorem Weaves.start (cut : Cut source n) : Cut text (startAfter rows n) ∧
    (LineIndex.of text).lineOf (startAfter rows n) =
      (LineIndex.of source).lineOf n + gained breaks (· ≤ n) rows := by
  obtain ⟨x, y, rfl, rfl⟩ := cut
  obtain ⟨a, b, rfl, size, lines⟩ := weaves.split (p := (· ≤ bytes x))
    (fun k lt => decide_eq_true (by omega)) fun k lt => decide_eq_false (by omega)
  have here : startAfter rows (bytes x) = bytes a := size.symm
  rw [here]
  refine ⟨⟨a, b, rfl, rfl⟩, ?_⟩
  rw [LineIndex.lineOf_cut, LineIndex.lineOf_cut, lines, Nat.add_assoc]

theorem Weaves.stop (cut : Cut source n) : Cut text (stopAfter rows n) ∧
    (LineIndex.of text).lineOf (stopAfter rows n) =
      (LineIndex.of source).lineOf n + gained breaks (· < n) rows := by
  obtain ⟨x, y, rfl, rfl⟩ := cut
  obtain ⟨a, b, rfl, size, lines⟩ := weaves.split (p := (· < bytes x))
    (fun k lt => decide_eq_true (by omega)) fun k lt => decide_eq_false (by omega)
  have here : stopAfter rows (bytes x) = bytes a := size.symm
  rw [here]
  refine ⟨⟨a, b, rfl, rfl⟩, ?_⟩
  rw [LineIndex.lineOf_cut, LineIndex.lineOf_cut, lines, Nat.add_assoc]

end

end Text

end Quell
