import Mathlib.Data.List.Basic
import Mathlib.Data.List.TakeWhile
import Quell.Text.Blank

/-!
Trimming: a text is blanks, then what trimming leaves, then blanks.
-/
namespace Quell.Text

theorem allBlank_iff {t : Text} : allBlank t = true ↔ ∀ c ∈ t, isBlank c = true := by
  simp [allBlank]

@[simp] theorem allBlank_append (a b : Text) :
    allBlank (a ++ b) = (allBlank a && allBlank b) := by
  simp [allBlank]

@[simp] theorem trimStart_nil : trimStart [] = [] := rfl

@[simp] theorem trimEnd_nil : trimEnd [] = [] := rfl

theorem trimStart_append_of_blank {w : Text} (blank : allBlank w = true) (t : Text) :
    trimStart (w ++ t) = trimStart t := by
  unfold trimStart
  rw [List.dropWhile_append_of_pos (allBlank_iff.mp blank)]

theorem trimEnd_append_of_blank {w : Text} (blank : allBlank w = true) (t : Text) :
    trimEnd (t ++ w) = trimEnd t := by
  unfold trimEnd
  rw [List.reverse_append, List.dropWhile_append_of_pos]
  intro c hc
  exact allBlank_iff.mp blank c (List.mem_reverse.mp hc)

theorem trimStart_eq_self {t : Text} : trimStart t = t ↔ ∀ c ∈ t.head?, isBlank c = false := by
  cases t with
  | nil => simp
  | cons c cs =>
    simp only [trimStart, List.head?_cons, Option.mem_some_iff, forall_eq']
    by_cases hc : isBlank c = true
    · rw [List.dropWhile_cons_of_pos hc]
      simp only [hc, reduceCtorEq, iff_false]
      intro e
      have := congrArg List.length e
      have short := (List.dropWhile_suffix (p := isBlank) (l := cs)).length_le
      simp only [List.length_cons] at this
      omega
    · simp [hc]

theorem trimEnd_eq_self {t : Text} : trimEnd t = t ↔ ∀ c ∈ t.getLast?, isBlank c = false := by
  rw [← List.head?_reverse, ← trimStart_eq_self]
  unfold trimEnd trimStart
  constructor
  · intro h
    rw [← List.reverse_reverse (List.dropWhile isBlank t.reverse), h]
  · intro h
    rw [h, List.reverse_reverse]

theorem trimStart_spec (t : Text) :
    ∃ w, t = w ++ trimStart t ∧ allBlank w = true ∧ ∀ c ∈ (trimStart t).head?, isBlank c = false := by
  refine ⟨t.takeWhile isBlank, (List.takeWhile_append_dropWhile).symm, ?_, ?_⟩
  · rw [allBlank_iff]
    intro c hc
    exact List.mem_takeWhile_imp hc
  · intro c hc
    have := List.head?_dropWhile_not isBlank t
    rw [trimStart, Option.mem_def] at hc
    rw [hc] at this
    exact this

theorem trimEnd_spec (t : Text) :
    ∃ w, t = trimEnd t ++ w ∧ allBlank w = true ∧ ∀ c ∈ (trimEnd t).getLast?, isBlank c = false := by
  obtain ⟨w, split, blank, first⟩ := trimStart_spec t.reverse
  refine ⟨w.reverse, ?_, ?_, ?_⟩
  · have := congrArg List.reverse split
    rwa [List.reverse_reverse, List.reverse_append] at this
  · rw [allBlank_iff] at blank ⊢
    exact fun c hc => blank c (List.mem_reverse.mp hc)
  · intro c hc
    rw [trimEnd, List.getLast?_reverse] at hc
    exact first c hc

theorem trim_spec (t : Text) :
    ∃ v w, t = v ++ trim t ++ w ∧ allBlank v = true ∧ allBlank w = true := by
  obtain ⟨v, split, front, -⟩ := trimStart_spec t
  obtain ⟨w, split', back, -⟩ := trimEnd_spec (trimStart t)
  exact ⟨v, w, by rw [trim, List.append_assoc, ← split', ← split], front, back⟩

theorem infix_of_trim (t : Text) : trim t <:+: t := by
  obtain ⟨v, w, split, -, -⟩ := trim_spec t
  exact ⟨v, w, split.symm⟩

theorem trimStart_idem (t : Text) : trimStart (trimStart t) = trimStart t :=
  trimStart_eq_self.mpr (trimStart_spec t).choose_spec.2.2

theorem trimEnd_idem (t : Text) : trimEnd (trimEnd t) = trimEnd t :=
  trimEnd_eq_self.mpr (trimEnd_spec t).choose_spec.2.2

theorem trimStart_trimEnd_of {t : Text} (h : trimStart t = t) : trimStart (trimEnd t) = trimEnd t := by
  obtain ⟨w, split, -, -⟩ := trimEnd_spec t
  rw [trimStart_eq_self] at h ⊢
  intro c hc
  apply h
  rw [split, List.head?_append, Option.mem_def.mp hc]
  rfl

theorem trim_idem (t : Text) : trim (trim t) = trim t := by
  unfold trim
  rw [trimStart_trimEnd_of (trimStart_idem t), trimEnd_idem]

theorem trimStart_of_trim {t : Text} (h : trim t = t) : trimStart t = t := by
  rw [← h]
  exact trimStart_trimEnd_of (trimStart_idem t)

theorem trimEnd_of_trim {t : Text} (h : trim t = t) : trimEnd t = t := by
  rw [← h]
  exact trimEnd_idem _

theorem trim_append_of_blank {w v : Text} (hw : allBlank w = true) (hv : allBlank v = true)
    (t : Text) : trim (w ++ t ++ v) = trim t := by
  unfold trim
  rw [List.append_assoc, trimStart_append_of_blank hw]
  obtain ⟨u, split, blank, first⟩ := trimStart_spec t
  by_cases empty : trimStart t = []
  · have all : allBlank (t ++ v) = true := by
      rw [split, empty, List.append_nil, allBlank_append, blank, hv]
      rfl
    have none : trimStart (t ++ v) = [] := by
      have := trimStart_append_of_blank all []
      rwa [List.append_nil] at this
    rw [none, empty]
  · have keep : trimStart (t ++ v) = trimStart t ++ v := by
      conv_lhs => rw [split, List.append_assoc, trimStart_append_of_blank blank]
      apply trimStart_eq_self.mpr
      intro c hc
      apply first
      obtain ⟨d, ds, hd⟩ := List.exists_cons_of_ne_nil empty
      rw [hd] at hc ⊢
      exact hc
    rw [keep, trimEnd_append_of_blank hv]

theorem trimStart_eq_nil {t : Text} : trimStart t = [] ↔ allBlank t = true := by
  rw [trimStart, List.dropWhile_eq_nil_iff, allBlank_iff]

theorem trimEnd_eq_nil {t : Text} : trimEnd t = [] ↔ allBlank t = true := by
  unfold trimEnd
  rw [List.reverse_eq_nil_iff, List.dropWhile_eq_nil_iff, allBlank_iff]
  simp only [List.mem_reverse]

end Quell.Text
