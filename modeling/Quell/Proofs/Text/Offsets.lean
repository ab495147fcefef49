import Mathlib.Data.List.Basic
import Mathlib.Data.List.TakeWhile
import Quell.Comment
import Quell.Text.Lines

/-!
Byte offsets as cuts of a text.

An offset is usable exactly when it cuts the text in two, and a slice between two cuts is what
stands between them. Everything later speaks about cuts and never about bytes inside a character.
The line of a cut is one more than the line feeds in front of it.
-/
namespace Quell
namespace Text

/-- What holds of each character of a text is decided along the text, never by trying every
character there is. -/
instance (priority := high) decidableForallMem (t : Text) (p : Char → Prop) [DecidablePred p] :
    Decidable (∀ c ∈ t, p c) :=
  List.decidableBAll p t

/-- The offset stands between two characters of the text, or at one of its ends. -/
def Cut (t : Text) (n : Nat) : Prop := ∃ a b, t = a ++ b ∧ bytes a = n

@[simp] theorem bytes_nil : bytes [] = 0 := rfl

@[simp] theorem bytes_cons (c : Char) (cs : Text) : bytes (c :: cs) = c.utf8Size + bytes cs := rfl

theorem bytes_eq_zero {t : Text} : bytes t = 0 ↔ t = [] := by
  cases t with
  | nil => simp
  | cons c cs =>
    have := c.utf8Size_pos
    simp only [bytes_cons, reduceCtorEq, iff_false]
    omega

theorem bytes_pos {t : Text} (h : t ≠ []) : 0 < bytes t :=
  Nat.pos_of_ne_zero fun zero => h (bytes_eq_zero.mp zero)

theorem dropBytes?_eq_some {n : Nat} {t b : Text} :
    dropBytes? n t = some b ↔ ∃ a, t = a ++ b ∧ bytes a = n := by
  constructor
  · intro h
    induction t generalizing n with
    | nil =>
      cases n with
      | zero => exact ⟨[], (Option.some.inj h), rfl⟩
      | succ n => cases h
    | cons c cs ih =>
      cases n with
      | zero => exact ⟨[], (Option.some.inj h), rfl⟩
      | succ n =>
        rw [dropBytes?] at h
        split at h
        · rename_i fits
          obtain ⟨a, rfl, ha⟩ := ih h
          exact ⟨c :: a, rfl, by rw [bytes_cons, ha]; omega⟩
        · cases h
  · rintro ⟨a, rfl, rfl⟩
    exact dropBytes?_append a b

theorem takeBytes?_eq_some {n : Nat} {t a : Text} :
    takeBytes? n t = some a ↔ ∃ b, t = a ++ b ∧ bytes a = n := by
  constructor
  · intro h
    induction t generalizing n a with
    | nil =>
      cases n with
      | zero => exact ⟨[], by cases h; rfl, by cases h; rfl⟩
      | succ n => cases h
    | cons c cs ih =>
      cases n with
      | zero => exact ⟨c :: cs, by cases h; rfl, by cases h; rfl⟩
      | succ n =>
        rw [takeBytes?] at h
        split at h
        · rename_i fits
          obtain ⟨a', ha', rfl⟩ := Option.map_eq_some_iff.mp h
          obtain ⟨b, rfl, hb⟩ := ih ha'
          exact ⟨b, rfl, by rw [bytes_cons, hb]; omega⟩
        · cases h
  · rintro ⟨b, rfl, rfl⟩
    exact takeBytes?_append a b

/-- A slice is the middle of a text cut in three. -/
theorem slice?_eq_some {lo hi : Nat} {t m : Text} :
    slice? lo hi t = some m ↔ ∃ a b, t = a ++ m ++ b ∧ bytes a = lo ∧ lo + bytes m = hi := by
  constructor
  · intro h
    unfold slice? at h
    split at h
    · rename_i le
      obtain ⟨r, hr, hm⟩ := Option.bind_eq_some_iff.mp h
      obtain ⟨a, rfl, ha⟩ := dropBytes?_eq_some.mp hr
      obtain ⟨b, rfl, hb⟩ := takeBytes?_eq_some.mp hm
      exact ⟨a, b, by rw [List.append_assoc], ha, by omega⟩
    · cases h
  · rintro ⟨a, b, rfl, rfl, rfl⟩
    exact slice?_append a m b

theorem isBoundary_iff {n : Nat} {t : Text} : isBoundary n t = true ↔ Cut t n := by
  unfold isBoundary Cut
  rw [Option.isSome_iff_exists]
  constructor
  · rintro ⟨b, hb⟩
    obtain ⟨a, ha, hn⟩ := dropBytes?_eq_some.mp hb
    exact ⟨a, b, ha, hn⟩
  · rintro ⟨a, b, ha, hn⟩
    exact ⟨b, dropBytes?_eq_some.mpr ⟨a, ha, hn⟩⟩

theorem exists_middle {a b a' b' : Text} (same : a ++ b = a' ++ b') (le : bytes a ≤ bytes a') :
    ∃ m, a' = a ++ m ∧ b = m ++ b' := by
  rcases List.append_eq_append_iff.mp same with ⟨m, ha', hb⟩ | ⟨m, ha, hb'⟩
  · exact ⟨m, ha', hb⟩
  · have none : m = [] := by
      apply bytes_eq_zero.mp
      rw [ha, bytes_append] at le
      omega
    subst none
    exact ⟨[], by simpa using ha.symm, by simpa using hb'.symm⟩

theorem append_inj_bytes {a b a' b' : Text} (same : a ++ b = a' ++ b')
    (eq : bytes a = bytes a') : a = a' ∧ b = b' := by
  obtain ⟨m, ha', hb⟩ := exists_middle same (Nat.le_of_eq eq)
  have none : m = [] := by
    apply bytes_eq_zero.mp
    rw [ha', bytes_append] at eq
    omega
  subst none
  exact ⟨by simpa using ha'.symm, by simpa using hb⟩

namespace Cut

variable {t : Text} {m n : Nat}

theorem zero (t : Text) : Cut t 0 := ⟨[], t, rfl, rfl⟩

theorem full (t : Text) : Cut t (bytes t) := ⟨t, [], (List.append_nil t).symm, rfl⟩

theorem le_bytes (h : Cut t n) : n ≤ bytes t := by
  obtain ⟨a, b, rfl, rfl⟩ := h
  rw [bytes_append]
  omega

theorem min_bytes (h : Cut t n) : min n (bytes t) = n := Nat.min_eq_left h.le_bytes

/-- Between two cuts there is a slice. -/
theorem slice (lo : Cut t m) (hi : Cut t n) (le : m ≤ n) : ∃ s, slice? m n t = some s := by
  obtain ⟨a, b, rfl, rfl⟩ := lo
  obtain ⟨a', b', same, rfl⟩ := hi
  obtain ⟨s, rfl, rfl⟩ := exists_middle same le
  exact ⟨s, slice?_eq_some.mpr ⟨a, b', by rw [List.append_assoc], rfl, by rw [bytes_append]⟩⟩

end Cut

theorem slice?_cuts {lo hi : Nat} {t m : Text} (h : slice? lo hi t = some m) :
    Cut t lo ∧ Cut t hi ∧ lo ≤ hi := by
  obtain ⟨a, b, rfl, rfl, rfl⟩ := slice?_eq_some.mp h
  exact ⟨⟨a, m ++ b, by rw [List.append_assoc], rfl⟩, ⟨a ++ m, b, rfl, bytes_append a m⟩,
    Nat.le_add_right _ _⟩

theorem slice?_bytes {lo hi : Nat} {t m : Text} (h : slice? lo hi t = some m) :
    lo + bytes m = hi := by
  obtain ⟨_, _, _, _, e⟩ := slice?_eq_some.mp h
  exact e

theorem slice?_join {lo mid hi : Nat} {t x y : Text} (hx : slice? lo mid t = some x)
    (hy : slice? mid hi t = some y) : slice? lo hi t = some (x ++ y) := by
  obtain ⟨a, b, rfl, rfl, rfl⟩ := slice?_eq_some.mp hx
  obtain ⟨a', b', same, ha', rfl⟩ := slice?_eq_some.mp hy
  have front : a ++ x = a' := by
    rw [List.append_assoc a' y b'] at same
    exact (append_inj_bytes same (by rw [bytes_append, ha'])).1
  subst front
  exact slice?_eq_some.mpr ⟨a, b', by rw [same]; simp only [List.append_assoc], rfl,
    by rw [bytes_append]; omega⟩

theorem slice?_part {lo hi : Nat} {t x y z : Text} (h : slice? lo hi t = some (x ++ y ++ z)) :
    slice? (lo + bytes x) (lo + bytes x + bytes y) t = some y := by
  obtain ⟨a, b, rfl, rfl, -⟩ := slice?_eq_some.mp h
  exact slice?_eq_some.mpr ⟨a ++ x, z ++ b, by simp only [List.append_assoc],
    by rw [bytes_append], rfl⟩

end Text

namespace LineIndex

open Text

theorem lt_of_mem_startsFrom {start n : Nat} {t : Text} (h : n ∈ startsFrom start t) :
    start < n := by
  induction t generalizing start with
  | nil => cases h
  | cons c cs ih =>
    have pos := c.utf8Size_pos
    have later : n ∈ startsFrom (start + c.utf8Size) cs → start < n := fun h => by
      have := ih h
      omega
    by_cases hc : c = '\n'
    · rw [startsFrom, if_pos hc] at h
      rcases List.mem_cons.mp h with rfl | h
      · omega
      · exact later h
    · rw [startsFrom, if_neg hc] at h
      exact later h

theorem countP_startsFrom (a b : Text) (start : Nat) :
    (startsFrom start (a ++ b)).countP (· ≤ start + bytes a) = breaks a := by
  induction a generalizing start with
  | nil =>
    apply List.countP_eq_zero.mpr
    intro n hn low
    have behind := lt_of_mem_startsFrom hn
    have : n ≤ start + bytes [] := of_decide_eq_true low
    rw [bytes_nil] at this
    omega
  | cons c cs ih =>
    have tail := ih (start + c.utf8Size)
    rw [Nat.add_assoc, ← bytes_cons] at tail
    by_cases hc : c = '\n'
    · have here : start + c.utf8Size ≤ start + bytes (c :: cs) := by
        rw [bytes_cons]
        omega
      rw [List.cons_append, startsFrom, if_pos hc,
        List.countP_cons_of_pos (by exact decide_eq_true here), tail, hc]
      simp [breaks]
    · rw [List.cons_append, startsFrom, if_neg hc, tail]
      simp [breaks, hc]

theorem lineOf_cut (a b : Text) : (of (a ++ b)).lineOf (bytes a) = 1 + breaks a := by
  have tail := countP_startsFrom a b 0
  rw [Nat.zero_add] at tail
  simp only [lineOf, of, List.countP_cons, tail]
  simp [Nat.add_comm]

theorem lineOf_mono (index : LineIndex) {m n : Nat} (le : m ≤ n) :
    index.lineOf m ≤ index.lineOf n := by
  apply List.countP_mono_left
  intro s _ hs
  have : s ≤ m := of_decide_eq_true hs
  exact decide_eq_true (Nat.le_trans this le)

end LineIndex

open Text

theorem Text.breaks_append (a b : Text) : breaks (a ++ b) = breaks a + breaks b := List.count_append

theorem LineEnding.breaks_text (eol : LineEnding) : breaks eol.text = 1 := by cases eol <;> rfl

theorem lineOf_slice {source m : Text} {lo hi : Nat} (h : slice? lo hi source = some m) :
    (LineIndex.of source).lineOf hi = (LineIndex.of source).lineOf lo + breaks m := by
  obtain ⟨a, b, rfl, rfl, rfl⟩ := slice?_eq_some.mp h
  have front := LineIndex.lineOf_cut a (m ++ b)
  have back := LineIndex.lineOf_cut (a ++ m) b
  rw [← List.append_assoc] at front
  rw [bytes_append] at back
  rw [front, back, breaks_append, Nat.add_assoc]

/-- A span whose ends are cuts of the source, with the lines that the source gives them. -/
structure Span.Fits (source : Text) (s : Span) : Prop where
  le : s.lo ≤ s.hi
  lo : Cut source s.lo
  hi : Cut source s.hi
  startLine : s.startLine = (LineIndex.of source).lineOf s.lo
  endLine : s.endLine = (LineIndex.of source).lineOf s.hi

namespace Span.Fits

variable {source : Text} {s t : Span}

theorem slice (h : s.Fits source) : ∃ m, slice? s.lo s.hi source = some m := h.lo.slice h.hi h.le

theorem endLine_eq (h : s.Fits source) {m : Text} (hm : slice? s.lo s.hi source = some m) :
    s.endLine = s.startLine + breaks m := by
  rw [h.endLine, h.startLine, lineOf_slice hm]

theorem startLine_le (hs : s.Fits source) (ht : t.Fits source) (le : s.lo ≤ t.lo) :
    s.startLine ≤ t.startLine := by
  rw [hs.startLine, ht.startLine]
  exact LineIndex.lineOf_mono _ le

theorem lines_le (h : s.Fits source) : s.startLine ≤ s.endLine := by
  rw [h.startLine, h.endLine]
  exact LineIndex.lineOf_mono _ h.le

theorem endLine_le (hs : s.Fits source) (ht : t.Fits source) (le : s.hi ≤ t.lo) :
    s.endLine ≤ t.startLine := by
  rw [hs.endLine, ht.startLine]
  exact LineIndex.lineOf_mono _ le

end Span.Fits
end Quell
