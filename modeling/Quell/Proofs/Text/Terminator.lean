import Quell.Proofs.Text.Lines
import Quell.Proofs.Text.Offsets
import Quell.Proofs.Text.Segments
import Quell.Text.Lines

/-!
Texts with one line terminator.

`Uses` says that a text ends its lines in one way. Texts with the same terminator can be put
together, and a text can be cut wherever the cut does not divide a line break.
-/
namespace Quell.Text

def paired : Text → Bool
  | [] => true
  | '\r' :: '\n' :: t => paired t
  | c :: t => c != '\r' && c != '\n' && paired t

/-- The text has this terminator throughout: for a pair, no half of one stands alone; for a line
feed, there is no carriage return. -/
def Uses : LineEnding → Text → Prop
  | .lf, t => '\r' ∉ t
  | .crlf, t => paired t = true

instance (e : LineEnding) (t : Text) : Decidable (Uses e t) := by
  cases e
  · exact inferInstanceAs (Decidable ('\r' ∉ t))
  · exact inferInstanceAs (Decidable (paired t = true))

theorem paired_cons {c : Char} (return_ : c ≠ '\r') (feed : c ≠ '\n') (t : Text) :
    paired (c :: t) = paired t := by
  rw [paired]
  · simp [return_, feed]
  · rintro t' rfl
    exact absurd rfl return_

theorem paired_feed (t : Text) : paired ('\n' :: t) = false := by
  rw [paired]
  · rfl
  · exact nofun

theorem paired_return {t : Text} (h : paired ('\r' :: t) = true) : ∃ u, t = '\n' :: u ∧ paired u = true := by
  match t, h with
  | [], h => cases h
  | c :: u, h =>
    by_cases feed : c = '\n'
    · subst feed
      exact ⟨u, rfl, h⟩
    · rw [paired] at h
      · simp at h
      · rintro u' - e
        exact feed (List.cons.inj e).1

theorem paired_cases {c : Char} {t : Text} (h : paired (c :: t) = true) :
    (∃ u, c = '\r' ∧ t = '\n' :: u ∧ paired u = true) ∨ c ≠ '\r' ∧ c ≠ '\n' ∧ paired t = true := by
  by_cases return_ : c = '\r'
  · subst return_
    obtain ⟨u, rfl, rest⟩ := paired_return h
    exact .inl ⟨u, rfl, rfl, rest⟩
  · by_cases feed : c = '\n'
    · rw [feed, paired_feed] at h
      cases h
    · exact .inr ⟨return_, feed, paired_cons return_ feed t ▸ h⟩

theorem paired_append {a b : Text} (ha : paired a = true) : paired (a ++ b) = paired b := by
  fun_induction paired a with
  | case1 => rfl
  | case2 t ih => exact ih ha
  | case3 c t _ ih =>
    simp only [Bool.and_eq_true, bne_iff_ne] at ha
    rw [List.cons_append, paired_cons ha.1.1 ha.1.2, ih ha.2]

theorem paired_split {a b : Text} (h : paired (a ++ b) = true) (meets : Meets a b) : paired a = true := by
  have later : ∀ {x t : Text}, Meets (x ++ t) b → Meets t b := by
    intro x t meets last
    apply meets
    rw [List.getLast?_append, last]
    rfl
  fun_induction paired a with
  | case1 => rfl
  | case2 t ih => exact ih h (later (x := ['\r', '\n']) meets)
  | case3 c t apart ih =>
    rcases paired_cases h with ⟨u, rfl, e, -⟩ | ⟨return_, feed, rest⟩
    · cases t with
      | nil => exact absurd (congrArg List.head? e) (meets rfl)
      | cons d t => exact absurd (List.cons.inj e).1 fun e => apart t rfl (e ▸ rfl)
    · simp [return_, feed, ih rest (later (x := [c]) meets)]

theorem paired_of_plain {t : Text} (plain : ∀ c ∈ t, c ≠ '\n' ∧ c ≠ '\r') : paired t = true := by
  induction t with
  | nil => rfl
  | cons c t ih =>
    obtain ⟨feed, return_⟩ := plain c (by simp)
    rw [paired_cons return_ feed, ih fun d hd => plain d (by simp [hd])]

section Uses

variable {e : LineEnding} {a b t : Text}

theorem uses_plain (plain : ∀ c ∈ t, c ≠ '\n' ∧ c ≠ '\r') : Uses e t := by
  cases e with
  | lf => exact fun mem => (plain _ mem).2 rfl
  | crlf => exact paired_of_plain plain

theorem uses_nil : Uses e [] := uses_plain (by simp)

theorem uses_text (e : LineEnding) : Uses e e.text := by
  cases e <;> decide

theorem uses_append (ha : Uses e a) : Uses e (a ++ b) ↔ Uses e b := by
  cases e with
  | lf => simp [Uses] at ha ⊢; exact fun _ => ha
  | crlf =>
    have := paired_append (b := b) ha
    simp only [Uses, this]

theorem uses_split (h : Uses e (a ++ b)) (meets : Meets a b) : Uses e a ∧ Uses e b := by
  have front : Uses e a := by
    cases e with
    | lf => exact fun mem => h (List.mem_append_left _ mem)
    | crlf => exact paired_split h meets
  exact ⟨front, (uses_append front).mp h⟩

theorem meets_of_head (h : b.head? ≠ some '\n') : Meets a b := fun _ => h

theorem meets_of_last (h : a.getLast? ≠ some '\r') : Meets a b := fun last => absurd last h

theorem uses_part {x : Text} (h : Uses e t) (inside : x <:+: t) (trimmed : x.trim = x) : Uses e x := by
  obtain ⟨a, b, rfl⟩ := inside
  rw [List.append_assoc] at h
  have first := trimStart_eq_self.mp (trimStart_of_trim trimmed)
  have last := trimEnd_eq_self.mp (trimEnd_of_trim trimmed)
  cases x with
  | nil => exact uses_nil
  | cons c x =>
    have front : Meets a (c :: x ++ b) := meets_of_head fun e => by
      obtain rfl : c = '\n' := Option.some.inj e
      exact absurd (first '\n' rfl) (by decide)
    have back : Meets (c :: x) b := meets_of_last fun e =>
      absurd (last '\r' e) (by decide)
    exact (uses_split (uses_split h front).2 back).1

theorem uses_parts {parts : List Text} (h : Uses e parts.flatten) (chain : parts.IsChain Meets)
    (nonempty : ∀ p ∈ parts, p ≠ []) : ∀ p ∈ parts, Uses e p := by
  induction parts with
  | nil => exact nofun
  | cons p parts ih =>
    obtain ⟨next, chain⟩ := List.isChain_cons.mp chain
    have meets : Meets p parts.flatten := by
      cases parts with
      | nil => exact meets_of_head nofun
      | cons q parts =>
        obtain ⟨c, q, rfl⟩ := List.exists_cons_of_ne_nil (nonempty q (by simp))
        exact next (c :: q) rfl
    rw [List.flatten_cons] at h
    obtain ⟨here, rest⟩ := uses_split h meets
    intro q hq
    rcases List.mem_cons.mp hq with rfl | hq
    · exact here
    · exact ih rest chain (fun r hr => nonempty r (by simp [hr])) q hq

theorem uses_flatten {parts : List Text} (each : ∀ p ∈ parts, Uses e p) : Uses e parts.flatten := by
  induction parts with
  | nil => exact uses_nil
  | cons p parts ih =>
    rw [List.flatten_cons, uses_append (each p (by simp))]
    exact ih fun q hq => each q (by simp [hq])

end Uses

/-- A cut of the text that does not divide a line break. -/
def Uncut (t : Text) (n : Nat) : Prop := ∃ a b, t = a ++ b ∧ bytes a = n ∧ Meets a b

def Seam (e : LineEnding) (t : Text) (n : Nat) : Prop :=
  ∃ a b, t = a ++ b ∧ bytes a = n ∧ Uses e a ∧ Uses e b

instance (a b : Text) : Decidable (Meets a b) :=
  inferInstanceAs (Decidable (a.getLast? = some '\r' → b.head? ≠ some '\n'))

instance (t : Text) (n : Nat) : Decidable (Uncut t n) :=
  decidable_of_iff ((takeBytes? n t).any (fun a => (dropBytes? n t).any fun b => decide (Meets a b))
      = true) (by
    rw [Option.any_eq_true]
    constructor
    · rintro ⟨a, front, h⟩
      obtain ⟨b, back, meets⟩ := (Option.any_eq_true _ _).mp h
      obtain ⟨b', split, size⟩ := takeBytes?_eq_some.mp front
      obtain ⟨a', split', size'⟩ := dropBytes?_eq_some.mp back
      obtain ⟨rfl, rfl⟩ := append_inj_bytes (split.symm.trans split') (size.trans size'.symm)
      exact ⟨a, b', split, size, of_decide_eq_true meets⟩
    · rintro ⟨a, b, rfl, rfl, meets⟩
      refine ⟨a, takeBytes?_append a b, ?_⟩
      rw [dropBytes?_append]
      exact decide_eq_true meets)

section Seam

variable {e : LineEnding} {t : Text} {m n : Nat}

theorem Uncut.seam (h : Uncut t n) (uses : Uses e t) : Seam e t n := by
  obtain ⟨a, b, rfl, size, meets⟩ := h
  exact ⟨a, b, rfl, size, uses_split uses meets⟩

theorem Seam.cut (h : Seam e t n) : Cut t n := by
  obtain ⟨a, b, split, size, -⟩ := h
  exact ⟨a, b, split, size⟩

theorem Seam.start (uses : Uses e t) : Seam e t 0 := ⟨[], t, rfl, rfl, uses_nil, uses⟩

theorem Seam.full (uses : Uses e t) : Seam e t (bytes t) :=
  ⟨t, [], by simp, rfl, uses, uses_nil⟩

/-- What stands between two seams. -/
theorem Seam.slice {s : Text} (lo : Seam e t m) (hi : Seam e t n) (h : slice? m n t = some s) :
    Uses e s := by
  obtain ⟨a, b, split, start, stop⟩ := slice?_eq_some.mp h
  obtain ⟨a', b', split', start', front, -⟩ := lo
  obtain ⟨c, d, split'', size, whole, -⟩ := hi
  rw [List.append_assoc] at split
  obtain ⟨rfl, -⟩ := append_inj_bytes (split.symm.trans split') (start.trans start'.symm)
  rw [← List.append_assoc] at split
  obtain ⟨rfl, -⟩ := append_inj_bytes (split''.symm.trans split)
    (by rw [size, bytes_append, start, stop])
  exact (uses_append front).mp whole

end Seam
end Quell.Text
